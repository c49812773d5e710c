import Substrate.Lib.PyText

/-!
Python's `str.splitlines`, and lines joined with line feeds. Lines that hold no line break are
read back from a joined text, save for empty ones at its end.
-/

namespace Substrate.Lib.PyText

open List

/-- The characters `str.splitlines` ends a line at. -/
def isBreak (c : Char) : Bool :=
  c.toNat ∈ [0xA, 0xB, 0xC, 0xD, 0x1C, 0x1D, 0x1E, 0x85, 0x2028, 0x2029]

/-- The lines of a text, where `line` has been read of the first one. A line feed right after
a carriage return ends no further line. -/
def splitFrom (returned : Bool) (line : Text) : Text → List Text
  | [] => if line = [] then [] else [line]
  | c :: rest =>
    if returned = true ∧ c = '\n' then splitFrom false line rest
    else if isBreak c then line :: splitFrom (c == '\r') [] rest
    else splitFrom false (line ++ [c]) rest

def splitlines (text : Text) : List Text := splitFrom false [] text

def Unbroken (text : Text) : Prop := ∀ c ∈ text, isBreak c = false

theorem Unbroken.nil : Unbroken [] := by
  intro c hc
  cases hc

variable {text more line : Text} {lines : List Text}

theorem Unbroken.append (htext : Unbroken text) (hmore : Unbroken more) :
    Unbroken (text ++ more) := by
  intro c hc
  rcases mem_append.mp hc with h | h
  · exact htext c h
  · exact hmore c h

theorem Unbroken.of_subset (htext : Unbroken text) (hsub : more ⊆ text) : Unbroken more :=
  fun c hc => htext c (hsub hc)

theorem unbroken_of_mem_splitFrom {returned : Bool} (hline : Unbroken line) :
    ∀ l ∈ splitFrom returned line text, Unbroken l := by
  induction text generalizing returned line with
  | nil =>
    intro l hl
    unfold splitFrom at hl
    split at hl
    · cases hl
    · rw [mem_singleton.mp hl]
      exact hline
  | cons c rest ih =>
    unfold splitFrom
    split
    · exact ih hline
    · split
      · intro l hl
        rcases mem_cons.mp hl with rfl | hl
        · exact hline
        · exact ih Unbroken.nil l hl
      · next hbreak =>
        have hc : isBreak c = false := by simpa using hbreak
        apply ih
        apply hline.append
        intro d hd
        rw [mem_singleton.mp hd]
        exact hc

theorem unbroken_of_mem_splitlines : ∀ l ∈ splitlines text, Unbroken l :=
  unbroken_of_mem_splitFrom Unbroken.nil

theorem splitFrom_append {line more : Text} (hmore : Unbroken more) (rest : Text) :
    splitFrom false line (more ++ rest) = splitFrom false (line ++ more) rest := by
  induction more generalizing line with
  | nil => rw [nil_append, append_nil]
  | cons c more ih =>
    have hc : isBreak c = false := hmore c mem_cons_self
    rw [cons_append, splitFrom]
    simp only [Bool.false_eq_true, false_and, if_false, hc]
    rw [ih fun d hd => hmore d (mem_cons_of_mem _ hd), append_assoc]
    rfl

theorem splitlines_feed (hline : Unbroken line) (rest : Text) :
    splitlines (line ++ '\n' :: rest) = line :: splitlines rest := by
  rw [splitlines, splitFrom_append hline, nil_append, splitFrom]
  simp only [Bool.false_eq_true, false_and, if_false]
  rfl

theorem splitlines_unbroken (hline : Unbroken line) :
    splitlines line = if line = [] then [] else [line] := by
  have h := @splitFrom_append [] line hline []
  rw [append_nil, nil_append] at h
  rw [splitlines, h, splitFrom]

/-- `"\n".join`. -/
def joined (lines : List Text) : Text := ['\n'].intercalate lines

theorem joined_cons_cons (line next : Text) (lines : List Text) :
    joined (line :: next :: lines) = line ++ '\n' :: joined (next :: lines) := by
  simp [joined, intercalate_cons_cons]

theorem joined_concat (hlines : lines ≠ []) (line : Text) :
    joined (lines ++ [line]) = joined lines ++ '\n' :: line := by
  induction lines with
  | nil => exact absurd rfl hlines
  | cons first lines ih =>
    cases lines with
    | nil => simp [joined]
    | cons next lines =>
      have hne : next :: lines ≠ [] := by simp
      rw [cons_append, cons_append, joined_cons_cons, joined_cons_cons, ← cons_append, ih hne]
      simp

theorem splitlines_joined (p : Text → Bool) (hp : p [] = false) (hlines : ∀ l ∈ lines, Unbroken l) :
    (splitlines (joined lines)).filter p = lines.filter p := by
  induction lines with
  | nil => rfl
  | cons line lines ih =>
    have hline : Unbroken line := hlines line mem_cons_self
    cases lines with
    | nil =>
      rw [joined, intercalate_singleton, splitlines_unbroken hline]
      split
      · next hnil =>
        subst hnil
        simp [hp]
      · rfl
    | cons next lines =>
      rw [joined_cons_cons, splitlines_feed hline, filter_cons, filter_cons,
        ih fun l hl => hlines l (mem_cons_of_mem _ hl)]

/-- `.strip("\n")`. -/
def stripFeeds (text : Text) : Text := (text.dropWhile (· == '\n')).rdropWhile (· == '\n')

theorem not_feed_of_unbroken (h : Unbroken text) : '\n' ∉ text := by
  intro hmem
  have hfeed : isBreak '\n' = true := by decide
  rw [h _ hmem] at hfeed
  cases hfeed

theorem dropWhile_joined (hlines : ∀ l ∈ lines, Unbroken l) :
    (joined lines).dropWhile (· == '\n') = joined (lines.dropWhile (· == [])) := by
  induction lines with
  | nil => rfl
  | cons line lines ih =>
    have hline : '\n' ∉ line := not_feed_of_unbroken (hlines line mem_cons_self)
    have htail := ih fun l hl => hlines l (mem_cons_of_mem _ hl)
    cases line with
    | nil =>
      cases lines with
      | nil => rfl
      | cons next lines =>
        rw [joined_cons_cons]
        simpa using htail
    | cons c line =>
      have hc : c ≠ '\n' := fun h => hline (h ▸ mem_cons_self)
      cases lines with
      | nil => simp [joined, hc]
      | cons next lines => simp [joined_cons_cons, hc]

theorem rdropWhile_joined (hlines : ∀ l ∈ lines, Unbroken l) :
    (joined lines).rdropWhile (· == '\n') = joined (lines.rdropWhile (· == [])) := by
  induction lines using List.reverseRecOn with
  | nil => rfl
  | append_singleton lines line ih =>
    have hline : '\n' ∉ line :=
      not_feed_of_unbroken (hlines line (mem_append_right _ (mem_singleton_self _)))
    have hfront := ih fun l hl => hlines l (mem_append_left _ hl)
    rcases eq_nil_or_concat' line with rfl | ⟨front, c, rfl⟩
    · rcases eq_nil_or_concat' lines with rfl | ⟨before, last, rfl⟩
      · rfl
      · have hne : before ++ [last] ≠ [] := by simp
        rw [joined_concat hne, rdropWhile_concat_pos _ _ _ (by rfl),
          rdropWhile_concat_pos _ _ _ (by rfl), hfront]
    · have hc : c ≠ '\n' := by
        intro h
        apply hline
        simp [h]
      rw [rdropWhile_concat_neg _ _ _ (by simp)]
      rcases eq_nil_or_concat' lines with rfl | ⟨before, last, rfl⟩
      · simp [joined, hc]
      · have hne : before ++ [last] ≠ [] := by simp
        rw [joined_concat hne, ← cons_append,
          ← append_assoc, rdropWhile_concat_neg _ _ _ (by simpa using hc)]

theorem filter_dropWhile_empty (p : Text → Bool) (hp : p [] = false) (lines : List Text) :
    (lines.dropWhile (· == [])).filter p = lines.filter p := by
  induction lines with
  | nil => rfl
  | cons line lines ih =>
    cases line with
    | nil =>
      rw [dropWhile_cons_of_pos (by simp), ih]
      simp [hp]
    | cons c line => rw [dropWhile_cons_of_neg (by simp)]

theorem stripFeeds_joined (hlines : ∀ l ∈ lines, Unbroken l) : stripFeeds (joined lines) =
      joined ((lines.dropWhile (· == [])).rdropWhile (· == [])) := by
  rw [stripFeeds, dropWhile_joined hlines, rdropWhile_joined]
  intro l hl
  exact hlines l ((dropWhile_suffix _).subset hl)

theorem splitlines_stripFeeds (p : Text → Bool) (hp : p [] = false)
    (hlines : ∀ l ∈ lines, Unbroken l) :
    (splitlines (stripFeeds (joined lines))).filter p = lines.filter p := by
  rw [stripFeeds_joined hlines, splitlines_joined p hp]
  · have hback := filter_dropWhile_empty p hp (lines.dropWhile (· == [])).reverse
    rw [List.rdropWhile, filter_reverse, hback, ← filter_reverse, reverse_reverse,
      filter_dropWhile_empty p hp]
  · intro l hl
    apply hlines l
    exact (dropWhile_suffix _).subset (( rdropWhile_prefix _ _).subset hl)

end Substrate.Lib.PyText
