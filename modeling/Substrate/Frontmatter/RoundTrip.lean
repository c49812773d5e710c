import Substrate.Frontmatter.Lines

/-!
A mapping is read back as it was written, but for a key or a string that is written as it is
and ends in a line break: the key is lost, and the string without its line break is read as
a plain scalar.
-/

namespace Substrate.Frontmatter

open Lib PyText List

variable {py : Interpreter}

/-- No key and no value of a mapping is cut at a line break. -/
def Whole (data : List (Text × Value)) : Prop :=
  ∀ entry ∈ data, isCutKey entry.1 = false ∧ isCutValue entry.2 = false

inductive Reread : List (Text × Value) → List (Text × Value) → Prop
  | nil : Reread [] []
  | lost {key : Text} {v : Value} {data read : List (Text × Value)} (hkey : isCutKey key = true)
      (h : Reread data read) : Reread ((key, v) :: data) read
  | entry {key : Text} {v w : Value} {data read : List (Text × Value)}
      (hkey : isCutKey key = false) (hvalue : w = v ↔ isCutValue v = false)
      (h : Reread data read) : Reread ((key, v) :: data) ((key, w) :: read)

namespace Reread

variable {data read : List (Text × Value)}

theorem length_le (h : Reread data read) : read.length ≤ data.length := by
  induction h with
  | nil => exact le_rfl
  | lost _ _ ih => exact ih.trans (Nat.le_succ _)
  | entry _ _ _ ih => exact Nat.succ_le_succ ih

theorem keys_sublist (h : Reread data read) : (read.map Prod.fst).Sublist (data.map Prod.fst) := by
  induction h with
  | nil => exact List.Sublist.refl _
  | lost _ _ ih => exact ih.cons _
  | entry _ _ _ ih => exact ih.cons_cons _

theorem eq_iff (h : Reread data read) : read = data ↔ Whole data := by
  induction h with
  | nil => simp [Whole]
  | @lost key v data read hkey h ih =>
    have hlength := h.length_le
    constructor
    · intro heq
      rw [heq, length_cons] at hlength
      omega
    · intro hwhole
      have hcontra := (hwhole _ mem_cons_self).1
      rw [hkey] at hcontra
      cases hcontra
  | @entry key v w data read hkey hvalue h ih =>
    rw [List.cons.injEq, Prod.mk.injEq, hvalue, ih]
    simp [Whole, hkey]

end Reread

def entryLines (entry : Text × Value) : List Text :=
  (if isCutKey entry.1 then [entry.1.dropLast, ':' :: ' ' :: valueLine entry.2]
    else [keyText entry.1 ++ ':' :: ' ' :: valueLine entry.2]) ++
    if isCutValue entry.2 then [[]] else []

variable {text line key : Text} {parts lines more : List Text} {v w : Value} {c : Char}
    {entry : Text × Value} {i fuel : Nat} {found data : List (Text × Value)}

theorem unixBreaks_eq (h : '\r' ∉ text) : unixBreaks text = text := by
  induction text with
  | nil => rfl
  | cons c rest ih =>
    have hc : c ≠ '\r' := fun heq => h (by rw [heq]; exact mem_cons_self)
    have hrest := ih fun hmem => h (mem_cons_of_mem _ hmem)
    cases rest with
    | nil => simp [unixBreaks, hc]
    | cons d rest => simp [unixBreaks, hc, hrest]

theorem splitOn_joined (hne : parts ≠ []) :
    (['\n'].intercalate parts).splitOn '\n' = parts.flatMap fun part => part.splitOn '\n' := by
  induction parts with
  | nil => exact absurd rfl hne
  | cons part parts ih =>
    cases parts with
    | nil => simp
    | cons next parts =>
      have hmore := ih (by simp)
      have htext : ['\n'].intercalate (part :: next :: parts) =
          part ++ '\n' :: ['\n'].intercalate (next :: parts) := by
        rw [intercalate_cons_cons]
        simp
      rw [htext, splitOn_append_cons_self, hmore]
      rfl

theorem rstrip_append_blanks (text : Text) {blanks : Text} (h : ∀ c ∈ blanks, c = ' ') :
    rstrip (text ++ blanks) = rstrip text := by
  have hspace : ∀ c ∈ blanks.reverse, isSpace c = true := by
    intro c hc
    rw [h c (mem_reverse.mp hc)]
    decide
  rw [rstrip, List.rdropWhile, reverse_append, dropWhile_append_of_pos hspace]
  rfl

theorem rstrip_append_of_last (before : Text) (hne : text ≠ [])
    (hlast : ∀ c, text.getLast? = some c → isSpace c = false) :
    rstrip (before ++ text) = before ++ text := by
  apply rstrip_of_last
  intro c hc
  rw [List.getLast?_append_of_ne_nil _ hne] at hc
  exact hlast c hc

theorem render_eq (v : Value) : (isCutValue v = false ∧ render v = valueLine v) ∨
    (isCutValue v = true ∧ ∃ blanks, (∀ c ∈ blanks, c = ' ') ∧
      render v = valueLine v ++ blanks ++ ['\n']) := by
  cases v with
  | str text =>
    by_cases hbare : isBareText text = true
    · obtain ⟨-, hcut, hform⟩ := safeLine_strip hbare
      have hrender : render (.str text) = text := if_pos hbare
      have hline : valueLine (.str text) = strip text := if_pos hbare
      rw [hrender, hline]
      rcases hform with heq | ⟨blanks, hblanks, heq⟩
      · exact .inl ⟨hcut.mp heq, heq.symm⟩
      · refine .inr ⟨?_, blanks, hblanks, heq⟩
        have hne : strip text ≠ text := by
          intro hstrip
          have hlength := congrArg List.length heq
          rw [hstrip] at hlength
          simp only [length_append, length_cons, length_nil] at hlength
          omega
        change isCutText text = true
        by_contra hwhole
        exact hne (hcut.mpr (by simpa using hwhole))
    · refine .inl ⟨?_, ?_⟩
      · simp [isCutValue, isCutText, hbare]
      · simp [render, valueLine, hbare]
  | null | bool b | int n | float x | list vs | map entries => exact .inl ⟨rfl, rfl⟩

theorem value_lines (hreads : ReadsAs py (valueLine v) w) (before : Text)
    (hbefore : '\n' ∉ before) :
    ((before ++ render v).splitOn '\n').map rstrip =
      (before ++ valueLine v) :: if isCutValue v then [[]] else [] := by
  have hbreak : '\n' ∉ before ++ valueLine v := by
    intro hmem
    rcases mem_append.mp hmem with hmem | hmem
    · exact hbefore hmem
    · exact (hreads.breaks _ hmem).1 rfl
  have hne : valueLine v ≠ [] := by
    obtain ⟨c, rest, heq, -⟩ := hreads.head
    simp [heq]
  have hrstrip := rstrip_append_of_last before hne hreads.last
  rcases render_eq v with ⟨hcut, heq⟩ | ⟨hcut, blanks, hblanks, heq⟩
  · rw [heq, splitOn_eq_singleton hbreak, hcut]
    simp [hrstrip]
  · have hbreak' : '\n' ∉ before ++ valueLine v ++ blanks := by
      intro hmem
      rcases mem_append.mp hmem with hmem | hmem
      · exact hbreak hmem
      · exact absurd (hblanks _ hmem) (by decide)
    have htext : before ++ render v = before ++ valueLine v ++ blanks ++ '\n' :: [] := by
      rw [heq]
      simp
    rw [htext, splitOn_append_cons_self, splitOn_eq_singleton hbreak', hcut, splitOn_nil]
    simp only [cons_append, nil_append, map_cons, map_nil, if_true,
      rstrip_append_blanks _ hblanks, hrstrip]
    rfl

theorem not_mem_literal (hc : c.toNat < 0x20) (text : Text) : c ∉ literal text := by
  intro hmem
  have hprinted := literal_printed text c hmem
  omega

theorem entryText_lines (hreads : ReadsAs py (valueLine entry.2) w) :
    ((entryText entry).splitOn '\n').map rstrip = entryLines entry := by
  obtain ⟨key, v⟩ := entry
  have hcolon : '\n' ∉ [':', ' '] := by decide
  have hwhole : ∀ before, '\n' ∉ before → isCutKey key = false →
      (if isBareKey key then key else literal key) = before →
      ((entryText (key, v)).splitOn '\n').map rstrip = entryLines (key, v) := by
    intro before hbefore hcut heq
    have hlines := value_lines hreads (before ++ [':', ' ']) (by simp [hbefore])
    have htext : entryText (key, v) = before ++ [':', ' '] ++ render v := by
      rw [← heq]
      simp [entryText]
    rw [htext, hlines]
    simp [entryLines, hcut, keyText, heq]
  by_cases hbare : isBareKey key = true
  · rcases bareKey_form hbare with ⟨hline, hcut⟩ | ⟨hcut, stem, hstem, rfl⟩
    · exact hwhole key (fun hmem => (hline.kinds _ hmem).2.2.2.1 rfl) hcut (if_pos hbare)
    · have hlines := value_lines hreads [':', ' '] hcolon
      have htext : entryText (stem ++ ['\n'], v) = stem ++ '\n' :: ([':', ' '] ++ render v) := by
        simp [entryText, hbare]
      have hbreak : '\n' ∉ stem := fun hmem => (hstem.kinds _ hmem).2.2.2.1 rfl
      have hrstrip : rstrip stem = stem := by
        apply rstrip_of_last
        intro c hc
        exact (hstem.kinds c (mem_of_getLast? hc)).1
      rw [htext, splitOn_append_cons_self, splitOn_eq_singleton hbreak, map_append, hlines]
      simp [entryLines, hcut, hrstrip]
  · have hcut : isCutKey key = false := by
      simp [isCutKey, hbare]
    exact hwhole (literal key) (not_mem_literal (by decide) key) hcut (if_neg hbare)

theorem getElem?_of_drop (h : lines.drop i = line :: more) :
    lines[i]? = some line ∧ lines.drop (i + 1) = more := by
  constructor
  · rw [← List.head?_drop, h]
    rfl
  · rw [← tail_drop, h]
    rfl

theorem loadLines_pass (hdrop : lines.drop i = line :: more)
    (hline : isSkipped line = true ∨ splitKey line = none) :
    loadLines py (fuel + 1) lines i found = loadLines py fuel lines (i + 1) found := by
  simp only [loadLines, (getElem?_of_drop hdrop).1]
  split
  · rfl
  · next hskip =>
    rcases hline with hline | hline
    · exact absurd (.inl hline) hskip
    · rw [hline]

theorem value_inline (h : ReadsAs py line v) (fuel : Nat) (lines : List Text) (i indent : Nat) :
    (value py (fuel + 1) lines i indent line).outcome = .ok (v, i + 1) := by
  obtain ⟨c, rest, rfl, -, hbar, hfold⟩ := h.head
  have hflow := h.flow_eq (2 * (c :: rest).length + 2) le_rfl
  have hread : readFlow py (c :: rest) = ⟨[c :: rest], .ok (v, [])⟩ := by
    rw [readFlow, hflow]
  have hnil : strip [] = [] := rfl
  unfold value
  simp only [List.head?_cons, Option.some.injEq, hbar, hfold, or_self, if_false, h.comment, hread,
    Run.andThen, hnil]
  rfl

theorem loadLines_entry {rest : Text} (hdrop : lines.drop i = line :: more)
    (hskip : isSkipped line = false ∧ isIndented line = false)
    (hkey : splitKey line = some (key, rest)) (hreads : ReadsAs py rest v) :
    (loadLines py (fuel + 1) lines i found).outcome =
      (loadLines py fuel lines (i + 1) (put found key v)).outcome := by
  have hvalue := value_inline hreads (5 * lines.length + 4) lines i 0
  simp only [loadLines, (getElem?_of_drop hdrop).1, hskip, hkey]
  simp only [Bool.false_eq_true, or_self, if_false, hvalue]

theorem strip_line (h : ReadsAs py line v) : strip (' ' :: line) = line := by
  have hblank : isSpace ' ' = true := by decide
  have hstrip : strip (' ' :: line) = strip line := by
    rw [strip, lstrip_cons_of_space hblank, ← strip]
  rw [hstrip]
  apply strip_of_head_last _ h.last
  intro c hc
  obtain ⟨d, rest, rfl, hspace, -⟩ := h.head
  cases hc
  exact hspace

theorem splitKey_line (hcut : isCutKey key = false) (h : ReadsAs py line v) :
    splitKey (keyText key ++ ':' :: ' ' :: line) = some (key, line) ∧
      isSkipped (keyText key ++ ':' :: ' ' :: line) = false ∧
      isIndented (keyText key ++ ':' :: ' ' :: line) = false := by
  unfold keyText
  by_cases hbare : isBareKey key = true
  · rcases bareKey_form hbare with ⟨hline, -⟩ | ⟨hcontra, -⟩
    · have hafter : (' ' :: line).head?.all isSpace = true := by
        rw [List.head?_cons, Option.all_some]
        decide
      have hsplit := hline.splitKey_eq hafter
      rw [strip_line h] at hsplit
      rw [if_pos hbare]
      exact ⟨hsplit, hline.unskipped _⟩
    · rw [hcut] at hcontra
      cases hcontra
  · have hsplit := splitKey_literal key line
    rw [strip_line h] at hsplit
    rw [if_neg hbare]
    exact ⟨hsplit, unskipped (by decide) (by decide)⟩

theorem loadLines_break (py : Interpreter) {v : Value} {lines rest : List Text} {i fuel : Nat}
    (found : List (Text × Value))
    (hdrop : lines.drop i = (if isCutValue v then [[]] else []) ++ rest)
    (hfuel : (lines.drop i).length + 1 ≤ fuel) :
    ∃ i' fuel', lines.drop i' = rest ∧ (lines.drop i').length + 1 ≤ fuel' ∧
      loadLines py fuel lines i found = loadLines py fuel' lines i' found := by
  cases hcut : isCutValue v with
  | false =>
    rw [hcut] at hdrop
    exact ⟨i, fuel, hdrop, hfuel, rfl⟩
  | true =>
    rw [hcut] at hdrop
    have hdrop' : lines.drop i = [] :: rest := hdrop
    obtain ⟨fuel, rfl⟩ : ∃ n, fuel = n + 1 := ⟨fuel - 1, by omega⟩
    have hnext := (getElem?_of_drop hdrop').2
    have hskip : isSkipped [] = true := by decide
    refine ⟨i + 1, fuel, hnext, ?_, loadLines_pass hdrop' (.inl hskip)⟩
    rw [hdrop', length_cons] at hfuel
    rw [hnext]
    omega

theorem loadLines_entries (hproper : everyEntry (isProper py) data = true)
    (hwritten : everyEntry (isWritten py) data = true) (i fuel : Nat)
    (found : List (Text × Value)) (hdrop : lines.drop i = data.flatMap entryLines)
    (hfuel : (lines.drop i).length + 1 ≤ fuel) (hkeys : ((found ++ data).map Prod.fst).Nodup) :
    ∃ read, Reread data read ∧ (∀ entry ∈ read, Settled py entry.2) ∧
      (loadLines py fuel lines i found).outcome = .ok (found ++ read) := by
  induction data generalizing i fuel found with
  | nil =>
    obtain ⟨fuel, rfl⟩ : ∃ n, fuel = n + 1 := ⟨fuel - 1, by omega⟩
    have hnone : lines[i]? = none := by
      rw [← List.head?_drop, hdrop]
      rfl
    refine ⟨[], .nil, nofun, ?_⟩
    simp [loadLines, hnone, Run.done]
  | cons entry data ih =>
    obtain ⟨key, v⟩ := entry
    simp only [everyEntry, Bool.and_eq_true] at hproper hwritten
    obtain ⟨w, hreads, hw, hsettled⟩ := valueLine_reads v hproper.1 hwritten.1
    obtain ⟨fuel, rfl⟩ : ∃ n, fuel = n + 1 := ⟨fuel - 1, by omega⟩
    rw [flatMap_cons] at hdrop
    have hfuel' := hfuel
    cases hcut : isCutKey key with
    | true =>
      -- the line of the key has no colon, and the next one begins with it
      have hbare : isBareKey key = true := by
        simp only [isCutKey, decide_eq_true_eq] at hcut
        exact hcut.1
      obtain ⟨-, hfalse⟩ | ⟨-, stem, hstem, rfl⟩ := bareKey_form hbare
      · rw [hcut] at hfalse
        cases hfalse
      have hdrop₁ : lines.drop i = stem :: (':' :: ' ' :: valueLine v) ::
          ((if isCutValue v then [[]] else []) ++ data.flatMap entryLines) := by
        rw [hdrop]
        simp [entryLines, hcut]
      have hdrop₂ := (getElem?_of_drop hdrop₁).2
      have hdrop₃ := (getElem?_of_drop hdrop₂).2
      rw [hdrop₁] at hfuel'
      obtain ⟨fuel, rfl⟩ : ∃ n, fuel = n + 1 := ⟨fuel - 1, by
        simp only [length_cons] at hfuel'
        omega⟩
      obtain ⟨i', fuel', hrest, hshort, hblank⟩ := @loadLines_break py v _ _ _ fuel found hdrop₃ (by
        rw [hdrop₃]
        simp only [length_cons] at hfuel'
        omega)
      have hcolon : splitKey (':' :: ' ' :: valueLine v) = none := by
        have hquote : isQuote ':' = false := by decide
        simp [splitKey, hquote]
      have hkeys' : ((found ++ data).map Prod.fst).Nodup := by
        apply List.Nodup.sublist _ hkeys
        exact ((sublist_cons_self (stem ++ ['\n'], v) data).append_left found).map Prod.fst
      obtain ⟨read, hread, hall, houtcome⟩ :=
        ih hproper.2 hwritten.2 i' fuel' found hrest hshort hkeys'
      refine ⟨read, .lost hcut hread, hall, ?_⟩
      rw [loadLines_pass hdrop₁ (.inr hstem.splitKey_none), loadLines_pass hdrop₂ (.inr hcolon),
        hblank, houtcome]
    | false =>
      have hdrop₁ : lines.drop i = (keyText key ++ ':' :: ' ' :: valueLine v) ::
          ((if isCutValue v then [[]] else []) ++ data.flatMap entryLines) := by
        rw [hdrop]
        simp [entryLines, hcut]
      have hdrop₂ := (getElem?_of_drop hdrop₁).2
      rw [hdrop₁] at hfuel'
      obtain ⟨hsplit, hskip⟩ := splitKey_line hcut hreads
      have hfresh : key ∉ found.map Prod.fst := by
        rw [map_append, map_cons] at hkeys
        intro hmem
        exact disjoint_of_nodup_append hkeys hmem mem_cons_self
      obtain ⟨i', fuel', hrest, hshort, hblank⟩ := @loadLines_break py v _ _ _ fuel
        (found ++ [(key, w)]) hdrop₂ (by
          rw [hdrop₂]
          simp only [length_cons] at hfuel'
          omega)
      obtain ⟨read, hread, hall, houtcome⟩ :=
        ih hproper.2 hwritten.2 i' fuel' (found ++ [(key, w)]) hrest hshort (by simpa using hkeys)
      have hall' : ∀ entry ∈ (key, w) :: read, Settled py entry.2 := by
        intro entry hentry
        rcases mem_cons.mp hentry with rfl | hentry
        · exact hsettled
        · exact hall entry hentry
      refine ⟨(key, w) :: read, .entry hcut hw hread, hall', ?_⟩
      rw [loadLines_entry hdrop₁ hskip hsplit hreads, put_fresh hfresh, hblank, houtcome]
      simp

theorem not_mem_joined (hc : c ≠ '\n') (h : ∀ part ∈ parts, c ∉ part) :
    c ∉ ['\n'].intercalate parts := by
  induction parts with
  | nil => simp
  | cons part parts ih =>
    cases parts with
    | nil => simpa using h
    | cons next parts =>
      rw [intercalate_cons_cons]
      intro hmem
      simp only [mem_append, mem_singleton] at hmem
      rcases hmem with (hmem | hmem) | hmem
      · exact h part mem_cons_self hmem
      · exact hc hmem
      · exact ih (fun p hp => h p (mem_cons_of_mem _ hp)) hmem

theorem not_mem_keyText (key : Text) : '\r' ∉ keyText key := by
  unfold keyText
  by_cases hbare : isBareKey key = true
  · rw [if_pos hbare]
    rcases bareKey_form hbare with ⟨hline, -⟩ | ⟨-, stem, hstem, rfl⟩
    · exact fun hmem => (hline.kinds _ hmem).2.2.2.2.1 rfl
    · intro hmem
      rcases mem_append.mp hmem with hmem | hmem
      · exact (hstem.kinds _ hmem).2.2.2.2.1 rfl
      · exact absurd hmem (by decide)
  · rw [if_neg hbare]
    exact not_mem_literal (by decide) key

theorem not_mem_render (hreads : ReadsAs py (valueLine v) w) : '\r' ∉ render v := by
  have hline : '\r' ∉ valueLine v := fun hmem => (hreads.breaks _ hmem).2 rfl
  rcases render_eq v with ⟨-, heq⟩ | ⟨-, blanks, hblanks, heq⟩
  · rwa [heq]
  · rw [heq]
    intro hmem
    rcases mem_append.mp hmem with hmem | hmem
    · rcases mem_append.mp hmem with hmem | hmem
      · exact hline hmem
      · exact absurd (hblanks _ hmem) (by decide)
    · exact absurd hmem (by decide)

theorem not_mem_entryText (hreads : ReadsAs py (valueLine entry.2) w) : '\r' ∉ entryText entry := by
  have htext : entryText entry = keyText entry.1 ++ ':' :: ' ' :: render entry.2 := rfl
  rw [htext]
  intro hmem
  simp only [mem_append, mem_cons] at hmem
  rcases hmem with hmem | hmem | hmem | hmem
  · exact not_mem_keyText _ hmem
  · exact absurd hmem (by decide)
  · exact absurd hmem (by decide)
  · exact not_mem_render hreads hmem

theorem reads_of_mem (hproper : everyEntry (isProper py) data = true)
    (hwritten : everyEntry (isWritten py) data = true) :
    ∀ entry ∈ data, ∃ w, ReadsAs py (valueLine entry.2) w := by
  induction data with
  | nil => simp
  | cons first data ih =>
    obtain ⟨key, v⟩ := first
    simp only [everyEntry, Bool.and_eq_true] at hproper hwritten
    intro entry hentry
    rcases mem_cons.mp hentry with rfl | hentry
    · obtain ⟨w, hreads, -⟩ := valueLine_reads v hproper.1 hwritten.1
      exact ⟨w, hreads⟩
    · exact ih hproper.2 hwritten.2 entry hentry

theorem joined_lines (hproper : everyEntry (isProper py) data = true)
    (hwritten : everyEntry (isWritten py) data = true) (hne : data ≠ []) :
    ((['\n'].intercalate (data.map entryText)).splitOn '\n').map rstrip =
      data.flatMap entryLines := by
  have hreads := reads_of_mem hproper hwritten
  rw [splitOn_joined (by simpa using hne), map_flatMap, flatMap_map]
  apply flatMap_congr
  intro entry hentry
  obtain ⟨w, hw⟩ := hreads entry hentry
  exact entryText_lines hw

theorem linesOf_dump (hproper : everyEntry (isProper py) data = true)
    (hwritten : everyEntry (isWritten py) data = true) (hne : data ≠ []) :
    linesOf (['\n'].intercalate (data.map entryText)) = data.flatMap entryLines := by
  have hreads := reads_of_mem hproper hwritten
  have hreturn : '\r' ∉ ['\n'].intercalate (data.map entryText) := by
    apply not_mem_joined (by decide)
    intro part hpart
    obtain ⟨entry, hentry, rfl⟩ := mem_map.mp hpart
    obtain ⟨w, hw⟩ := hreads entry hentry
    exact not_mem_entryText hw
  rw [linesOf, unixBreaks_eq hreturn]
  exact joined_lines hproper hwritten hne

theorem entryLines_head : ∀ line ∈ entryLines entry, line.head? ≠ some '-' := by
  obtain ⟨key, v⟩ := entry
  have hbreak : ∀ line ∈ (if isCutValue v then [[]] else [] : List Text), line.head? ≠ some '-' := by
    split <;> simp
  intro line hline
  rcases mem_append.mp hline with hline | hline
  · cases hcut : isCutKey key with
    | true =>
      have hbare : isBareKey key = true := by
        simp only [isCutKey, decide_eq_true_eq] at hcut
        exact hcut.1
      obtain ⟨-, hfalse⟩ | ⟨-, stem, hstem, rfl⟩ := bareKey_form hbare
      · rw [hcut] at hfalse
        cases hfalse
      simp only [hcut, if_true, dropLast_concat, mem_cons, not_mem_nil, or_false] at hline
      rcases hline with rfl | rfl
      · exact hstem.head
      · simp
    | false =>
      simp only [hcut, mem_cons, not_mem_nil, or_false, Bool.false_eq_true, if_false] at hline
      subst hline
      unfold keyText
      by_cases hbare : isBareKey key = true
      · rcases bareKey_form hbare with ⟨hkey, -⟩ | ⟨hcontra, -⟩
        · rw [if_pos hbare, List.head?_append_of_ne_nil _ hkey.ne_nil]
          exact hkey.head
        · rw [hcut] at hcontra
          cases hcontra
      · rw [if_neg hbare]
        intro hhead
        exact absurd hhead (by simp [literal]; decide)
  · exact hbreak line hline

theorem splitOn_head (hproper : everyEntry (isProper py) data = true)
    (hwritten : everyEntry (isWritten py) data = true) (hne : data ≠ []) :
    ∀ line ∈ (['\n'].intercalate (data.map entryText)).splitOn '\n', line.head? ≠ some '-' := by
  intro line hline hhead
  have hstripped : rstrip line ∈ data.flatMap entryLines := by
    rw [← joined_lines hproper hwritten hne]
    exact mem_map_of_mem hline
  obtain ⟨entry, -, hentry⟩ := mem_flatMap.mp hstripped
  apply entryLines_head (rstrip line) hentry
  cases line with
  | nil => cases hhead
  | cons c rest =>
    have hdash : isSpace '-' = false := by decide
    cases hhead
    rw [rstrip_cons_of_not hdash]
    rfl

theorem loadMapping_dump (hkeys : (data.map Prod.fst).Nodup)
    (hproper : everyEntry (isProper py) data = true)
    (hwritten : everyEntry (isWritten py) data = true) :
    ∃ read, Reread data read ∧ (∀ entry ∈ read, Settled py entry.2) ∧
      (loadMapping py (['\n'].intercalate (data.map entryText))).outcome = .ok read := by
  cases data with
  | nil => exact ⟨[], .nil, nofun, rfl⟩
  | cons entry data =>
    have hlines := linesOf_dump hproper hwritten (by simp)
    unfold loadMapping
    rw [hlines]
    exact loadLines_entries hproper hwritten 0 _ [] rfl le_rfl (by simpa using hkeys)

/-- A mapping is read back exactly if it can be written and nothing of it is cut. -/
theorem load_dump_iff (hkeys : (data.map Prod.fst).Nodup)
    (hproper : everyEntry (isProper py) data = true) :
    (∃ text, dumpMapping py data = .ok text ∧ (loadMapping py text).outcome = .ok data) ↔
      everyEntry (isWritten py) data = true ∧ Whole data := by
  unfold dumpMapping
  cases hwritten : everyEntry (isWritten py) data with
  | false => simp
  | true =>
    obtain ⟨read, hread, -, hload⟩ := loadMapping_dump hkeys hproper hwritten
    rw [← hread.eq_iff]
    simp [hload]

end Substrate.Frontmatter
