import Substrate.Split.Lines
import Mathlib.Tactic.Common

/-!
The cutters that take a document's lines apart: at headings, at pages, at paragraphs, in the
middle of a line that is too long. Each leaves the lines in order. It drops blank lines and
page markers only, and the last one also takes a long line apart.
-/

namespace Substrate.Split

open Lib.PyText List

def join (chunk : List Line) : Text := stripFeeds (joined (chunk.map Line.text))

def hasContent (chunk : List Line) : Bool := chunk.any fun line => isContent line.text

def hasVisible (chunk : List Line) : Bool := chunk.any fun line => visible line.text

def lastMarker (chunk : List Line) : List Line :=
  (chunk.filter fun line => (marker? line.text).isSome).getLast?.toList

/-- Cuts before headings, where `current` is the chunk at hand. A page marker right before a
heading moves with it. -/
def cutFrom (level : Nat) (current : List Line) : List Line → List (List Line)
  | [] => [current]
  | line :: rest =>
    if line.level ≠ 0 ∧ line.level ≤ level ∧ hasContent current = true then
      current.rdropWhile (fun l => !isContent l.text) :: cutFrom level
          (lastMarker (current.rtakeWhile fun l => !isContent l.text) ++ [line]) rest
    else cutFrom level (current ++ [line]) rest

def cutAtLevel (chunk : List Line) (level : Nat) : List (List Line) :=
  (cutFrom level [] chunk).filter hasContent

def pagesFrom (current : List Line) : List Line → List (List Line)
  | [] => [current]
  | line :: rest =>
    if (marker? line.text).isSome = true ∧ hasVisible current = true then
      current :: pagesFrom [line] rest
    else pagesFrom (current ++ [line]) rest

def pages (chunk : List Line) : List (List Line) := (pagesFrom [] chunk).filter hasVisible

def groupFrom (group : List Line) (size : Nat) : List (List Line) → List (List Line)
  | [] => [group]
  | page :: rest =>
    let cost := tokens (join page)
    if targetMaxTokens < size + cost then group :: groupFrom page cost rest
    else groupFrom (group ++ page) (size + cost) rest

def groups : List (List Line) → List (List Line)
  | [] => []
  | page :: rest => groupFrom page (tokens (join page)) rest

def cutByPages (chunk : List Line) : List (List Line) := groups (pages chunk)

def lineLimit : Nat := targetMaxTokens * 3

def Overlong (text : Text) : Prop := hardMaxTokens * 3 < bytes text

instance (text : Text) : Decidable (Overlong text) := inferInstanceAs (Decidable (_ < _))

/-- `text.rfind(" ", 0, limit)`. -/
def rfindSpace (limit : Nat) (text : Text) : Option Nat :=
  match (text.take limit).rdropWhile (· != ' ') with
  | [] => none
  | _ :: head => some head.length

def cutPlace (text : Text) : Nat :=
  match rfindSpace lineLimit text with
  | some place => if 0 < place then place else lineLimit
  | none => lineLimit

theorem cutPlace_pos (text : Text) : 0 < cutPlace text := by
  have hlimit : 0 < lineLimit := by decide
  unfold cutPlace
  split
  · split
    · assumption
    · exact hlimit
  · exact hlimit

variable {text : Text} {chunk a b c piece : List Line} {level : Nat}
    {chunks : List (List Line)}

theorem ne_nil_of_overlong (h : Overlong text) : text ≠ [] := by
  rintro rfl
  unfold Overlong bytes at h
  simp at h

theorem rest_length_lt (h : Overlong text) :
    (lstrip (text.drop (cutPlace text))).length < text.length := by
  have hle := lstrip_length_le (text.drop (cutPlace text))
  have hpos := cutPlace_pos text
  have hne : 0 < text.length := length_pos_of_ne_nil (ne_nil_of_overlong h)
  rw [length_drop] at hle
  omega

def pieces (text : Text) : List Text :=
  if _h : Overlong text then
    text.take (cutPlace text) :: [] :: pieces (lstrip (text.drop (cutPlace text)))
  else [text]
termination_by text.length
decreasing_by exact rest_length_lt _h

def cutLongLine (line : Line) : List Line :=
  if Overlong line.text then (pieces line.text).map fun text => Line.plain text line.page
  else [line]

def cutLongLines (chunk : List Line) : List Line := chunk.flatMap cutLongLine

def paragraphsFrom (current : List Line) (size : Nat) (fenced : Bool) : List Line → List (List Line)
  | [] => [current]
  | line :: rest =>
    let fenced := if isFence line.text then !fenced else fenced
    let cost := tokens line.text + 1
    if fenced = false ∧ visible line.text = false ∧ targetMaxTokens ≤ size then
      current :: paragraphsFrom [] 0 fenced rest
    else if hardMaxTokens < size + cost ∧ size ≠ 0 then
      current :: paragraphsFrom [line] cost fenced rest
    else paragraphsFrom (current ++ [line]) (size + cost) fenced rest

def byParagraphs (chunk : List Line) : List (List Line) :=
  (paragraphsFrom [] 0 false (cutLongLines chunk)).filter hasVisible

def countLevel (chunk : List Line) (level : Nat) : Nat :=
  chunk.countP fun line => line.level == level

def deeperCut (chunk : List Line) (level : Nat) : Option (Nat × List (List Line)) :=
  match (List.range' (level + 1) (6 - level)).find? fun lv => 2 ≤ countLevel chunk lv with
  | none => none
  | some deeper =>
    if 1 < (cutAtLevel chunk deeper).length then some (deeper, cutAtLevel chunk deeper)
    else none

theorem deeperCut_eq {deeper : Nat} {cut : List (List Line)}
    (h : deeperCut chunk level = some (deeper, cut)) :
    level < deeper ∧ deeper < 7 ∧ cut = cutAtLevel chunk deeper ∧ 1 < cut.length := by
  unfold deeperCut at h
  split at h
  · cases h
  · next found hfound =>
    split at h
    · next hlong =>
      cases h
      have hmem := mem_of_find?_eq_some hfound
      rw [mem_range'_1] at hmem
      exact ⟨by omega, by omega, rfl, hlong⟩
    · cases h

/-- Lines carried on, in order: no line with content is left behind. -/
structure Carries (before after : List Line) : Prop where
  sub : after.Sublist before
  content : (after.filter fun line => isContent line.text) =
    before.filter fun line => isContent line.text

theorem Carries.refl (chunk : List Line) : Carries chunk chunk := ⟨List.Sublist.refl _, rfl⟩

theorem Carries.trans (hab : Carries a b) (hbc : Carries b c) : Carries a c :=
  ⟨hbc.sub.trans hab.sub, hbc.content.trans hab.content⟩

theorem Carries.append {d : List Line} (hab : Carries a b) (hcd : Carries c d) :
    Carries (a ++ c) (b ++ d) := by
  refine ⟨hab.sub.append hcd.sub, ?_⟩
  rw [filter_append, filter_append, hab.content, hcd.content]

theorem Carries.of_not_content {before after : List Line} (hsub : after.Sublist before)
    (hbefore : ∀ line ∈ before, isContent line.text = false) : Carries before after := by
  refine ⟨hsub, ?_⟩
  have hleft : (before.filter fun line => isContent line.text) = [] :=
    filter_eq_nil_iff.mpr fun line hline => by simp [hbefore line hline]
  rw [hleft, filter_eq_nil_iff]
  intro line hline
  simp [hbefore line (hsub.subset hline)]

theorem lastMarker_sublist (chunk : List Line) : (lastMarker chunk).Sublist chunk := by
  unfold lastMarker
  cases hlast : (chunk.filter fun line => (marker? line.text).isSome).getLast? with
  | none => exact nil_sublist _
  | some line =>
    have hmem : line ∈ chunk := by
      have := mem_of_getLast? hlast
      exact mem_of_mem_filter this
    exact singleton_sublist.mpr hmem

theorem cutFrom_carries (level : Nat) (current chunk : List Line) :
    Carries (current ++ chunk) (cutFrom level current chunk).flatten := by
  induction chunk generalizing current with
  | nil => simpa [cutFrom] using Carries.refl current
  | cons line rest ih =>
    unfold cutFrom
    split
    · have hparts := @List.rdropWhile_append_rtakeWhile _ (fun l : Line => !isContent l.text) current
      generalize hkept : current.rdropWhile (fun l => !isContent l.text) = kept at hparts ⊢
      have hskipped : ∀ l ∈ current.rtakeWhile (fun l => !isContent l.text),
          isContent l.text = false := by
        intro l hl
        have := mem_rtakeWhile_imp hl
        simpa using this
      generalize current.rtakeWhile (fun l => !isContent l.text) = skipped at hparts hskipped ⊢
      have hmoved : Carries (skipped ++ line :: rest) (lastMarker skipped ++ [line] ++ rest) := by
        rw [append_assoc]
        exact (Carries.of_not_content (lastMarker_sublist skipped) hskipped).append
          (Carries.refl (line :: rest))
      rw [← hparts, append_assoc, flatten_cons]
      exact (Carries.refl kept).append (hmoved.trans (ih _))
    · have hstep := ih (current ++ [line])
      rwa [append_assoc] at hstep

theorem filter_carries {p : List Line → Bool}
    (hp : ∀ chunk, hasContent chunk = true → p chunk = true) :
    Carries chunks.flatten (chunks.filter p).flatten := by
  induction chunks with
  | nil => exact Carries.refl _
  | cons chunk chunks ih =>
    rw [filter_cons, flatten_cons]
    split
    · rw [flatten_cons]
      exact (Carries.refl chunk).append ih
    · next hnot =>
      have hnone : ∀ line ∈ chunk, isContent line.text = false := by
        intro line hline
        rw [← Bool.not_eq_true]
        intro hcontent
        exact hnot (hp chunk (any_eq_true.mpr ⟨line, hline, hcontent⟩))
      exact (Carries.of_not_content (nil_sublist chunk) hnone).append ih

theorem hasVisible_of_hasContent (h : hasContent chunk = true) : hasVisible chunk = true := by
  obtain ⟨line, hline, hcontent⟩ := any_eq_true.mp h
  exact any_eq_true.mpr ⟨line, hline, visible_of_isContent hcontent⟩

theorem cutAtLevel_carries (chunk : List Line) (level : Nat) :
    Carries chunk (cutAtLevel chunk level).flatten := by
  have hcut := cutFrom_carries level [] chunk
  rw [nil_append] at hcut
  exact hcut.trans (filter_carries fun _ h => h)

theorem pagesFrom_flatten (current chunk : List Line) :
    (pagesFrom current chunk).flatten = current ++ chunk := by
  induction chunk generalizing current with
  | nil => simp [pagesFrom]
  | cons line rest ih =>
    unfold pagesFrom
    split
    · rw [flatten_cons, ih]
      rfl
    · rw [ih, append_assoc]
      rfl

theorem groupFrom_flatten (group : List Line) (size : Nat) (chunks : List (List Line)) :
    (groupFrom group size chunks).flatten = group ++ chunks.flatten := by
  induction chunks generalizing group size with
  | nil => simp [groupFrom]
  | cons page rest ih =>
    unfold groupFrom
    simp only
    split
    · rw [flatten_cons, ih, flatten_cons]
    · rw [ih, flatten_cons, append_assoc]

theorem groups_flatten (chunks : List (List Line)) : (groups chunks).flatten = chunks.flatten := by
  cases chunks with
  | nil => rfl
  | cons page rest => exact groupFrom_flatten page _ rest

theorem cutByPages_carries (chunk : List Line) : Carries chunk (cutByPages chunk).flatten := by
  have hpages : Carries (pagesFrom [] chunk).flatten (pages chunk).flatten :=
    filter_carries fun _ h => hasVisible_of_hasContent h
  rw [pagesFrom_flatten, nil_append] at hpages
  rwa [cutByPages, groups_flatten]

theorem cutAtLevel_visible (h : piece ∈ cutAtLevel chunk level) : hasVisible piece = true :=
  hasVisible_of_hasContent (mem_filter.mp h).2

theorem hasVisible_append_left {more : List Line} (h : hasVisible chunk = true) :
    hasVisible (chunk ++ more) = true := by
  unfold hasVisible at h ⊢
  rw [any_append, h, Bool.true_or]

theorem groupFrom_visible {group : List Line} {size : Nat} (hgroup : hasVisible group = true)
    (hchunks : ∀ page ∈ chunks, hasVisible page = true) :
    ∀ piece ∈ groupFrom group size chunks, hasVisible piece = true := by
  induction chunks generalizing group size with
  | nil =>
    intro piece hpiece
    rw [mem_singleton.mp hpiece]
    exact hgroup
  | cons page rest ih =>
    have hrest : ∀ p ∈ rest, hasVisible p = true := fun p hp => hchunks p (mem_cons_of_mem _ hp)
    unfold groupFrom
    simp only
    split
    · intro piece hpiece
      rcases mem_cons.mp hpiece with rfl | hpiece
      · exact hgroup
      · exact ih (hchunks page mem_cons_self) hrest piece hpiece
    · exact ih (hasVisible_append_left hgroup) hrest

theorem cutByPages_visible (h : piece ∈ cutByPages chunk) : hasVisible piece = true := by
  have hpages : ∀ page ∈ pages chunk, hasVisible page = true :=
    fun page hpage => (mem_filter.mp hpage).2
  unfold cutByPages at h
  generalize pages chunk = found at h hpages
  cases found with
  | nil => cases h
  | cons page rest =>
    exact groupFrom_visible (hpages page mem_cons_self)
      (fun p hp => hpages p (mem_cons_of_mem _ hp)) piece h

theorem length_lt_flatten (hne : ∀ chunk ∈ chunks, chunk ≠ []) (hmany : 1 < chunks.length)
    (hpiece : piece ∈ chunks) : piece.length < chunks.flatten.length := by
  obtain ⟨before, after, rfl⟩ := append_of_mem hpiece
  have hother : ∃ other ∈ before ++ after, 0 < other.length := by
    cases hrest : before ++ after with
    | nil =>
      rw [length_append, length_cons] at hmany
      have := congrArg List.length hrest
      rw [length_append, length_nil] at this
      omega
    | cons other rest =>
      refine ⟨other, mem_cons_self, length_pos_of_ne_nil (hne other ?_)⟩
      have hmem : other ∈ before ++ after := hrest ▸ mem_cons_self
      rcases mem_append.mp hmem with h | h
      · exact mem_append_left _ h
      · exact mem_append_right _ (mem_cons_of_mem _ h)
  obtain ⟨other, hmem, hpos⟩ := hother
  have hle := List.Sublist.length_le (sublist_flatten_of_mem hmem)
  rw [flatten_append, length_append] at hle
  rw [flatten_append, flatten_cons, length_append, length_append]
  omega

theorem ne_nil_of_visible (h : hasVisible chunk = true) : chunk ≠ [] := by
  rintro rfl
  cases h

theorem cutByPages_length_lt (hmany : 1 < (cutByPages chunk).length)
    (hpiece : piece ∈ cutByPages chunk) : piece.length < chunk.length :=
  (length_lt_flatten (fun _ hp => ne_nil_of_visible (cutByPages_visible hp)) hmany hpiece).trans_le
    (cutByPages_carries chunk).sub.length_le

def fit (chunk : List Line) (level : Nat) : List (List Line) :=
  if tokens (join chunk) ≤ hardMaxTokens then [chunk]
  else
    match _hdeeper : deeperCut chunk level with
    | some (deeper, cut) => cut.flatMap fun piece => fit piece deeper
    | none =>
      if _hpages : 1 < (pages chunk).length ∧ 1 < (cutByPages chunk).length then
        (cutByPages chunk).attach.flatMap fun piece => fit piece.1 level
      else byParagraphs chunk
termination_by (7 - level, chunk.length)
decreasing_by
  · have hlevels := deeperCut_eq _hdeeper
    apply Prod.Lex.left
    omega
  · apply Prod.Lex.right
    exact cutByPages_length_lt _hpages.2 piece.2

end Substrate.Split
