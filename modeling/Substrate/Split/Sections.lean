import Substrate.Split.Keeping
import Mathlib.Order.Bounds.Basic
import Mathlib.Data.List.MinMax

/-!
A document's sections: the chunks that its lines are cut into, the small ones merged, each with
a title, the headings over it and its pages.
-/

namespace Substrate.Split

open Lib.PyText List

structure Section where
  title : Text
  headingPath : List Text
  firstPage : Nat
  lastPage : Nat
  markdown : Text
  deriving DecidableEq, Repr

def mergeFrom (draft : List Line) : List (List Line) → List (List Line)
  | [] => [draft]
  | chunk :: rest =>
    if (tokens (join chunk) < minTokens ∨ tokens (join draft) < minTokens) ∧
        tokens (join draft) + tokens (join chunk) ≤ targetMaxTokens then
      mergeFrom (draft ++ chunk) rest
    else draft :: mergeFrom chunk rest

def mergeSmall : List (List Line) → List (List Line)
  | [] => []
  | chunk :: rest => mergeFrom chunk rest

theorem mergeFrom_flatten (draft : List Line) (chunks : List (List Line)) :
    (mergeFrom draft chunks).flatten = draft ++ chunks.flatten := by
  induction chunks generalizing draft with
  | nil => simp [mergeFrom]
  | cons chunk rest ih =>
    unfold mergeFrom
    split
    · rw [ih, flatten_cons, append_assoc]
    · rw [flatten_cons, ih, flatten_cons]

theorem mergeFrom_visible {draft : List Line} {chunks : List (List Line)}
    (hdraft : hasVisible draft = true) (hchunks : ∀ chunk ∈ chunks, hasVisible chunk = true) :
    ∀ chunk ∈ mergeFrom draft chunks, hasVisible chunk = true := by
  induction chunks generalizing draft with
  | nil =>
    intro chunk hchunk
    rw [mem_singleton.mp hchunk]
    exact hdraft
  | cons first rest ih =>
    have hrest : ∀ chunk ∈ rest, hasVisible chunk = true :=
      fun chunk hchunk => hchunks chunk (mem_cons_of_mem _ hchunk)
    unfold mergeFrom
    split
    · exact ih (hasVisible_append_left hdraft) hrest
    · intro chunk hchunk
      rcases mem_cons.mp hchunk with rfl | hchunk
      · exact hdraft
      · exact ih (hchunks first mem_cons_self) hrest chunk hchunk

theorem mergeSmall_flatten (chunks : List (List Line)) :
    (mergeSmall chunks).flatten = chunks.flatten := by
  cases chunks with
  | nil => rfl
  | cons chunk rest => exact mergeFrom_flatten chunk rest

theorem mergeSmall_fitted {chunk : List Line} {out : List (List Line)} (h : Fitted chunk out) :
    Fitted chunk (mergeSmall out) := by
  refine ⟨?_, ?_, ?_⟩
  · rw [mergeSmall_flatten]
    exact h.kept
  · have hvisible := h.visible
    cases out with
    | nil =>
      intro piece hpiece
      cases hpiece
    | cons first rest =>
      exact mergeFrom_visible (hvisible first mem_cons_self)
        fun piece hpiece => hvisible piece (mem_cons_of_mem _ hpiece)
  · intro hsound piece hpiece line hline
    have hmem : line ∈ out.flatten := by
      rw [← mergeSmall_flatten]
      exact mem_flatten_of_mem hpiece hline
    obtain ⟨source, hsource, hin⟩ := mem_flatten.mp hmem
    exact h.sound hsound source hsource line hin

theorem mergeFrom_ne_nil (draft : List Line) (chunks : List (List Line)) :
    mergeFrom draft chunks ≠ [] := by
  induction chunks generalizing draft with
  | nil => exact cons_ne_nil _ _
  | cons next rest ih =>
    unfold mergeFrom
    split
    · exact ih (draft ++ next)
    · exact cons_ne_nil _ _

theorem mergeSmall_ne_nil {chunks : List (List Line)} (h : chunks ≠ []) :
    mergeSmall chunks ≠ [] := by
  cases chunks with
  | nil => exact absurd rfl h
  | cons chunk rest => exact mergeFrom_ne_nil chunk rest

def pushHeading (path : List (Nat × Text)) (line : Line) : List (Nat × Text) :=
  path.rdropWhile (fun entry => line.level ≤ entry.1) ++ [(line.level, line.title)]

/-- `_opens_with_heading`. -/
def opening (chunk : List Line) : Option Line :=
  (chunk.find? fun line => isContent line.text).filter fun line => line.level ≠ 0

/-- The headings that are open after a chunk, and those over the heading it opens with. -/
def walk (path : List (Nat × Text)) (started : Bool) (opened : Option (List Text)) :
    List Line → List (Nat × Text) × Option (List Text)
  | [] => (path, opened)
  | line :: rest =>
    if line.level ≠ 0 then
      let path := pushHeading path line
      walk path true (if started then opened else some (path.map Prod.snd)) rest
    else walk path (started || isContent line.text) opened rest

def pageTitle (first last : Nat) : Text :=
  if first = last then ['P', 'a', 'g', 'e', ' '] ++ natText first
  else ['P', 'a', 'g', 'e', 's', ' '] ++ natText first ++ ['–'] ++ natText last

/-- The title of the `count`-th section of one title. -/
def partTitle (title : Text) (count : Nat) : Text :=
  if count = 1 then title else title ++ [' ', '(', 'p', 'a', 'r', 't', ' '] ++ natText count ++ [')']

def pagesOf (chunk : List Line) : List Nat := (shown chunk).map Line.page

def firstPage (chunk : List Line) : Nat := (pagesOf chunk).min?.getD 1

def lastPage (chunk : List Line) : Nat := (pagesOf chunk).max?.getD 1

def labelFrom (documentTitle : Text) (byPages : Bool) (path : List (Nat × Text))
    (seen : Text → Nat) : List (List Line) → List Section
  | [] => []
  | chunk :: rest =>
    let walked := walk path false none chunk
    let headingPath := walked.2.getD (path.map Prod.snd)
    let title :=
      if byPages then pageTitle (firstPage chunk) (lastPage chunk)
      else
        match opening chunk with
        | some line => line.title
        | none => headingPath.getLast?.getD documentTitle
    let count := seen title + 1
    { title := partTitle title count
      headingPath := if headingPath = [] then [documentTitle] else headingPath
      firstPage := firstPage chunk
      lastPage := lastPage chunk
      markdown := join chunk } ::
      labelFrom documentTitle byPages walked.1 (Function.update seen title count) rest

def label (chunks : List (List Line)) (documentTitle : Text) (byPages : Bool) : List Section :=
  labelFrom documentTitle byPages [] (fun _ => 0) chunks

def splitLevel (found : List Line) : Nat :=
  ((List.range' 1 6).find? fun level => 2 ≤ countLevel found level).getD 0

def chunksOf (found : List Line) : List (List Line) :=
  let level := splitLevel found
  let cut := if level ≠ 0 then cutAtLevel found level else cutByPages found
  mergeSmall (cut.flatMap fun chunk => fit chunk level)

/-- The sections of a markdown text in reading order; there are none where `int` converts no
marker's number. -/
def split (maxDigits : Nat) (markdown title : Text) : Option (List Section) := do
  let found ← lines maxDigits markdown
  if hasVisible found then some (label (chunksOf found) title (splitLevel found == 0))
  else some []

/-- A section of these lines that show something, each with its page. -/
structure Holds (held : List (Text × Nat)) (s : Section) : Prop where
  texts : (splitlines s.markdown).filter visible = held.map Prod.fst
  first : IsLeast {page | page ∈ held.map Prod.snd} s.firstPage
  last : IsGreatest {page | page ∈ held.map Prod.snd} s.lastPage

/-- Sections of numbered lines: of all but some blank lines and page markers, in order, each
once, the long ones in pieces. -/
def Covers (numbered : List (Text × Nat)) (sections : List Section) : Prop :=
  ∃ (kept : List (Text × Nat)) (held : List (List (Text × Nat))), kept.Sublist numbered ∧
      (kept.filter fun line => isContent line.1) = (numbered.filter fun line => isContent line.1) ∧
      held.flatten =
        (kept.flatMap fun line => (pieces line.1).map fun piece => (piece, line.2)).filter
          (fun line => visible line.1) ∧
      List.Forall₂ Holds held sections

theorem isLeast_min? {pages : List Nat} (h : pages ≠ []) :
    IsLeast {page | page ∈ pages} (pages.min?.getD 1) := by
  cases hmin : pages.min? with
  | none => exact absurd (List.min?_eq_none_iff.mp hmin) h
  | some least =>
    obtain ⟨hmem, hle⟩ := List.min?_eq_some_iff.mp hmin
    exact ⟨hmem, fun page hpage => hle page hpage⟩

theorem isGreatest_max? {pages : List Nat} (h : pages ≠ []) :
    IsGreatest {page | page ∈ pages} (pages.max?.getD 1) := by
  cases hmax : pages.max? with
  | none => exact absurd (List.max?_eq_none_iff.mp hmax) h
  | some greatest =>
    obtain ⟨hmem, hle⟩ := List.max?_eq_some_iff.mp hmax
    exact ⟨hmem, fun page hpage => hle page hpage⟩

theorem shown_map_text (chunk : List Line) :
    (shown chunk).map Line.text = (chunk.map Line.text).filter visible := by
  rw [shown, filter_map]
  rfl

theorem holds_shown {chunk : List Line} {s : Section} (hsound : ∀ line ∈ chunk, line.Sound)
    (hvisible : hasVisible chunk = true) (hmarkdown : s.markdown = join chunk)
    (hfirst : s.firstPage = firstPage chunk) (hlast : s.lastPage = lastPage chunk) :
    Holds ((shown chunk).map Line.numbered) s := by
  have hpages : ((shown chunk).map Line.numbered).map Prod.snd = pagesOf chunk := by
    rw [List.map_map]
    rfl
  have hne : pagesOf chunk ≠ [] := by
    obtain ⟨line, hline, hshown⟩ := any_eq_true.mp hvisible
    apply ne_nil_of_mem
    exact mem_map_of_mem (mem_filter.mpr ⟨hline, hshown⟩)
  refine ⟨?_, ?_, ?_⟩
  · rw [hmarkdown, splitlines_join hsound visible rfl, ← shown_map_text, List.map_map]
    rfl
  · rw [hpages, hfirst]
    exact isLeast_min? hne
  · rw [hpages, hlast]
    exact isGreatest_max? hne

theorem labelFrom_holds {chunks : List (List Line)} {documentTitle : Text} {byPages : Bool}
    {path : List (Nat × Text)} {seen : Text → Nat}
    (hsound : ∀ chunk ∈ chunks, ∀ line ∈ chunk, line.Sound)
    (hvisible : ∀ chunk ∈ chunks, hasVisible chunk = true) :
    List.Forall₂ Holds (chunks.map fun chunk => (shown chunk).map Line.numbered)
      (labelFrom documentTitle byPages path seen chunks) := by
  induction chunks generalizing path seen with
  | nil => exact List.Forall₂.nil
  | cons chunk rest ih =>
    apply List.Forall₂.cons
    · exact holds_shown (hsound chunk mem_cons_self) (hvisible chunk mem_cons_self) rfl rfl rfl
    · exact ih (fun c hc => hsound c (mem_cons_of_mem _ hc))
        fun c hc => hvisible c (mem_cons_of_mem _ hc)

theorem chunksOf_fitted {found : List Line} (hsound : ∀ line ∈ found, line.Sound) :
    Fitted found (chunksOf found) := by
  apply mergeSmall_fitted
  generalize splitLevel found = level
  have hcut : ∀ cut : List (List Line), Carries found cut.flatten →
      (∀ chunk ∈ cut, hasVisible chunk = true) →
        Fitted found (cut.flatMap fun chunk => fit chunk level) := by
    intro cut hcarries hvisible
    apply Fitted.of_carries hcarries
    apply Fitted.flatMap
    intro chunk hchunk
    apply fit_fitted chunk level _ (hvisible chunk hchunk)
    intro line hline
    exact hsound line (hcarries.sub.subset (mem_flatten_of_mem hchunk hline))
  split
  · exact hcut _ (cutAtLevel_carries found level) fun _ => cutAtLevel_visible
  · exact hcut _ (cutByPages_carries found) fun _ => cutByPages_visible

theorem heading_of_splitLevel {found : List Line} (h : splitLevel found ≠ 0) :
    ∃ line ∈ found, line.level ≠ 0 := by
  unfold splitLevel at h
  cases hlevel : (List.range' 1 6).find? fun level => 2 ≤ countLevel found level with
  | none =>
    rw [hlevel] at h
    exact absurd rfl h
  | some level =>
    have hmany : 2 ≤ countLevel found level := by simpa using List.find?_some hlevel
    have hpos : 0 < found.countP fun line => line.level == level := by
      unfold countLevel at hmany
      omega
    obtain ⟨line, hline, heq⟩ := countP_pos_iff.mp hpos
    have hrange := mem_range'_1.mp (mem_of_find?_eq_some hlevel)
    refine ⟨line, hline, ?_⟩
    rw [eq_of_beq heq]
    omega

theorem cutByPages_shown (chunk : List Line) : shown (cutByPages chunk).flatten = shown chunk := by
  rw [cutByPages, groups_flatten, pages, shown_filter_visible, pagesFrom_flatten, nil_append]

theorem ne_nil_of_shown {chunks : List (List Line)} {chunk : List Line}
    (hvisible : hasVisible chunk = true) (h : shown chunks.flatten = shown chunk) :
    chunks ≠ [] := by
  rintro rfl
  obtain ⟨line, hline, hshown⟩ := any_eq_true.mp hvisible
  have hmem : line ∈ shown chunk := mem_filter.mpr ⟨hline, hshown⟩
  rw [← h] at hmem
  cases hmem

theorem chunksOf_ne_nil {found : List Line} (hsound : ∀ line ∈ found, line.Sound)
    (hvisible : hasVisible found = true) : chunksOf found ≠ [] := by
  apply mergeSmall_ne_nil
  have hcut : ∀ cut : List (List Line), cut ≠ [] → (∀ chunk ∈ cut, hasVisible chunk = true) →
      (cut.flatMap fun chunk => fit chunk (splitLevel found)) ≠ [] := by
    intro cut hne hall hnil
    obtain ⟨chunk, hchunk⟩ := exists_mem_of_ne_nil cut hne
    exact fit_ne_nil chunk _ (hall chunk hchunk) (flatMap_eq_nil_iff.mp hnil chunk hchunk)
  split
  · next hlevel =>
    apply hcut _ _ fun _ => cutAtLevel_visible
    intro hnil
    obtain ⟨line, hline, hheading⟩ := heading_of_splitLevel hlevel
    have hmem : line ∈ found.filter fun l => isContent l.text :=
      mem_filter.mpr ⟨hline, (hsound line hline).content hheading⟩
    rw [← (cutAtLevel_carries found (splitLevel found)).content, hnil] at hmem
    cases hmem
  · exact hcut _ (ne_nil_of_shown hvisible (cutByPages_shown found)) fun _ => cutByPages_visible

theorem ink_splitFrom (returned : Bool) (line text : Text) :
    ink (splitFrom returned line text).flatten = ink (line ++ text) := by
  induction text generalizing returned line with
  | nil =>
    unfold splitFrom
    split
    · next h => simp [h]
    · simp
  | cons c rest ih =>
    have hmiddle : isSpace c = true → ink (line ++ c :: rest) = ink (line ++ rest) := by
      intro hspace
      rw [ink_append, ink_append]
      simp [ink, hspace]
    unfold splitFrom
    split
    · next hfeed =>
      have hspace : isSpace c = true := by
        rw [hfeed.2]
        decide
      rw [ih, hmiddle hspace]
    · split
      · next hbreak =>
        have hspace : isSpace c = true := by
          simp only [isBreak, isSpace, decide_eq_true_eq, mem_cons, not_mem_nil,
            or_false] at hbreak ⊢
          omega
        rw [flatten_cons, ink_append, ih, hmiddle hspace, ← ink_append, nil_append]
      · rw [ih, append_assoc]
        rfl

theorem visible_flatten (texts : List Text) : visible texts.flatten = texts.any visible := by
  induction texts with
  | nil => rfl
  | cons text rest ih =>
    rw [flatten_cons, any_cons, ← ih]
    simp [visible, isBlank]

theorem any_visible_splitlines (markdown : Text) :
    (splitlines markdown).any visible = visible markdown := by
  rw [← visible_flatten, Bool.eq_iff_iff, visible_iff_ink, visible_iff_ink, splitlines,
    ink_splitFrom, nil_append]

theorem hasVisible_lines {maxDigits : Nat} {markdown : Text} {found : List Line}
    (h : lines maxDigits markdown = some found) : hasVisible found = visible markdown := by
  have htexts : found.map Line.text = splitlines markdown := by
    have hnumbered := congrArg (List.map Prod.fst) (linesFrom_numbered h)
    rw [List.map_map] at hnumbered
    exact hnumbered.trans (pageNumbers_texts 1 _)
  rw [← any_visible_splitlines, ← htexts, any_map]
  rfl

theorem covers_of_fitted {found : List Line} {chunks : List (List Line)} {sections : List Section}
    (hfitted : Fitted found chunks)
    (hholds : List.Forall₂ Holds (chunks.map fun chunk => (shown chunk).map Line.numbered)
      sections) : Covers (found.map Line.numbered) sections := by
  obtain ⟨kept, hkept, hshown⟩ := hfitted.kept
  refine ⟨kept.map Line.numbered, chunks.map fun chunk => (shown chunk).map Line.numbered,
    hkept.sub.map _, ?_, ?_, hholds⟩
  · have hcontent := congrArg (List.map Line.numbered) hkept.content
    rw [filter_map, filter_map]
    exact hcontent
  · have hflat : (chunks.map fun chunk => (shown chunk).map Line.numbered).flatten =
        (shown chunks.flatten).map Line.numbered := by
      rw [shown, filter_flatten, map_flatten, List.map_map]
      rfl
    have hcut : ((cutLongLines kept).map Line.numbered) =
        (kept.map Line.numbered).flatMap fun line =>
          (pieces line.1).map fun piece => (piece, line.2) := by
      rw [cutLongLines, map_flatMap, flatMap_map]
      exact flatMap_congr fun line _ => cutLongLine_texts line
    rw [hflat, hshown, ← hcut, shown, filter_map]
    rfl

/-- A page marker with a number that `int` does not convert. -/
def Unconverted (maxDigits : Nat) (texts : List Text) : Prop :=
  ∃ text ∈ texts, ∃ digits, marker? text = some digits ∧ maxDigits < digits.length

theorem split_eq_none {maxDigits : Nat} {markdown title : Text} :
    split maxDigits markdown title = none ↔ Unconverted maxDigits (splitlines markdown) := by
  unfold Unconverted
  rw [← @linesFrom_none maxDigits 1 false, ← lines, split]
  cases lines maxDigits markdown with
  | none => simp
  | some found =>
    simp only [Option.bind_eq_bind, Option.bind_some, reduceCtorEq, iff_false]
    split
    · exact Option.some_ne_none _
    · exact Option.some_ne_none _

theorem split_some {maxDigits : Nat} {markdown title : Text} {sections : List Section}
    (h : split maxDigits markdown title = some sections) :
    Covers (pageNumbers 1 (splitlines markdown)) sections ∧
      (sections = [] ↔ visible markdown = false) := by
  simp only [split, Option.bind_eq_bind, Option.bind_eq_some_iff] at h
  obtain ⟨found, hfound, hsections⟩ := h
  have hsound : ∀ line ∈ found, line.Sound := linesFrom_sound unbroken_of_mem_splitlines hfound
  have hnumbered : found.map Line.numbered = pageNumbers 1 (splitlines markdown) :=
    linesFrom_numbered hfound
  have hvisible := hasVisible_lines hfound
  rw [← hnumbered, ← hvisible]
  split at hsections
  · next hshows =>
    cases hsections
    have hfitted := chunksOf_fitted hsound
    have hholds : List.Forall₂ Holds
        ((chunksOf found).map fun chunk => (shown chunk).map Line.numbered)
        (label (chunksOf found) title (splitLevel found == 0)) :=
      labelFrom_holds (hfitted.sound hsound) hfitted.visible
    refine ⟨covers_of_fitted hfitted hholds, ?_⟩
    rw [hshows]
    simp only [Bool.true_eq_false, iff_false]
    intro hnil
    have hlength := hholds.length_eq
    rw [hnil, length_map, length_nil] at hlength
    exact chunksOf_ne_nil hsound hshows (length_eq_zero_iff.mp hlength)
  · next hblank =>
    cases hsections
    have hnone : hasVisible found = false := by simpa using hblank
    refine ⟨⟨[], [], nil_sublist _, ?_, rfl, List.Forall₂.nil⟩, ?_⟩
    · symm
      rw [filter_nil, filter_eq_nil_iff]
      intro line hline hcontent
      obtain ⟨source, hsource, rfl⟩ := mem_map.mp hline
      rw [hasVisible, any_eq_false] at hnone
      exact hnone source hsource (visible_of_isContent hcontent)
    · rw [hnone]
      simp

/-- Splitting fails only where a page marker's number is not converted. Else the sections hold
every line of the document that has content, each once and in order, one over the cap in
pieces that leave out white space at most. Their pages are the least and the greatest of the
lines they show. There is no section only where the document is blank. -/
theorem split_keeps_lines_and_pages (maxDigits : Nat) (markdown title : Text) :
    (split maxDigits markdown title = none ↔ Unconverted maxDigits (splitlines markdown)) ∧
      (∀ sections ∈ split maxDigits markdown title,
        Covers (pageNumbers 1 (splitlines markdown)) sections ∧
          (sections = [] ↔ visible markdown = false)) ∧
      (markersOutside false (splitlines markdown) = true →
        pageNumbersOutside 1 false (splitlines markdown) = pageNumbers 1 (splitlines markdown)) ∧
      ∀ text, ink (pieces text).flatten = ink text ∧ (¬ Overlong text → pieces text = [text]) := by
  refine ⟨split_eq_none, fun sections h => split_some h, pageNumbers_outside, ?_⟩
  intro text
  exact ⟨ink_pieces text, pieces_of_not_overlong⟩

def solid (n : Nat) : Text := List.replicate n 'x'

theorem unbroken_solid (n : Nat) : Unbroken (solid n) := by
  intro c hc
  rw [eq_of_mem_replicate hc]
  decide

theorem bytes_solid (n : Nat) : bytes (solid n) = n := by
  have hx : Char.utf8Size 'x' = 1 := by decide
  simp [bytes, solid, hx]

theorem solid_plain (n : Nat) : marker? (solid (n + 1)) = none ∧ isFence (solid (n + 1)) = false ∧
      heading? (solid (n + 1)) = none ∧ visible (solid (n + 1)) = true := by
  have hx : isSpace 'x' = false := by decide
  have hstrip : lstrip (solid (n + 1)) = solid (n + 1) := lstrip_cons_of_not hx
  refine ⟨?_, ?_, ?_, ?_⟩
  · simp [solid, replicate_succ, marker?, markerStart, List.dropPrefix?]
  · rw [isFence, hstrip, solid, replicate_succ]
    rfl
  · simp [solid, replicate_succ, heading?]
  · simp [visible, isBlank, solid, replicate_succ, hx]

theorem join_solid (n page : Nat) : join [Line.plain (solid (n + 1)) page] = solid (n + 1) := by
  have hx : ('x' == '\n') = false := by decide
  have hlast : solid (n + 1) = solid n ++ ['x'] := replicate_succ'
  have hfront : (solid (n + 1)).dropWhile (· == '\n') = solid (n + 1) := by
    simp [solid, replicate_succ]
  rw [join, map_singleton, joined, intercalate_singleton, stripFeeds]
  change List.rdropWhile _ ((solid (n + 1)).dropWhile _) = _
  rw [hfront, hlast, rdropWhile_concat_neg _ _ _ (by simp)]

theorem take_solid (n m : Nat) : (solid (n + m)).take m = solid m := by
  rw [solid, take_replicate, Nat.min_eq_left (Nat.le_add_left m n), solid]

theorem drop_solid (n m : Nat) : (solid (n + m)).drop m = solid n := by
  rw [solid, drop_replicate, Nat.add_sub_cancel, solid]

theorem pieces_solid {n : Nat} (hlong : 24000 < n + 18000) (hshort : n ≤ 24000) :
    pieces (solid (n + 18000)) = [solid 18000, [], solid n] := by
  have hover : Overlong (solid (n + 18000)) := by
    rw [Overlong, bytes_solid]
    exact hlong
  have hunder : ¬ Overlong (solid n) := by
    rw [Overlong, bytes_solid]
    simp only [hardMaxTokens]
    omega
  have hlimit : lineLimit = 18000 := rfl
  have hspace : (solid 18000).rdropWhile (· != ' ') = [] := by
    rw [rdropWhile_eq_nil_iff]
    intro c hc
    rw [eq_of_mem_replicate hc]
    decide
  have hplace : cutPlace (solid (n + 18000)) = 18000 := by
    rw [cutPlace, rfindSpace, hlimit, take_solid, hspace]
  have hstrip : lstrip (solid n) = solid n := by
    apply lstrip_of_head
    intro c rest hc
    have hmem : c ∈ solid n := hc ▸ mem_cons_self
    rw [eq_of_mem_replicate hmem]
    decide
  rw [pieces_of_overlong hover, hplace, take_solid, drop_solid, hstrip, pieces_of_not_overlong hunder]

theorem lines_solid (maxDigits n : Nat) :
    lines maxDigits (solid (n + 1)) = some [Line.plain (solid (n + 1)) 1] := by
  obtain ⟨hmarker, hfence, hheading, -⟩ := solid_plain n
  have hne : solid (n + 1) ≠ [] := by simp [solid, replicate_succ]
  rw [lines, splitlines_unbroken (unbroken_solid _), if_neg hne]
  simp [linesFrom, pageOf, hmarker, hfence, hheading, Line.plain]

theorem countLevel_le (chunk : List Line) (level : Nat) : countLevel chunk level ≤ chunk.length :=
  countP_le_length

theorem find_level_single (line : Line) (levels : List Nat) :
    levels.find? (fun level => 2 ≤ countLevel [line] level) = none := by
  rw [List.find?_eq_none]
  intro level _
  have hle := countLevel_le [line] level
  simp only [length_singleton] at hle
  simp only [decide_eq_true_eq]
  omega

theorem pages_single {line : Line} (hvisible : visible line.text = true) :
    pages [line] = [[line]] := by
  simp [pages, pagesFrom, hasVisible, hvisible]

theorem byParagraphs_solid {n : Nat} (hlong : 6000 < n) (hshort : n ≤ 24000) (page : Nat) :
    byParagraphs [Line.plain (solid (n + 18000)) page] =
      [[Line.plain (solid 18000) page], [Line.plain (solid n) page]] := by
  obtain ⟨m, rfl⟩ : ∃ m, n = m + 1 := ⟨n - 1, by omega⟩
  obtain ⟨-, hfence, -, hvisible⟩ := solid_plain 17999
  obtain ⟨-, hfence', -, hvisible'⟩ := solid_plain m
  have hempty : isFence [] = false := rfl
  have hblank : visible [] = false := rfl
  have hover : Overlong (solid (m + 1 + 18000)) := by
    rw [Overlong, bytes_solid]
    simp only [hardMaxTokens]
    omega
  have hcut : cutLongLines [Line.plain (solid (m + 1 + 18000)) page] =
      [Line.plain (solid 18000) page, Line.plain [] page, Line.plain (solid (m + 1)) page] := by
    rw [cutLongLines, flatMap_singleton, cutLongLine]
    simp only [Line.plain, hover, if_true]
    rw [pieces_solid (by omega) hshort]
    rfl
  have hcost : tokens (solid 18000) + 1 = 6002 := by
    rw [tokens, bytes_solid]
  rw [byParagraphs, hcut]
  simp [paragraphsFrom, Line.plain, hfence, hfence', hempty, hvisible, hvisible', hblank, hcost,
    targetMaxTokens, hasVisible]

theorem split_solid (maxDigits : Nat) {n : Nat} (hlong : 6000 < n) (hshort : n ≤ 24000)
    (title : Text) : (split maxDigits (solid (n + 18000)) title).map (List.map Section.markdown) =
      some [solid 18000, solid n] := by
  obtain ⟨m, rfl⟩ : ∃ m, n = m + 1 := ⟨n - 1, by omega⟩
  have hsum : m + 1 + 18000 = m + 18000 + 1 := by omega
  obtain ⟨-, -, -, hvisible⟩ := solid_plain (m + 18000)
  have hlarge : ¬ tokens (solid (m + 18000 + 1)) ≤ hardMaxTokens := by
    rw [tokens, bytes_solid]
    simp only [hardMaxTokens]
    omega
  have hline : visible (Line.plain (solid (m + 18000 + 1)) 1).text = true := hvisible
  have hlevel : splitLevel [Line.plain (solid (m + 18000 + 1)) 1] = 0 := by
    rw [splitLevel, find_level_single]
    rfl
  have hcut : cutByPages [Line.plain (solid (m + 18000 + 1)) 1] =
      [[Line.plain (solid (m + 18000 + 1)) 1]] := by
    rw [cutByPages, pages_single hline]
    rfl
  have hfit : fit [Line.plain (solid (m + 18000 + 1)) 1] 0 =
      [[Line.plain (solid 18000) 1], [Line.plain (solid (m + 1)) 1]] := by
    rw [fit_eq, join_solid, if_neg hlarge, deeperCut, find_level_single, pages_single hline]
    simp only [length_singleton, lt_irrefl, false_and, if_false]
    rw [← hsum, byParagraphs_solid hlong hshort]
  have hchunks : chunksOf [Line.plain (solid (m + 18000 + 1)) 1] =
      [[Line.plain (solid 18000) 1], [Line.plain (solid (m + 1)) 1]] := by
    have hfirst : tokens (solid (17999 + 1)) = 6001 := by rw [tokens, bytes_solid]
    have hsecond : ¬ tokens (solid (m + 1)) < 300 := by
      rw [tokens, bytes_solid]
      omega
    rw [chunksOf]
    simp only [hlevel, hcut, ne_eq, not_true_eq_false, if_false, flatMap_singleton, hfit]
    have hjoin := join_solid 17999 1
    simp [mergeSmall, mergeFrom, join_solid, hsecond, hjoin, hfirst, minTokens]
  rw [hsum, split, lines_solid]
  have hshown : hasVisible [Line.plain (solid (m + 18000 + 1)) 1] = true := by
    simpa [hasVisible] using hline
  simp only [Option.bind_eq_bind, Option.bind_some, hshown, if_true, hchunks, Option.map_some,
    label, labelFrom, map_cons, map_nil]
  have hjoin : join [Line.plain (solid 18000) 1] = solid 18000 := join_solid 17999 1
  rw [hjoin, join_solid]

def emptyPage : Text :=
  ['t', 'e', 'x', 't', '\n', '<', '!', '-', '-', ' ', 'p', 'a', 'g', 'e', ' ', '2', ' ', '-', '-', '>']

def emptyPageLines : List Line := [Line.plain ['t', 'e', 'x', 't'] 1,
    Line.plain ['<', '!', '-', '-', ' ', 'p', 'a', 'g', 'e', ' ', '2', ' ', '-', '-', '>'] 2]

theorem split_emptyPage :
    (split 4300 emptyPage []).map (List.map fun s => (s.firstPage, s.lastPage)) =
      some [(1, 2)] := by
  have hlines : lines 4300 emptyPage = some emptyPageLines := by decide +kernel
  have hfits : tokens (join emptyPageLines) ≤ hardMaxTokens := by decide +kernel
  have hcut : cutByPages emptyPageLines = [emptyPageLines] := by decide +kernel
  have hlevel : splitLevel emptyPageLines = 0 := by decide +kernel
  have hchunks : chunksOf emptyPageLines = [emptyPageLines] := by
    rw [chunksOf]
    simp only [hlevel, hcut, ne_eq, not_true_eq_false, if_false, flatMap_singleton]
    rw [fit_eq, if_pos hfits]
    rfl
  have hshown : hasVisible emptyPageLines = true := by decide +kernel
  rw [split, hlines]
  simp only [Option.bind_eq_bind, Option.bind_some, hshown, if_true, hchunks, Option.map_some]
  decide +kernel

theorem long_word_cut : ((split 4300 (solid 24001) []).map (List.map Section.markdown) =
        some [solid 18000, solid 6001] ∧ ∀ c ∈ solid 24001, isSpace c = false) ∧
      (split 4300 emptyPage []).map (List.map fun s => (s.firstPage, s.lastPage)) =
        some [(1, 2)] := by
  refine ⟨⟨split_solid 4300 (by omega) (by omega) [], ?_⟩, split_emptyPage⟩
  intro c hc
  rw [eq_of_mem_replicate hc]
  decide

end Substrate.Split
