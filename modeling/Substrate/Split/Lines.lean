import Substrate.Lib.TextLines

/-!
The lines of a document's markdown: which of them mark a page, open or close a code fence or
are headings, and the page that each lies on.
-/

namespace Substrate.Split

open Lib.PyText List

def minTokens : Nat := 300
def targetMaxTokens : Nat := 6000
def hardMaxTokens : Nat := 8000

/-- `len(text.encode("utf-8"))`. -/
def bytes (text : Text) : Nat := (text.map Char.utf8Size).sum

def tokens (text : Text) : Nat := bytes text / 3 + 1

def markerStart : Text := ['<', '!', '-', '-', ' ', 'p', 'a', 'g', 'e', ' ']
def markerEnd : Text := [' ', '-', '-', '>']

/-- `_PAGE`: the digits of a page marker. -/
def marker? (text : Text) : Option Text := do
  let rest ← text.dropPrefix? markerStart
  let digits := rest.takeWhile isDigit
  let after ← (rest.dropWhile isDigit).dropPrefix? markerEnd
  if digits ≠ [] ∧ isBlank after = true then some digits else none

/-- `_FENCE`. -/
def isFence (text : Text) : Bool :=
  ['\x60', '\x60', '\x60'].isPrefixOf (lstrip text) || ['~', '~', '~'].isPrefixOf (lstrip text)

/-- What may follow a heading's title: `\s*#*\s*`. -/
def closesHeading (text : Text) : Bool := isBlank ((lstrip text).dropWhile (· == '#'))

def shortestTitle : Text → Text
  | [] => []
  | c :: rest => if closesHeading rest then [c] else c :: shortestTitle rest

/-- `_HEADING`: the level and the title. A heading of white space alone has the last of it for
its title. -/
def heading? (text : Text) : Option (Nat × Text) :=
  let hashes := text.takeWhile (· == '#')
  let space := (text.dropWhile (· == '#')).takeWhile isSpace
  let rest := (text.dropWhile (· == '#')).dropWhile isSpace
  if hashes.length = 0 ∨ 6 < hashes.length ∨ space = [] then none
  else if rest ≠ [] then some (hashes.length, shortestTitle rest)
  else if 2 ≤ space.length then some (hashes.length, space.drop (space.length - 1))
  else none

def visible (text : Text) : Bool := !isBlank text

def isContent (text : Text) : Bool := visible text && (marker? text).isNone

variable {text : Text} {found : Nat × Text} {page maxDigits : Nat} {fenced : Bool}
    {texts : List Text}

theorem visible_of_isContent (h : isContent text = true) : visible text = true := by
  unfold isContent at h
  rw [Bool.and_eq_true] at h
  exact h.1

theorem heading?_hash (h : heading? text = some found) : ∃ rest, text = '#' :: rest := by
  cases text with
  | nil => simp [heading?] at h
  | cons c rest =>
    by_cases hc : c = '#'
    · exact ⟨rest, by rw [hc]⟩
    · simp [heading?, hc] at h

theorem isContent_of_heading (h : heading? text = some found) : isContent text = true := by
  obtain ⟨rest, rfl⟩ := heading?_hash h
  have hspace : isSpace '#' = false := by decide
  have hmarker : marker? ('#' :: rest) = none := by
    simp [marker?, markerStart, List.dropPrefix?]
  simp [isContent, visible, isBlank, hmarker, hspace]

structure Line where
  text : Text
  page : Nat
  level : Nat
  title : Text
  deriving DecidableEq, Repr

def Line.plain (text : Text) (page : Nat) : Line := ⟨text, page, 0, []⟩

/-- The page that a marker on this line opens, which is none where it has more digits than the
interpreter converts. -/
def pageOf (maxDigits page : Nat) (text : Text) : Option Nat :=
  match marker? text with
  | none => some page
  | some digits => if maxDigits < digits.length then none else some (readNat digits)

def linesFrom (maxDigits page : Nat) (fenced : Bool) : List Text → Option (List Line)
  | [] => some []
  | text :: rest => do
      let page ← pageOf maxDigits page text
      let fenced := if isFence text then !fenced else fenced
      let found := if fenced then none else heading? text
      let more ← linesFrom maxDigits page fenced rest
      some (⟨text, page, (found.map Prod.fst).getD 0, (found.map Prod.snd).getD []⟩ :: more)

/-- `_lines`, which has no value where `int` converts no marker's number. -/
def lines (maxDigits : Nat) (markdown : Text) : Option (List Line) :=
  linesFrom maxDigits 1 false (splitlines markdown)

def pageNumbers (page : Nat) : List Text → List (Text × Nat)
  | [] => []
  | text :: rest =>
    let page := ((marker? text).map readNat).getD page
    (text, page) :: pageNumbers page rest

def pageNumbersOutside (page : Nat) (fenced : Bool) : List Text → List (Text × Nat)
  | [] => []
  | text :: rest =>
    let fenced := if isFence text then !fenced else fenced
    let page := if fenced then page else ((marker? text).map readNat).getD page
    (text, page) :: pageNumbersOutside page fenced rest

def markersOutside (fenced : Bool) : List Text → Bool
  | [] => true
  | text :: rest =>
    let fenced := if isFence text then !fenced else fenced
    !(fenced && (marker? text).isSome) && markersOutside fenced rest

theorem pageNumbers_outside (h : markersOutside fenced texts = true) :
    pageNumbersOutside page fenced texts = pageNumbers page texts := by
  induction texts generalizing page fenced with
  | nil => rfl
  | cons text rest ih =>
    unfold markersOutside at h
    simp only [Bool.and_eq_true, Bool.not_eq_true', Bool.and_eq_false_iff] at h
    obtain ⟨hhere, hrest⟩ := h
    unfold pageNumbersOutside pageNumbers
    have hpage : (if (if isFence text then !fenced else fenced) = true then page
        else ((marker? text).map readNat).getD page) = ((marker? text).map readNat).getD page := by
      rcases hhere with hout | hnone
      · simp [hout]
      · rw [Option.isNone_iff_eq_none.mp (Option.isSome_eq_false_iff.mp hnone)]
        simp
    simp only [hpage, ih hrest]

theorem pageNumbers_texts (page : Nat) (texts : List Text) :
    (pageNumbers page texts).map Prod.fst = texts := by
  induction texts generalizing page with
  | nil => rfl
  | cons text rest ih => rw [pageNumbers, map_cons, ih]

def Line.numbered (line : Line) : Text × Nat := (line.text, line.page)

theorem linesFrom_numbered {found : List Line}
    (h : linesFrom maxDigits page fenced texts = some found) :
    found.map Line.numbered = pageNumbers page texts := by
  induction texts generalizing page fenced found with
  | nil =>
    cases h
    rfl
  | cons text rest ih =>
    simp only [linesFrom, Option.bind_eq_bind, Option.bind_eq_some_iff, Option.some.injEq] at h
    obtain ⟨next, hnext, more, hmore, rfl⟩ := h
    have hpage : ((marker? text).map readNat).getD page = next := by
      unfold pageOf at hnext
      split at hnext
      · next hnone =>
        rw [hnone]
        simpa using hnext
      · next digits hsome =>
        rw [hsome]
        split at hnext
        · cases hnext
        · simpa using hnext
    rw [map_cons, ih hmore, pageNumbers, hpage]
    rfl

theorem linesFrom_none {maxDigits page : Nat} {fenced : Bool} {texts : List Text} :
    linesFrom maxDigits page fenced texts = none ↔
      ∃ text ∈ texts, ∃ digits, marker? text = some digits ∧ maxDigits < digits.length := by
  induction texts generalizing page fenced with
  | nil => simp [linesFrom]
  | cons text rest ih =>
    simp only [linesFrom, Option.bind_eq_bind, Option.bind_eq_none_iff, reduceCtorEq, imp_false,
      exists_mem_cons_iff]
    unfold pageOf
    cases hmarker : marker? text with
    | none =>
      simp only [Option.some.injEq, forall_eq', reduceCtorEq, false_and, exists_false, false_or]
      rw [← @ih page, Option.eq_none_iff_forall_ne_some]
    | some digits =>
      by_cases hlong : maxDigits < digits.length
      · simp [hlong]
      · simp only [hlong, if_false, Option.some.injEq, forall_eq', exists_eq_left', false_or]
        rw [← @ih (readNat digits), Option.eq_none_iff_forall_ne_some]

/-- What holds of every line of a document: it holds no line break, and a heading is content. -/
structure Line.Sound (line : Line) : Prop where
  unbroken : Unbroken line.text
  content : line.level ≠ 0 → isContent line.text = true

theorem Line.plain_sound (h : Unbroken text) (page : Nat) : (Line.plain text page).Sound :=
  ⟨h, fun hlevel => absurd rfl hlevel⟩

theorem linesFrom_sound {found : List Line} (htexts : ∀ text ∈ texts, Unbroken text)
    (h : linesFrom maxDigits page fenced texts = some found) : ∀ line ∈ found, line.Sound := by
  induction texts generalizing page fenced found with
  | nil =>
    cases h
    intro line hline
    cases hline
  | cons text rest ih =>
    simp only [linesFrom, Option.bind_eq_bind, Option.bind_eq_some_iff, Option.some.injEq] at h
    obtain ⟨next, hnext, more, hmore, rfl⟩ := h
    intro line hline
    rcases mem_cons.mp hline with rfl | hline
    · refine ⟨htexts text mem_cons_self, ?_⟩
      intro hlevel
      generalize (if isFence text then !fenced else fenced) = inside at hlevel
      cases inside with
      | true => simp at hlevel
      | false =>
        cases hheading : heading? text with
        | none => simp [hheading] at hlevel
        | some found => exact isContent_of_heading hheading
    · exact ih (fun t ht => htexts t (mem_cons_of_mem _ ht)) hmore line hline

end Substrate.Split
