import Substrate.Files.State
import Substrate.Lib.PosixPath

/-!
Volume paths (`files/paths.py`): the one normal form of a path, and of a prefix to list
or delete by. Unicode normalization is a parameter, as the tables of characters are not
part of the program.
-/

namespace Substrate.Files

open Lib List

def maxPathBytes : Nat := 1024

def maxSegmentBytes : Nat := 255

def reservedSuffixes : List Path := [":download-url".toList, ":restore".toList]

def reservedLastSegments : List Path := ["versions".toList]

def byteLength (text : Path) : Nat := (text.map Char.utf8Size).sum

/-- `_invalid`. -/
def invalidPath (detail : String) : Problem := ⟨400, "invalid-path", detail, []⟩

/-- `_segments`. `nfc` is `unicodedata.normalize("NFC", …)`. -/
def segmentsOf (nfc : Path → Path) (raw : Path) (what : String) : Except Problem (List Path) :=
  if raw.any fun c => c.toNat < 0x20 || c.toNat = 0x7F then
    .error (invalidPath s!"The {what} contains control characters")
  else if raw.any fun c => c.toNat = 0x5C then
    .error (invalidPath s!"The {what} must not contain backslashes")
  else
    let text := nfc raw
    if text.head? = some '/' then
      .error (invalidPath s!"The {what} must be relative to the volume")
    else if (text.splitOn '/').any fun part => part = ['.'] || part = ['.', '.'] then
      .error (invalidPath s!"The {what} must stay inside the volume")
    else
      let parts := (text.splitOn '/').filter fun part => part ≠ []
      if parts.any fun part => maxSegmentBytes < byteLength part then
        .error (invalidPath s!"A segment of the {what} is longer than {maxSegmentBytes} bytes")
      else .ok parts

local instance lawfulText : LawfulBEq (List Char) := inferInstance

def normalizePath (nfc : Path → Path) (raw : Path) : Except Problem Path := do
  let parts ← segmentsOf nfc raw "path"
  match parts.getLast? with
  | none => .error (invalidPath "The path must not be empty")
  | some last =>
    if raw.getLast? = some '/' then
      .error (invalidPath "A file path must not end with a slash")
    else if last ∈ reservedLastSegments ∨
        reservedSuffixes.any (fun suffix => suffix.isSuffixOf last) then
      let name := String.ofList last
      .error (invalidPath s!"The file name '{name}' is reserved")
    else
      let path := List.intercalate ['/'] parts
      if maxPathBytes < byteLength path then
        .error (invalidPath s!"The path is longer than {maxPathBytes} bytes")
      else .ok path

def normalizePrefix (nfc : Path → Path) (raw : Path) : Except Problem Path :=
  if raw = [] then .ok []
  else do
    let parts ← segmentsOf nfc raw "prefix"
    let joined := List.intercalate ['/'] parts
    let start := if joined ≠ [] ∧ raw.getLast? = some '/' then joined ++ ['/'] else joined
    if maxPathBytes < byteLength start then
      .error (invalidPath s!"The prefix is longer than {maxPathBytes} bytes")
    else .ok start

theorem getLast?_intercalate {parts : List Path} (hparts : ∀ part ∈ parts, part ≠ [] ∧ '/' ∉ part) :
    (List.intercalate ['/'] parts).getLast? ≠ some '/' := by
  induction parts with
  | nil => simp
  | cons part rest ih =>
    obtain ⟨hne, hslash⟩ := hparts part mem_cons_self
    have hrest := ih fun p hp => hparts p (mem_cons_of_mem _ hp)
    cases rest with
    | nil =>
      rw [intercalate_singleton]
      exact fun hlast => hslash (mem_of_getLast? hlast)
    | cons next more =>
      have hnext : List.intercalate ['/'] (next :: more) ≠ [] := by
        have hpart := (hparts next (by simp)).1
        cases more with
        | nil => rwa [intercalate_singleton]
        | cons p ps => simp [intercalate_cons_cons, hpart]
      rwa [intercalate_cons_cons, List.getLast?_append_of_ne_nil _ hnext]

theorem segmentsOf_parts {nfc : Path → Path} {raw : Path} {what : String} {parts : List Path}
    (h : segmentsOf nfc raw what = .ok parts) : ∀ part ∈ parts, part ≠ [] ∧ '/' ∉ part := by
  unfold segmentsOf at h
  split at h
  · cases h
  · split at h
    · cases h
    · dsimp only at h
      split at h
      · cases h
      · split at h
        · cases h
        · split at h
          · cases h
          · cases h
            intro part hpart
            obtain ⟨hmem, hne⟩ := mem_filter.mp hpart
            exact ⟨by simpa using hne, not_mem_of_mem_splitOn hmem⟩

variable {nfc : Path → Path} {raw : Path} {p : Problem}

theorem segmentsOf_error {what : String} (h : segmentsOf nfc raw what = .error p) :
    ∃ detail, p = invalidPath detail := by
  unfold segmentsOf at h
  split at h
  · cases h
    exact ⟨_, rfl⟩
  · split at h
    · cases h
      exact ⟨_, rfl⟩
    · dsimp only at h
      split at h
      · cases h
        exact ⟨_, rfl⟩
      · split at h
        · cases h
          exact ⟨_, rfl⟩
        · split at h
          · cases h
            exact ⟨_, rfl⟩
          · cases h

theorem normalizePath_error (h : normalizePath nfc raw = .error p) :
    ∃ detail, p = invalidPath detail := by
  unfold normalizePath at h
  cases hparts : segmentsOf nfc raw "path" with
  | error e =>
    rw [hparts] at h
    cases h
    exact segmentsOf_error hparts
  | ok parts =>
    rw [hparts] at h
    simp only [bind, Except.bind] at h
    split at h
    · cases h
      exact ⟨_, rfl⟩
    · repeat' split at h
      all_goals cases h
      all_goals exact ⟨_, rfl⟩

theorem normalizePrefix_error (h : normalizePrefix nfc raw = .error p) :
    ∃ detail, p = invalidPath detail := by
  unfold normalizePrefix at h
  split at h
  · cases h
  · cases hparts : segmentsOf nfc raw "prefix" with
    | error e =>
      rw [hparts] at h
      cases h
      exact segmentsOf_error hparts
    | ok parts =>
      rw [hparts] at h
      simp only [bind, Except.bind] at h
      generalize List.intercalate ['/'] parts = joined at h
      generalize (if joined ≠ [] ∧ raw.getLast? = some '/' then joined ++ ['/'] else joined) =
        start at h
      split at h
      · cases h
        exact ⟨_, rfl⟩
      · cases h

theorem normalizePrefix_slash {stem : Path} (h : normalizePrefix nfc raw = .ok (stem ++ ['/'])) :
    stem ≠ [] ∧ stem.getLast? ≠ some '/' := by
  unfold normalizePrefix at h
  split at h
  · cases stem <;> cases h
  · obtain ⟨parts, hparts, h⟩ := bind_ok_iff.mp h
    have hlast := getLast?_intercalate (segmentsOf_parts hparts)
    dsimp only at h
    generalize List.intercalate ['/'] parts = joined at h hlast
    by_cases hslash : joined ≠ [] ∧ raw.getLast? = some '/'
    · simp only [if_pos hslash] at h
      split at h
      · cases h
      · rw [← append_cancel_right (Except.ok.inj h)]
        exact ⟨hslash.1, hlast⟩
    · simp only [if_neg hslash] at h
      split at h
      · cases h
      · rw [Except.ok.inj h, List.getLast?_append_of_ne_nil _ (cons_ne_nil _ _)] at hlast
        exact absurd rfl hlast

end Substrate.Files
