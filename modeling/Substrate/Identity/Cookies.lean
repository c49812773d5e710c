import Mathlib.Data.List.Range
import Mathlib.Logic.Function.Basic

/-!
A value in several cookies (`oidc-bff/src/cookies.ts`). It is split over `name`, `name.1`,
`name.2` and so on, which are the places 0, 1, 2 and so on of a jar here. What is written
replaces what was there if no more chunks were there than the request had shown.
-/

namespace Substrate.Identity

open List Function Option

abbrev Text := List Char

/-- The cookies of one name, by the number of the chunk: those of a browser, or those that
`parseCookies` finds in a request. -/
abbrev Jar := Nat → Option Text

/-- A `Set-Cookie` header: the cookie is set, or expires at once. -/
abbrev SetCookie := Nat × Option Text

def chunkSize : Nat := 3600

def maxChunks : Nat := 8

/-- The loop of `readCookie`, with so many chunks to go. -/
def gather (jar : Jar) : Nat → Nat → Text
  | 0, _ => []
  | count + 1, index =>
    match jar index with
    | none => []
    | some next => next ++ gather jar count (index + 1)

def readCookie (jar : Jar) : Option Text :=
  (jar 0).map fun value => value ++ gather jar (maxChunks - 1) 1

/-- The chunks of `setCookies`. -/
def chunks (value : Text) : List Text :=
  (List.range ((value.length + (chunkSize - 1)) / chunkSize)).map fun index =>
    (value.drop (chunkSize * index)).take chunkSize

def clearCookies (request : Jar) (start : Nat) : List SetCookie :=
  (((List.range maxChunks).drop start).filter fun index =>
    (request index).isSome || (start = 0 && index = 0)).map fun index => (index, none)

/-- `setCookies`, none if it throws. -/
def setCookies (request : Jar) (value : Text) : Option (List SetCookie) :=
  if (chunks value).length > maxChunks then none
  else
    some (((List.range (chunks value).length).map fun index => (index, (chunks value)[index]?)) ++
      clearCookies request (chunks value).length)

def Jar.apply (jar : Jar) (headers : List SetCookie) : Jar :=
  headers.foldl (fun jar header => update jar header.1 header.2) jar

/-- The jar holds the chunks of a value and no other ones. -/
def Jar.holds (jar : Jar) (value : Text) : Prop := ∀ index, jar index = (chunks value)[index]?

/-- What is there beyond the chunks of a value was in the request too. -/
def Jar.shownBeyond (jar request : Jar) (value : Text) : Prop :=
  ∀ index, (chunks value).length ≤ index → (jar index).isSome = true →
    index < maxChunks ∧ (request index).isSome = true

theorem chunks_get (value : Text) (index : Nat) : (chunks value)[index]? =
      if chunkSize * index < value.length then
        some ((value.drop (chunkSize * index)).take chunkSize)
      else none := by
  unfold chunks chunkSize
  rw [List.getElem?_map]
  split
  · rename_i hlt
    rw [List.getElem?_range (by omega)]
    rfl
  · rename_i hge
    rw [List.getElem?_eq_none (by rw [length_range]; omega)]
    rfl

theorem chunks_length (value : Text) (index : Nat) :
    (chunks value).length ≤ index ↔ value.length ≤ chunkSize * index := by
  rw [← List.getElem?_eq_none_iff, chunks_get]
  split
  · rename_i hlt
    exact ⟨fun heq => (nomatch heq), fun hle => absurd hlt (Nat.not_lt.mpr hle)⟩
  · rename_i hge
    exact ⟨fun _ => Nat.not_lt.mp hge, fun _ => rfl⟩

section

variable {jar request : Jar} {value : Text}

theorem Jar.holds.gather (h : jar.holds value) (count index : Nat)
    (hcount : (chunks value).length ≤ index + count) :
    gather jar count index = value.drop (chunkSize * index) := by
  induction count generalizing index with
  | zero =>
    exact (drop_eq_nil_of_le ((chunks_length value index).mp hcount)).symm
  | succ count ih =>
    unfold Identity.gather
    rw [h index, chunks_get]
    split
    · rename_i heq
      split at heq
      · cases heq
      · rename_i hge
        exact (drop_eq_nil_of_le (Nat.not_lt.mp hge)).symm
    · rename_i next heq
      split at heq
      · cases heq
        rw [ih (index + 1) (by omega), Nat.mul_add, Nat.mul_one, ← drop_drop]
        exact take_append_drop ..
      · cases heq

theorem Jar.holds.readCookie (h : jar.holds value) (hvalue : value ≠ [])
    (hfits : (chunks value).length ≤ maxChunks) : readCookie jar = some value := by
  have hpos : 0 < value.length := length_pos_iff.mpr hvalue
  unfold Identity.readCookie
  rw [h.gather (maxChunks - 1) 1 hfits, h 0, chunks_get, Nat.mul_zero, Nat.mul_one,
    if_pos hpos, drop_zero]
  exact congrArg some (take_append_drop chunkSize value)

theorem apply_cons (header : SetCookie) (headers : List SetCookie) :
    jar.apply (header :: headers) = Jar.apply (update jar header.1 header.2) headers :=
  rfl

variable {headers : List SetCookie} {index start : Nat}

theorem apply_not_mem (h : ∀ header ∈ headers, header.1 ≠ index) :
    jar.apply headers index = jar index := by
  induction headers generalizing jar with
  | nil => rfl
  | cons header rest ih =>
    rw [apply_cons, ih fun other hother => h other (mem_cons_of_mem _ hother)]
    exact update_of_ne (h header mem_cons_self).symm ..

theorem apply_mem {chunk : Option Text}
    (hall : ∀ header ∈ headers, header.1 = index → header.2 = chunk)
    (hsome : ∃ header ∈ headers, header.1 = index) : jar.apply headers index = chunk := by
  induction headers generalizing jar with
  | nil =>
    obtain ⟨_, hmem, _⟩ := hsome
    cases hmem
  | cons header rest ih =>
    rw [apply_cons]
    by_cases hrest : ∃ other ∈ rest, other.1 = index
    · exact ih (fun other hother => hall other (mem_cons_of_mem _ hother)) hrest
    · rw [apply_not_mem fun other hother heq => hrest ⟨other, hother, heq⟩]
      obtain ⟨first, hmem, heq⟩ := hsome
      rcases mem_cons.mp hmem with rfl | hmem
      · rw [← heq, update_self]
        exact hall first mem_cons_self heq
      · exact absurd ⟨first, hmem, heq⟩ hrest

theorem mem_clearCookies {header : SetCookie} (h : header ∈ clearCookies request start) :
    start ≤ header.1 ∧ header.2 = none := by
  obtain ⟨index, hindex, rfl⟩ := mem_map.mp h
  obtain ⟨hdrop, _⟩ := mem_filter.mp hindex
  obtain ⟨place, hplace, heq⟩ := getElem_of_mem hdrop
  rw [getElem_drop, getElem_range] at heq
  exact ⟨by omega, rfl⟩

theorem clearCookies_mem (hstart : start ≤ index) (hindex : index < maxChunks)
    (hrequest : (request index).isSome = true) : (index, none) ∈ clearCookies request start := by
  refine mem_map.mpr ⟨index, mem_filter.mpr ⟨?_, ?_⟩, rfl⟩
  · refine mem_of_getElem? (i := index - start) ?_
    rw [List.getElem?_drop, Nat.add_sub_cancel' hstart, List.getElem?_range hindex]
  · rw [hrequest]
    rfl

theorem holds_setCookies (h : setCookies request value = some headers)
    (hshown : jar.shownBeyond request value) : (jar.apply headers).holds value := by
  unfold setCookies at h
  split at h
  · cases h
  · cases h
    intro index
    by_cases hindex : index < (chunks value).length
    · apply apply_mem
      · intro header hmem heq
        rcases mem_append.mp hmem with hmem | hmem
        · obtain ⟨_, _, rfl⟩ := mem_map.mp hmem
          rw [← heq]
        · have hge := (mem_clearCookies hmem).1
          omega
      · exact ⟨_, mem_append_left _ (mem_map.mpr ⟨index, mem_range.mpr hindex, rfl⟩), rfl⟩
    · have hge := Nat.not_lt.mp hindex
      rw [List.getElem?_eq_none hge]
      by_cases hnamed : (jar index).isSome = true
      · obtain ⟨hmax, hrequest⟩ := hshown index hge hnamed
        apply apply_mem
        · intro header hmem heq
          rcases mem_append.mp hmem with hmem | hmem
          · obtain ⟨place, hplace, rfl⟩ := mem_map.mp hmem
            have hlt := mem_range.mp hplace
            dsimp only at heq
            omega
          · exact (mem_clearCookies hmem).2
        · exact ⟨_, mem_append_right _ (clearCookies_mem hge hmax hrequest), rfl⟩
      · have hnone : jar index = none := by
          rwa [Bool.not_eq_true, isSome_eq_false_iff, isNone_iff_eq_none] at hnamed
        by_cases hexists : ∃ header ∈ ((List.range (chunks value).length).map fun index =>
            (index, (chunks value)[index]?)) ++ clearCookies request (chunks value).length,
            header.1 = index
        · refine apply_mem ?_ hexists
          intro header hmem heq
          rcases mem_append.mp hmem with hmem | hmem
          · obtain ⟨place, hplace, rfl⟩ := mem_map.mp hmem
            have hlt := mem_range.mp hplace
            dsimp only at heq
            omega
          · exact (mem_clearCookies hmem).2
        · rw [apply_not_mem fun header hmem heq => hexists ⟨header, hmem, heq⟩]
          exact hnone

end

/-- A write by a request that carries the whole jar; one that throws writes nothing. -/
def Jar.write (jar : Jar) (value : Text) : Jar := ((setCookies jar value).map jar.apply).getD jar

def Jar.writes (values : List Text) : Jar := values.foldl Jar.write fun _ => none

def fits (value : Text) : Bool := (chunks value).length ≤ maxChunks

/-- The last value of the list that fits, empty where there is none. -/
def lastFitting (values : List Text) : Text := ((values.filter fits).getLast?).getD []

theorem lastFitting_fits (values : List Text) : (chunks (lastFitting values)).length ≤ maxChunks := by
  unfold lastFitting
  cases hlast : (values.filter fits).getLast? with
  | none => exact Nat.zero_le _
  | some last => exact of_decide_eq_true (mem_filter.mp (mem_of_getLast? hlast)).2

theorem setCookies_isSome (jar : Jar) (value : Text) :
    (setCookies jar value).isSome = fits value := by
  unfold setCookies fits
  split <;> simp_all

theorem lastFitting_concat (values : List Text) (value : Text) :
    lastFitting (values ++ [value]) = if fits value then value else lastFitting values := by
  cases hfits : fits value <;> simp [lastFitting, hfits]

theorem writes_holds (values : List Text) : (Jar.writes values).holds (lastFitting values) := by
  induction values using reverseRecOn with
  | nil => exact fun _ => rfl
  | append_singleton before value ih =>
    have hwrites : Jar.writes (before ++ [value]) = (Jar.writes before).write value :=
      foldl_concat ..
    rw [hwrites, Jar.write, lastFitting_concat, ← setCookies_isSome (Jar.writes before)]
    cases hset : setCookies (Jar.writes before) value with
    | none => exact ih
    | some headers =>
      refine holds_setCookies hset fun index _ hsome => ⟨?_, hsome⟩
      rw [ih index, isSome_getElem?] at hsome
      exact hsome.trans_le (lastFitting_fits before)

/-- After any writes the value that is read is the last one that was not too long, whole. -/
theorem last_write_read (values : List Text) :
    readCookie (Jar.writes values) = (some (lastFitting values)).filter (· ≠ []) := by
  have hholds := writes_holds values
  by_cases hempty : lastFitting values = []
  · rw [hempty] at hholds ⊢
    unfold readCookie
    rw [hholds 0]
    rfl
  · rw [hholds.readCookie hempty (lastFitting_fits values), filter_some, if_pos (by simpa)]

end Substrate.Identity
