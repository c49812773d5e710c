import Substrate.Files.Paths

/-!
Accepted paths are in normal form: what `normalizePath` makes of a path it accepts again, and
leaves as it is.
-/

namespace Substrate.Files

open Lib List

def special (c : Char) : Bool := c.toNat < 0x20 || c.toNat = 0x7F || c.toNat = 0x5C || c = '/'

/-- What `unicodedata.normalize("NFC", …)` does with a path. What is normalized stays as it
is, nothing is composed across a slash, and none of the special characters is made. -/
structure Composes (nfc : Path → Path) : Prop where
  idem : ∀ text, nfc (nfc text) = nfc text
  slash : ∀ front rest, nfc (front ++ '/' :: rest) = nfc front ++ '/' :: nfc rest
  kept : ∀ text, ∀ c ∈ nfc text, special c = true → c ∈ text

theorem composes_id : Composes id := ⟨fun _ => rfl, fun _ _ => rfl, fun _ _ hc _ => hc⟩

section

variable {nfc : Path → Path}

theorem Composes.not_slash (h : Composes nfc) {text : Path} (htext : '/' ∉ text) : '/' ∉ nfc text :=
  fun hin => htext (h.kept text '/' hin rfl)

theorem Composes.intercalate (h : Composes nfc) {parts : List Path} (hne : parts ≠ []) :
    nfc (List.intercalate ['/'] parts) = List.intercalate ['/'] (parts.map nfc) := by
  induction parts with
  | nil => exact absurd rfl hne
  | cons part rest ih =>
    cases rest with
    | nil => rw [map_singleton, intercalate_singleton, intercalate_singleton]
    | cons next more =>
      have hrest := ih (cons_ne_nil next more)
      rw [map_cons] at hrest
      rw [map_cons, map_cons, intercalate_cons_cons,
        intercalate_cons_cons, append_assoc, singleton_append, h.slash, hrest,
        append_assoc, singleton_append]

theorem Composes.parts (h : Composes nfc) {text : Path} (htext : nfc text = text) :
    ∀ part ∈ text.splitOn '/', nfc part = part := by
  have hjoined : List.intercalate ['/'] ((text.splitOn '/').map nfc) =
      List.intercalate ['/'] (text.splitOn '/') := by
    rw [← h.intercalate (splitOn_ne_nil '/' text), intercalate_splitOn, htext]
  have hplain : ∀ part ∈ text.splitOn '/', '/' ∉ part := fun _ hpart =>
    not_mem_of_mem_splitOn hpart
  have hnormal : ∀ part ∈ (text.splitOn '/').map nfc, '/' ∉ part := by
    intro part hpart
    obtain ⟨old, hold, rfl⟩ := mem_map.mp hpart
    exact h.not_slash (hplain old hold)
  have hsplit := congrArg (List.splitOn '/') hjoined
  rw [splitOn_intercalate '/' hnormal (by simp [splitOn_ne_nil]),
    splitOn_intercalate '/' hplain (splitOn_ne_nil '/' text)] at hsplit
  have hid : (text.splitOn '/').map nfc = (text.splitOn '/').map id := by
    rw [hsplit, map_id]
  exact fun part hpart => map_inj_left.mp hid part hpart

end

structure Segments (nfc : Path → Path) (raw : Path) (parts : List Path) : Prop where
  visible : ∀ c ∈ raw, ¬ (c.toNat < 0x20 ∨ c.toNat = 0x7F)
  plain : ∀ c ∈ raw, c.toNat ≠ 0x5C
  relative : (nfc raw).head? ≠ some '/'
  inside : ∀ part ∈ (nfc raw).splitOn '/', part ≠ ['.'] ∧ part ≠ ['.', '.']
  eq : parts = ((nfc raw).splitOn '/').filter fun part => part ≠ []
  short : ∀ part ∈ parts, byteLength part ≤ maxSegmentBytes

section

variable {nfc : Path → Path} {raw : Path}

theorem segmentsOf_ok_iff {what : String} {parts : List Path} :
    segmentsOf nfc raw what = .ok parts ↔ Segments nfc raw parts := by
  unfold segmentsOf
  constructor
  · intro h
    split at h
    · cases h
    · next hvisible =>
        split at h
        · cases h
        · next hplain =>
            dsimp only at h
            split at h
            · cases h
            · next hrelative =>
                split at h
                · cases h
                · next hinside =>
                    split at h
                    · cases h
                    · next hshort =>
                        cases h
                        simp only [any_eq_true, Bool.or_eq_true, decide_eq_true_eq,
                          not_exists, not_and] at hvisible hplain hinside hshort
                        refine ⟨hvisible, hplain, hrelative, fun part hpart => ?_, rfl,
                          fun part hpart => not_lt.mp (hshort part hpart)⟩
                        exact not_or.mp (hinside part hpart)
  · intro h
    have hvisible : (raw.any fun c => c.toNat < 0x20 || c.toNat = 0x7F) = false := by
      rw [any_eq_false]
      intro c hc
      simpa using h.visible c hc
    have hplain : (raw.any fun c => c.toNat = 0x5C) = false := by
      rw [any_eq_false]
      intro c hc
      simpa using h.plain c hc
    have hinside : (((nfc raw).splitOn '/').any fun part =>
        part = ['.'] || part = ['.', '.']) = false := by
      rw [any_eq_false]
      intro part hpart
      simpa using h.inside part hpart
    have hshort : (parts.any fun part => maxSegmentBytes < byteLength part) = false := by
      rw [any_eq_false]
      intro part hpart
      simpa using h.short part hpart
    rw [hvisible, hplain]
    dsimp only
    rw [if_neg Bool.false_ne_true, if_neg Bool.false_ne_true, if_neg h.relative, hinside,
      if_neg Bool.false_ne_true, ← h.eq, hshort, if_neg Bool.false_ne_true]

structure Accepts (nfc : Path → Path) (raw path : Path) (parts : List Path) (last : Path) :
    Prop where
  segments : Segments nfc raw parts
  named : parts.getLast? = some last
  file : raw.getLast? ≠ some '/'
  free : ¬ (last ∈ reservedLastSegments ∨
    reservedSuffixes.any (fun suffix => suffix.isSuffixOf last) = true)
  eq : path = List.intercalate ['/'] parts
  short : byteLength path ≤ maxPathBytes

theorem normalizePath_ok_iff {path : Path} :
    normalizePath nfc raw = .ok path ↔ ∃ parts last, Accepts nfc raw path parts last := by
  unfold normalizePath
  rw [bind_ok_iff]
  constructor
  · rintro ⟨parts, hparts, h⟩
    cases hlast : parts.getLast? with
    | none =>
      rw [hlast] at h
      cases h
    | some last =>
      rw [hlast] at h
      dsimp only at h
      split at h
      · cases h
      · next hfile =>
          split at h
          · cases h
          · next hfree =>
              split at h
              · cases h
              · next hshort =>
                  cases h
                  exact ⟨parts, last, segmentsOf_ok_iff.mp hparts, hlast, hfile, hfree, rfl,
                    not_lt.mp hshort⟩
  · rintro ⟨parts, last, h⟩
    refine ⟨parts, segmentsOf_ok_iff.mpr h.segments, ?_⟩
    have hshort : ¬ maxPathBytes < byteLength (List.intercalate ['/'] parts) := by
      rw [← h.eq]
      exact not_lt.mpr h.short
    rw [h.named]
    dsimp only
    rw [if_neg h.file, if_neg h.free, if_neg hshort, ← h.eq]

end

section

variable {nfc : Path → Path} {raw path : Path}

theorem mem_intercalate_of_mem {parts : List Path} {part : Path} {c : Char}
    (hpart : part ∈ parts) (hc : c ∈ part) : c ∈ List.intercalate ['/'] parts := by
  induction parts with
  | nil => cases hpart
  | cons first rest ih =>
    cases rest with
    | nil =>
      rw [mem_singleton.mp hpart] at hc
      rwa [intercalate_singleton]
    | cons next more =>
      rw [intercalate_cons_cons, append_assoc]
      rcases mem_cons.mp hpart with rfl | hpart
      · exact mem_append_left _ hc
      · exact mem_append_right _ (mem_append_right _ (ih hpart))

theorem mem_of_mem_intercalate {parts : List Path} {c : Char}
    (h : c ∈ List.intercalate ['/'] parts) : c = '/' ∨ ∃ part ∈ parts, c ∈ part := by
  induction parts with
  | nil => cases h
  | cons part rest ih =>
    cases rest with
    | nil =>
      rw [intercalate_singleton] at h
      exact .inr ⟨part, mem_cons_self, h⟩
    | cons next more =>
      rw [intercalate_cons_cons] at h
      rcases mem_append.mp h with h | h
      · rcases mem_append.mp h with h | h
        · exact .inr ⟨part, mem_cons_self, h⟩
        · exact .inl (mem_singleton.mp h)
      · rcases ih h with hslash | ⟨other, hother, hc⟩
        · exact .inl hslash
        · exact .inr ⟨other, mem_cons_of_mem _ hother, hc⟩

theorem head?_intercalate {parts : List Path} (hparts : ∀ part ∈ parts, part ≠ [] ∧ '/' ∉ part) :
    (List.intercalate ['/'] parts).head? ≠ some '/' := by
  cases parts with
  | nil => simp
  | cons part rest =>
    obtain ⟨hne, hslash⟩ := hparts part mem_cons_self
    obtain ⟨c, more, rfl⟩ := exists_cons_of_ne_nil hne
    have hc : c ≠ '/' := by
      rintro rfl
      exact hslash mem_cons_self
    cases rest with
    | nil => simpa [intercalate_singleton] using hc
    | cons next others => simpa [intercalate_cons_cons] using hc

theorem Segments.joined (hnfc : Composes nfc) {parts : List Path} (h : Segments nfc raw parts)
    (hne : parts ≠ []) : nfc (List.intercalate ['/'] parts) = List.intercalate ['/'] parts ∧
      Segments nfc (List.intercalate ['/'] parts) parts := by
  have hsub : ∀ part ∈ parts, part ∈ (nfc raw).splitOn '/' ∧ part ≠ [] := by
    intro part hpart
    rw [h.eq] at hpart
    obtain ⟨hmem, hpart⟩ := mem_filter.mp hpart
    exact ⟨hmem, by simpa using hpart⟩
  have hplain : ∀ part ∈ parts, '/' ∉ part := fun part hpart =>
    not_mem_of_mem_splitOn (hsub part hpart).1
  have hnormal : nfc (List.intercalate ['/'] parts) = List.intercalate ['/'] parts := by
    rw [hnfc.intercalate hne]
    have hid : parts.map nfc = parts.map id := map_inj_left.mpr fun part hpart =>
      hnfc.parts (hnfc.idem raw) part (hsub part hpart).1
    rw [hid, map_id]
  have hsplit : (List.intercalate ['/'] parts).splitOn '/' = parts :=
    splitOn_intercalate '/' hplain hne
  have hchars : ∀ c ∈ List.intercalate ['/'] parts, c = '/' ∨ c ∈ nfc raw := by
    intro c hc
    rcases mem_of_mem_intercalate hc with hslash | ⟨part, hpart, hin⟩
    · exact .inl hslash
    · refine .inr ?_
      have hin' := mem_intercalate_of_mem (hsub part hpart).1 hin
      rwa [intercalate_splitOn] at hin'
  have hspecial : ∀ c ∈ List.intercalate ['/'] parts, special c = true → c = '/' ∨ c ∈ raw := by
    intro c hc hmeans
    rcases hchars c hc with hslash | hin
    · exact .inl hslash
    · exact .inr (hnfc.kept raw c hin hmeans)
  refine ⟨hnormal, ?_, ?_, ?_, ?_, ?_, h.short⟩
  · intro c hc hcontrol
    have hmeans : special c = true := by
      unfold special
      rcases hcontrol with hlow | hdelete
      · simp [hlow]
      · simp [hdelete]
    rcases hspecial c hc hmeans with rfl | hin
    · revert hcontrol
      decide
    · exact h.visible c hin hcontrol
  · intro c hc hback
    rcases hspecial c hc (by simp [special, hback]) with rfl | hin
    · revert hback
      decide
    · exact h.plain c hin hback
  · rw [hnormal]
    exact head?_intercalate fun part hpart => ⟨(hsub part hpart).2, hplain part hpart⟩
  · rw [hnormal, hsplit]
    exact fun part hpart => h.inside part (hsub part hpart).1
  · rw [hnormal, hsplit]
    symm
    rw [filter_eq_self]
    exact fun part hpart => by simpa using (hsub part hpart).2

theorem normalizePath_idem (hnfc : Composes nfc) (h : normalizePath nfc raw = .ok path) :
    normalizePath nfc path = .ok path := by
  obtain ⟨parts, last, h⟩ := normalizePath_ok_iff.mp h
  have hne : parts ≠ [] := ne_nil_of_mem (mem_of_getLast? h.named)
  have hsegments := (h.segments.joined hnfc hne).2
  have hparts : ∀ part ∈ parts, part ≠ [] ∧ '/' ∉ part :=
    @segmentsOf_parts nfc raw "path" parts (segmentsOf_ok_iff.mpr h.segments)
  refine normalizePath_ok_iff.mpr ⟨parts, last, ?_, h.named, ?_, h.free, h.eq, h.short⟩
  · rw [h.eq]
    exact hsegments
  · rw [h.eq]
    exact getLast?_intercalate hparts

end

end Substrate.Files
