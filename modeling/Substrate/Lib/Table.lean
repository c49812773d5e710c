import Mathlib.Data.List.Nodup
import Mathlib.Data.List.Lookmap

/-!
Keyed tables: a list of rows in insertion order whose keys are distinct. The primary key
is a field of the structure, so a table with two rows for one key cannot be built, and
every operation below returns a table again.
-/

namespace Substrate.Lib

open List Function Option

universe u v

structure Table (κ : Type u) (α : Type v) where
  rows : List (κ × α)
  nodup : (rows.map Prod.fst).Nodup

namespace Table

variable {κ : Type u} {α : Type v}

def empty : Table κ α := ⟨[], nodup_nil⟩

def map (t : Table κ α) (f : κ → α → α) : Table κ α where
  rows := t.rows.map fun row => (row.1, f row.1 row.2)
  nodup := by
    rw [List.map_map]
    exact t.nodup

/-- Keep the rows that satisfy `p`. -/
def filter (t : Table κ α) (p : κ → α → Bool) : Table κ α where
  rows := t.rows.filter fun row => p row.1 row.2
  nodup := t.nodup.sublist (filter_sublist.map Prod.fst)

theorem filter_true (t : Table κ α) : t.filter (fun _ _ => true) = t := by
  cases t
  simp [filter]

theorem filter_filter (t : Table κ α) (p q : κ → α → Bool) :
    (t.filter p).filter q = t.filter fun k a => p k a && q k a := by
  simp [filter, List.filter_filter, Bool.and_comm]

theorem filter_congr {t : Table κ α} {p q : κ → α → Bool} (h : ∀ k a, p k a = q k a) :
    t.filter p = t.filter q := by
  have heq : p = q := funext fun k => funext fun a => h k a
  rw [heq]

theorem map_map (t : Table κ α) (f g : κ → α → α) :
    (t.map f).map g = t.map fun k a => g k (f k a) := by
  simp [map, comp_def]

variable [DecidableEq κ]

def get? (t : Table κ α) (k : κ) : Option α := (t.rows.find? fun row => row.1 = k).map Prod.snd

/-- Add a row at the end. A key already present keeps the row it has. -/
def insert (t : Table κ α) (k : κ) (a : α) : Table κ α :=
  if h : k ∈ t.rows.map Prod.fst then t
  else
    ⟨t.rows ++ [(k, a)], by
      rw [map_append, nodup_append]
      refine ⟨t.nodup, nodup_singleton _, ?_⟩
      rintro x hx y hy rfl
      simp only [map_cons, map_nil, mem_singleton] at hy
      exact h (hy ▸ hx)⟩

def modify (t : Table κ α) (k : κ) (f : α → α) : Table κ α :=
  t.map fun k' a => if k' = k then f a else a

def erase (t : Table κ α) (k : κ) : Table κ α := t.filter fun k' _ => k' ≠ k

/-- Rewrite the row under a key, starting from `a` when there is none. -/
def upsert (t : Table κ α) (k : κ) (a : α) (f : α → α) : Table κ α := (t.insert k a).modify k f

@[simp] theorem get?_empty (k : κ) : (empty : Table κ α).get? k = none := rfl

theorem mem_rows_iff {t : Table κ α} {k : κ} {a : α} : (k, a) ∈ t.rows ↔ t.get? k = some a := by
  constructor
  · intro hmem
    have hfind : ∃ row, t.rows.find? (fun row => row.1 = k) = some row := by
      rw [← isSome_iff_exists, List.find?_isSome]
      exact ⟨(k, a), hmem, by simp⟩
    obtain ⟨⟨k', a'⟩, hfind⟩ := hfind
    have hkey : k' = k := by simpa using List.find?_some hfind
    subst hkey
    have hother : (k', a') ∈ t.rows := mem_of_find?_eq_some hfind
    have hsame : (k', a) = (k', a') := inj_on_of_nodup_map t.nodup hmem hother rfl
    rw [get?, hfind]
    simp only [map_some, Option.some.injEq]
    exact ((Prod.mk.injEq ..).mp hsame).2.symm
  · intro hget
    obtain ⟨⟨k', a'⟩, hfind, hval⟩ := map_eq_some_iff.mp hget
    have hkey : k' = k := by simpa using List.find?_some hfind
    subst hkey hval
    exact mem_of_find?_eq_some hfind

theorem get?_eq_none_iff {t : Table κ α} {k : κ} : t.get? k = none ↔ k ∉ t.rows.map Prod.fst := by
  constructor
  · intro hnone hmem
    obtain ⟨⟨k', a⟩, hrow, rfl⟩ := mem_map.mp hmem
    rw [mem_rows_iff.mp hrow] at hnone
    cases hnone
  · intro hmem
    rw [eq_none_iff_forall_ne_some]
    intro a hget
    exact hmem (mem_map.mpr ⟨(k, a), mem_rows_iff.mpr hget, rfl⟩)

@[simp] theorem get?_map (t : Table κ α) (f : κ → α → α) (k : κ) :
    (t.map f).get? k = (t.get? k).map (f k) := by
  simp only [get?, map, List.find?_map, comp_def, Option.map_map]
  cases hfind : t.rows.find? (fun row => row.1 = k) with
  | none => rfl
  | some row =>
    have hkey : row.1 = k := by simpa using List.find?_some hfind
    simp [hkey]

theorem get?_modify (t : Table κ α) (k k' : κ) (f : α → α) : (t.modify k f).get? k' =
      if k' = k then (t.get? k').map f else t.get? k' := by
  rw [modify, get?_map]
  by_cases hkey : k' = k
  · simp [hkey]
  · simp [hkey]

@[simp] theorem get?_modify_self (t : Table κ α) (k : κ) (f : α → α) :
    (t.modify k f).get? k = (t.get? k).map f := by
  simp [get?_modify]

theorem get?_modify_of_ne {t : Table κ α} {k k' : κ} {f : α → α} (hne : k' ≠ k) :
    (t.modify k f).get? k' = t.get? k' := by
  simp [get?_modify, hne]

theorem modify_modify (t : Table κ α) (k : κ) (f g : α → α) :
    (t.modify k f).modify k g = t.modify k fun a => g (f a) := by
  rw [modify, modify, map_map, modify]
  congr 1
  funext k' a
  by_cases hkey : k' = k <;> simp [hkey]

@[simp] theorem get?_filter (t : Table κ α) (p : κ → α → Bool) (k : κ) :
    (t.filter p).get? k = (t.get? k).filter (p k) := by
  ext a
  rw [← mem_rows_iff, filter_eq_some_iff, ← mem_rows_iff]
  simp [filter]

theorem get?_insert (t : Table κ α) (k k' : κ) (a : α) : (t.insert k a).get? k' =
      if k' = k then some ((t.get? k).getD a) else t.get? k' := by
  by_cases hmem : k ∈ t.rows.map Prod.fst
  · have hsome : t.get? k ≠ none := fun hnone => get?_eq_none_iff.mp hnone hmem
    obtain ⟨b, hb⟩ := ne_none_iff_exists'.mp hsome
    rw [insert, dif_pos hmem]
    by_cases hkey : k' = k
    · simp [hkey, hb]
    · simp [hkey]
  · have hnone : t.get? k = none := get?_eq_none_iff.mpr hmem
    rw [insert, dif_neg hmem]
    by_cases hkey : k' = k
    · subst hkey
      rw [if_pos rfl, hnone]
      simp only [get?, map_eq_none_iff] at hnone
      simp [get?, List.find?_append, hnone]
    · have hne : ¬ k = k' := fun heq => hkey heq.symm
      simp [get?, List.find?_append, hkey, hne]

theorem get?_insert_of_none {t : Table κ α} {k k' : κ} {a : α} (hnone : t.get? k = none) :
    (t.insert k a).get? k' = if k' = k then some a else t.get? k' := by
  simp [get?_insert, hnone]

theorem get?_erase (t : Table κ α) (k k' : κ) :
    (t.erase k).get? k' = if k' = k then none else t.get? k' := by
  rw [erase, get?_filter]
  by_cases hkey : k' = k
  · cases t.get? k' <;> simp [hkey]
  · cases t.get? k' <;> simp [hkey]

theorem mem_filter_rows {t : Table κ α} {p : κ × α → Bool} {k : κ} {a : α} :
    (k, a) ∈ t.rows.filter p ↔ t.get? k = some a ∧ p (k, a) = true := by
  rw [mem_filter, mem_rows_iff]

/-! ### Notes

A fact about each row may be noted when its key first appears, outside the
table. The latest note on a key is the one about its present row. -/

section Notes

variable {β : Type*}

/-- The notes after a change of the table, newest first: each key that was not
there before is noted. -/
def note (old new : Table κ α) (about : κ → α → β) (notes : List (κ × β)) : List (κ × β) :=
  (new.rows.filter fun row => (old.get? row.1).isNone).map
    (fun row => (row.1, about row.1 row.2)) ++ notes

def latest (notes : List (κ × β)) (k : κ) : Option β :=
  (notes.find? fun entry => entry.1 = k).map Prod.snd

theorem latest_append (newer older : List (κ × β)) (k : κ) :
    latest (newer ++ older) k = (latest newer k).or (latest older k) := by
  unfold latest
  rw [List.find?_append]
  cases newer.find? fun entry => entry.1 = k <;> rfl

theorem latest_map (t : Table κ α) (about : κ → α → β) (k : κ) :
    latest (t.rows.map fun row => (row.1, about row.1 row.2)) k = (t.get? k).map (about k) := by
  unfold latest get?
  rw [List.find?_map, Option.map_map, Option.map_map]
  simp only [comp_def]
  cases hfind : t.rows.find? fun row => row.1 = k with
  | none => rfl
  | some row =>
    have hkey : row.1 = k := by simpa using List.find?_some hfind
    simp [hkey]

theorem latest_note (old new : Table κ α) (about : κ → α → β) (notes : List (κ × β)) (k : κ) :
    latest (note old new about notes) k =
      (((new.get? k).filter fun _ => (old.get? k).isNone).map (about k)).or (latest notes k) := by
  unfold note
  rw [latest_append]
  congr 1
  rw [← get?_filter new (fun key _ => (old.get? key).isNone) k]
  exact latest_map (new.filter fun key _ => (old.get? key).isNone) about k

theorem note_filter (t : Table κ α) (p : κ → α → Bool) (about : κ → α → β)
    (notes : List (κ × β)) : note t (t.filter p) about notes = notes := by
  have hnone : ((t.filter p).rows.filter fun row => (t.get? row.1).isNone) = [] := by
    rw [filter_eq_nil_iff]
    rintro ⟨k, a⟩ hrow hmissing
    have hkept : (t.filter p).get? k = some a := mem_rows_iff.mp hrow
    rw [get?_filter, filter_eq_some_iff] at hkept
    rw [hkept.1] at hmissing
    cases hmissing
  unfold note
  rw [hnone]
  rfl

end Notes

/-- The number of rows that satisfy `p`. -/
def count (t : Table κ α) (p : α → Bool) : Nat := t.rows.countP fun row => p row.2

omit [DecidableEq κ] in
omit [DecidableEq κ] in
omit [DecidableEq κ] in
private theorem map_fst_rekeyed (t : Table κ α) (f : κ → κ) :
    (t.rows.map fun row => (f row.1, row.2)).map Prod.fst = (t.rows.map Prod.fst).map f := by
  simp [comp_def]

def rekey (t : Table κ α) (f : κ → κ) : Option (Table κ α) :=
  if h : ((t.rows.map Prod.fst).map f).Nodup then
    some ⟨t.rows.map fun row => (f row.1, row.2), by
      rw [map_fst_rekeyed]
      exact h⟩
  else none

theorem get?_rekey {t t' : Table κ α} {f : κ → κ} (h : t.rekey f = some t') {k : κ} {a : α} :
    t'.get? k = some a ↔ ∃ k₀, f k₀ = k ∧ t.get? k₀ = some a := by
  unfold rekey at h
  split at h
  · cases h
    rw [← mem_rows_iff, List.mem_map]
    constructor
    · rintro ⟨⟨k₀, a₀⟩, hrow, heq⟩
      cases heq
      exact ⟨k₀, rfl, mem_rows_iff.mp hrow⟩
    · rintro ⟨k₀, rfl, hget⟩
      exact ⟨(k₀, a), mem_rows_iff.mpr hget, rfl⟩
  · cases h

theorem exists_rekey {t : Table κ α} {f : κ → κ}
    (h : ∀ k k' a a', t.get? k = some a → t.get? k' = some a' → f k = f k' → k = k') :
    ∃ t', t.rekey f = some t' := by
  have hnodup : ((t.rows.map Prod.fst).map f).Nodup := by
    apply List.Nodup.map_on _ t.nodup
    intro k hk k' hk' heq
    obtain ⟨⟨_, a⟩, hrow, rfl⟩ := mem_map.mp hk
    obtain ⟨⟨_, a'⟩, hrow', rfl⟩ := mem_map.mp hk'
    exact h _ _ a a' (mem_rows_iff.mp hrow) (mem_rows_iff.mp hrow') heq
  unfold rekey
  rw [dif_pos hnodup]
  exact ⟨_, rfl⟩

end Table

end Substrate.Lib
