import Substrate.Lib.Weight

/-!
The worker's cache of recent results (`compute/service.py`). An entry is good until a
time; the entries stand in the order of their last use, and the oldest go first when
there are too many bytes. The count of bytes is kept beside the entries.
-/

namespace Substrate.Compute

open Lib

abbrev Bytes := List UInt8

/-- `ResultCache`. Times are in milliseconds. -/
structure ResultCache (δ : Type) where
  capacity : Nat
  entryLimit : Nat
  items : Table δ (Nat × Bytes)
  size : Int
  hits : Nat
  misses : Nat

namespace ResultCache

/-- `TTL_SECONDS`. -/
def ttl : Nat := 600 * 1000

variable {δ : Type} [DecidableEq δ]

def new (capacity entryLimit : Nat) : ResultCache δ := ⟨capacity, entryLimit, Table.empty, 0, 0, 0⟩

variable (c : ResultCache δ)

def enabled : Bool := 0 < c.capacity

def get (key : δ) (now : Nat) : Option Bytes × ResultCache δ :=
  if c.enabled = false then (none, c)
  else
    match c.items.get? key with
    | none => (none, { c with misses := c.misses + 1 })
    | some (expires, value) =>
      if expires < now then
        (none, { c with
          items := c.items.erase key
          size := c.size - value.length
          misses := c.misses + 1 })
      else
        (some value, { c with
          items := (c.items.erase key).insert key (expires, value)
          hits := c.hits + 1 })

/-- The loop of `put`: the oldest entries go while there are too many bytes. -/
def evict (capacity : Nat) : List (δ × (Nat × Bytes)) → Int → List (δ × (Nat × Bytes)) × Int
  | [], size => ([], size)
  | row :: rest, size =>
    if (capacity : Int) < size then evict capacity rest (size - row.2.2.length)
    else (row :: rest, size)

omit [DecidableEq δ] in
theorem evict_suffix (capacity : Nat) (rows : List (δ × (Nat × Bytes))) (size : Int) :
    (evict capacity rows size).1 <:+ rows := by
  induction rows generalizing size with
  | nil => exact List.suffix_refl _
  | cons row rest ih =>
    unfold evict
    split
    · exact (ih _).trans (List.suffix_cons _ _)
    · exact List.suffix_refl _

def put (key : δ) (value : Bytes) (now : Nat) : ResultCache δ :=
  if c.enabled = false ∨ c.entryLimit < value.length then c
  else
    let size :=
      match c.items.get? key with
      | some old => c.size - old.2.length
      | none => c.size
    let items := (c.items.erase key).insert key (now + ttl, value)
    let kept := evict c.capacity items.rows (size + value.length)
    { c with
      items := ⟨kept.1, items.nodup.sublist ((evict_suffix _ _ _).sublist.map _)⟩
      size := kept.2 }

def total (rows : List (δ × (Nat × Bytes))) : Int :=
  ((rows.map fun row => row.2.2.length).sum : Nat)

structure Counted : Prop where
  exact_ : c.size = total c.items.rows
  within : c.size ≤ c.capacity

omit [DecidableEq δ] in
theorem total_cons (row : δ × (Nat × Bytes)) (rows : List (δ × (Nat × Bytes))) :
    total (row :: rows) = row.2.2.length + total rows := by
  simp [total]

omit [DecidableEq δ] in
theorem evict_counted (capacity : Nat) {rows : List (δ × (Nat × Bytes))} {size : Int}
    (h : size = total rows) :
    (evict capacity rows size).2 = total (evict capacity rows size).1 ∧
      (evict capacity rows size).2 ≤ capacity := by
  induction rows generalizing size with
  | nil =>
    rw [h]
    exact ⟨rfl, Int.natCast_nonneg _⟩
  | cons row rest ih =>
    unfold evict
    split
    · refine ih ?_
      rw [h, total_cons]
      omega
    · next hfits => exact ⟨h, Int.not_lt.mp hfits⟩

theorem total_erase (t : Table δ (Nat × Bytes)) (key : δ) :
    total (t.erase key).rows = total t.rows - ((t.get? key).map fun e => (e.2.length : Int)).getD 0 := by
  have hweight : ∀ t : Table δ (Nat × Bytes), total t.rows = t.weight fun _ e => e.2.length :=
    fun t => rfl
  have hother : ∀ k, k ∉ ({key} : Finset δ) →
      (t.erase key).weightAt (fun _ e => e.2.length) k = t.weightAt (fun _ e => e.2.length) k := by
    intro k hk
    have hne : k ≠ key := by simpa using hk
    unfold Table.weightAt
    rw [Table.get?_erase, if_neg hne]
  have hle := Table.weight_add_sum {key} fun k hk => (hother k hk).le
  have hge := Table.weight_add_sum {key} fun k hk => (hother k hk).ge
  rw [Finset.sum_singleton, Finset.sum_singleton] at hle hge
  have hgone : (t.erase key).weightAt (fun _ e => e.2.length) key = 0 :=
    Table.weightAt_of_none (by rw [Table.get?_erase, if_pos rfl])
  have hthere : (((t.get? key).map fun e => (e.2.length : Int)).getD 0) =
      (t.weightAt (fun _ e => e.2.length) key : Int) := by
    unfold Table.weightAt
    cases t.get? key <;> rfl
  rw [hweight, hweight, hthere]
  omega

theorem total_insert {t : Table δ (Nat × Bytes)} {key : δ} (hnone : t.get? key = none)
    (entry : Nat × Bytes) : total (t.insert key entry).rows = total t.rows + entry.2.length := by
  unfold Table.insert
  rw [dif_neg (Table.get?_eq_none_iff.mp hnone)]
  simp [total]

theorem get?_erase_self (t : Table δ (Nat × Bytes)) (key : δ) : (t.erase key).get? key = none := by
  rw [Table.get?_erase, if_pos rfl]

omit [DecidableEq δ] in
theorem counted_new (capacity entryLimit : Nat) : (new (δ := δ) capacity entryLimit).Counted :=
  ⟨rfl, Int.natCast_nonneg _⟩

variable {c}

theorem Counted.get (h : c.Counted) (key : δ) (now : Nat) : (c.get key now).2.Counted := by
  unfold ResultCache.get
  split
  · exact h
  · cases hget : c.items.get? key with
    | none => exact ⟨h.exact_, h.within⟩
    | some entry =>
      obtain ⟨expires, value⟩ := entry
      have herase := total_erase c.items key
      rw [hget] at herase
      have hlength : total (c.items.erase key).rows = total c.items.rows - value.length := herase
      dsimp only
      split
      · refine ⟨?_, ?_⟩
        · rw [hlength, ← h.exact_]
        · have := h.within
          dsimp only
          omega
      · refine ⟨?_, h.within⟩
        rw [total_insert (get?_erase_self c.items key), hlength, h.exact_]
        dsimp only
        omega

theorem Counted.put (h : c.Counted) (key : δ) (value : Bytes) (now : Nat) :
    (c.put key value now).Counted := by
  unfold ResultCache.put
  split
  · exact h
  · have herase := total_erase c.items key
    have htotal : (match c.items.get? key with
        | some old => c.size - old.2.length
        | none => c.size) + (value.length : Int) =
        total ((c.items.erase key).insert key (now + ttl, value)).rows := by
      rw [total_insert (get?_erase_self c.items key), herase, h.exact_]
      cases c.items.get? key with
      | none => simp
      | some old => rfl
    have hkept := evict_counted c.capacity htotal
    exact ⟨hkept.1, hkept.2⟩

/-- Every value that is remembered is the right one for its key. -/
def Right (right : δ → Bytes → Prop) (c : ResultCache δ) : Prop :=
  ∀ key expires value, c.items.get? key = some (expires, value) → right key value

variable {right : δ → Bytes → Prop}

theorem Right.get (h : Right right c) (key : δ) (now : Nat) : Right right (c.get key now).2 := by
  unfold ResultCache.get
  split
  · exact h
  · cases hget : c.items.get? key with
    | none => exact h
    | some entry =>
      dsimp only
      split
      · intro k expires value hk
        rw [Table.get?_erase] at hk
        split at hk
        · cases hk
        · exact h k expires value hk
      · intro k expires value hk
        rw [Table.get?_insert_of_none (get?_erase_self c.items key), Table.get?_erase] at hk
        split at hk
        · next heq =>
            cases hk
            rw [heq]
            exact h key _ _ hget
        · exact h k expires value hk

theorem Right.of_get (h : Right right c) {key : δ} {now : Nat} {value : Bytes}
    (hget : (c.get key now).1 = some value) : right key value := by
  unfold ResultCache.get at hget
  split at hget
  · cases hget
  · cases hitem : c.items.get? key with
    | none =>
      rw [hitem] at hget
      cases hget
    | some entry =>
      rw [hitem] at hget
      dsimp only at hget
      split at hget
      · cases hget
      · cases hget
        exact h key _ _ hitem

theorem Right.put (h : Right right c) {key : δ} {value : Bytes} (hvalue : right key value)
    (now : Nat) : Right right (c.put key value now) := by
  unfold ResultCache.put
  split
  · exact h
  · intro k expires v hk
    have hmem := Table.mem_rows_iff.mpr hk
    have hkept := (evict_suffix _ _ _).subset hmem
    rw [Table.mem_rows_iff, Table.get?_insert_of_none (get?_erase_self c.items key),
      Table.get?_erase] at hkept
    split at hkept
    · next heq =>
        cases hkept
        rw [heq]
        exact hvalue
    · exact h k expires v hkept

end ResultCache

end Substrate.Compute
