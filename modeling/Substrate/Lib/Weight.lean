import Mathlib.Algebra.BigOperators.Ring.Finset
import Mathlib.Algebra.Order.BigOperators.Group.Finset
import Substrate.Lib.Ledger

/-!
Rows set to a value or to nothing, and sums over the rows of a table. The weight of
a table is the sum of what its rows weigh; as a key has one row at most, it is the
sum over any finite set of keys that has them all.
-/

namespace Substrate.Lib.Table

universe u v

variable {κ : Type u} {α : Type v} [DecidableEq κ]

def set (t : Table κ α) (k : κ) : Option α → Table κ α
  | some a => t.upsert k a fun _ => a
  | none => t.erase k

@[simp] theorem get?_set (t : Table κ α) (k k' : κ) (a : Option α) :
    (t.set k a).get? k' = if k' = k then a else t.get? k' := by
  cases a with
  | none => exact get?_erase t k k'
  | some a =>
    unfold set
    rw [get?_upsert]

def weightAt (t : Table κ α) (w : κ → α → Nat) (k : κ) : Nat := ((t.get? k).map (w k)).getD 0

def weight (t : Table κ α) (w : κ → α → Nat) : Nat := (t.rows.map fun row => w row.1 row.2).sum

theorem weightAt_of_get? {t : Table κ α} {w : κ → α → Nat} {k : κ} {a : α}
    (h : t.get? k = some a) : t.weightAt w k = w k a := by
  unfold weightAt
  rw [h]
  rfl

theorem weightAt_of_none {t : Table κ α} {w : κ → α → Nat} {k : κ} (h : t.get? k = none) :
    t.weightAt w k = 0 := by
  unfold weightAt
  rw [h]
  rfl

def keys (t : Table κ α) : Finset κ := (t.rows.map Prod.fst).toFinset

theorem mem_keys {t : Table κ α} {k : κ} : k ∈ t.keys ↔ ∃ a, t.get? k = some a := by
  unfold keys
  rw [List.mem_toFinset]
  constructor
  · intro h
    cases hget : t.get? k with
    | none => exact absurd h (get?_eq_none_iff.mp hget)
    | some a => exact ⟨a, rfl⟩
  · rintro ⟨a, h⟩
    exact List.mem_map.mpr ⟨_, mem_rows_iff.mpr h, rfl⟩

theorem weight_eq_sum_keys (t : Table κ α) (w : κ → α → Nat) :
    t.weight w = ∑ k ∈ t.keys, t.weightAt w k := by
  unfold keys
  rw [List.sum_toFinset _ t.nodup, List.map_map]
  unfold weight
  congr 1
  apply List.map_congr_left
  intro row hrow
  exact (weightAt_of_get? (mem_rows_iff.mp hrow)).symm

theorem weight_eq_sum {t : Table κ α} {w : κ → α → Nat} {S : Finset κ} (h : t.keys ⊆ S) :
    t.weight w = ∑ k ∈ S, t.weightAt w k := by
  rw [weight_eq_sum_keys]
  apply Finset.sum_subset h
  intro k _ hk
  cases hget : t.get? k with
  | none => exact weightAt_of_none hget
  | some a => exact absurd (mem_keys.mpr ⟨a, hget⟩) hk

theorem weight_le {t t' : Table κ α} {w : κ → α → Nat}
    (h : ∀ k, t.weightAt w k ≤ t'.weightAt w k) : t.weight w ≤ t'.weight w := by
  rw [weight_eq_sum (S := t.keys ∪ t'.keys) Finset.subset_union_left,
    weight_eq_sum (S := t.keys ∪ t'.keys) Finset.subset_union_right]
  exact Finset.sum_le_sum fun k _ => h k

theorem weight_congr {t t' : Table κ α} {w : κ → α → Nat}
    (h : ∀ k, t.weightAt w k = t'.weightAt w k) : t.weight w = t'.weight w :=
  le_antisymm (weight_le fun k => (h k).le) (weight_le fun k => (h k).ge)

theorem weight_add_sum {t t' : Table κ α} {w : κ → α → Nat} (K : Finset κ)
    (h : ∀ k, k ∉ K → t.weightAt w k ≤ t'.weightAt w k) :
    t.weight w + ∑ k ∈ K, t'.weightAt w k ≤ t'.weight w + ∑ k ∈ K, t.weightAt w k := by
  have hsplit : ∀ t₀ : Table κ α, t₀.keys ⊆ t.keys ∪ t'.keys ∪ K →
      t₀.weight w = ∑ k ∈ (t.keys ∪ t'.keys ∪ K) \ K, t₀.weightAt w k +
        ∑ k ∈ K, t₀.weightAt w k := by
    intro t₀ hsub
    rw [weight_eq_sum hsub, Finset.sum_sdiff Finset.subset_union_right]
  have hleft : t.keys ⊆ t.keys ∪ t'.keys ∪ K :=
    fun k hk => Finset.mem_union_left _ (Finset.mem_union_left _ hk)
  have hright : t'.keys ⊆ t.keys ∪ t'.keys ∪ K :=
    fun k hk => Finset.mem_union_left _ (Finset.mem_union_right _ hk)
  rw [hsplit t hleft, hsplit t' hright]
  have hrest : ∑ k ∈ (t.keys ∪ t'.keys ∪ K) \ K, t.weightAt w k ≤
      ∑ k ∈ (t.keys ∪ t'.keys ∪ K) \ K, t'.weightAt w k :=
    Finset.sum_le_sum fun k hk => h k (Finset.mem_sdiff.mp hk).2
  omega

end Substrate.Lib.Table
