import Mathlib.Algebra.BigOperators.Group.List.Basic
import Substrate.Lib.Table

/-!
Totals kept beside the charges they sum. A charge names who it is for and has an
amount in a commutative monoid. A table that keeps one running total for each
key is exact when every total is the sum of the charges for its key; adding one
amount to a list of different keys keeps it so.
-/

namespace Substrate.Lib

open List Option

universe u v w

variable {ι : Type u} {M : Type v} [AddCommMonoid M]

/-- The sum of the amounts charged to those `who` selects. -/
def total (who : ι → Bool) (charges : List (ι × M)) : M :=
  ((charges.filter fun charge => who charge.1).map Prod.snd).sum

@[simp] theorem total_nil (who : ι → Bool) : total who ([] : List (ι × M)) = 0 := rfl

theorem total_append (who : ι → Bool) (before after : List (ι × M)) :
    total who (before ++ after) = total who before + total who after := by
  unfold total
  rw [filter_append, map_append, sum_append]

theorem total_single (who : ι → Bool) (i : ι) (amount : M) :
    total who [(i, amount)] = if who i = true then amount else 0 := by
  unfold total
  by_cases hwho : who i = true
  · simp [hwho]
  · simp [hwho]

theorem total_congr {who who' : ι → Bool} {charges : List (ι × M)}
    (h : ∀ charge ∈ charges, who charge.1 = who' charge.1) :
    total who charges = total who' charges := by
  unfold total
  rw [List.filter_congr h]

namespace Table

variable {κ : Type u} {α : Type w} [DecidableEq κ]

def tally (t : Table κ α) (read : α → M) (k : κ) : M := ((t.get? k).map read).getD 0

theorem get?_upsert (t : Table κ α) (k k' : κ) (a : α) (f : α → α) : (t.upsert k a f).get? k' =
      if k' = k then some (f ((t.get? k).getD a)) else t.get? k' := by
  unfold upsert
  by_cases hsame : k' = k
  · subst hsame
    rw [get?_modify_self, get?_insert, if_pos rfl, if_pos rfl]
    rfl
  · rw [get?_modify_of_ne hsame, get?_insert, if_neg hsame, if_neg hsame]

section Charging

variable (read : α → M) {a : α} (f : α → α) (amount : M)

theorem tally_upsert (hzero : read a = 0) (hadd : ∀ b, read (f b) = read b + amount)
    (t : Table κ α) (k k' : κ) :
    (t.upsert k a f).tally read k' = t.tally read k' + if k' = k then amount else 0 := by
  unfold tally
  rw [get?_upsert]
  by_cases hsame : k' = k
  · subst hsame
    rw [if_pos rfl, if_pos rfl, map_some, getD_some, hadd]
    cases t.get? k' with
    | none => rw [getD_none, hzero]; rfl
    | some b => rfl
  · rw [if_neg hsame, if_neg hsame, add_zero]

theorem tally_foldl (hzero : read a = 0) (hadd : ∀ b, read (f b) = read b + amount)
    (keys : List κ) (hnodup : keys.Nodup) (k' : κ) : ∀ t : Table κ α,
      (keys.foldl (fun t k => t.upsert k a f) t).tally read k' =
        t.tally read k' + if k' ∈ keys then amount else 0 := by
  induction keys with
  | nil => exact fun t => (add_zero _).symm
  | cons k rest ih =>
    intro t
    obtain ⟨hfresh, hrest⟩ := nodup_cons.mp hnodup
    rw [foldl_cons, ih hrest, tally_upsert read f amount hzero hadd, add_assoc]
    congr 1
    by_cases hsame : k' = k
    · subst hsame
      rw [if_pos rfl, if_neg hfresh, if_pos mem_cons_self, add_zero]
    · rw [if_neg hsame, zero_add]
      simp only [mem_cons, hsame, false_or]

end Charging

end Table

end Substrate.Lib
