import Mathlib.Data.List.Sort
import Mathlib.Order.Basic

/-!
Rows in the order of their keys, read page by page. A page holds the rows after a key,
up to a limit, and says where the next one starts if there is more. When no two rows
have one key the pages together are the rows, each once and in order.
-/

namespace Substrate.Lib

open List Option

universe u v

variable {κ : Type u} {α : Type v} [LinearOrder κ]

def inOrder (rows : List (κ × α)) : List (κ × α) := rows.insertionSort fun a b => a.1 ≤ b.1

/-- The rows after a key, `limit` at most, and the last of them if there are more. -/
def page (limit : Nat) (rows : List (κ × α)) (after : κ) : List (κ × α) × Option κ :=
  let found := rows.filter fun row => after < row.1
  (found.take limit,
    if limit < found.length then (found.take limit).getLast?.map Prod.fst else none)

/-- Page after page, as many as `fuel` at most. -/
def pages (limit : Nat) (rows : List (κ × α)) : Nat → κ → List (κ × α)
  | 0, _ => []
  | fuel + 1, after =>
    match page limit rows after with
    | (files, none) => files
    | (files, some next) => files ++ pages limit rows fuel next

theorem perm_inOrder (rows : List (κ × α)) : (inOrder rows).Perm rows := perm_insertionSort _ rows

theorem pairwise_inOrder (rows : List (κ × α)) : (inOrder rows).Pairwise fun a b => a.1 ≤ b.1 := by
  have htotal : Std.Total fun a b : κ × α => a.1 ≤ b.1 := ⟨fun a b => le_total a.1 b.1⟩
  have htrans : IsTrans (κ × α) fun a b => a.1 ≤ b.1 := ⟨fun _ _ _ hab hbc => hab.trans hbc⟩
  exact pairwise_insertionSort _ rows

theorem eq_of_inOrder {rows rows' : List (κ × α)} (hperm : rows.Perm rows')
    (hnodup : (rows.map Prod.fst).Nodup) (h : rows.Pairwise fun a b => a.1 ≤ b.1)
    (h' : rows'.Pairwise fun a b => a.1 ≤ b.1) : rows = rows' := by
  refine List.Perm.eq_of_pairwise ?_ h h' hperm
  intro a b ha hb hab hba
  exact inj_on_of_nodup_map hnodup ha (hperm.mem_iff.mpr hb) (le_antisymm hab hba)

theorem strict_inOrder {rows : List (κ × α)} (hnodup : (rows.map Prod.fst).Nodup) :
    (inOrder rows).Pairwise fun a b => a.1 < b.1 := by
  have hkeys : ((inOrder rows).map Prod.fst).Nodup :=
    ((perm_inOrder rows).map Prod.fst).nodup_iff.mpr hnodup
  rw [List.Nodup, pairwise_map] at hkeys
  exact (pairwise_inOrder rows).imp₂ (fun a b hle hne => lt_of_le_of_ne hle hne) hkeys

def beyond (rows : List (κ × α)) (after : κ) : List (κ × α) := rows.filter fun row => after < row.1

theorem mem_beyond {rows : List (κ × α)} {after : κ} {row : κ × α} :
    row ∈ beyond rows after ↔ row ∈ rows ∧ after < row.1 := by
  simp [beyond]

theorem pairwise_beyond {rows : List (κ × α)} (after : κ)
    (hsorted : rows.Pairwise fun a b => a.1 < b.1) :
    (beyond rows after).Pairwise fun a b => a.1 < b.1 := hsorted.filter _

theorem beyond_beyond (rows : List (κ × α)) {key after : κ} (h : key ≤ after) :
    beyond (beyond rows key) after = beyond rows after := by
  unfold beyond
  rw [List.filter_filter]
  apply List.filter_congr
  intro row _
  by_cases hrow : after < row.1
  · simp [hrow, h.trans_lt hrow]
  · simp [hrow]

theorem beyond_shorter {rows : List (κ × α)} {key : κ} {row : κ × α}
    (h : row ∈ beyond rows key) : (beyond rows row.1).length < (beyond rows key).length := by
  rw [← beyond_beyond rows (mem_beyond.mp h).2.le]
  apply length_filter_lt_length_iff_exists.mpr
  exact ⟨row, h, by simp⟩

theorem beyond_row {front back : List (κ × α)} {row : κ × α}
    (h : (front ++ row :: back).Pairwise fun a b => a.1 < b.1) :
    beyond (front ++ row :: back) row.1 = back := by
  obtain ⟨_, hrow, hfront⟩ := pairwise_append.mp h
  obtain ⟨hback, _⟩ := pairwise_cons.mp hrow
  have hnone : (front.filter fun r => row.1 < r.1) = [] := by
    rw [filter_eq_nil_iff]
    intro r hr
    have hlt := hfront r hr row mem_cons_self
    simpa using hlt.le
  have hall : (back.filter fun r => row.1 < r.1) = back := by
    rw [filter_eq_self]
    intro r hr
    simpa using hback r hr
  unfold beyond
  rw [filter_append, hnone, filter_cons_of_neg (by simp), hall, nil_append]

theorem eq_of_strict {rows rows' : List (κ × α)} (h : rows.Pairwise fun a b => a.1 < b.1)
    (h' : rows'.Pairwise fun a b => a.1 < b.1) (hmem : ∀ row, row ∈ rows ↔ row ∈ rows') :
    rows = rows' := by
  have hnodup : ∀ {l : List (κ × α)}, (l.Pairwise fun a b => a.1 < b.1) → l.Nodup := by
    intro l hl
    refine hl.imp ?_
    intro a b hlt heq
    rw [heq] at hlt
    exact lt_irrefl _ hlt
  have hperm := (perm_ext_iff_of_nodup (hnodup h) (hnodup h')).mpr hmem
  refine List.Perm.eq_of_pairwise ?_ h h' hperm
  intro a b _ _ hab hba
  exact absurd (hab.trans hba) (lt_irrefl _)

theorem page_next {limit : Nat} {rows : List (κ × α)}
    (hsorted : rows.Pairwise fun a b => a.1 < b.1) {after next : κ}
    (h : (page limit rows after).2 = some next) :
    limit < (beyond rows after).length ∧ (∃ row ∈ (page limit rows after).1, row.1 = next) ∧
      (∀ row ∈ (page limit rows after).1, row.1 ≤ next) ∧
      beyond rows next = (beyond rows after).drop limit := by
  have hfound := pairwise_beyond after hsorted
  have hafter : ∀ row ∈ beyond rows after, after < row.1 := fun _ h => (mem_beyond.mp h).2
  have hbeyond : ∀ row ∈ beyond rows after,
      beyond rows row.1 = beyond (beyond rows after) row.1 := fun row hrow =>
    (beyond_beyond rows (hafter row hrow).le).symm
  unfold page at h ⊢
  change (if limit < (beyond rows after).length then
    ((beyond rows after).take limit).getLast?.map Prod.fst else none) = some next at h
  change _ ∧ (∃ row ∈ (beyond rows after).take limit, _) ∧
    (∀ row ∈ (beyond rows after).take limit, _) ∧ _
  generalize beyond rows after = found at h hfound hbeyond ⊢
  split at h
  · next hmore =>
      obtain ⟨row, hlast, rfl⟩ := map_eq_some_iff.mp h
      obtain ⟨front, hfront⟩ := List.getLast?_eq_some_iff.mp hlast
      have hwhole : found = front ++ row :: found.drop limit := by
        have hsplit := take_append_drop limit found
        rw [hfront, append_assoc] at hsplit
        exact hsplit.symm
      refine ⟨hmore, ⟨row, by rw [hfront]; simp, rfl⟩, ?_, ?_⟩
      · intro other hother
        rw [hfront] at hother
        rw [hwhole] at hfound
        rcases mem_append.mp hother with hother | hother
        · exact ((pairwise_append.mp hfound).2.2 other hother row mem_cons_self).le
        · rw [mem_singleton.mp hother]
      · rw [hbeyond row (by rw [hwhole]; simp)]
        generalize found.drop limit = back at hwhole ⊢
        subst hwhole
        exact beyond_row hfound
  · cases h

theorem page_last {limit : Nat} (hlimit : 0 < limit) {rows : List (κ × α)} {after : κ}
    (h : (page limit rows after).2 = none) : (page limit rows after).1 = beyond rows after := by
  unfold page at h ⊢
  change (if limit < (beyond rows after).length then
    ((beyond rows after).take limit).getLast?.map Prod.fst else none) = none at h
  change (beyond rows after).take limit = _
  split at h
  · next hmore =>
      rw [map_eq_none_iff, List.getLast?_eq_none_iff, take_eq_nil_iff] at h
      rcases h with rfl | hnil
      · omega
      · rw [hnil] at hmore
        simp at hmore
  · next hless => exact take_of_length_le (by omega)

theorem pages_eq {limit : Nat} (hlimit : 0 < limit) {rows : List (κ × α)}
    (hsorted : rows.Pairwise fun a b => a.1 < b.1) {fuel : Nat} {after : κ}
    (hfuel : (beyond rows after).length < fuel) :
    pages limit rows fuel after = beyond rows after := by
  induction fuel generalizing after with
  | zero => omega
  | succ fuel ih =>
    unfold pages
    cases hpage : page limit rows after with
    | mk files next =>
      cases next with
      | none =>
        have hlast := page_last hlimit (congrArg Prod.snd hpage)
        rw [hpage] at hlast
        exact hlast
      | some next =>
        obtain ⟨hmore, -, -, hrest⟩ := page_next hsorted (congrArg Prod.snd hpage)
        have hshort : (beyond rows next).length < fuel := by
          rw [hrest, length_drop]
          omega
        have hfiles : files = (beyond rows after).take limit := (congrArg Prod.fst hpage).symm
        dsimp only
        rw [ih hshort, hrest, hfiles, take_append_drop]

end Substrate.Lib
