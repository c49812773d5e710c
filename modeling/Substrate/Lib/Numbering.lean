import Mathlib.Data.List.Sort

/-!
Logs whose rows are numbered by the largest number there is. Rows may be dropped as long as
some later row stays, and a reader that keeps the number after the last one it saw then
misses no row that lasts.
-/

namespace Substrate.Lib

open List

universe u

variable {α : Type u} {num : α → Nat} {lasts : α → Bool} {rows old now seen : List α}
  {row : α} {n next : Nat}

/-- One more than the largest number, and at least `n`. -/
def numberAfter (num : α → Nat) (n : Nat) (rows : List α) : Nat :=
  rows.foldl (fun next row => max next (num row + 1)) n

theorem numberAfter_le {b : Nat} : numberAfter num n rows ≤ b ↔ n ≤ b ∧ ∀ row ∈ rows, num row < b := by
  unfold numberAfter
  induction rows generalizing n with
  | nil => simp
  | cons row rest ih =>
    rw [foldl_cons, ih, forall_mem_cons, Nat.max_le, Nat.succ_le_iff, and_assoc]

theorem lt_numberAfter (h : row ∈ rows) : num row < numberAfter num n rows :=
  (numberAfter_le.mp le_rfl).2 row h

def Numbered (num : α → Nat) (rows : List α) : Prop := rows.Pairwise fun a b => num a < num b

/-- A log some time later. -/
structure Continues (num : α → Nat) (lasts : α → Bool) (old now : List α) : Prop where
  parts : ∃ keep new, now = old.filter keep ++ new ∧ (∀ row, lasts row = true → keep row = true) ∧
    Numbered num new ∧ ∀ row ∈ new, numberAfter num 0 old ≤ num row
  grows : numberAfter num 0 old ≤ numberAfter num 0 now

theorem Continues.refl : Continues num lasts old old :=
  ⟨⟨fun _ => true, [], by simp [Numbered]⟩, le_rfl⟩

theorem Continues.append (h : Continues num lasts old now) (hrow : num row = numberAfter num 0 now) :
    Continues num lasts old (now ++ [row]) := by
  obtain ⟨keep, new, rfl, hkeep, hnew, hafter⟩ := h.parts
  refine ⟨⟨keep, new ++ [row], by rw [append_assoc], hkeep, ?_, ?_⟩, ?_⟩
  · refine pairwise_append.mpr ⟨hnew, pairwise_singleton .., fun a ha b hb => ?_⟩
    rw [mem_singleton.mp hb, hrow]
    exact lt_numberAfter (mem_append_right _ ha)
  · intro other hother
    rcases mem_append.mp hother with hother | hother
    · exact hafter other hother
    · rw [mem_singleton.mp hother, hrow]
      exact h.grows
  · refine h.grows.trans (numberAfter_le.mpr ⟨Nat.zero_le _, fun other hother => ?_⟩)
    exact lt_numberAfter (mem_append_left _ hother)

theorem Continues.numbered (h : Continues num lasts old now) (hold : Numbered num old) :
    Numbered num now := by
  obtain ⟨keep, new, rfl, _, hnew, hafter⟩ := h.parts
  refine pairwise_append.mpr ⟨hold.sublist filter_sublist, hnew, fun a ha b hb => ?_⟩
  exact (lt_numberAfter (mem_of_mem_filter ha)).trans_le (hafter b hb)

theorem Numbered.keeps_number {keep : α → Bool} (h : Numbered num rows)
    (hlast : ∀ row, rows.getLast? = some row → keep row = true) :
    numberAfter num 0 rows ≤ numberAfter num 0 (rows.filter keep) := by
  rcases eq_nil_or_concat' rows with rfl | ⟨front, last, rfl⟩
  · exact le_rfl
  have hkept : last ∈ (front ++ [last]).filter keep :=
    mem_filter.mpr ⟨mem_append_right _ mem_cons_self, hlast last (by simp)⟩
  refine numberAfter_le.mpr ⟨Nat.zero_le _, fun row hrow => ?_⟩
  refine lt_of_le_of_lt ?_ (lt_numberAfter hkept)
  rcases mem_append.mp hrow with hrow | hrow
  · exact ((pairwise_append.mp h).2.2 row hrow last mem_cons_self).le
  · rw [mem_singleton.mp hrow]

theorem Continues.drop {keep : α → Bool} (h : Continues num lasts old now) (hold : Numbered num old)
    (hkeep : ∀ row, lasts row = true → keep row = true)
    (hlast : ∀ row, now.getLast? = some row → keep row = true) :
    Continues num lasts old (now.filter keep) := by
  have hnumbered := h.numbered hold
  obtain ⟨keep', new, hparts, hkeep', hnew, hafter⟩ := h.parts
  refine ⟨⟨fun row => keep' row && keep row, new.filter keep, ?_, ?_, ?_, ?_⟩, ?_⟩
  · rw [hparts, filter_append, List.filter_filter]
    simp only [Bool.and_comm]
  · intro row hrow
    simp [hkeep' row hrow, hkeep row hrow]
  · exact hnew.sublist filter_sublist
  · exact fun row hrow => hafter row (mem_of_mem_filter hrow)
  · exact h.grows.trans (hnumbered.keeps_number hlast)

/-- The numbers are 0, 1, 2 and so on. -/
def Contiguous (num : α → Nat) (rows : List α) : Prop := rows.map num = range rows.length

theorem Contiguous.append (h : Contiguous num rows) (hrow : num row = numberAfter num 0 rows) :
    Contiguous num (rows ++ [row]) := by
  have hafter : numberAfter num 0 rows = rows.length := by
    apply le_antisymm
    · refine numberAfter_le.mpr ⟨Nat.zero_le _, fun other hother => ?_⟩
      have hmem : num other ∈ rows.map num := mem_map_of_mem hother
      rw [h] at hmem
      exact mem_range.mp hmem
    · by_contra hless
      have hmem : numberAfter num 0 rows ∈ rows.map num := by
        rw [h]
        exact mem_range.mpr (Nat.lt_of_not_le hless)
      obtain ⟨other, hother, heq⟩ := mem_map.mp hmem
      exact (lt_numberAfter hother).ne heq
  rw [Contiguous, map_append, h, length_append, map_singleton, hrow, hafter, length_singleton,
    range_succ]

/-- What a reader has seen of a log. -/
structure Trails (num : α → Nat) (lasts : α → Bool) (rows : List α) (next : Nat)
    (seen : List α) : Prop where
  seen : seen.filter lasts = (rows.filter lasts).filter fun row => num row < next
  bounded : next ≤ numberAfter num 0 rows

theorem Trails.continues (h : Trails num lasts old next seen) (hnow : Continues num lasts old now) :
    Trails num lasts now next seen := by
  obtain ⟨keep, new, rfl, hkeep, _, hafter⟩ := hnow.parts
  refine ⟨?_, h.bounded.trans hnow.grows⟩
  have hkept : (old.filter keep).filter lasts = old.filter lasts := by
    rw [List.filter_filter]
    refine List.filter_congr fun row _ => ?_
    cases hlasts : lasts row with
    | false => rfl
    | true => simp [hkeep row hlasts]
  have hlater : (new.filter lasts).filter (fun row => num row < next) = [] := by
    refine filter_eq_nil_iff.mpr fun row hrow => ?_
    have hnum := hafter row (mem_of_mem_filter hrow)
    have hbound := h.bounded
    simp only [decide_eq_true_eq]
    omega
  rw [filter_append, filter_append, hkept, hlater, append_nil]
  exact h.seen

theorem Numbered.split (h : Numbered num rows) (next : Nat) :
    (rows.filter fun row => num row < next) ++ (rows.filter fun row => next ≤ num row) = rows := by
  induction rows with
  | nil => rfl
  | cons row rest ih =>
    obtain ⟨hrow, hrest⟩ := pairwise_cons.mp h
    by_cases hbefore : num row < next
    · have hafter : ¬ next ≤ num row := by omega
      rw [filter_cons_of_pos (by simpa using hbefore), filter_cons_of_neg (by simpa using hafter),
        cons_append, ih hrest]
    · have hnone : (rest.filter fun row => num row < next) = [] := by
        refine filter_eq_nil_iff.mpr fun other hother => ?_
        have hlt := hrow other hother
        simp only [decide_eq_true_eq]
        omega
      have hall : (rest.filter fun row => next ≤ num row) = rest := by
        simpa [hnone] using ih hrest
      rw [filter_cons_of_neg (by simpa using hbefore),
        filter_cons_of_pos (by simpa using Nat.le_of_not_lt hbefore), hnone, hall, nil_append]

theorem Trails.read (h : Trails num lasts rows next seen) (hnum : Numbered num rows) :
    (seen ++ rows.filter fun row => next ≤ num row).filter lasts = rows.filter lasts := by
  have hlasting : Numbered num (rows.filter lasts) := hnum.sublist filter_sublist
  rw [filter_append, h.seen, filter_comm lasts]
  exact hlasting.split next

theorem Trails.caught (h : seen.filter lasts = rows.filter lasts) :
    Trails num lasts rows (numberAfter num 0 rows) seen := by
  refine ⟨?_, le_rfl⟩
  rw [h]
  symm
  refine filter_eq_self.mpr fun row hrow => ?_
  simpa using lt_numberAfter (mem_of_mem_filter hrow)

theorem Trails.number (h : Trails num lasts rows next seen) (hnum : Numbered num rows) :
    (rows.filter fun row => next ≤ num row).foldl (fun _ row => num row + 1) next =
      numberAfter num 0 rows := by
  have hlast : ∀ (rest : List α) (n : Nat), Numbered num rest → (∀ row ∈ rest, n ≤ num row) →
      rest.foldl (fun _ row => num row + 1) n = numberAfter num n rest := by
    intro rest
    induction rest with
    | nil => exact fun _ _ _ => rfl
    | cons row rest ih =>
      intro n hrest hle
      obtain ⟨hrow, hrest⟩ := pairwise_cons.mp hrest
      have hmax : max n (num row + 1) = num row + 1 := by
        have hfirst := hle row mem_cons_self
        omega
      rw [foldl_cons, ih _ hrest hrow, numberAfter, numberAfter, foldl_cons, hmax]
  rw [hlast _ _ (hnum.sublist filter_sublist) fun row hrow => by simpa using (mem_filter.mp hrow).2]
  apply le_antisymm
  · exact numberAfter_le.mpr ⟨h.bounded, fun row hrow => lt_numberAfter (mem_of_mem_filter hrow)⟩
  · refine numberAfter_le.mpr ⟨Nat.zero_le _, fun row hrow => ?_⟩
    by_cases hbefore : next ≤ num row
    · exact lt_numberAfter (mem_filter.mpr ⟨hrow, by simpa using hbefore⟩)
    · exact (Nat.lt_of_not_le hbefore).trans_le (numberAfter_le.mp le_rfl).1

end Substrate.Lib
