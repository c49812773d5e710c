import Mathlib.Data.List.Sort

/-!
Pages of a list that is sorted by a key and keeps the order of equal keys, before and after
more items come in.
-/

namespace Substrate.Lib

open List

universe u v

variable {α : Type u} {κ : Type v} [LinearOrder κ] {key : α → κ}

def byKey (key : α → κ) (items : List α) : List α := items.insertionSort fun a b => key a ≤ key b

theorem byKey_sorted (key : α → κ) (items : List α) :
    (byKey key items).Pairwise fun a b => key a ≤ key b :=
  pairwise_insertionSort _ items

theorem byKey_perm (key : α → κ) (items : List α) : (byKey key items).Perm items :=
  perm_insertionSort _ items

theorem filter_byKey (key : α → κ) (items : List α) (k : κ) :
    (byKey key items).filter (fun a => key a = k) = items.filter fun a => key a = k := by
  have hequal : (items.filter fun a => key a = k).Pairwise fun a b => key a ≤ key b := by
    refine pairwise_of_forall_mem_list fun a ha b hb => le_of_eq ?_
    rw [of_decide_eq_true (mem_filter.mp ha).2, of_decide_eq_true (mem_filter.mp hb).2]
  have hsub : (items.filter fun a => key a = k) <+ byKey key items :=
    sublist_insertionSort hequal filter_sublist
  have hfilter := hsub.filter fun a => decide (key a = k)
  rw [List.filter_filter] at hfilter
  simp only [Bool.and_self] at hfilter
  refine (hfilter.eq_of_length ?_).symm
  exact (((byKey_perm key items).filter _).length_eq).symm

theorem sorted_split {items : List α} (h : items.Pairwise fun a b => key a ≤ key b) (k : κ) :
    items = (items.filter fun a => key a < k) ++ (items.filter fun a => key a = k) ++
      items.filter fun a => k < key a := by
  induction items with
  | nil => rfl
  | cons a rest ih =>
    obtain ⟨hfirst, hrest⟩ := pairwise_cons.mp h
    have hrest := ih hrest
    rcases lt_trichotomy (key a) k with hlt | heq | hgt
    · simpa [hlt, hlt.ne, hlt.not_gt] using hrest
    · have hnone : (rest.filter fun b => key b < k) = [] :=
        filter_eq_nil_iff.mpr fun b hb => by simpa [← heq] using hfirst b hb
      rw [hnone] at hrest
      simpa [heq, hnone] using hrest
    · have hless : (rest.filter fun b => key b < k) = [] :=
        filter_eq_nil_iff.mpr fun b hb => by simpa using (hgt.trans_le (hfirst b hb)).le
      have hsame : (rest.filter fun b => key b = k) = [] :=
        filter_eq_nil_iff.mpr fun b hb => by simpa using (hgt.trans_le (hfirst b hb)).ne'
      rw [hless, hsame] at hrest
      simpa [hgt, hgt.ne', hgt.not_gt, hless, hsame] using hrest

/-- Where the last item of a page stands once more items have come in: after those of the
page, and after the new ones with a smaller key. -/
theorem page_append {first front : List α} {last : α} {n : Nat} (more : List α)
    (h : (byKey key first).take n = front ++ [last]) :
    ∃ before after, byKey key (first ++ more) = before ++ last :: after ∧
      (∀ a ∈ front, a ∈ before) ∧
      before.length = front.length + more.countP fun a => key a < key last := by
  have hsplit : byKey key first = front ++ last :: (byKey key first).drop n := by
    conv_lhs => rw [← take_append_drop n (byKey key first), h]
    simp
  generalize (byKey key first).drop n = tail at hsplit
  have hsorted := byKey_sorted key first
  rw [hsplit] at hsorted
  obtain ⟨_, hlast, hacross⟩ := pairwise_append.mp hsorted
  have hfront : ∀ a ∈ front, key a ≤ key last := fun a ha => hacross a ha last mem_cons_self
  have htail : ∀ a ∈ tail, key last ≤ key a := (pairwise_cons.mp hlast).1
  have hequal := filter_byKey key (first ++ more) (key last)
  rw [filter_append, ← filter_byKey key first, hsplit, filter_append,
    filter_cons_of_pos (by simp)] at hequal
  have hall := sorted_split (byKey_sorted key (first ++ more)) (key last)
  rw [hequal] at hall
  refine ⟨((byKey key (first ++ more)).filter fun a => key a < key last) ++
    front.filter fun a => key a = key last, _, hall.trans (by simp [append_assoc]; rfl), ?_, ?_⟩
  · intro a ha
    rcases (hfront a ha).lt_or_eq with hlt | heq
    · have hmem : a ∈ byKey key first := by
        rw [hsplit]
        exact mem_append_left _ ha
      have hmem' : a ∈ byKey key (first ++ more) := (byKey_perm key _).mem_iff.mpr
        (mem_append_left _ ((byKey_perm key first).mem_iff.mp hmem))
      exact mem_append_left _ (mem_filter.mpr ⟨hmem', by simpa using hlt⟩)
    · exact mem_append_right _ (mem_filter.mpr ⟨ha, by simpa using heq⟩)
  · have hless : tail.countP (fun a => key a < key last) = 0 :=
      countP_eq_zero.mpr fun a ha => by simpa using htail a ha
    have hbefore : first.countP (fun a => key a < key last) =
        front.countP fun a => key a < key last := by
      rw [← (byKey_perm key first).countP_eq, hsplit, countP_append, countP_cons_of_neg (by simp),
        hless]
      rfl
    have hparts : front.countP (fun a => key a = key last) =
        front.countP fun a => ¬ key a < key last := by
      refine countP_congr fun a ha => ?_
      have hle := hfront a ha
      simp only [decide_eq_true_eq, not_lt]
      exact ⟨fun heq => heq.ge, fun hge => le_antisymm hle hge⟩
    have hfront' := length_eq_countP_add_countP (fun a => decide (key a < key last)) (l := front)
    rw [length_append, ← countP_eq_length_filter, ← countP_eq_length_filter,
      (byKey_perm key (first ++ more)).countP_eq, countP_append, hbefore, hparts]
    simp only [decide_not, Bool.not_eq_true, decide_eq_false_iff_not] at hfront' ⊢
    omega

theorem take_past {before : List α} {n : Nat} (last : α) (after : List α) (h : before.length < n) :
    ∃ rest, (before ++ last :: after).take n = before ++ last :: rest := by
  obtain ⟨k, rfl⟩ : ∃ k, n = before.length + (k + 1) := ⟨n - before.length - 1, by omega⟩
  exact ⟨after.take k, by rw [take_length_add_append, take_succ_cons]⟩

theorem mem_take_iff {before after : List α} {last : α} {n : Nat}
    (h : (before ++ last :: after).Nodup) :
    last ∈ (before ++ last :: after).take n ↔ before.length < n := by
  constructor
  · intro hmem
    by_contra hle
    rw [take_append_of_le_length (Nat.le_of_not_lt hle)] at hmem
    exact (nodup_append.mp h).2.2 last (mem_of_mem_take hmem) last mem_cons_self rfl
  · intro hlt
    obtain ⟨rest, hrest⟩ := take_past last after hlt
    rw [hrest]
    exact mem_append_right _ mem_cons_self

end Substrate.Lib
