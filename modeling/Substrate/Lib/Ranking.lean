import Mathlib.Data.List.MinMax
import Mathlib.Data.List.Perm.Subperm
import Mathlib.Data.List.Sort
import Mathlib.Data.Prod.Lex

/-!
Taking the first items of a list whose items belong to groups. Every item has a place among
those of its group, and items are taken by place first. So each group gives its first items,
and no group gives two more than one that has items left.
-/

namespace Substrate.Lib.Ranking

open List Option Bool

variable {α γ κ : Type*} [DecidableEq γ] [LinearOrder κ] (group : α → γ) (key : α → κ)

def place (items : List α) (a : α) : Nat :=
  items.countP fun b => decide (group b = group a) && decide (key b ≤ key a)

def rank (items : List α) (a : α) : Nat ×ₗ κ := toLex (place group key items a, key a)

def sorted (items : List α) : List α :=
  items.insertionSort fun a b => rank group key items a ≤ rank group key items b

def taken (n : Nat) (items : List α) : List α := (sorted group key items).take n

variable {group key} {n : Nat} {items : List α} {a b : α}

theorem length_taken : (taken group key n items).length = min n items.length := by
  simp [taken, sorted, length_insertionSort]

theorem mem_of_mem_taken (h : a ∈ taken group key n items) : a ∈ items :=
  (perm_insertionSort _ _).mem_iff.mp (mem_of_mem_take h)

theorem nodup_taken (h : items.Nodup) : (taken group key n items).Nodup :=
  ((perm_insertionSort _ _).nodup_iff.mpr h).sublist (take_sublist _ _)

theorem rank_le (ha : a ∈ taken group key n items) (hb : b ∈ items)
    (hleft : b ∉ taken group key n items) :
    rank group key items a ≤ rank group key items b := by
  have hsorted : (sorted group key items).Pairwise fun a b =>
      rank group key items a ≤ rank group key items b :=
    pairwise_insertionSort _ _
  rw [← take_append_drop n (sorted group key items)] at hsorted
  have hmem : b ∈ (sorted group key items).take n ++ (sorted group key items).drop n := by
    rw [take_append_drop]
    exact (perm_insertionSort _ _).mem_iff.mpr hb
  have hdrop := (mem_append.mp hmem).resolve_left hleft
  exact (pairwise_append.mp hsorted).2.2 a ha b hdrop

theorem place_mono (hsame : group a = group b) (hle : key a ≤ key b) :
    place group key items a ≤ place group key items b := by
  apply countP_mono_left
  intro c _ hc
  simp only [and_eq_true, decide_eq_true_eq] at hc ⊢
  exact ⟨hc.1.trans hsame, hc.2.trans hle⟩

theorem place_of_rank_le (h : rank group key items a ≤ rank group key items b) :
    place group key items a ≤ place group key items b := by
  rcases Prod.Lex.toLex_le_toLex.mp h with hlt | ⟨heq, _⟩
  · exact hlt.le
  · exact heq.le

variable (hkey : ∀ a ∈ items, ∀ b ∈ items, key a = key b → a = b)

include hkey in
theorem first_taken (ha : a ∈ items) (hb : b ∈ taken group key n items)
    (hsame : group a = group b) (hle : key a ≤ key b) : a ∈ taken group key n items := by
  by_contra hleft
  have hrank := rank_le hb ha hleft
  have hplace : place group key items a ≤ place group key items b := place_mono hsame hle
  rcases Prod.Lex.toLex_le_toLex.mp hrank with hlt | ⟨_, hge⟩
  · exact absurd hlt (not_lt.mpr hplace)
  · have heq := hkey a ha b (mem_of_mem_taken hb) (le_antisymm hle hge)
    exact hleft (heq ▸ hb)

theorem exists_far (hnodup : items.Nodup) (g : γ)
    (hsome : (taken group key n items).filter (fun b => decide (group b = g)) ≠ []) :
    ∃ z ∈ taken group key n items,
      (taken group key n items).countP (fun b => decide (group b = g)) ≤
        place group key items z := by
  generalize hl : (taken group key n items).filter (fun b => decide (group b = g)) = l at hsome
  cases hz : l.argmax key with
  | none => exact absurd (argmax_eq_none.mp hz) hsome
  | some z =>
    have hmem := argmax_mem (mem_def.mpr hz)
    rw [← hl, mem_filter, decide_eq_true_eq] at hmem
    refine ⟨z, hmem.1, ?_⟩
    rw [countP_eq_length_filter, place, countP_eq_length_filter, hl]
    refine (Nodup.subperm ?_ fun b hb => ?_).length_le
    · rw [← hl]
      exact (nodup_taken hnodup).filter _
    · have hle : key b ≤ key z := le_of_mem_argmax hb (mem_def.mpr hz)
      rw [← hl, mem_filter, decide_eq_true_eq] at hb
      simp only [mem_filter, and_eq_true, decide_eq_true_eq]
      exact ⟨mem_of_mem_taken hb.1, hb.2.trans hmem.2.symm, hle⟩

include hkey in
/-- A group with items left has one right behind those it gave. -/
theorem exists_near (hnodup : items.Nodup) (hb : b ∈ items)
    (hleft : b ∉ taken group key n items) :
    ∃ y ∈ items, y ∉ taken group key n items ∧ place group key items y ≤
      (taken group key n items).countP (fun c => decide (group c = group b)) + 1 := by
  classical
  have hmem : ∀ c, c ∈ items.filter (fun c =>
      decide (group c = group b ∧ c ∉ taken group key n items)) ↔
        c ∈ items ∧ group c = group b ∧ c ∉ taken group key n items := by
    intro c
    rw [mem_filter, decide_eq_true_eq]
  generalize items.filter (fun c =>
    decide (group c = group b ∧ c ∉ taken group key n items)) = l at hmem
  cases hy : l.argmin key with
  | none =>
    rw [argmin_eq_none.mp hy] at hmem
    exact absurd ((hmem b).mpr ⟨hb, rfl, hleft⟩) not_mem_nil
  | some y =>
    obtain ⟨hyitems, hygroup, hyleft⟩ := (hmem y).mp (argmin_mem (mem_def.mpr hy))
    refine ⟨y, hyitems, hyleft, ?_⟩
    rw [place, countP_eq_length_filter, countP_eq_length_filter, ← length_cons (a := y)]
    refine (Nodup.subperm (hnodup.filter _) fun c hc => ?_).length_le
    simp only [mem_filter, and_eq_true, decide_eq_true_eq] at hc
    obtain ⟨hcitems, hcgroup, hcle⟩ := hc
    by_cases htaken : c ∈ taken group key n items
    · refine mem_cons_of_mem _ (mem_filter.mpr ⟨htaken, ?_⟩)
      exact decide_eq_true (hcgroup.trans hygroup)
    · have hge : key y ≤ key c := by
        apply le_of_mem_argmin _ (mem_def.mpr hy)
        exact (hmem c).mpr ⟨hcitems, hcgroup.trans hygroup, htaken⟩
      rw [hkey c hcitems y hyitems (le_antisymm hcle hge)]
      exact mem_cons_self

include hkey in
theorem taken_fair (hnodup : items.Nodup) (hb : b ∈ items)
    (hleft : b ∉ taken group key n items) (g : γ) :
    (taken group key n items).countP (fun c => decide (group c = g)) ≤
      (taken group key n items).countP (fun c => decide (group c = group b)) + 1 := by
  by_cases hsome : (taken group key n items).filter (fun c => decide (group c = g)) = []
  · rw [countP_eq_length_filter, hsome]
    exact Nat.zero_le _
  · obtain ⟨z, hz, hfar⟩ := exists_far hnodup g hsome
    obtain ⟨y, hy, hyleft, hnear⟩ := exists_near hkey hnodup hb hleft
    have hplace := place_of_rank_le (rank_le hz hy hyleft)
    omega

end Substrate.Lib.Ranking
