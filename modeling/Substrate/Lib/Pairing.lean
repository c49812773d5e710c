import Mathlib.Data.List.Enum

/-!
Conversations in which some items make calls and others bring results. What a cut or a
selection of items does to the pairs, for any kind of item.
-/

namespace Substrate.Lib

open List

variable {M Id : Type} (calls results : M → List Id) (speaks : M → Prop)

def Grounded (h : List M) : Prop :=
  ∀ before m after, h = before ++ m :: after → ∀ r ∈ results m, ∃ m' ∈ before, r ∈ calls m'

/-- Every call has its result after it, if anything is said after it. -/
def Answered (h : List M) : Prop :=
  ∀ before m after, h = before ++ m :: after → (∃ m' ∈ after, speaks m') →
    ∀ c ∈ calls m, ∃ m' ∈ after, c ∈ results m'

/-- The items whose place satisfies `p`. -/
def select (p : Nat → Bool) (h : List M) : List M :=
  ((h.zipIdx).filter fun entry => p entry.2).map Prod.fst

variable {calls results speaks}

theorem Answered.suffix {h tail : List M} (ha : Answered calls results speaks h)
    (hs : tail <:+ h) : Answered calls results speaks tail := by
  obtain ⟨front, rfl⟩ := hs
  intro before m after heq
  apply ha (front ++ before) m after
  rw [heq, append_assoc]

theorem grounded_cons {m : M} {h : List M} (hcalls : calls m = []) (hresults : results m = []) :
    Grounded calls results (m :: h) ↔ Grounded calls results h := by
  constructor
  · intro hg before n after heq r hr
    obtain ⟨m', hmem, hcall⟩ := hg (m :: before) n after (by rw [heq]; rfl) r hr
    rcases mem_cons.mp hmem with rfl | hmem
    · rw [hcalls] at hcall
      cases hcall
    · exact ⟨m', hmem, hcall⟩
  · intro hg before n after heq r hr
    cases before with
    | nil =>
      obtain ⟨rfl, _⟩ := List.cons.inj heq
      rw [hresults] at hr
      cases hr
    | cons first rest =>
      obtain ⟨_, hrest⟩ := List.cons.inj heq
      obtain ⟨m', hmem, hcall⟩ := hg rest n after hrest r hr
      exact ⟨m', mem_cons_of_mem _ hmem, hcall⟩

theorem answered_cons {m : M} {h : List M} (hcalls : calls m = [])
    (ha : Answered calls results speaks h) : Answered calls results speaks (m :: h) := by
  intro before n after heq
  cases before with
  | nil =>
    obtain ⟨rfl, _⟩ := List.cons.inj heq
    rw [hcalls]
    intro _ c hc
    cases hc
  | cons first rest => exact ha rest n after (List.cons.inj heq).2

section Map

variable {f : M → M} (hcalls : ∀ m, calls (f m) = calls m)
  (hresults : ∀ m, results (f m) = results m)

include hcalls hresults in
theorem Grounded.map {h : List M} (hg : Grounded calls results h) :
    Grounded calls results (h.map f) := by
  intro before m after heq r hr
  obtain ⟨before', rest', rfl, rfl, hrest⟩ := map_eq_append_iff.mp heq
  obtain ⟨n, after', rfl, rfl, rfl⟩ := map_eq_cons_iff.mp hrest
  rw [hresults] at hr
  obtain ⟨m', hmem, hcall⟩ := hg before' n after' rfl r hr
  exact ⟨f m', mem_map_of_mem hmem, by rwa [hcalls]⟩

include hcalls hresults in
theorem Answered.map (hspeaks : ∀ m, speaks (f m) → speaks m) {h : List M}
    (ha : Answered calls results speaks h) : Answered calls results speaks (h.map f) := by
  intro before m after heq hlater c hc
  obtain ⟨before', rest', rfl, rfl, hrest⟩ := map_eq_append_iff.mp heq
  obtain ⟨n, after', rfl, rfl, rfl⟩ := map_eq_cons_iff.mp hrest
  obtain ⟨_, hmem, hspeaks'⟩ := hlater
  obtain ⟨m', hmem', rfl⟩ := mem_map.mp hmem
  rw [hcalls] at hc
  obtain ⟨m'', hmem'', hresult⟩ := ha before' n after' rfl ⟨m', hmem', hspeaks m' hspeaks'⟩ c hc
  exact ⟨f m'', mem_map_of_mem hmem'', by rwa [hresults]⟩

end Map

section Select

variable {p : Nat → Bool} {h : List M}

theorem select_sublist (p : Nat → Bool) (h : List M) : List.Sublist (select p h) h := by
  have hall := (filter_sublist (p := fun entry : M × Nat => p entry.2) (l := h.zipIdx)).map Prod.fst
  rwa [zipIdx_map_fst] at hall

theorem select_eq_append {before after : List M} {m : M} : select p h = before ++ m :: after ↔
      ∃ front i back, h.zipIdx = front ++ (m, i) :: back ∧ p i = true ∧
        (front.filter fun entry => p entry.2).map Prod.fst = before ∧
          (back.filter fun entry => p entry.2).map Prod.fst = after := by
  unfold select
  constructor
  · intro heq
    obtain ⟨before', rest', hsplit, rfl, hrest⟩ := map_eq_append_iff.mp heq
    obtain ⟨⟨n, i⟩, after', rfl, rfl, rfl⟩ := map_eq_cons_iff.mp hrest
    obtain ⟨front, rest, hwhole, rfl, hrest'⟩ := filter_eq_append_iff.mp hsplit
    obtain ⟨skipped, back, rfl, hskipped, hp, rfl⟩ := filter_eq_cons_iff.mp hrest'
    refine ⟨front ++ skipped, i, back, by rw [hwhole, append_assoc], hp, ?_, rfl⟩
    have hnone : (skipped.filter fun entry => p entry.2) = [] := filter_eq_nil_iff.mpr hskipped
    rw [filter_append, hnone, append_nil]
  · rintro ⟨front, i, back, hwhole, hp, rfl, rfl⟩
    rw [hwhole, filter_append, filter_cons_of_pos (by exact hp), map_append]
    rfl

theorem grounded_select : Grounded calls results (select p h) ↔
      ∀ front m i back, h.zipIdx = front ++ (m, i) :: back → p i = true → ∀ r ∈ results m,
        ∃ m' j, (m', j) ∈ front ∧ p j = true ∧ r ∈ calls m' := by
  constructor
  · intro hg front m i back hwhole hp r hr
    obtain ⟨m', hmem, hcall⟩ :=
      hg _ m _ (select_eq_append.mpr ⟨front, i, back, hwhole, hp, rfl, rfl⟩) r hr
    obtain ⟨⟨n, j⟩, hmem', rfl⟩ := mem_map.mp hmem
    obtain ⟨hfront, hj⟩ := mem_filter.mp hmem'
    exact ⟨n, j, hfront, hj, hcall⟩
  · intro hall before m after heq r hr
    obtain ⟨front, i, back, hwhole, hp, rfl, rfl⟩ := select_eq_append.mp heq
    obtain ⟨m', j, hmem, hj, hcall⟩ := hall front m i back hwhole hp r hr
    exact ⟨m', mem_map.mpr ⟨(m', j), mem_filter.mpr ⟨hmem, hj⟩, rfl⟩, hcall⟩

theorem Answered.select (ha : Answered calls results speaks h)
    (hlater : ∀ front m i back, h.zipIdx = front ++ (m, i) :: back → p i = true →
      calls m ≠ [] → ∀ m' j, (m', j) ∈ back → results m' ≠ [] → p j = true) :
    Answered calls results speaks (select p h) := by
  intro before m after heq hspeaks c hc
  obtain ⟨front, i, back, hwhole, hp, rfl, rfl⟩ := select_eq_append.mp heq
  have hplain : h = front.map Prod.fst ++ m :: back.map Prod.fst := by
    rw [← zipIdx_map_fst 0 h, hwhole, map_append]
    rfl
  have hsaid : ∃ m' ∈ back.map Prod.fst, speaks m' := by
    obtain ⟨m', hmem, hm'⟩ := hspeaks
    obtain ⟨entry, hentry, rfl⟩ := mem_map.mp hmem
    exact ⟨entry.1, mem_map_of_mem (mem_filter.mp hentry).1, hm'⟩
  obtain ⟨m', hmem, hresult⟩ := ha _ m _ hplain hsaid c hc
  obtain ⟨⟨n, j⟩, hback, rfl⟩ := mem_map.mp hmem
  have hj := hlater front m i back hwhole hp (ne_nil_of_mem hc) n j hback (ne_nil_of_mem hresult)
  exact ⟨n, mem_map.mpr ⟨(n, j), mem_filter.mpr ⟨hback, hj⟩, rfl⟩, hresult⟩

end Select

end Substrate.Lib
