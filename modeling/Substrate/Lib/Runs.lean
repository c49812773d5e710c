import Mathlib.Data.Option.Basic

/-!
Runs of a partial step function, as the list of their moves. When a property of moves
does not hold of every run there may be a condition on the moves that fails exactly
where the property does; the rules below carry this from one move to whole runs.
-/

namespace Substrate.Lib

open List Option

universe u v

/-- One step: the state it was made in, what was done and the state it led to. -/
structure Taken (σ : Type u) (ι : Type v) where
  before : σ
  act : ι
  after : σ

section

variable {σ : Type u} {ι : Type v} (step : ι → σ → Option σ)

def moves : List ι → σ → Option (List (Taken σ ι))
  | [], _ => some []
  | a :: rest, s =>
    (step a s).bind fun s' => (moves rest s').map fun more => ⟨s, a, s'⟩ :: more

variable {step}

theorem moves_cons {a : ι} {rest : List ι} {s : σ} {ms : List (Taken σ ι)}
    (h : moves step (a :: rest) s = some ms) :
    ∃ s' more, step a s = some s' ∧ moves step rest s' = some more ∧ ms = ⟨s, a, s'⟩ :: more := by
  obtain ⟨s', hstep, hrest⟩ := bind_eq_some_iff.mp h
  obtain ⟨more, hmore, heq⟩ := map_eq_some_iff.mp hrest
  exact ⟨s', more, hstep, hmore, heq.symm⟩

theorem moves_keep {P : σ → Prop} (hstep : ∀ s a s', P s → step a s = some s' → P s')
    {actions : List ι} {s : σ} {ms : List (Taken σ ι)} (hinit : P s)
    (h : moves step actions s = some ms) :
    ∀ m ∈ ms, P m.before ∧ P m.after := by
  induction actions generalizing s ms with
  | nil =>
    cases h
    nofun
  | cons a rest ih =>
    obtain ⟨s', more, hmove, hmore, rfl⟩ := moves_cons h
    have hnext := hstep s a s' hinit hmove
    intro m hm
    rcases mem_cons.mp hm with rfl | hm
    · exact ⟨hinit, hnext⟩
    · exact ih hnext hmore m hm

theorem fine_of_meets {P : σ → Prop} {Fine : Taken σ ι → Prop} {Meets : σ → ι → Prop}
    (hstep : ∀ s a s', P s → step a s = some s' → Meets s a → Fine ⟨s, a, s'⟩ ∧ P s')
    {actions : List ι} {s : σ} {ms : List (Taken σ ι)} (hinit : P s)
    (h : moves step actions s = some ms) (hmeets : ∀ m ∈ ms, Meets m.before m.act) :
    ∀ m ∈ ms, Fine m := by
  induction actions generalizing s ms with
  | nil =>
    cases h
    nofun
  | cons a rest ih =>
    obtain ⟨s', more, hmove, hmore, rfl⟩ := moves_cons h
    obtain ⟨hfine, hnext⟩ := hstep s a s' hinit hmove (hmeets _ mem_cons_self)
    intro m hm
    rcases mem_cons.mp hm with rfl | hm
    · exact hfine
    · exact ih hnext hmore (fun m' hm' => hmeets m' (mem_cons_of_mem _ hm')) m hm

theorem fine_iff_meets_given {P : σ → Prop} {Given Fine : Taken σ ι → Prop}
    {Meets : σ → ι → Prop}
    (hstep : ∀ s a s', P s → step a s = some s' → Given ⟨s, a, s'⟩ →
      (Fine ⟨s, a, s'⟩ ↔ Meets s a) ∧ (Meets s a → P s'))
    {actions : List ι} {s : σ} {ms : List (Taken σ ι)} (hinit : P s)
    (h : moves step actions s = some ms) (hgiven : ∀ m ∈ ms, Given m) :
    ((∀ m ∈ ms, Fine m) ↔ ∀ m ∈ ms, Meets m.before m.act) ∧
      ((∀ m ∈ ms, Meets m.before m.act) → ∀ m ∈ ms, P m.after) := by
  induction actions generalizing s ms with
  | nil =>
    cases h
    simp
  | cons a rest ih =>
    obtain ⟨s', more, hmove, hmore, rfl⟩ := moves_cons h
    obtain ⟨hiff, hnext⟩ := hstep s a s' hinit hmove (hgiven _ mem_cons_self)
    have hrest := fun hmeets : Meets s a => ih (hnext hmeets) hmore
      fun m hm => hgiven m (mem_cons_of_mem _ hm)
    refine ⟨⟨fun hfine => ?_, fun hall => ?_⟩, fun hall => ?_⟩
    · obtain ⟨hfirst, hmorefine⟩ := forall_mem_cons.mp hfine
      have hmeets := hiff.mp hfirst
      exact forall_mem_cons.mpr ⟨hmeets, (hrest hmeets).1.mp hmorefine⟩
    · obtain ⟨hmeets, hmoremeets⟩ := forall_mem_cons.mp hall
      exact forall_mem_cons.mpr ⟨hiff.mpr hmeets, (hrest hmeets).1.mpr hmoremeets⟩
    · obtain ⟨hmeets, hmoremeets⟩ := forall_mem_cons.mp hall
      exact forall_mem_cons.mpr ⟨hnext hmeets, (hrest hmeets).2 hmoremeets⟩

theorem fine_iff_meets {P : σ → Prop} {Fine : Taken σ ι → Prop} {Meets : σ → ι → Prop}
    (hstep : ∀ s a s', P s → step a s = some s' →
      (Fine ⟨s, a, s'⟩ ↔ Meets s a) ∧ (Meets s a → P s'))
    {actions : List ι} {s : σ} {ms : List (Taken σ ι)} (hinit : P s)
    (h : moves step actions s = some ms) :
    (∀ m ∈ ms, Fine m) ↔ ∀ m ∈ ms, Meets m.before m.act :=
  by
  have hall : ∀ m ∈ ms, (fun _ : Taken σ ι => True) m := fun _ _ => trivial
  exact (fine_iff_meets_given (fun s a s' hinv hmove _ => hstep s a s' hinv hmove) hinit h hall).1

end

end Substrate.Lib
