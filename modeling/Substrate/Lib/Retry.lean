import Mathlib.Data.List.Basic

/-!
Removals that may be cut short and are asked for again. A removal reads what it needs from
the items that are there, removes some of them step by step, and in the middle, in one
transaction, the items that it has read from.
-/

namespace Substrate.Lib

open List

universe u

/-- A step removes all items of a kind: in one transaction, or one after the other. A step
that raises removes nothing and nothing comes after it. -/
structure Removal (ι : Type u) where
  removes : ι → Bool
  whole : Bool
  raises : Bool

/-- Where an attempt is cut short: after so many steps, with some of the next one's items
still there. -/
structure Cut (ι : Type u) where
  done : Nat
  kept : ι → Bool

section

variable {ι : Type u}

def spared (steps : List (Removal ι)) (x : ι) : Bool := steps.all fun step => !step.removes x

@[simp] theorem spared_nil (x : ι) : spared [] x = true := rfl

theorem spared_append (first last : List (Removal ι)) (x : ι) :
    spared (first ++ last) x = (spared first x && spared last x) := all_append

theorem spared_cons (step : Removal ι) (steps : List (Removal ι)) (x : ι) :
    spared (step :: steps) x = (!step.removes x && spared steps x) := all_cons

def taken (steps : List (Removal ι)) (x : ι) : Prop := ∃ step ∈ steps, step.removes x = true

theorem spared_iff {steps : List (Removal ι)} {x : ι} : spared steps x = true ↔ ¬taken steps x := by
  unfold spared taken
  rw [all_eq_true]
  constructor
  · rintro h ⟨step, hstep, hremoves⟩
    have hspared := h step hstep
    rw [hremoves] at hspared
    cases hspared
  · intro h step hstep
    cases hremoves : step.removes x with
    | true => exact absurd ⟨step, hstep, hremoves⟩ h
    | false => rfl

@[simp] theorem taken_nil {x : ι} : ¬taken [] x := fun h => nomatch h.choose_spec.1

@[simp] theorem taken_cons {step : Removal ι} {steps : List (Removal ι)} {x : ι} :
    taken (step :: steps) x ↔ step.removes x = true ∨ taken steps x := by
  unfold taken
  rw [exists_mem_cons_iff]

@[simp] theorem taken_append {first last : List (Removal ι)} {x : ι} :
    taken (first ++ last) x ↔ taken first x ∨ taken last x := by
  unfold taken
  constructor
  · rintro ⟨step, hstep, hremoves⟩
    rcases mem_append.mp hstep with hstep | hstep
    · exact .inl ⟨step, hstep, hremoves⟩
    · exact .inr ⟨step, hstep, hremoves⟩
  · rintro (⟨step, hstep, hremoves⟩ | ⟨step, hstep, hremoves⟩)
    · exact ⟨step, mem_append_left _ hstep, hremoves⟩
    · exact ⟨step, mem_append_right _ hstep, hremoves⟩

@[simp] theorem taken_flatMap {α : Type u} {f : α → List (Removal ι)} {items : List α} {x : ι} :
    taken (items.flatMap f) x ↔ ∃ a ∈ items, taken (f a) x := by
  unfold taken
  constructor
  · rintro ⟨step, hstep, hremoves⟩
    obtain ⟨a, ha, hstep⟩ := mem_flatMap.mp hstep
    exact ⟨a, ha, step, hstep, hremoves⟩
  · rintro ⟨a, ha, step, hstep, hremoves⟩
    exact ⟨step, mem_flatMap.mpr ⟨a, ha, hstep⟩, hremoves⟩

@[simp] theorem taken_map {α : Type u} {f : α → Removal ι} {items : List α} {x : ι} :
    taken (items.map f) x ↔ ∃ a ∈ items, (f a).removes x = true := by
  unfold taken
  constructor
  · rintro ⟨step, hstep, hremoves⟩
    obtain ⟨a, ha, rfl⟩ := mem_map.mp hstep
    exact ⟨a, ha, hremoves⟩
  · rintro ⟨a, ha, hremoves⟩
    exact ⟨f a, mem_map.mpr ⟨a, ha, rfl⟩, hremoves⟩

theorem spared_take {steps : List (Removal ι)} {x : ι} (n : Nat) (h : spared steps x = true) :
    spared (steps.take n) x = true := by
  rw [← take_append_drop n steps, spared_append, Bool.and_eq_true] at h
  exact h.1

theorem not_spared_of_mem {steps : List (Removal ι)} {step : Removal ι} {x : ι}
    (hmem : step ∈ steps) (hremoves : step.removes x = true) : spared steps x = false := by
  by_contra hspared
  rw [Bool.not_eq_false] at hspared
  exact spared_iff.mp hspared ⟨step, hmem, hremoves⟩

def reached (steps : List (Removal ι)) : List (Removal ι) :=
  steps.takeWhile fun step => !step.raises

def survives (steps : List (Removal ι)) (cut : Cut ι) (x : ι) : Bool :=
  spared (steps.take cut.done) x &&
    match steps[cut.done]? with
    | some step => step.whole || !step.removes x || cut.kept x
    | none => true

theorem spared_reached {steps : List (Removal ι)} {x : ι} (h : spared steps x = true) :
    spared (reached steps) x = true := by
  apply spared_iff.mpr
  rintro ⟨step, hstep, hremoves⟩
  exact spared_iff.mp h ⟨step, takeWhile_subset _ hstep, hremoves⟩

theorem survives_of_spared {steps : List (Removal ι)} {x : ι} (h : spared steps x = true)
    (cut : Cut ι) : survives steps cut x = true := by
  unfold survives
  rw [spared_take _ h, Bool.true_and]
  cases hstep : steps[cut.done]? with
  | none => rfl
  | some step =>
    cases hremoves : step.removes x with
    | true => exact absurd ⟨step, mem_of_getElem? hstep, hremoves⟩ (spared_iff.mp h)
    | false =>
      dsimp only
      rw [hremoves, Bool.not_false, Bool.or_true, Bool.true_or]

end

/-- What is removed before, in and after the transaction, given what is there. -/
structure Erasure (ι : Type u) where
  before : List ι → List (Removal ι)
  commit : List ι → ι → Bool
  after : List ι → List (Removal ι)

namespace Erasure

variable {ι : Type u} (E : Erasure ι)

def commitStep (d : List ι) : Removal ι := ⟨E.commit d, true, false⟩

def steps (d : List ι) : List (Removal ι) := E.before d ++ E.commitStep d :: E.after d

def completes (d : List ι) : Bool := (E.steps d).all fun step => !step.raises

def full (d : List ι) : List ι := d.filter (spared (E.steps d))

def attempt (cut : Cut ι) (d : List ι) : List ι := d.filter (survives (reached (E.steps d)) cut)

def attempts : List (Cut ι) → List ι → List ι
  | [], d => d
  | cut :: cuts, d => attempts cuts (E.attempt cut d)

/-- An attempt that is cut short after the transaction leaves nothing that only what it has
read leads to. -/
def Leaves (cut : Cut ι) (d : List ι) : Prop :=
  (E.before d).length < cut.done → ∀ x ∈ E.attempt cut d,
    spared (E.after []) x = true → spared (E.after d) x = true

def Clean : List (Cut ι) → List ι → Prop
  | [], _ => True
  | cut :: cuts, d => E.Leaves cut d ∧ Clean cuts (E.attempt cut d)

/-- The steps before the transaction do not raise and do not touch what is read; after the
transaction nothing is there to be read, and what is removed then is removed in any case. -/
structure Lawful : Prop where
  quiet : ∀ d, ∀ step ∈ E.before d, step.raises = false
  same : ∀ d keep, (∀ x, keep x = false → spared (E.before d) x = false) →
    E.before (d.filter keep) = E.before d ∧ E.commit (d.filter keep) = E.commit d ∧
      E.after (d.filter keep) = E.after d
  gone : ∀ d keep, (∀ x ∈ d, E.commit d x = true → keep x = false) → E.before (d.filter keep) = [] ∧
      (∀ x ∈ d.filter keep, E.commit (d.filter keep) x = false) ∧
      E.after (d.filter keep) = E.after []
  less : ∀ d x, taken (E.after []) x → taken (E.after d) x

structure Emptied (d : List ι) : Prop where
  before : E.before d = []
  commit : ∀ x ∈ d, E.commit d x = false
  after : E.after d = E.after []

section

variable {E}

theorem mem_full {d : List ι} {x : ι} :
    x ∈ E.full d ↔ x ∈ d ∧ spared (E.before d) x = true ∧ E.commit d x = false ∧
      spared (E.after d) x = true := by
  unfold full steps
  rw [mem_filter, spared_append, spared_cons, Bool.and_eq_true, Bool.and_eq_true, Bool.not_eq_true']
  rfl

theorem reached_steps (hE : E.Lawful) (d : List ι) :
    reached (E.steps d) = E.before d ++ E.commitStep d :: reached (E.after d) := by
  unfold reached steps
  rw [takeWhile_append_of_pos]
  · rw [takeWhile_cons_of_pos]
    rfl
  · intro step hstep
    rw [hE.quiet d step hstep]
    rfl

theorem early (hE : E.Lawful) {cut : Cut ι} {d : List ι}
    (hcut : cut.done ≤ (E.before d).length) : E.before (E.attempt cut d) = E.before d ∧
      E.commit (E.attempt cut d) = E.commit d ∧ E.after (E.attempt cut d) = E.after d := by
  apply hE.same
  intro x hx
  unfold survives at hx
  rw [reached_steps hE, take_append_of_le_length hcut] at hx
  rcases Bool.and_eq_false_iff.mp hx with hx | hx
  · by_contra hspared
    rw [Bool.not_eq_false] at hspared
    rw [spared_take _ hspared] at hx
    cases hx
  · rcases Nat.lt_or_eq_of_le hcut with hlt | heq
    · rw [List.getElem?_append_left hlt, List.getElem?_eq_getElem hlt] at hx
      apply not_spared_of_mem (getElem_mem hlt)
      simp only [Bool.or_eq_false_iff, Bool.not_eq_false'] at hx
      exact hx.1.2
    · rw [heq, List.getElem?_append_right (Nat.le_refl _), Nat.sub_self] at hx
      cases hx

theorem late (hE : E.Lawful) {cut : Cut ι} {d : List ι} (hcut : (E.before d).length < cut.done)
    {x : ι} (hx : survives (reached (E.steps d)) cut x = true) :
    spared (E.before d) x = true ∧ E.commit d x = false := by
  unfold survives at hx
  obtain ⟨hx, _⟩ := Bool.and_eq_true_iff.mp hx
  rw [reached_steps hE, take_append, spared_append, Bool.and_eq_true,
    take_of_length_le (Nat.le_of_lt hcut)] at hx
  refine ⟨hx.1, ?_⟩
  obtain ⟨n, hn⟩ := Nat.exists_eq_add_of_lt hcut
  have hsub : cut.done - (E.before d).length = n + 1 := by omega
  have hcommit := hx.2
  rw [hsub, take_succ_cons, spared_cons, Bool.and_eq_true, Bool.not_eq_true'] at hcommit
  exact hcommit.1

theorem emptied_late (hE : E.Lawful) {cut : Cut ι} {d : List ι}
    (hcut : (E.before d).length < cut.done) : E.Emptied (E.attempt cut d) := by
  obtain ⟨hbefore, hcommit, hafter⟩ := hE.gone d (survives (reached (E.steps d)) cut) (by
    intro x _ hremoved
    by_contra hkept
    rw [Bool.not_eq_false] at hkept
    rw [(late hE hcut hkept).2] at hremoved
    cases hremoved)
  exact ⟨hbefore, hcommit, hafter⟩

theorem Emptied.attempt (hE : E.Lawful) {d : List ι} (h : E.Emptied d) (cut : Cut ι) :
    E.Emptied (E.attempt cut d) := by
  obtain ⟨hbefore, hcommit, hafter⟩ := hE.gone d (survives (reached (E.steps d)) cut) (by
    intro x hx hremoved
    rw [h.commit x hx] at hremoved
    cases hremoved)
  exact ⟨hbefore, hcommit, hafter⟩

theorem Emptied.mem_full {d : List ι} (h : E.Emptied d) {x : ι} :
    x ∈ E.full d ↔ x ∈ d ∧ spared (E.after []) x = true := by
  rw [Erasure.mem_full, h.before, h.after]
  constructor
  · rintro ⟨hx, _, _, hspared⟩
    exact ⟨hx, hspared⟩
  · rintro ⟨hx, hspared⟩
    exact ⟨hx, rfl, h.commit x hx, hspared⟩

theorem mem_of_attempt {cut : Cut ι} {d : List ι} {x : ι} (h : x ∈ E.attempt cut d) : x ∈ d :=
  (mem_filter.mp h).1

theorem mem_of_attempts {cuts : List (Cut ι)} {d : List ι} {x : ι}
    (h : x ∈ E.attempts cuts d) : x ∈ d := by
  induction cuts generalizing d with
  | nil => exact h
  | cons cut cuts ih => exact mem_of_attempt (ih h)

theorem Emptied.stays (hE : E.Lawful) {d : List ι} (h : E.Emptied d) {x : ι} (hx : x ∈ d)
    (hspared : spared (E.after []) x = true) (cuts : List (Cut ι)) :
    E.Emptied (E.attempts cuts d) ∧ x ∈ E.attempts cuts d := by
  induction cuts generalizing d with
  | nil => exact ⟨h, hx⟩
  | cons cut cuts ih =>
    apply ih (h.attempt hE cut)
    refine mem_filter.mpr ⟨hx, ?_⟩
    apply survives_of_spared
    rw [reached_steps hE, h.before, h.after, nil_append, spared_cons, Bool.and_eq_true]
    refine ⟨?_, spared_reached hspared⟩
    change (!E.commit d x) = true
    rw [h.commit x hx]
    rfl

theorem Emptied.attempts (hE : E.Lawful) {d : List ι} (h : E.Emptied d) (cuts : List (Cut ι)) :
    E.Emptied (E.attempts cuts d) := by
  induction cuts generalizing d with
  | nil => exact h
  | cons cut cuts ih => exact ih (h.attempt hE cut)

theorem full_attempt (hE : E.Lawful) {cut : Cut ι} {d : List ι} {x : ι} (hx : x ∈ E.full d) :
    x ∈ E.full (E.attempt cut d) := by
  obtain ⟨hd, hbefore, hcommit, hafter⟩ := mem_full.mp hx
  have hall : spared (reached (E.steps d)) x = true := by
    rw [reached_steps hE, spared_append, spared_cons, hbefore]
    change (true && (!E.commit d x && spared (reached (E.after d)) x)) = true
    rw [hcommit, Bool.not_false, Bool.true_and, Bool.true_and]
    exact spared_reached hafter
  have hstays : x ∈ E.attempt cut d := mem_filter.mpr ⟨hd, survives_of_spared hall cut⟩
  rcases Nat.lt_or_ge (E.before d).length cut.done with hlate | hearly
  · refine (emptied_late hE hlate).mem_full.mpr ⟨hstays, ?_⟩
    exact spared_iff.mpr fun htaken => spared_iff.mp hafter (hE.less d x htaken)
  · obtain ⟨hb, hc, ha⟩ := early hE hearly
    rw [mem_full, hb, hc, ha]
    exact ⟨hstays, hbefore, hcommit, hafter⟩

theorem full_attempts (hE : E.Lawful) (cuts : List (Cut ι)) {d : List ι} {x : ι}
    (hx : x ∈ E.full d) : x ∈ E.full (E.attempts cuts d) := by
  induction cuts generalizing d with
  | nil => exact hx
  | cons cut cuts ih => exact ih (full_attempt hE hx)

theorem finished_iff (hE : E.Lawful) (cuts : List (Cut ι)) (d : List ι) :
    (∀ x ∈ E.full (E.attempts cuts d), x ∈ E.full d) ↔ E.Clean cuts d := by
  induction cuts generalizing d with
  | nil => exact iff_of_true (fun _ hx => hx) trivial
  | cons cut cuts ih =>
    have hsub : ∀ x ∈ E.full (E.attempts cuts (E.attempt cut d)), x ∈ E.attempt cut d :=
      fun x hx => mem_of_attempts (mem_full.mp hx).1
    constructor
    · intro hfinal
      refine ⟨fun hlate x hx hnamed => ?_, (ih _).mp fun x hx => ?_⟩
      · have hemptied := emptied_late hE hlate
        obtain ⟨hend, hstays⟩ := hemptied.stays hE hx hnamed cuts
        have hfull := hfinal x (hend.mem_full.mpr ⟨hstays, hnamed⟩)
        exact (mem_full.mp hfull).2.2.2
      · rcases Nat.lt_or_ge (E.before d).length cut.done with hlate | hearly
        · have hemptied := emptied_late hE hlate
          have hspared := ((hemptied.attempts hE cuts).mem_full.mp hx).2
          exact hemptied.mem_full.mpr ⟨hsub x hx, hspared⟩
        · obtain ⟨hbefore, hcommit, hafter⟩ := early hE hearly
          rw [mem_full, hbefore, hcommit, hafter]
          exact ⟨hsub x hx, (mem_full.mp (hfinal x hx)).2⟩
    · rintro ⟨hleaves, hclean⟩ x hx
      have hnext := (ih _).mpr hclean x hx
      have hd := mem_of_attempt (hsub x hx)
      rcases Nat.lt_or_ge (E.before d).length cut.done with hlate | hearly
      · have hnamed := ((emptied_late hE hlate).mem_full.mp hnext).2
        obtain ⟨hbefore, hcommit⟩ := late hE hlate (mem_filter.mp (hsub x hx)).2
        exact mem_full.mpr ⟨hd, hbefore, hcommit, hleaves hlate x (hsub x hx) hnamed⟩
      · obtain ⟨hbefore, hcommit, hafter⟩ := early hE hearly
        rw [mem_full, hbefore, hcommit, hafter] at hnext
        exact mem_full.mpr ⟨hd, hnext.2⟩

end

end Erasure

end Substrate.Lib
