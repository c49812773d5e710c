import Mathlib.Data.List.Nodup
import Substrate.Lib.Transition

/-!
Fencing by epochs. A resource is held by at most one worker at a time; each grant raises
its epoch, and a worker may act only while it holds the resource. `Fence` keeps the
history of grants and of acts beside the current epoch and holder.
-/

namespace Substrate.Lib

open List

universe u

/-- A fenced resource, with every grant and every act so far, oldest first. -/
structure Fence (ω : Type u) where
  epoch : Nat := 0
  holder : Option ω := none
  grants : List (Nat × ω) := []
  acts : List (Nat × ω) := []

namespace Fence

variable {ω : Type u}

inductive Deed (ω : Type u) where
  | grant (who : ω)
  | release
  | act (who : ω)

def apply : Deed ω → Fence ω → Fence ω
  | .grant who, f =>
    { f with
      epoch := f.epoch + 1, holder := some who
      grants := f.grants ++ [(f.epoch + 1, who)] }
  | .release, f => { f with holder := none }
  | .act who, f => { f with acts := f.acts ++ [(f.epoch, who)] }

def Ok (f : Fence ω) : Deed ω → Prop
  | .grant _ => f.holder = none
  | .release => True
  | .act who => f.holder = some who

abbrev Runs : Fence ω → Fence ω → Prop := Steps apply Ok

structure Sound (f : Fence ω) : Prop where
  increasing : f.grants.Pairwise fun earlier later => earlier.1 < later.1
  bounded : ∀ grant ∈ f.grants, grant.1 ≤ f.epoch
  latest : ∀ who, f.holder = some who → f.grants.getLast? = some (f.epoch, who)
  granted : ∀ act ∈ f.acts, act ∈ f.grants
  ordered : f.acts.Pairwise fun earlier later => earlier.1 ≤ later.1

theorem sound_new : Sound ({} : Fence ω) := by
  constructor
  · exact List.Pairwise.nil
  · intro grant hgrant
    cases hgrant
  · intro who hwho
    cases hwho
  · intro act hact
    cases hact
  · exact List.Pairwise.nil

private theorem sound_grant {f : Fence ω} (h : Sound f) (who : ω) :
    Sound (apply (.grant who) f) := by
  constructor
  · apply pairwise_append.mpr
    refine ⟨h.increasing, pairwise_singleton .., ?_⟩
    intro earlier hearlier later hlater
    have hbound := h.bounded earlier hearlier
    rw [mem_singleton.mp hlater]
    omega
  · intro grant hgrant
    change grant.1 ≤ f.epoch + 1
    rcases mem_append.mp hgrant with hold | hnew
    · have hbound := h.bounded grant hold
      omega
    · have heq := mem_singleton.mp hnew
      exact Nat.le_of_eq (congrArg Prod.fst heq)
  · intro holder hholder
    cases hholder
    exact List.getLast?_concat ..
  · intro act hact
    exact mem_append_left _ (h.granted act hact)
  · exact h.ordered

private theorem sound_act {f : Fence ω} (h : Sound f) {who : ω}
    (hholds : f.holder = some who) : Sound (apply (.act who) f) := by
  have hlatest := h.latest who hholds
  constructor
  · exact h.increasing
  · exact h.bounded
  · exact h.latest
  · intro act hact
    rcases mem_append.mp hact with hold | hnew
    · exact h.granted act hold
    · rw [mem_singleton.mp hnew]
      exact mem_of_getLast? hlatest
  · apply pairwise_append.mpr
    refine ⟨h.ordered, pairwise_singleton .., ?_⟩
    intro earlier hearlier later hlater
    rw [mem_singleton.mp hlater]
    exact h.bounded earlier (h.granted earlier hearlier)

theorem sound_apply {f : Fence ω} {deed : Deed ω} (h : Sound f) (hok : f.Ok deed) :
    Sound (apply deed f) := by
  cases deed with
  | grant who => exact sound_grant h who
  | release =>
    constructor
    · exact h.increasing
    · exact h.bounded
    · intro who hwho
      cases hwho
    · exact h.granted
    · exact h.ordered
  | act who => exact sound_act h hok

theorem Runs.sound {f f' : Fence ω} (hruns : Runs f f') (h : Sound f) : Sound f' :=
  Steps.invariant (fun _ _ hf hok => sound_apply hf hok) hruns h

end Fence

end Substrate.Lib
