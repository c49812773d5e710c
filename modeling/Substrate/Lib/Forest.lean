import Mathlib.Algebra.BigOperators.Ring.Finset
import Mathlib.Logic.Relation
import Mathlib.Order.WellFoundedSet

/-!
Finite relations without cycles. Such a relation is well founded, and every node
then has a weight: the number of turns a walk takes that pops a node and queues
its children again, without remembering which nodes it has seen.
-/

namespace Substrate.Lib

universe u

variable {α : Type u}

def Acyclic (r : α → α → Prop) : Prop := ∀ a, ¬ Relation.TransGen r a a

theorem Acyclic.wellFounded {r : α → α → Prop} (h : Acyclic r) (support : List α)
    (hsupport : ∀ a b, r a b → a ∈ support) : WellFounded r := by
  have horder : IsStrictOrder α (Relation.TransGen r) :=
    { irrefl := h, trans := fun _ _ _ => Relation.TransGen.trans }
  have hwf : {a | a ∈ support}.WellFoundedOn (Relation.TransGen r) :=
    (List.finite_toSet support).wellFoundedOn
  have hacc : ∀ a ∈ support, Acc r a := by
    intro a ha
    refine hwf.induction ha fun b _ ih => ?_
    exact Acc.intro b fun c hc => ih c (hsupport c b hc) (.single hc)
  exact ⟨fun a => Acc.intro a fun b hb => hacc b (hsupport b a hb)⟩

theorem exists_weight {children : α → List α}
    (hwf : WellFounded fun child parent => child ∈ children parent) :
    ∃ weight : α → Nat, ∀ a, weight a = 1 + ((children a).map weight).sum := by
  let weight : α → Nat := hwf.fix fun a turns =>
    1 + ((children a).attach.map fun child => turns child.1 child.2).sum
  refine ⟨weight, fun a => ?_⟩
  have hfix : weight a = 1 + ((children a).attach.map fun child => weight child.1).sum :=
    hwf.fix_eq _ a
  rw [hfix, List.attach_map_val]

end Substrate.Lib
