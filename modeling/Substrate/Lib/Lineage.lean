import Mathlib.Init

/-!
Parent pointers. `up a` is nothing when there is no node `a`, and otherwise the
parent of `a`, which a root does not have. A node from which the pointers lead to
a root lies at one depth only, so its line of ancestors repeats no node.
-/

namespace Substrate.Lib

universe u

variable {α : Type u} {up up' : α → Option (Option α)}

/-- `n` steps up lead from the node to a root. -/
inductive Rooted (up : α → Option (Option α)) : Nat → α → Prop
  | root {a : α} (h : up a = some none) : Rooted up 0 a
  | child {n : Nat} {a b : α} (h : up a = some (some b)) (hparent : Rooted up n b) :
      Rooted up (n + 1) a

namespace Rooted

theorem depth_unique {n m : Nat} {a : α} (hn : Rooted up n a) (hm : Rooted up m a) : n = m := by
  induction hn generalizing m with
  | root h =>
    cases hm with
    | root => rfl
    | child h' => simp [h] at h'
  | child h _ ih =>
    cases hm with
    | root h' => simp [h] at h'
    | child h' hparent =>
      have hsame := h.symm.trans h'
      simp only [Option.some.injEq] at hsame
      subst hsame
      rw [ih hparent]

theorem transport {P : α → Prop} (hclosed : ∀ a b, P a → up a = some (some b) → P b)
    (hkeep : ∀ a p, P a → up a = some p → up' a = some p) {n : Nat} {a : α} (ha : P a)
    (h : Rooted up n a) : Rooted up' n a := by
  induction h with
  | root h => exact .root (hkeep _ _ ha h)
  | child h _ ih => exact .child (hkeep _ _ ha h) (ih (hclosed _ _ ha h))

theorem mono (hkeep : ∀ a p, up a = some p → up' a = some p) {n : Nat} {a : α}
    (h : Rooted up n a) : Rooted up' n a :=
  transport (P := fun _ => True) (fun _ _ _ _ => trivial) (fun a p _ => hkeep a p) trivial h

end Rooted

end Substrate.Lib
