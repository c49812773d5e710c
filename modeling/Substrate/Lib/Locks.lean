import Substrate.Lib.Transaction

/-!
Sessions that exclude each other by locks only. Some of the keys are locks: a statement
waits for the locks it takes and for nothing else, and no lock is held by two.
-/

namespace Substrate.Lib.Engine

open Function

variable {ι δ τ ω ρ κ ε α μ : Type} [DecidableEq ι] (engine : Engine δ ω ρ κ ε) (locks : κ → Prop)

/-- As `CanMove`, but a statement waits for locks only. -/
def CanMoveOn (s : Sessions ι δ τ ω ρ κ ε α μ) : Move ι δ τ ω ε α μ → Prop
  | .advance i => ∃ what o, s.opened i = some (what, o) ∧
      ∀ j, j ≠ i → ∀ what' o', s.opened j = some (what', o') →
        ∀ key ∈ engine.wants o s.db, locks key → key ∉ o'.held
  | m => engine.CanMove s m

def ExclusiveOn (s : Sessions ι δ τ ω ρ κ ε α μ) : Prop :=
  ∀ i j what what' o o', i ≠ j → s.opened i = some (what, o) → s.opened j = some (what', o') →
    ∀ key ∈ o.held, locks key → key ∉ o'.held

omit [DecidableEq ι] in
theorem canMoveOn_of_canMove {s : Sessions ι δ τ ω ρ κ ε α μ} {m : Move ι δ τ ω ε α μ}
    (h : engine.CanMove s m) : engine.CanMoveOn locks s m := by
  cases m with
  | start i what t | commit i | rollback i => exact h
  | advance i =>
    obtain ⟨what, o, hopen, hfree⟩ := h
    exact ⟨what, o, hopen, fun j hj what' o' hopen' key hkey _ =>
      hfree j hj what' o' hopen' key hkey⟩

theorem exclusiveOn_move {s : Sessions ι δ τ ω ρ κ ε α μ} {m : Move ι δ τ ω ε α μ}
    (h : ExclusiveOn locks s) (hcan : engine.CanMoveOn locks s m) :
    ExclusiveOn locks (engine.move m s) := by
  -- what a session holds after the move it held before, or it has just waited for it
  have hheld : ∀ i what o, (engine.move m s).opened i = some (what, o) → ∀ key ∈ o.held,
      locks key → (∃ what' o', s.opened i = some (what', o') ∧ key ∈ o'.held) ∨
        m = .advance i ∧ ∀ j, j ≠ i → ∀ what' o', s.opened j = some (what', o') →
          key ∉ o'.held := by
    intro i what o hi key hkey hlock
    cases m with
    | start k w t =>
      simp only [move] at hi
      by_cases hik : i = k
      · rw [hik, update_self] at hi
        cases hi
        cases hkey
      · rw [update_of_ne hik] at hi
        exact .inl ⟨what, o, hi, hkey⟩
    | commit k =>
      obtain ⟨w, x, a, hopen, _⟩ := hcan
      simp only [move, hopen] at hi
      by_cases hik : i = k
      · rw [hik, update_self] at hi
        cases hi
      · rw [update_of_ne hik] at hi
        exact .inl ⟨what, o, hi, hkey⟩
    | rollback k =>
      simp only [move] at hi
      by_cases hik : i = k
      · rw [hik, update_self] at hi
        cases hi
      · rw [update_of_ne hik] at hi
        exact .inl ⟨what, o, hi, hkey⟩
    | advance k =>
      obtain ⟨w, x, hopen, hfree⟩ := hcan
      simp only [move, hopen] at hi
      by_cases hik : i = k
      · subst hik
        rw [update_self] at hi
        cases hi
        rw [advance_held] at hkey
        rcases List.mem_append.mp hkey with hold | hnew
        · exact .inl ⟨what, x, hopen, hold⟩
        · exact .inr ⟨rfl, fun j hj what' o' hj' => hfree j hj what' o' hj' key hnew hlock⟩
      · rw [update_of_ne hik] at hi
        exact .inl ⟨what, o, hi, hkey⟩
  intro i j what what' o o' hij hi hj key hkey hlock hkey'
  rcases hheld i what o hi key hkey hlock with ⟨w, x, hopen, hold⟩ | ⟨hmove, hfree⟩
  · rcases hheld j what' o' hj key hkey' hlock with ⟨w', x', hopen', hold'⟩ | ⟨_, hfree'⟩
    · exact h i j w w' x x' hij hopen hopen' key hold hlock hold'
    · exact hfree' i hij w x hopen hold
  · rcases hheld j what' o' hj key hkey' hlock with ⟨w', x', hopen', hold'⟩ | ⟨hmove', _⟩
    · exact hfree j (Ne.symm hij) w' x' hopen' hold'
    · rw [hmove] at hmove'
      cases hmove'
      exact hij rfl

end Substrate.Lib.Engine
