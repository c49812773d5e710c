import Substrate.Lib.Transaction

/-!
Rehearsals of two transactions that share a database. The turns are a list that can be
run; where every turn could be taken, the rehearsal is a run of moves. A transaction is
opened for a request, whose program is given.
-/

namespace Substrate.Lib

open Option

variable {δ τ ω ρ κ ε α μ : Type}

inductive Turn (μ : Type) where
  | start (i : Bool) (what : μ)
  | advance (i : Bool)
  | commit (i : Bool)

def Turn.move (program : μ → Tx δ τ ω ε α) : Turn μ → Move Bool δ τ ω ε α μ
  | .start i what => .start i what (program what)
  | .advance i => .advance i
  | .commit i => .commit i

def Open.ended (o : Open δ τ ω ρ κ ε α) : Bool :=
  match o.rest with
  | .ret _ => true
  | _ => false

theorem Open.ended_iff {o : Open δ τ ω ρ κ ε α} : o.ended = true ↔ ∃ a, o.rest = .ret a := by
  obtain ⟨rest, images, reads, held, made⟩ := o
  unfold ended
  cases rest with
  | ret a | raise e | read what next | write w next => simp

namespace Engine

variable (engine : Engine δ ω ρ κ ε) (program : μ → Tx δ τ ω ε α)

def Opens {ι : Type} : Move ι δ τ ω ε α μ → Prop
  | .start _ what t => t = program what
  | _ => True

variable [DecidableEq κ]

/-- The turn can be taken. -/
def possible (s : Sessions Bool δ τ ω ρ κ ε α μ) : Turn μ → Bool
  | .start i _ => (s.opened i).isNone
  | .advance i =>
    match s.opened i, s.opened !i with
    | some (_, o), some (_, o') => (engine.wants o s.db).all fun key => key ∉ o'.held
    | some _, none => true
    | none, _ => false
  | .commit i => (s.opened i).any fun entry => entry.2.ended

/-- The state after some turns, if all of them can be taken and meet a condition. -/
def rehearse (met : Sessions Bool δ τ ω ρ κ ε α μ → Turn μ → Bool) :
    List (Turn μ) → Sessions Bool δ τ ω ρ κ ε α μ → Option (Sessions Bool δ τ ω ρ κ ε α μ)
  | [], s => some s
  | turn :: rest, s =>
    if engine.possible s turn && met s turn then
      rehearse met rest (engine.move (turn.move program) s)
    else none

theorem possible_canMove {s : Sessions Bool δ τ ω ρ κ ε α μ} {turn : Turn μ}
    (h : engine.possible s turn = true) : engine.CanMove s (turn.move program) := by
  cases turn with
  | start i what => exact isNone_iff_eq_none.mp h
  | commit i =>
    simp only [possible, any_eq_true] at h
    obtain ⟨⟨what, o⟩, hopen, hended⟩ := h
    obtain ⟨a, hret⟩ := Open.ended_iff.mp hended
    exact ⟨what, o, a, hopen, hret⟩
  | advance i =>
    cases hi : s.opened i with
    | none =>
      simp only [possible, hi] at h
      cases h
    | some entry =>
      refine ⟨entry.1, entry.2, hi, ?_⟩
      intro j hj what' o' hopen key hkey
      have hother : j = !i := by
        cases i <;> cases j <;> first | rfl | exact absurd rfl hj
      rw [hother] at hopen
      simp only [possible, hi, hopen] at h
      exact of_decide_eq_true (List.all_eq_true.mp h key hkey)

theorem steps_of_rehearse {met : Sessions Bool δ τ ω ρ κ ε α μ → Turn μ → Bool}
    {met' : Sessions Bool δ τ ω ρ κ ε α μ → Move Bool δ τ ω ε α μ → Prop}
    (hmet : ∀ s turn, met s turn = true → met' s (turn.move program)) :
    ∀ {turns : List (Turn μ)} {s s' : Sessions Bool δ τ ω ρ κ ε α μ},
      engine.rehearse program met turns s = some s' →
      Steps engine.move (fun s m => engine.CanMove s m ∧ Opens program m ∧ met' s m) s s'
  | [], s, s', h => by
      cases h
      exact .refl s
  | turn :: rest, s, s', h => by
      unfold rehearse at h
      split at h
      · rename_i hcan
        obtain ⟨hpossible, hturn⟩ := (Bool.and_eq_true _ _).mp hcan
        have hopens : Opens program (turn.move program) := by
          cases turn <;> first | rfl | trivial
        exact (Steps.single (turn.move program)
          ⟨engine.possible_canMove program hpossible, hopens, hmet s turn hturn⟩).trans
            (steps_of_rehearse hmet h)
      · cases h

end Engine

end Substrate.Lib
