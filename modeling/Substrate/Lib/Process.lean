import Mathlib.Logic.Function.Basic
import Substrate.Lib.Transition

/-!
Processes over a shared state. A process does one deed after another; what it does next
depends on the state it found and on chance, which stands for whatever its surroundings
decide: a fault, the time, a fresh id.
-/

namespace Substrate.Lib

inductive Process (χ σ ω ε α : Type) where
  | ret (a : α)
  | raise (e : ε)
  | act (deed : ω) (next : χ → σ → Process χ σ ω ε α)

variable {χ σ ω ε α β : Type}

namespace Process

def bind : Process χ σ ω ε α → (α → Process χ σ ω ε β) → Process χ σ ω ε β
  | .ret a, f => f a
  | .raise e, _ => .raise e
  | .act deed next, f => .act deed fun c s => (next c s).bind f

def catching : Process χ σ ω ε α → (ε → Process χ σ ω ε α) → Process χ σ ω ε α
  | .ret a, _ => .ret a
  | .raise e, handler => handler e
  | .act deed next, handler => .act deed fun c s => (next c s).catching handler

instance : Monad (Process χ σ ω ε) where
  pure := .ret
  bind := bind

def perform (deed : ω) (answer : χ → σ → Except ε α) : Process χ σ ω ε α :=
  .act deed fun c s =>
    match answer c s with
    | .ok a => .ret a
    | .error e => .raise e

def each {γ : Type} (f : γ → Process χ σ ω ε Unit) : List γ → Process χ σ ω ε Unit
  | [] => .ret ()
  | item :: rest => (f item).bind fun _ => each f rest

section Ends

variable (apply : ω → χ → σ → σ) (usual : χ → Prop)

def Ends (Q : Except ε α → σ → Prop) : Process χ σ ω ε α → σ → Prop
  | .ret a, s => Q (.ok a) s
  | .raise e, s => Q (.error e) s
  | .act deed next, s => ∀ c, usual c → Ends Q (next c s) (apply deed c s)

def Leads : Process χ σ ω ε α → σ → σ → Prop
  | .ret _, s, s' => s' = s
  | .raise _, s, s' => s' = s
  | .act deed next, s, s' => ∃ c, usual c ∧ Leads (next c s) (apply deed c s) s'

def play : List χ → Process χ σ ω ε α → σ → Option σ
  | _, .ret _, s => some s
  | _, .raise _, s => some s
  | [], .act _ _, _ => none
  | c :: chances, .act deed next, s => play chances (next c s) (apply deed c s)

variable {apply usual}

theorem Ends.leads {P : σ → Prop} {p : Process χ σ ω ε α} {s s' : σ}
    (h : Ends apply usual (fun _ s => P s) p s) (hleads : Leads apply usual p s s') : P s' := by
  induction p generalizing s with
  | ret a | raise e =>
    cases hleads
    exact h
  | act deed next ih =>
    obtain ⟨c, hc, hrest⟩ := hleads
    exact ih c s (h c hc) hrest

theorem Ends.mono {Q Q' : Except ε α → σ → Prop} {p : Process χ σ ω ε α} {s : σ}
    (h : Ends apply usual Q p s) (hmono : ∀ r s, Q r s → Q' r s) : Ends apply usual Q' p s := by
  induction p generalizing s with
  | ret a | raise e => exact hmono _ _ h
  | act deed next ih => exact fun c hc => ih c s (h c hc)

theorem Ends.bind {Q : Except ε β → σ → Prop} {p : Process χ σ ω ε α}
    {f : α → Process χ σ ω ε β} {s : σ}
    (h : Ends apply usual
      (fun r s =>
        match r with
        | .ok a => Ends apply usual Q (f a) s
        | .error e => Q (.error e) s) p s) :
    Ends apply usual Q (p.bind f) s := by
  induction p generalizing s with
  | ret a | raise e => exact h
  | act deed next ih => exact fun c hc => ih c s (h c hc)

theorem Ends.catching {Q : Except ε α → σ → Prop} {p : Process χ σ ω ε α}
    {handler : ε → Process χ σ ω ε α} {s : σ}
    (h : Ends apply usual
      (fun r s =>
        match r with
        | .ok a => Q (.ok a) s
        | .error e => Ends apply usual Q (handler e) s) p s) :
    Ends apply usual Q (p.catching handler) s := by
  induction p generalizing s with
  | ret a | raise e => exact h
  | act deed next ih => exact fun c hc => ih c s (h c hc)

theorem Ends.perform {Q : Except ε α → σ → Prop} {deed : ω} {answer : χ → σ → Except ε α} {s : σ}
    (h : ∀ c, usual c → Q (answer c s) (apply deed c s)) :
    Ends apply usual Q (perform deed answer) s := by
  intro c hc
  have hc' := h c hc
  cases hanswer : answer c s with
  | error e | ok a =>
    rw [hanswer] at hc'
    simp only [hanswer]
    exact hc'

theorem leads_of_play {p : Process χ σ ω ε α} {s s' : σ} {chances : List χ}
    (hchances : ∀ c ∈ chances, usual c) (h : play apply chances p s = some s') :
    Leads apply usual p s s' := by
  induction p generalizing chances s with
  | ret a | raise e =>
    unfold play at h
    cases h
    rfl
  | act deed next ih =>
    cases chances with
    | nil => cases h
    | cons c rest =>
      have hrest : ∀ c' ∈ rest, usual c' := fun c' hmem => hchances c' (List.mem_cons_of_mem _ hmem)
      exact ⟨c, hchances c List.mem_cons_self, ih c s hrest h⟩

end Ends

end Process

end Substrate.Lib
