import Substrate.Lib.Turns

/-!
Processes that are judged deed by deed: whatever they find, every deed they come to is of a
kind. And runs in which one process follows the other, as lists that can be computed.
-/

namespace Substrate.Lib

variable {ι χ σ θ ω ε α β γ μ : Type}

namespace Process

def Only (inv : σ → Prop) (P : ω → Prop) : Process χ σ ω ε α → Prop
  | .ret _ => True
  | .raise _ => True
  | .act deed next => P deed ∧ ∀ c s, inv s → Only inv P (next c s)

variable {inv : σ → Prop} {P : ω → Prop}

theorem Only.bind {p : Process χ σ ω ε α} {f : α → Process χ σ ω ε β} (h : p.Only inv P)
    (hf : ∀ a, (f a).Only inv P) : (p.bind f).Only inv P := by
  induction p with
  | ret a => exact hf a
  | raise e => trivial
  | act deed next ih => exact ⟨h.1, fun c s hs => ih c s (h.2 c s hs)⟩

theorem Only.seq {p : Process χ σ ω ε α} {f : α → Process χ σ ω ε β} (h : p.Only inv P)
    (hf : ∀ a, (f a).Only inv P) : (p >>= f).Only inv P := h.bind hf

theorem Only.catching {p : Process χ σ ω ε α} {handler : ε → Process χ σ ω ε α}
    (h : p.Only inv P) (hhandler : ∀ e, (handler e).Only inv P) :
    (p.catching handler).Only inv P := by
  induction p with
  | ret a => trivial
  | raise e => exact hhandler e
  | act deed next ih => exact ⟨h.1, fun c s hs => ih c s (h.2 c s hs)⟩

theorem Only.perform {deed : ω} (h : P deed) (answer : χ → σ → Except ε α) :
    (Process.perform deed answer).Only inv P := by
  refine ⟨h, fun c s _ => ?_⟩
  dsimp only
  cases answer c s with
  | ok a | error e => trivial

theorem Only.after {deed : ω} (h : P deed) {answer : χ → σ → Except ε α}
    {f : α → Process χ σ ω ε β}
    (hf : ∀ c s, inv s → ∀ a, answer c s = .ok a → (f a).Only inv P) :
    (Process.perform deed answer >>= f).Only inv P := by
  refine ⟨h, fun c s hs => ?_⟩
  cases hanswer : answer c s with
  | ok a =>
    simp only [hanswer]
    exact hf c s hs a hanswer
  | error e =>
    simp only [hanswer]
    trivial

theorem Only.each {f : γ → Process χ σ ω ε Unit} {items : List γ}
    (h : ∀ item, (f item).Only inv P) : (Process.each f items).Only inv P := by
  induction items with
  | nil => trivial
  | cons item rest ih => exact (h item).bind fun _ => ih

end Process

namespace Stage

theorem Sound.of_only {stage : Stage ι χ σ θ ω μ} {discipline : Discipline ι χ θ ω μ}
    {inv : σ → Prop} {P : ω → Prop} {i : ι} {what : μ} {p : Process χ σ ω ε α}
    (hinv : ∀ s, discipline.inv s → inv (stage.real s))
    (horder : ∀ deed c s, P deed → discipline.inOrder i what deed c s) (h : p.Only inv P)
    (s : θ) : stage.Sound discipline i what (fun _ _ => True) p s := by
  induction p generalizing s with
  | ret a | raise e => trivial
  | act deed next ih =>
    intro s' hs _ c _
    exact ⟨horder deed c s' h.1, ih c _ (h.2 c _ (hinv s' hs)) _⟩

variable (stage : Stage Unit χ σ θ ω μ) (ok : μ → ω → χ → θ → Bool)

def rehearse (what : μ) : List χ → Process χ σ ω ε α → θ → Option θ
  | c :: chances, .act deed next, s =>
    if ok what deed c s then
      rehearse what chances (next c (stage.real s)) (stage.apply () what deed c s)
    else none
  | _, _, s => some s

def script (process : μ → Process χ σ ω ε α) : List (μ × List χ) → θ → Option θ
  | [], s => some s
  | (what, chances) :: rest, s =>
    (stage.rehearse ok what chances (process what) (stage.leave () s)).bind fun s' =>
      script process rest (stage.leave () s')

variable {stage ok} {discipline : Discipline Unit χ θ ω μ} {process : μ → Process χ σ ω ε α}

theorem steps_rehearse
    (hok : ∀ what deed c s, ok what deed c s = true → discipline.allowed () what deed c s)
    {what : μ} : ∀ {chances : List χ} {p : Process χ σ ω ε α} {s s' : θ},
      stage.rehearse ok what chances p s = some s' →
        ∃ p', Steps stage.step (CanStep discipline process)
          (⟨s, fun _ => some (what, p)⟩ : World Unit χ σ θ ω ε α μ) ⟨s', fun _ => some (what, p')⟩
  | [], p, s, s', h => by
      cases h
      exact ⟨p, .refl _⟩
  | c :: chances, .ret a, s, s', h => by
      cases h
      exact ⟨.ret a, .refl _⟩
  | c :: chances, .raise e, s, s', h => by
      cases h
      exact ⟨.raise e, .refl _⟩
  | c :: chances, .act deed next, s, s', h => by
      unfold rehearse at h
      split at h
      · next hcan =>
          obtain ⟨p', hsteps⟩ := steps_rehearse hok h
          have hfirst : Steps stage.step (CanStep discipline process)
              (⟨s, fun _ => some (what, .act deed next)⟩ : World Unit χ σ θ ω ε α μ)
              ⟨stage.apply () what deed c s, fun _ => some (what, next c (stage.real s))⟩ :=
            Steps.single (Event.act () c) ⟨what, deed, next, rfl, hok what deed c s hcan⟩
          exact ⟨p', hfirst.trans hsteps⟩
      · cases h

theorem steps_script
    (hok : ∀ what deed c s, ok what deed c s = true → discipline.allowed () what deed c s) :
    ∀ {acts : List (μ × List χ)} {s s' : θ}, stage.script ok process acts s = some s' →
      Steps stage.step (CanStep discipline process)
        (⟨s, fun _ => none⟩ : World Unit χ σ θ ω ε α μ) ⟨s', fun _ => none⟩
  | [], s, s', h => by
      cases h
      exact .refl _
  | (what, chances) :: rest, s, s', h => by
      obtain ⟨s₁, hact, hrest⟩ := Option.bind_eq_some_iff.mp h
      obtain ⟨p', hsteps⟩ : ∃ p', Steps stage.step (CanStep discipline process)
          (⟨stage.leave () s, fun _ => some (what, process what)⟩ : World Unit χ σ θ ω ε α μ)
          ⟨s₁, fun _ => some (what, p')⟩ := steps_rehearse hok hact
      have hstart : Steps stage.step (CanStep discipline process)
          (⟨s, fun _ => none⟩ : World Unit χ σ θ ω ε α μ)
          ⟨stage.leave () s, fun _ => some (what, process what)⟩ :=
        Steps.single (Event.start () what (process what)) (And.intro rfl rfl)
      have hstop := (hstart.trans hsteps).next (Event.stop ()) trivial
      exact hstop.trans (steps_script hok hrest)

end Stage

end Substrate.Lib
