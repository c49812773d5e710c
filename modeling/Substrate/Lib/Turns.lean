import Substrate.Lib.Process

/-!
Processes that take their deeds in turn. Any of them may stop anywhere, as in a crash.
Each is judged by itself: it relies on what the others keep to, and every deed that it
comes to has to be in order. If the deeds in order keep what the others rely on, all
processes can be put together.
-/

namespace Substrate.Lib

open Function

variable {ι χ σ θ ω ε α β μ : Type}

/-- A state that processes share. They see `real` of it; the rest is remembered only to
reason about them. A deed may depend on who does it and what for, and `leave` is what
becomes of the state when a process stops. -/
structure Stage (ι χ σ θ ω μ : Type) where
  real : θ → σ
  apply : ι → μ → ω → χ → θ → θ
  leave : ι → θ → θ

/-- A state and the processes at work on it. `μ` says what a process is for. -/
structure World (ι χ σ θ ω ε α μ : Type) where
  state : θ
  running : ι → Option (μ × Process χ σ ω ε α)

inductive Event (ι χ σ ω ε α μ : Type) where
  | start (i : ι) (what : μ) (p : Process χ σ ω ε α)
  | act (i : ι) (c : χ)
  | stop (i : ι)

/-- What is known of the state, what a process relies on from the others, which deeds
the surroundings allow and which of these are in order. -/
structure Discipline (ι χ θ ω μ : Type) where
  inv : θ → Prop
  rely : ι → θ → θ → Prop
  allowed : ι → μ → ω → χ → θ → Prop
  inOrder : ι → μ → ω → χ → θ → Prop

namespace Stage

variable (stage : Stage ι χ σ θ ω μ) (discipline : Discipline ι χ θ ω μ)

/-- Deeds in order keep the invariant and what the others rely on. -/
structure Keeps : Prop where
  refl : ∀ i s, discipline.rely i s s
  trans : ∀ i s₁ s₂ s₃, discipline.rely i s₁ s₂ → discipline.rely i s₂ s₃ → discipline.rely i s₁ s₃
  act : ∀ i what deed c s, discipline.inv s → discipline.allowed i what deed c s →
    discipline.inOrder i what deed c s →
      discipline.inv (stage.apply i what deed c s) ∧
        ∀ j, j ≠ i → discipline.rely j s (stage.apply i what deed c s)
  leave : ∀ i s, discipline.inv s → discipline.inv (stage.leave i s) ∧
    ∀ j, j ≠ i → discipline.rely j s (stage.leave i s)

/-- Whatever the others do, every deed of the process is in order, and it ends with
`Q`. -/
def Sound (i : ι) (what : μ) (Q : Except ε α → θ → Prop) : Process χ σ ω ε α → θ → Prop
  | .ret a, s => Q (.ok a) s
  | .raise e, s => Q (.error e) s
  | .act deed next, s => ∀ s', discipline.inv s' → discipline.rely i s s' → ∀ c,
      discipline.allowed i what deed c s' → discipline.inOrder i what deed c s' ∧
        Sound i what Q (next c (stage.real s')) (stage.apply i what deed c s')

section

variable {stage discipline} {i : ι} {what : μ} {s s' : θ}

theorem Sound.mono {Q Q' : Except ε α → θ → Prop} {p : Process χ σ ω ε α}
    (h : stage.Sound discipline i what Q p s) (hmono : ∀ r s, Q r s → Q' r s) :
    stage.Sound discipline i what Q' p s := by
  induction p generalizing s with
  | ret a | raise e => exact hmono _ _ h
  | act deed next ih =>
    intro s' hinv hrely c hallowed
    obtain ⟨hinOrder, hrest⟩ := h s' hinv hrely c hallowed
    exact ⟨hinOrder, ih c _ hrest⟩

theorem Sound.bind {Q : Except ε β → θ → Prop} {p : Process χ σ ω ε α}
    {f : α → Process χ σ ω ε β}
    (h : stage.Sound discipline i what
      (fun r s =>
        match r with
        | .ok a => stage.Sound discipline i what Q (f a) s
        | .error e => Q (.error e) s) p s) :
    stage.Sound discipline i what Q (p.bind f) s := by
  induction p generalizing s with
  | ret a | raise e => exact h
  | act deed next ih =>
    intro s' hinv hrely c hallowed
    obtain ⟨hinOrder, hrest⟩ := h s' hinv hrely c hallowed
    exact ⟨hinOrder, ih c _ hrest⟩

theorem Sound.catching {Q : Except ε α → θ → Prop} {p : Process χ σ ω ε α}
    {handler : ε → Process χ σ ω ε α}
    (h : stage.Sound discipline i what
      (fun r s =>
        match r with
        | .ok a => Q (.ok a) s
        | .error e => stage.Sound discipline i what Q (handler e) s) p s) :
    stage.Sound discipline i what Q (p.catching handler) s := by
  induction p generalizing s with
  | ret a | raise e => exact h
  | act deed next ih =>
    intro s' hinv hrely c hallowed
    obtain ⟨hinOrder, hrest⟩ := h s' hinv hrely c hallowed
    exact ⟨hinOrder, ih c _ hrest⟩

theorem Sound.perform {Q : Except ε α → θ → Prop} {deed : ω} {answer : χ → σ → Except ε α}
    (h : ∀ s', discipline.inv s' → discipline.rely i s s' → ∀ c, discipline.allowed i what deed c s' →
      discipline.inOrder i what deed c s' ∧
        Q (answer c (stage.real s')) (stage.apply i what deed c s')) :
    stage.Sound discipline i what Q (Process.perform deed answer) s := by
  intro s' hinv hrely c hallowed
  obtain ⟨hinOrder, hanswer⟩ := h s' hinv hrely c hallowed
  refine ⟨hinOrder, ?_⟩
  cases hresult : answer c (stage.real s') with
  | error e | ok a =>
    rw [hresult] at hanswer
    simp only [hresult]
    exact hanswer

theorem Sound.each {γ : Type} {P : θ → Prop} {f : γ → Process χ σ ω ε Unit} {items : List γ}
    (hturn : ∀ item ∈ items, ∀ s, P s →
      stage.Sound discipline i what (fun r s => r = .ok () → P s) (f item) s) :
    ∀ {s : θ}, P s →
      stage.Sound discipline i what (fun r s => r = .ok () → P s) (Process.each f items) s := by
  induction items with
  | nil => exact fun h _ => h
  | cons item rest ih =>
    intro s h
    apply Sound.bind
    apply (hturn item List.mem_cons_self s h).mono
    intro r s' h'
    cases r with
    | error e => nofun
    | ok a => exact ih (fun other hmem => hturn other (List.mem_cons_of_mem _ hmem)) (h' rfl)

theorem Sound.rely (htrans : ∀ s₁ s₂ s₃, discipline.rely i s₁ s₂ → discipline.rely i s₂ s₃ →
      discipline.rely i s₁ s₃) {p : Process χ σ ω ε α}
    (h : stage.Sound discipline i what (fun _ _ => True) p s) (hrely : discipline.rely i s s') :
    stage.Sound discipline i what (fun _ _ => True) p s' := by
  cases p with
  | ret a | raise e => trivial
  | act deed next => exact fun s₂ hinv h₂ => h s₂ hinv (htrans s s' s₂ hrely h₂)

end

section

variable [DecidableEq ι]

def step : Event ι χ σ ω ε α μ → World ι χ σ θ ω ε α μ → World ι χ σ θ ω ε α μ
  | .start i what p, w =>
    { state := stage.leave i w.state
      running := update w.running i (some (what, p)) }
  | .act i c, w =>
    match w.running i with
    | some (what, .act deed next) =>
      { state := stage.apply i what deed c w.state
        running := update w.running i (some (what, next c (stage.real w.state))) }
    | _ => w
  | .stop i, w =>
    { state := stage.leave i w.state
      running := update w.running i none }

def CanStep (process : μ → Process χ σ ω ε α) (w : World ι χ σ θ ω ε α μ) :
    Event ι χ σ ω ε α μ → Prop
  | .start i what p => w.running i = none ∧ p = process what
  | .act i c => ∃ what deed next, w.running i = some (what, .act deed next) ∧
      discipline.allowed i what deed c w.state
  | .stop _ => True

/-- The invariant holds and every process is sound from here on. -/
def Fine (w : World ι χ σ θ ω ε α μ) : Prop :=
  discipline.inv w.state ∧ ∀ i what p, w.running i = some (what, p) →
    stage.Sound discipline i what (fun _ _ => True) p w.state

variable {stage discipline}

theorem fine_step {process : μ → Process χ σ ω ε α} (hkeeps : stage.Keeps discipline)
    (hsound : ∀ i what s, discipline.inv s →
      stage.Sound discipline i what (fun _ _ => True) (process what) s)
    {w : World ι χ σ θ ω ε α μ} {event : Event ι χ σ ω ε α μ} (h : stage.Fine discipline w)
    (hcan : CanStep discipline process w event) : stage.Fine discipline (stage.step event w) := by
  obtain ⟨hinv, hprocesses⟩ := h
  have hothers : ∀ {i : ι} {θ' : θ} (entry : Option (μ × Process χ σ ω ε α)),
      (∀ j, j ≠ i → discipline.rely j w.state θ') →
      (∀ what p, entry = some (what, p) → stage.Sound discipline i what (fun _ _ => True) p θ') →
      ∀ j what p, update w.running i entry j = some (what, p) →
        stage.Sound discipline j what (fun _ _ => True) p θ' := by
    intro i θ' entry hrely hentry j what p hj
    by_cases hji : j = i
    · subst hji
      rw [update_self] at hj
      exact hentry what p hj
    · rw [update_of_ne hji] at hj
      exact (hprocesses j what p hj).rely (hkeeps.trans j) (hrely j hji)
  cases event with
  | start i what p =>
    obtain ⟨_, rfl⟩ := hcan
    obtain ⟨hleft, hrely⟩ := hkeeps.leave i w.state hinv
    refine ⟨hleft, hothers _ hrely ?_⟩
    intro what' p' heq
    cases heq
    exact hsound i what _ hleft
  | act i c =>
    obtain ⟨what, deed, next, hi, hallowed⟩ := hcan
    have hact := hprocesses i what _ hi w.state hinv (hkeeps.refl i w.state) c hallowed
    obtain ⟨happlied, hrely⟩ := hkeeps.act i what deed c w.state hinv hallowed hact.1
    unfold step
    simp only [hi]
    refine ⟨happlied, hothers _ hrely ?_⟩
    intro what' p' heq
    cases heq
    exact hact.2
  | stop i =>
    obtain ⟨hleft, hrely⟩ := hkeeps.leave i w.state hinv
    exact ⟨hleft, hothers _ hrely nofun⟩

theorem fine_run {process : μ → Process χ σ ω ε α} (hkeeps : stage.Keeps discipline)
    (hsound : ∀ i what s, discipline.inv s →
      stage.Sound discipline i what (fun _ _ => True) (process what) s)
    {w w' : World ι χ σ θ ω ε α μ} (h : stage.Fine discipline w)
    (hrun : Steps stage.step (CanStep discipline process) w w') : stage.Fine discipline w' :=
  hrun.invariant (fun _ _ hfine hcan => fine_step hkeeps hsound hfine hcan) h

end

end Stage

end Substrate.Lib
