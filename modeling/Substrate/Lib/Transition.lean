import Mathlib.Logic.Function.Basic
import Mathlib.Logic.Relation

/-!
Guarded transition systems. A system is a step function over labels and a guard that says
which labels are allowed in a state; `Steps` is any number of allowed steps. The rules
below turn a fact about one step into a fact about a run, and refine a run of coarse steps
into a run of fine ones.
-/

namespace Substrate.Lib

open Function

universe u v w

variable {σ : Type u} {ι : Type v} {κ : Type w}

theorem bind_ok_iff {α β : Type u} {ε : Type v} {x : Except ε α} {f : α → Except ε β} {b : β} :
    x >>= f = .ok b ↔ ∃ a, x = .ok a ∧ f a = .ok b := by
  cases x with
  | error e =>
    constructor
    · intro h
      cases h
    · rintro ⟨a, h, _⟩
      cases h
  | ok a =>
    constructor
    · exact fun h => ⟨a, rfl, h⟩
    · rintro ⟨a', h, hf⟩
      cases h
      exact hf

theorem foldl_keeps {α : Type*} {β : Type*} (view : σ → β) {turn : σ → α → σ}
    (hturn : ∀ s a, view (turn s a) = view s) (items : List α) (s : σ) :
    view (items.foldl turn s) = view s := by
  induction items generalizing s with
  | nil => rfl
  | cons a rest ih => exact (ih (turn s a)).trans (hturn s a)

theorem foldl_filter_keeps {α : Type*} {turn : σ → α → σ} {p : α → Bool} {P : σ → Prop}
    (hturn : ∀ s a, p a = true → P s → P (turn s a)) (items : List α) {s : σ} (h : P s) :
    P ((items.filter p).foldl turn s) := by
  induction items generalizing s with
  | nil => exact h
  | cons a rest ih =>
    rw [List.filter_cons]
    split
    · next hp => exact ih (hturn s a hp h)
    · exact ih h

/-- Some allowed step leads from the first state to the second. -/
def Step (step : ι → σ → σ) (guard : σ → ι → Prop) (s s' : σ) : Prop :=
  ∃ i, guard s i ∧ step i s = s'

def Steps (step : ι → σ → σ) (guard : σ → ι → Prop) : σ → σ → Prop :=
  Relation.ReflTransGen (Step step guard)

namespace Steps

variable {step : ι → σ → σ} {guard : σ → ι → Prop}

theorem refl (s : σ) : Steps step guard s s := Relation.ReflTransGen.refl

theorem trans {s₁ s₂ s₃ : σ} (h₁ : Steps step guard s₁ s₂)
    (h₂ : Steps step guard s₂ s₃) : Steps step guard s₁ s₃ :=
  Relation.ReflTransGen.trans h₁ h₂

theorem single {s : σ} (i : ι) (hguard : guard s i) : Steps step guard s (step i s) :=
  Relation.ReflTransGen.single ⟨i, hguard, rfl⟩

theorem next {s s' : σ} (h : Steps step guard s s') (i : ι) (hguard : guard s' i) :
    Steps step guard s (step i s') :=
  Relation.ReflTransGen.tail h ⟨i, hguard, rfl⟩

theorem invariant {P : σ → Prop} (hstep : ∀ s i, P s → guard s i → P (step i s))
    {s s' : σ} (h : Steps step guard s s') (hinit : P s) : P s' := by
  induction h with
  | refl => exact hinit
  | tail _ hlast ih =>
    obtain ⟨i, hguard, rfl⟩ := hlast
    exact hstep _ i ih hguard

theorem related {P : σ → Prop} {R : σ → σ → Prop}
    (hrefl : ∀ s, R s s) (htrans : ∀ a b c, R a b → R b c → R a c)
    (hinv : ∀ s i, P s → guard s i → P (step i s))
    (hrel : ∀ s i, P s → guard s i → R s (step i s))
    {s s' : σ} (h : Steps step guard s s') (hinit : P s) : R s s' := by
  have hboth : P s' ∧ R s s' := by
    induction h with
    | refl => exact ⟨hinit, hrefl s⟩
    | tail _ hlast ih =>
      obtain ⟨i, hguard, rfl⟩ := hlast
      exact ⟨hinv _ i ih.1 hguard, htrans _ _ _ ih.2 (hrel _ i ih.1 hguard)⟩
  exact hboth.2

theorem refine {coarse : κ → σ → σ} {allowed : σ → κ → Prop}
    (hcoarse : ∀ s k, allowed s k → Steps step guard s (coarse k s))
    {s s' : σ} (h : Steps coarse allowed s s') : Steps step guard s s' := by
  induction h with
  | refl => exact refl s
  | tail _ hlast ih =>
    obtain ⟨k, hallowed, rfl⟩ := hlast
    exact ih.trans (hcoarse _ k hallowed)

theorem mono {guard' : σ → ι → Prop} {s s' : σ}
    (hmono : ∀ s i, guard s i → guard' s i) (h : Steps step guard s s') :
    Steps step guard' s s' :=
  refine (fun s i hguard => single i (hmono s i hguard)) h

theorem foldl {α : Type*} {turn : σ → α → σ} : ∀ (items : List α),
      (∀ s, ∀ a ∈ items, Steps step guard s (turn s a)) →
      ∀ s, Steps step guard s (items.foldl turn s)
  | [], _, s => refl s
  | a :: rest, hturn, s =>
    (hturn s a List.mem_cons_self).trans
      (foldl rest (fun s b hb => hturn s b (List.mem_cons_of_mem a hb)) _)

theorem foldlM {α β ε : Type*} {turn : β → α → Except ε β} (proj : β → σ) : ∀ (items : List α),
      (∀ b b', ∀ a ∈ items, turn b a = .ok b' → Steps step guard (proj b) (proj b')) →
      ∀ b b', items.foldlM turn b = .ok b' → Steps step guard (proj b) (proj b')
  | [], _, b, b', hrun => by
      cases hrun
      exact refl _
  | a :: rest, hturn, b, b', hrun => by
      rw [List.foldlM_cons] at hrun
      obtain ⟨b₁, hfirst, hrest⟩ := bind_ok_iff.mp hrun
      exact (hturn b b₁ a List.mem_cons_self hfirst).trans (foldlM proj rest
          (fun c c' x hx => hturn c c' x (List.mem_cons_of_mem a hx)) b₁ b' hrest)

end Steps

section Maps

variable {α β : Type*} [DecidableEq α] {f : α → Option β} {a b : α} {v : Option β} {x : β}

theorem update_some (h : update f a v b = some x) :
    b = a ∧ v = some x ∨ b ≠ a ∧ f b = some x := by
  rcases eq_or_ne b a with rfl | hne
  · rw [update_self] at h
    exact .inl ⟨rfl, h⟩
  · rw [update_of_ne hne] at h
    exact .inr ⟨hne, h⟩

theorem update_none (h : update f a none b = some x) : b ≠ a ∧ f b = some x := by
  rcases update_some h with ⟨_, hnone⟩ | hold
  · cases hnone
  · exact hold

theorem update_ne_none (h : f b ≠ none) : update f a (some x) b ≠ none := by
  rcases eq_or_ne b a with rfl | hne
  · simp
  · rwa [update_of_ne hne]

theorem of_update_ne_none (h : update f a v b ≠ none) : b = a ∨ f b ≠ none := by
  rcases eq_or_ne b a with heq | hne
  · exact .inl heq
  · rw [update_of_ne hne] at h
    exact .inr h

end Maps

end Substrate.Lib
