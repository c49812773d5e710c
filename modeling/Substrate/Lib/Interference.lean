import Substrate.Lib.Transaction

/-!
Reasoning about one read-committed transaction while others commit in between. What the
others may do to the database is a relation `R`, which can depend on what the transaction
has read so far.
-/

namespace Substrate.Lib.Engine

variable {δ τ ω ρ κ ε α β : Type} (engine : Engine δ ω ρ κ ε) (R : List τ → δ → δ → Prop)

/-- The transaction, with these images and reads behind it, ends with `Q` or fails. -/
def Keeps (Q : α → List ρ → List τ → δ → Prop) : Tx δ τ ω ε α → List ρ → List τ → δ → Prop
  | .ret a, images, reads, d => Q a images reads d
  | .raise _, _, _, _ => True
  | .read what next, images, reads, d => ∀ d', R reads d d' →
      Keeps Q (next (engine.putAll images d')) images (what :: reads) d'
  | .write w next, images, reads, d => ∀ d', R reads d d' →
      ∀ new, engine.exec w (engine.putAll images d') = .ok new →
        Keeps Q (next new.length) (images ++ new) reads d'

variable {engine R} {Q : α → List ρ → List τ → δ → Prop} {images : List ρ} {reads : List τ} {d : δ}

theorem Keeps.bind {Q : β → List ρ → List τ → δ → Prop} {t : Tx δ τ ω ε α}
    {f : α → Tx δ τ ω ε β}
    (h : engine.Keeps R (fun a images reads d => engine.Keeps R Q (f a) images reads d)
      t images reads d) :
    engine.Keeps R Q (t >>= f) images reads d := by
  change engine.Keeps R Q (t.bind f) images reads d
  induction t generalizing images reads d with
  | ret a => exact h
  | raise e => trivial
  | read what next ih => exact fun d' hR => ih _ (h d' hR)
  | write w next ih => exact fun d' hR new hexec => ih _ (h d' hR new hexec)

theorem Keeps.select {what : τ} {query : δ → α}
    (h : ∀ d', R reads d d' → Q (query (engine.putAll images d')) images (what :: reads) d') :
    engine.Keeps R Q (Tx.select what query : Tx δ τ ω ε α) images reads d :=
  h

theorem Keeps.execute {w : ω} {Q : Nat → List ρ → List τ → δ → Prop}
    (h : ∀ d', R reads d d' → ∀ new, engine.exec w (engine.putAll images d') = .ok new →
      Q new.length (images ++ new) reads d') :
    engine.Keeps R Q (Tx.execute w : Tx δ τ ω ε Nat) images reads d :=
  h

theorem Keeps.rely {t : Tx δ τ ω ε α} {d' : δ}
    (htrans : ∀ d₁ d₂ d₃, R reads d₁ d₂ → R reads d₂ d₃ → R reads d₁ d₃)
    (hQ : ∀ a, Q a images reads d → Q a images reads d')
    (h : engine.Keeps R Q t images reads d) (hR : R reads d d') :
    engine.Keeps R Q t images reads d' := by
  cases t with
  | ret a => exact hQ a h
  | raise e => trivial
  | read what next => exact fun d₂ h₂ => h d₂ (htrans d d' d₂ hR h₂)
  | write w next => exact fun d₂ h₂ new hexec => h d₂ (htrans d d' d₂ hR h₂) new hexec

theorem Keeps.advance {o : Open δ τ ω ρ κ ε α} (hrefl : ∀ reads d, R reads d d)
    (h : engine.Keeps R Q o.rest o.images o.reads d) :
    engine.Keeps R Q (engine.advance o d).rest (engine.advance o d).images
      (engine.advance o d).reads d := by
  obtain ⟨rest, images, reads, held⟩ := o
  unfold Engine.advance
  cases rest with
  | ret a | raise e => exact h
  | read what next => exact h d (hrefl reads d)
  | write w next =>
    simp only [view]
    cases hexec : engine.exec w (engine.putAll images d) with
    | error e => trivial
    | ok new => exact h d (hrefl reads d) new hexec

end Substrate.Lib.Engine
