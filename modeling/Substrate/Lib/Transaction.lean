import Mathlib.Logic.Function.Basic
import Substrate.Lib.Transition

/-!
Database transactions. A transaction is a program of statements: it reads, writes, learns
how many rows it has written, and ends with a result or an error. `Engine` says what a
writing statement does: it makes row images, each under the key of its row.
-/

namespace Substrate.Lib

open Function

/-- A transaction over databases `δ`, with reading statements `τ`, writing statements
`ω`, errors `ε` and a result `α`. -/
inductive Tx (δ τ ω ε α : Type) where
  | ret (a : α)
  | raise (e : ε)
  | read (what : τ) (next : δ → Tx δ τ ω ε α)
  | write (w : ω) (next : Nat → Tx δ τ ω ε α)

/-- The writing statements of a database with row images `ρ` and row keys `κ`. -/
structure Engine (δ ω ρ κ ε : Type) where
  exec : ω → δ → Except ε (List ρ)
  put : ρ → δ → δ
  key : ρ → κ

variable {δ τ ω ρ κ ε α β : Type}

namespace Tx

def bind : Tx δ τ ω ε α → (α → Tx δ τ ω ε β) → Tx δ τ ω ε β
  | .ret a, f => f a
  | .raise e, _ => .raise e
  | .read what next, f => .read what fun d => (next d).bind f
  | .write w next, f => .write w fun n => (next n).bind f

instance : Monad (Tx δ τ ω ε) where
  pure := .ret
  bind := bind

def select (what : τ) (query : δ → α) : Tx δ τ ω ε α := .read what fun d => .ret (query d)

def execute (w : ω) : Tx δ τ ω ε Nat := .write w .ret

end Tx

namespace Engine

variable (engine : Engine δ ω ρ κ ε)

def putAll (images : List ρ) (d : δ) : δ := images.foldl (fun d image => engine.put image d) d

theorem putAll_append (images more : List ρ) (d : δ) :
    engine.putAll (images ++ more) d = engine.putAll more (engine.putAll images d) := by
  unfold putAll
  rw [List.foldl_append]

/-- A transaction that has the database to itself. One that fails leaves nothing. -/
def run : Tx δ τ ω ε α → δ → Except ε (α × δ)
  | .ret a, d => .ok (a, d)
  | .raise e, _ => .error e
  | .read _ next, d => run (next d) d
  | .write w next, d =>
    match engine.exec w d with
    | .error e => .error e
    | .ok images => run (next images.length) (engine.putAll images d)

section Run

variable (d : δ)

@[simp] theorem run_pure (a : α) : engine.run (pure a : Tx δ τ ω ε α) d = .ok (a, d) := rfl

@[simp] theorem run_raise (e : ε) : engine.run (.raise e : Tx δ τ ω ε α) d = .error e := rfl

@[simp] theorem run_select (what : τ) (query : δ → α) :
    engine.run (Tx.select what query : Tx δ τ ω ε α) d = .ok (query d, d) := rfl

theorem run_execute (w : ω) : engine.run (Tx.execute w : Tx δ τ ω ε Nat) d =
      match engine.exec w d with
      | .error e => .error e
      | .ok images => .ok (images.length, engine.putAll images d) := by
  simp only [Tx.execute, run]

theorem run_bind (t : Tx δ τ ω ε α) (f : α → Tx δ τ ω ε β) : engine.run (t >>= f) d =
      match engine.run t d with
      | .error e => .error e
      | .ok (a, d') => engine.run (f a) d' := by
  change engine.run (t.bind f) d = _
  induction t generalizing d with
  | ret a | raise e => rfl
  | read what next ih => exact ih d d
  | write w next ih =>
    simp only [Tx.bind, run]
    cases engine.exec w d with
    | error e => rfl
    | ok images => exact ih images.length (engine.putAll images d)

theorem run_bind_ok {t : Tx δ τ ω ε α} {f : α → Tx δ τ ω ε β} {b : β} {d d' : δ} :
    engine.run (t >>= f) d = .ok (b, d') ↔
      ∃ a d₁, engine.run t d = .ok (a, d₁) ∧ engine.run (f a) d₁ = .ok (b, d') := by
  rw [run_bind]
  cases engine.run t d with
  | error e =>
    constructor
    · intro h
      cases h
    · rintro ⟨a, d₁, h, _⟩
      cases h
  | ok r =>
    constructor
    · exact fun h => ⟨r.1, r.2, rfl, h⟩
    · rintro ⟨a, d₁, h, hf⟩
      cases h
      exact hf

end Run

end Engine

def Tx.Writes (P : ω → Prop) : Tx δ τ ω ε α → Prop
  | .ret _ => True
  | .raise _ => True
  | .read _ next => ∀ d, Writes P (next d)
  | .write w next => P w ∧ ∀ n, Writes P (next n)

theorem Tx.Writes.bind {P : ω → Prop} {t : Tx δ τ ω ε α} {f : α → Tx δ τ ω ε β}
    (h : t.Writes P) (hf : ∀ a, (f a).Writes P) : (t >>= f).Writes P := by
  change (t.bind f).Writes P
  induction t with
  | ret a => exact hf a
  | raise e => trivial
  | read what next ih => exact fun d => ih d (h d)
  | write w next ih => exact ⟨h.1, fun n => ih n (h.2 n)⟩

theorem Tx.Writes.mono {P P' : ω → Prop} {t : Tx δ τ ω ε α} (h : t.Writes P)
    (hmono : ∀ w, P w → P' w) : t.Writes P' := by
  induction t with
  | ret a | raise e => trivial
  | read what next ih => exact fun d => ih d (h d)
  | write w next ih => exact ⟨hmono w h.1, fun n => ih n (h.2 n)⟩

theorem Engine.run_writes (engine : Engine δ ω ρ κ ε) {P : ω → Prop} {R : δ → δ → Prop}
    (hrefl : ∀ d, R d d) (htrans : ∀ d₁ d₂ d₃, R d₁ d₂ → R d₂ d₃ → R d₁ d₃)
    (hstep : ∀ w, P w → ∀ d images, engine.exec w d = .ok images → R d (engine.putAll images d))
    {t : Tx δ τ ω ε α} (h : t.Writes P) :
    ∀ {d d' : δ} {a : α}, engine.run t d = .ok (a, d') → R d d' := by
  induction t with
  | ret b =>
    intro d d' a hrun
    cases hrun
    exact hrefl d
  | raise e =>
    intro d d' a hrun
    cases hrun
  | read what next ih =>
    intro d d' a hrun
    exact ih d (h d) hrun
  | write w next ih =>
    intro d d' a hrun
    simp only [Engine.run] at hrun
    cases hexec : engine.exec w d with
    | error e =>
      rw [hexec] at hrun
      cases hrun
    | ok images =>
      rw [hexec] at hrun
      exact htrans _ _ _ (hstep w h.1 d images hexec) (ih _ (h.2 _) hrun)

/-- An open transaction: what is left of it, what it has written and read, which of
the rows it holds and how many statements it has made. -/
structure Open (δ τ ω ρ κ ε α : Type) where
  rest : Tx δ τ ω ε α
  images : List ρ := []
  reads : List τ := []
  held : List κ := []
  made : Nat := 0

/-- A database and its open transactions, by session. `μ` says of an open transaction
what it was opened for. -/
structure Sessions (ι δ τ ω ρ κ ε α μ : Type) where
  db : δ
  opened : ι → Option (μ × Open δ τ ω ρ κ ε α)

inductive Move (ι δ τ ω ε α μ : Type) where
  | start (i : ι) (what : μ) (t : Tx δ τ ω ε α)
  | advance (i : ι)
  | commit (i : ι)
  | rollback (i : ι)

namespace Engine

variable (engine : Engine δ ω ρ κ ε)

def view (o : Open δ τ ω ρ κ ε α) (d : δ) : δ := engine.putAll o.images d

/-- One more statement of an open transaction. -/
def advance (o : Open δ τ ω ρ κ ε α) (d : δ) : Open δ τ ω ρ κ ε α :=
  match o.rest with
  | .ret _ => o
  | .raise _ => o
  | .read what next =>
    { o with rest := next (engine.view o d), reads := what :: o.reads, made := o.made + 1 }
  | .write w next =>
    match engine.exec w (engine.view o d) with
    | .error e => { o with rest := .raise e, made := o.made + 1 }
    | .ok images =>
      { o with
        rest := next images.length
        images := o.images ++ images
        held := o.held ++ images.map engine.key
        made := o.made + 1 }

/-- The rows the next statement has to wait for. -/
def wants (o : Open δ τ ω ρ κ ε α) (d : δ) : List κ :=
  match o.rest with
  | .write w _ =>
    match engine.exec w (engine.view o d) with
    | .error _ => []
    | .ok images => images.map engine.key
  | _ => []

theorem le_made_advance (o : Open δ τ ω ρ κ ε α) (d : δ) : o.made ≤ (engine.advance o d).made := by
  unfold advance
  cases o.rest with
  | ret a | raise e => exact Nat.le_refl _
  | read what next => exact Nat.le_succ _
  | write w next =>
    simp only
    cases engine.exec w (engine.view o d) with
    | error e | ok images => exact Nat.le_succ _

variable {ι μ : Type} [DecidableEq ι]

def move : Move ι δ τ ω ε α μ → Sessions ι δ τ ω ρ κ ε α μ → Sessions ι δ τ ω ρ κ ε α μ
  | .start i what t, s =>
    { s with opened := update s.opened i (some (what, ⟨t, [], [], [], 0⟩)) }
  | .advance i, s =>
    match s.opened i with
    | none => s
    | some (what, o) =>
      { s with opened := update s.opened i (some (what, engine.advance o s.db)) }
  | .commit i, s =>
    match s.opened i with
    | none => s
    | some (_, o) =>
      { db := engine.view o s.db, opened := update s.opened i none }
  | .rollback i, s => { s with opened := update s.opened i none }

/-- A session opens one transaction at a time; a statement runs when no other open
transaction holds a row it writes; a transaction commits when it has a result. -/
def CanMove (s : Sessions ι δ τ ω ρ κ ε α μ) : Move ι δ τ ω ε α μ → Prop
  | .start i _ _ => s.opened i = none
  | .advance i => ∃ what o, s.opened i = some (what, o) ∧
      ∀ j, j ≠ i → ∀ what' o', s.opened j = some (what', o') →
        ∀ key ∈ engine.wants o s.db, key ∉ o'.held
  | .commit i => ∃ what o a, s.opened i = some (what, o) ∧ o.rest = .ret a
  | .rollback _ => True

def Exclusive (s : Sessions ι δ τ ω ρ κ ε α μ) : Prop :=
  ∀ i j what what' o o', i ≠ j → s.opened i = some (what, o) → s.opened j = some (what', o') →
    ∀ key ∈ o.held, key ∉ o'.held

theorem advance_held (o : Open δ τ ω ρ κ ε α) (d : δ) :
    (engine.advance o d).held = o.held ++ engine.wants o d := by
  unfold advance wants
  cases o.rest with
  | ret a | raise e | read what next => simp
  | write w next =>
    simp only
    cases engine.exec w (engine.view o d) with
    | error e => simp
    | ok images => rfl

def Holding (s : Sessions ι δ τ ω ρ κ ε α μ) : Prop :=
  ∀ i what o, s.opened i = some (what, o) → o.held = o.images.map engine.key

theorem advance_images (o : Open δ τ ω ρ κ ε α) (d : δ) (h : o.held = o.images.map engine.key) :
    (engine.advance o d).held = (engine.advance o d).images.map engine.key := by
  unfold advance
  cases o.rest with
  | ret a | raise e | read what next => exact h
  | write w next =>
    simp only
    cases engine.exec w (engine.view o d) with
    | error e => exact h
    | ok images => simp [h]

theorem each_move (Inv : μ → Open δ τ ω ρ κ ε α → δ → Prop) {s : Sessions ι δ τ ω ρ κ ε α μ}
    {m : Move ι δ τ ω ε α μ} (h : ∀ i what o, s.opened i = some (what, o) → Inv what o s.db)
    (hstart : ∀ i what t, m = .start i what t → Inv what ⟨t, [], [], [], 0⟩ s.db)
    (hadvance : ∀ i what o, m = .advance i → s.opened i = some (what, o) →
      Inv what (engine.advance o s.db) s.db)
    (hcommit : ∀ i j what what' o o', m = .commit j → i ≠ j → s.opened i = some (what, o) →
      s.opened j = some (what', o') → Inv what o (engine.view o' s.db)) :
    ∀ i what o, (engine.move m s).opened i = some (what, o) → Inv what o (engine.move m s).db := by
  intro i what o hi
  cases m with
  | start k w t =>
    simp only [move] at hi ⊢
    rcases update_some hi with ⟨_, hnew⟩ | ⟨_, hi⟩
    · cases hnew
      exact hstart _ _ _ rfl
    · exact h i what o hi
  | advance k =>
    cases hk : s.opened k with
    | none =>
      simp only [move, hk] at hi ⊢
      exact h i what o hi
    | some entry =>
      simp only [move, hk] at hi ⊢
      rcases update_some hi with ⟨_, hnew⟩ | ⟨_, hi⟩
      · cases hnew
        exact hadvance k entry.1 entry.2 rfl hk
      · exact h i what o hi
  | commit k =>
    cases hk : s.opened k with
    | none =>
      simp only [move, hk] at hi ⊢
      exact h i what o hi
    | some entry =>
      simp only [move, hk] at hi ⊢
      obtain ⟨hik, hi⟩ := update_none hi
      exact hcommit i k what entry.1 o entry.2 rfl hik hi hk
  | rollback k =>
    simp only [move] at hi ⊢
    exact h i what o (update_none hi).2

theorem holding_move {s : Sessions ι δ τ ω ρ κ ε α μ} (m : Move ι δ τ ω ε α μ)
    (h : engine.Holding s) : engine.Holding (engine.move m s) :=
  engine.each_move (fun _ o _ => o.held = o.images.map engine.key) h (fun _ _ _ _ => rfl)
    (fun i what o _ hi => engine.advance_images o s.db (h i what o hi))
    (fun i _ what _ o _ _ _ hi _ => h i what o hi)

theorem exclusive_move {s : Sessions ι δ τ ω ρ κ ε α μ} {m : Move ι δ τ ω ε α μ}
    (h : Exclusive s) (hcan : engine.CanMove s m) : Exclusive (engine.move m s) := by
  intro i j what what' o o' hij hi hj key hkey hkey'
  cases m with
  | start k w t =>
    simp only [move] at hi hj
    rcases update_some hi with ⟨_, hnew⟩ | ⟨_, hi⟩
    · cases hnew
      cases hkey
    rcases update_some hj with ⟨_, hnew⟩ | ⟨_, hj⟩
    · cases hnew
      cases hkey'
    exact h i j what what' o o' hij hi hj key hkey hkey'
  | advance k =>
    obtain ⟨w, x, hopen, hfree⟩ := hcan
    simp only [move, hopen] at hi hj
    rcases update_some hi with ⟨rfl, hnew⟩ | ⟨hik, hopened⟩
    · cases hnew
      rcases update_some hj with ⟨hji, _⟩ | ⟨hji, hj⟩
      · exact absurd hji.symm hij
      rw [advance_held] at hkey
      rcases List.mem_append.mp hkey with hold | hnew
      · exact h i j _ _ _ _ hij hopen hj key hold hkey'
      · exact hfree j hji what' o' hj key hnew hkey'
    · rcases update_some hj with ⟨rfl, hnew⟩ | ⟨_, hj⟩
      · cases hnew
        rw [advance_held] at hkey'
        rcases List.mem_append.mp hkey' with hold | hnew
        · exact h i j _ _ _ _ hij hopened hopen key hkey hold
        · exact hfree i hik what o hopened key hnew hkey
      · exact h i j what what' o o' hij hopened hj key hkey hkey'
  | commit k =>
    obtain ⟨w, x, a, hopen, _⟩ := hcan
    simp only [move, hopen] at hi hj
    exact h i j what what' o o' hij (update_none hi).2 (update_none hj).2 key hkey hkey'
  | rollback k =>
    simp only [move] at hi hj
    exact h i j what what' o o' hij (update_none hi).2 (update_none hj).2 key hkey hkey'

end Engine

end Substrate.Lib
