import Substrate.Files.Service

/-!
The steps of the files service when an operation runs to its end with nothing else in
between. What a step can end in is said once for each kind of step; an operation is
then followed from step to step.
-/

namespace Substrate.Files

open Lib

/-- No step fails, and the time is not before `from_`. -/
def Quiet (from_ : Nat) (c : Chance) : Prop := c.fault = false ∧ from_ ≤ c.now

/-- The operation, alone and with nothing failing, ends like this. -/
abbrev Alone {α : Type} (from_ : Nat) (Q : Except Problem α → Store → Prop) (p : Op α)
    (s : Store) : Prop :=
  Process.Ends Deed.apply (Quiet from_) Q p s

namespace Alone

variable {α β : Type} {from_ : Nat} {Q : Except Problem α → Store → Prop} {s : Store}

theorem seq {p : Op β} {f : β → Op α} (h : Alone from_
      (fun r s =>
        match r with
        | .ok b => Alone from_ Q (f b) s
        | .error e => Q (.error e) s) p s) :
    Alone from_ Q (p >>= f) s := by
  apply Process.Ends.bind
  apply Process.Ends.mono h
  intro r s' h'
  cases r with
  | ok b | error e => exact h'

theorem look {query : Store → α} (h : Q (.ok (query s)) s) : Alone from_ Q (Files.look query) s :=
  Process.Ends.perform fun _ _ => h

theorem clock {Q : Except Problem Nat → Store → Prop}
    (h : ∀ now, from_ ≤ now → Q (.ok now) s) : Alone from_ Q Files.clock s :=
  Process.Ends.perform fun c hc => h c.now hc.2

theorem issue {Q : Except Problem String → Store → Prop}
    (h : ∀ name, Q (.ok name) { s with issued := name :: s.issued }) :
    Alone from_ Q Files.issue s :=
  Process.Ends.perform fun c _ => h c.fresh

theorem transact {call : Call} {t : Transaction α} (hcall : call.apply = after t)
    (hok : ∀ a tables, database.run t s.tables = .ok (a, tables) →
      Q (.ok a) { s with tables := tables })
    (herror : ∀ e, database.run t s.tables = .error e → Q (.error e) s) :
    Alone from_ Q (Files.transact call t) s := by
  apply Process.Ends.perform
  intro c _
  change Q _ { s with tables := call.apply s.tables }
  rw [hcall]
  unfold after
  cases hrun : database.run t s.tables with
  | error e => exact herror e hrun
  | ok result => exact hok result.1 result.2 hrun

theorem headObject {Q : Except Problem (Option Blob) → Store → Prop} {key : ObjectKey}
    (h : Q (.ok (s.objects.get? key)) s) : Alone from_ Q (Files.headObject key) s := by
  apply Process.Ends.perform
  intro c hc
  rw [if_neg (by rw [hc.1]; simp)]
  exact h

theorem deleteObjects {Q : Except Problem Unit → Store → Prop} {why : Reason}
    {keys : List ObjectKey}
    (h : Q (.ok ()) { s with objects := s.objects.filter fun key _ => key ∉ keys }) :
    Alone from_ Q (Files.deleteObjects why keys) s := by
  apply Process.Ends.perform
  intro c hc
  have hfault : ¬c.fault = true := by
    rw [hc.1]
    exact Bool.false_ne_true
  simp only [Deed.apply, if_neg hfault]
  exact h

theorem completeMultipart {Q : Except Problem Unit → Store → Prop} {key : ObjectKey}
    (hok : ∀ blob, Q (.ok ()) { s with objects := s.objects.set key (some blob) })
    (herror : ∀ e, Q (.error e) s) : Alone from_ Q (Files.completeMultipart key) s := by
  apply Process.Ends.perform
  intro c hc
  have hfault : ¬c.fault = true := by
    rw [hc.1]
    exact Bool.false_ne_true
  cases hparts : c.incomplete with
  | true =>
    simp only [Deed.apply, if_neg hfault, hparts, or_true, if_true]
    exact herror _
  | false =>
    simp only [Deed.apply, hparts, hc.1, Bool.false_eq_true, or_self, if_false]
    exact hok _

theorem copyObject {Q : Except Problem Unit → Store → Prop} {source destination : ObjectKey}
    (hok : ∀ blob, Q (.ok ()) { s with objects := s.objects.set destination (some blob) })
    (herror : ∀ e, Q (.error e) s) :
    Alone from_ Q (Files.copyObject source destination) s := by
  apply Process.Ends.perform
  intro c hc
  have hfault : ¬c.fault = true := by
    rw [hc.1]
    exact Bool.false_ne_true
  simp only [Deed.apply, if_neg hfault]
  cases hsource : s.objects.get? source with
  | none => exact herror _
  | some blob => exact hok blob

theorem upload {Q : Except Problem UploadRow → Store → Prop} {id : String}
    (hok : ∀ row, s.tables.uploads.get? id = some row → Q (.ok row) s)
    (herror : ∀ e, Q (.error e) s) : Alone from_ Q (Files.upload id) s := by
  apply Process.Ends.perform
  intro c _
  cases hget : s.tables.uploads.get? id with
  | none => exact herror _
  | some row => exact hok row hget

theorem move {Q : Except Problem Bool → Store → Prop} {id : String}
    {expected state : UploadState}
    (hmoved : ∀ row tables, s.tables.uploads.get? id = some row → row.state = expected →
      tables = { s.tables with
        uploads := s.tables.uploads.set id (some { row with state := state }) } →
      Q (.ok true) { s with tables := tables })
    (hnot : (∀ row, s.tables.uploads.get? id = some row → row.state ≠ expected) → Q (.ok false) s) :
    Alone from_ Q (Files.move id expected state) s := by
  have hrun : database.run (Files.moveUpload id expected state) s.tables =
      match s.tables.uploads.get? id with
      | some row =>
        if row.state = expected then
          .ok (true, { s.tables with
            uploads := s.tables.uploads.set id (some { row with state := state }) })
        else .ok (false, s.tables)
      | none => .ok (false, s.tables) := by
    unfold moveUpload update
    rw [Engine.run_bind, Engine.run_execute]
    cases hget : s.tables.uploads.get? id with
    | none => simp [database, Write.exec, hget, Engine.putAll]
    | some row =>
      by_cases hstate : row.state = expected
      · simp [database, Write.exec, hget, hstate, Engine.putAll, Option.filter, Image.put]
      · simp [database, Write.exec, hget, hstate, Engine.putAll, Option.filter]
  apply transact rfl
  · intro a tables hok
    rw [hrun] at hok
    cases hget : s.tables.uploads.get? id with
    | none =>
      simp only [hget] at hok
      cases hok
      exact hnot fun row hrow => by rw [hget] at hrow; cases hrow
    | some row =>
      simp only [hget] at hok
      by_cases hstate : row.state = expected
      · rw [if_pos hstate] at hok
        cases hok
        exact hmoved row _ hget hstate rfl
      · rw [if_neg hstate] at hok
        cases hok
        apply hnot
        intro row' hrow
        rw [hget] at hrow
        cases hrow
        exact hstate
  · intro e herror
    rw [hrun] at herror
    cases hget : s.tables.uploads.get? id with
    | none =>
      simp only [hget] at herror
      cases herror
    | some row =>
      simp only [hget] at herror
      split at herror
      · cases herror
      · cases herror

end Alone

structure Same (s s' : Store) : Prop where
  tables : s'.tables = s.tables
  objects : s'.objects = s.objects

def Idle {α : Type} : Op α → Prop
  | .ret _ => True
  | .raise _ => True
  | .act deed next => (deed = .look ∨ deed = .issue) ∧ ∀ c s, Idle (next c s)

namespace Idle

variable {α β : Type}

theorem seq {p : Op α} {f : α → Op β} (h : Idle p) (hf : ∀ a, Idle (f a)) : Idle (p >>= f) := by
  change Idle (p.bind f)
  induction p with
  | ret a => exact hf a
  | raise e => trivial
  | act deed next ih => exact ⟨h.1, fun c s => ih c s (h.2 c s)⟩

theorem perform {deed : Deed} (hdeed : deed = .look ∨ deed = .issue)
    (answer : Chance → Store → Except Problem α) :
    Idle (Process.perform deed answer : Op α) := by
  constructor
  · exact hdeed
  · intro c s
    cases hanswer : answer c s with
    | ok a | error e =>
      simp only [hanswer]
      trivial

theorem look (query : Store → α) : Idle (Files.look query) := perform (.inl rfl) _

theorem allow (r : Except Problem Unit) : Idle (Files.allow r) := by
  cases r with
  | ok _ | error e => trivial

theorem failFast (volume : String) (path : Path) (size : Nat) (ifMatch : Option Nat)
    (ifNoneMatch : Bool) : Idle (Files.failFast volume path size ifMatch ifNoneMatch) := by
  unfold Files.failFast head
  apply (look _).seq
  intro found
  apply (Idle.allow _).seq
  intro _
  apply (look _).seq
  intro used
  apply (look _).seq
  intro quota
  exact Idle.allow _

theorem pendingAllowed (caller : Principal) : Idle (Files.pendingAllowed caller) := by
  apply (look _).seq
  intro count
  split
  · trivial
  · trivial

theorem alone {p : Op α} {from_ : Nat} {Q : Except Problem α → Store → Prop} {s₀ : Store}
    (h : Idle p) (hQ : ∀ r s, Same s₀ s → Q r s) :
    ∀ {s : Store}, Same s₀ s → Alone from_ Q p s := by
  induction p with
  | ret a | raise e => exact fun hsame => hQ _ _ hsame
  | act deed next ih =>
    intro s hsame c _
    apply ih c s (h.2 c s)
    rcases h.1 with rfl | rfl
    · exact hsame
    · exact ⟨hsame.tables, hsame.objects⟩

end Idle

theorem Same.refl (s : Store) : Same s s := ⟨rfl, rfl⟩

end Substrate.Files
