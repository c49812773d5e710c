import Substrate.Journal.Effect
import Substrate.Store.Signals

/-!
An attempt of a run as the store sees it: its own transactions, one at a time, with any
other calls between them. What the run's journal has on record is kept by effect id beside
the store; a step that is on record is answered from there and makes no transaction.
-/

namespace Substrate.Context

open Lib

/-- What others do before a transaction of the attempt, and what that
transaction takes from outside. -/
structure Turn where
  others : List Store.Call := []
  env : TxEnv := .plain 0

def Turn.store (turn : Turn) (s : Store) : Store := Store.execAll turn.others s

/-- Why an attempt goes no further: a transaction raised, or the run was asked
to stop. -/
inductive Cut where
  | raised (error : StoreError)
  | stopped
  deriving DecidableEq, Repr

structure Desk where
  store : Store := .init
  record : Table String JsonObject := .empty

/-- `_commit`, when its turn has come. -/
def Turn.commit (turn : Turn) (lease : Lease) (work : Commit) (s : Store) : Except Cut Store :=
  match (turn.store s).commit turn.env lease work with
  | .ok (s', _) => .ok s'
  | .error error => .error (.raised error)

/-- `consume`, when its turn has come. -/
def Turn.consume (turn : Turn) (runId : RunId) (name claimId : String) (s : Store) :
    Store × Option JsonObject :=
  (turn.store s).consume runId name claimId

namespace Desk

/-- `record_atomic`: a step on record is answered from there; any other commits
its outcome together with what it does. -/
def recordAtomic (w : Desk) (turn : Turn) (lease : Lease) (call : CallId)
    (value : JsonObject) (work : Commit) : Except Cut (Desk × JsonObject) :=
  match w.record.get? call.id with
  | some known => .ok (w, known)
  | none => do
      let s ← turn.commit lease
        { work with entries := (Record.ok call (.value value) true).entry :: work.entries }
        w.store
      return ({ store := s, record := w.record.insert call.id value }, value)

structure Later (w w' : Desk) : Prop where
  store : Store.Calls w.store w'.store
  record : ∀ id value, w.record.get? id = some value → w'.record.get? id = some value

variable {w : Desk} {turn : Turn} {lease : Lease} {call : CallId} {value : JsonObject}
    {work : Commit}

theorem recordAtomic_recorded {w' : Desk} {answer : JsonObject}
    (h : w.recordAtomic turn lease call value work = .ok (w', answer)) :
    w'.record.get? call.id = some answer ∧
      ∀ id known, w.record.get? id = some known → w'.record.get? id = some known := by
  unfold recordAtomic at h
  cases hknown : w.record.get? call.id with
  | some known =>
    rw [hknown] at h
    cases h
    exact ⟨hknown, fun _ _ h => h⟩
  | none =>
    rw [hknown] at h
    obtain ⟨s, _, h⟩ := bind_ok_iff.mp h
    cases h
    refine ⟨by simp [Table.get?_insert, hknown], ?_⟩
    intro id known hid
    have hne : id ≠ call.id := by
      rintro rfl
      rw [hknown] at hid
      cases hid
    simp [Table.get?_insert, hne, hid]

theorem recordAtomic_answered {known : JsonObject} (h : w.record.get? call.id = some known) :
    w.recordAtomic turn lease call value work = .ok (w, known) := by
  unfold recordAtomic
  rw [h]

end Desk

/-- What `consume` answers: the claim, else the front of the queue. -/
def heard (s : Store) (runId : RunId) (name claimId : String) : Option JsonObject :=
  (s.claims.get? claimId).or (s.buffered runId name).head?

theorem consume_answer (s : Store) (runId : RunId) (name claimId : String) :
    (s.consume runId name claimId).2 = heard s runId name claimId := by
  unfold heard
  rcases Store.consume_spec s runId name claimId with
    ⟨payload, hclaim, hconsume⟩ | ⟨hclaim, hempty, hconsume⟩ |
      ⟨payload, rest, hclaim, hqueue, hconsume, _⟩
  · simp [hconsume, hclaim]
  · simp [hconsume, hclaim, hempty]
  · simp [hconsume, hclaim, hqueue]

variable {s : Store} {runId : RunId} {name claimId : String} {payload : JsonObject}

theorem consume_silent (h : heard s runId name claimId = none) :
    s.consume runId name claimId = (s, none) := by
  have hanswer := consume_answer s runId name claimId
  rcases Store.consume_spec s runId name claimId with
    ⟨payload, hclaim, hconsume⟩ | ⟨hclaim, hempty, hconsume⟩ |
      ⟨payload, rest, hclaim, hqueue, hconsume, _⟩
  · rw [hconsume, h] at hanswer
    cases hanswer
  · exact hconsume
  · rw [hconsume, h] at hanswer
    cases hanswer

theorem consume_claimed {s' : Store} (h : s.consume runId name claimId = (s', some payload)) :
    s'.claims.get? claimId = some payload := by
  rcases Store.consume_spec s runId name claimId with
    ⟨known, hclaim, hconsume⟩ | ⟨hclaim, hempty, hconsume⟩ |
      ⟨front, rest, hclaim, hqueue, hconsume, _⟩
  · rw [hconsume] at h
    cases h
    exact hclaim
  · rw [hconsume] at h
    cases h
  · rw [hconsume] at h
    cases h
    change (s.claims.insert claimId payload).get? claimId = _
    simp [Table.get?_insert, hclaim]

theorem heard_claimed (h : s.claims.get? claimId = some payload) (runId : RunId) (name : String) :
    heard s runId name claimId = some payload := by
  unfold heard
  rw [h]
  rfl

section Turns

variable {s s' : Store} {turn : Turn} {claimId : String} {payload : JsonObject}

theorem Turn.calls (turn : Turn) (s : Store) : Store.Calls s (turn.store s) :=
  Store.calls_execAll turn.others s

variable {lease : Lease} {work : Commit}

theorem Turn.commit_calls (h : turn.commit lease work s = .ok s') : Store.Calls s s' := by
  unfold Turn.commit at h
  cases hcommit : (turn.store s).commit turn.env lease work with
  | error error =>
    rw [hcommit] at h
    cases h
  | ok done =>
    rw [hcommit] at h
    cases h
    have hexec : Store.exec ⟨turn.env, .commit lease work⟩ (turn.store s) = done.1 :=
      Store.exec_ok (by simp [Store.perform, hcommit])
    rw [← hexec]
    exact Lib.Steps.trans (turn.calls s) (Lib.Steps.single _ trivial)

theorem Turn.claims_commit (h : turn.commit lease work s = .ok s')
    (hclaim : s.claims.get? claimId = some payload) : s'.claims.get? claimId = some payload :=
  Store.claims_calls (Turn.commit_calls h) hclaim

end Turns

end Substrate.Context
