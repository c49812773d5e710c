import Substrate.Context.Attempt

/-!
Asking another agent. `ask` sends its message and draws its deadline as steps of the
journal, and then waits: it looks for a reply, then for the end of the run it asked, then
at the clock. The wait is not a step of the journal.
-/

namespace Substrate.Context

open Lib Option

/-- Who is asked: an address, which gets the message, or a child spawned
earlier, which has been booted already. -/
inductive AskTarget where
  | actor (agent : Address)
  | handle (handle : Store.RunHandle)

/-- An `ask` in the code of a run, with its position in the code. -/
structure AskCall where
  runId : RunId
  tenant : Tenant := "default"
  stack : PathStack := [0]
  target : AskTarget
  msg : Message
  timeout : Int
  idempotencyKey : Option String := none

/-- What an `ask` comes to. The handle that goes with an outcome is left out. -/
inductive AskOutcome where
  | replied (data : JsonObject)
  | targetFailed
  | targetCancelled
  | timedOut

def AskOutcome.kind : AskOutcome → String
  | .replied _ => "replied"
  | .targetFailed => "target_failed"
  | .targetCancelled => "target_cancelled"
  | .timedOut => "timed_out"

inductive AskExit where
  | returned (outcome : AskOutcome)
  | suspended (wake : Wakeup)

/-- When an attempt makes its transactions, and what its clock says. -/
structure AskTiming where
  stopped : Bool := false
  send : Turn := {}
  deadline : Turn := {}
  reply : Turn := {}
  child : Turn := {}
  close : Turn := {}
  startedAt : Time
  checkedAt : Time

def replySignal (correlationId : String) : String := "reply:" ++ correlationId

namespace AskCall

def agent (call : AskCall) : Address :=
  match call.target with
  | .actor agent => agent
  | .handle handle => handle.agentId

def boot? (call : AskCall) : Option String :=
  match call.target with
  | .actor _ => none
  | .handle handle => handle.bootCorrelationId.filter (· ≠ "")

def child? (call : AskCall) : Option RunId :=
  match call.target with
  | .actor _ => none
  | .handle handle => some handle.runId |>.filter (· ≠ "")

/-- The correlation id of an `ask` that sends: from its own position, never from
the message. -/
def ownCorrelationId (call : AskCall) : String :=
  match call.idempotencyKey.filter (· ≠ "") with
  | some key => key
  | none => call.runId ++ "." ++ pathText call.stack.reverse

def correlationId (call : AskCall) : String := call.boot?.getD call.ownCorrelationId

def args (call : AskCall) : Json := .obj [("correlation_id", .str call.correlationId)]

/-- The steps of the journal before the wait: the send, unless a child was
booted, and the deadline. -/
def sent (call : AskCall) : Nat := if call.boot?.isSome then 0 else 1

def sendId (call : AskCall) (c : Config) : CallId := c.callAt call.stack "ask.send" call.args

def deadlineId (call : AskCall) (c : Config) : CallId :=
  c.callAt (advance call.stack call.sent) "ask.deadline" call.args

def waitId (call : AskCall) (c : Config) : CallId :=
  c.callAt (advance call.stack (call.sent + 1)) "ask.wait" call.args

def replyName (call : AskCall) : String := replySignal call.correlationId

def claimId (call : AskCall) (c : Config) (name : String) : String :=
  (call.waitId c).id ++ ":" ++ name

def names (call : AskCall) : List String := call.replyName :: (call.child?.map childSignal).toList

theorem names_ne_nil (call : AskCall) : call.names ≠ [] := by
  simp [names]

def enriched (call : AskCall) : Message :=
  { call.msg with replyTo := some call.runId, correlationId := call.correlationId }

def sentEntry (call : AskCall) : NewEntry where
  kind := "ask.sent"
  payload := [("target", .str call.agent), ("correlation_id", .str call.correlationId)]
  dedupKey := some ("ask.sent:" ++ call.correlationId)

def repliedEntry (call : AskCall) : NewEntry where
  kind := "ask.replied"
  payload := [("correlation_id", .str call.correlationId)]
  dedupKey := some ("ask.replied:" ++ call.correlationId)

def timeoutEntry (call : AskCall) (outcome : AskOutcome) : NewEntry where
  kind := "ask.timeout"
  payload := [("correlation_id", .str call.correlationId), ("kind", .str outcome.kind)]
  dedupKey := some ("ask.timeout:" ++ call.correlationId)

def entry (call : AskCall) (outcome : AskOutcome) : NewEntry :=
  match outcome with
  | .replied _ => call.repliedEntry
  | .targetFailed | .targetCancelled | .timedOut => call.timeoutEntry outcome

end AskCall

/-- What a child's end says: `target_cancelled`, and anything else as
`target_failed`. -/
def endOutcome (report : JsonObject) : AskOutcome :=
  if report.text? "kind" = some "target_cancelled" then .targetCancelled else .targetFailed

def deadlineIn (value : JsonObject) : Time :=
  match value.lookup "deadline" with
  | some (.num time) => time
  | _ => 0

namespace AskCall

/-- The send, on record once. -/
def sendStep (call : AskCall) (c : Config) (lease : Lease) (t : AskTiming) (w : Desk) :
    Except Cut Desk :=
  match call.boot? with
  | some _ => .ok w
  | none => do
      let (w, _) ← w.recordAtomic t.send lease (call.sendId c) []
        { entries := [call.sentEntry]
          deliveries := [{ agent := call.agent, msg := call.enriched, tenant := call.tenant }] }
      return w

def deadlineStep (call : AskCall) (c : Config) (lease : Lease) (t : AskTiming) (w : Desk) :
    Except Cut (Desk × Time) := do
  let (w, value) ← w.recordAtomic t.deadline lease (call.deadlineId c)
    [("deadline", .num (t.startedAt + call.timeout))] {}
  return (w, deadlineIn value)

def close (call : AskCall) (lease : Lease) (t : AskTiming) (w : Desk)
    (outcome : AskOutcome) : Except Cut (Desk × AskExit) := do
  let s ← t.close.commit lease { entries := [call.entry outcome] } w.store
  return ({ w with store := s }, .returned outcome)

def expire (call : AskCall) (lease : Lease) (t : AskTiming) (deadline : Time) (w : Desk) :
    Except Cut (Desk × AskExit) :=
  if deadline ≤ t.checkedAt then call.close lease t w .timedOut
  else .ok (w, .suspended
    { kind := .signal, signals := some call.names, at? := some deadline
      valid := ⟨by simp, fun _ => call.names_ne_nil, by simp⟩ })

/-- The wait for the end of the run that was asked. -/
def awaitChild (call : AskCall) (c : Config) (lease : Lease) (t : AskTiming)
    (deadline : Time) (w : Desk) : Except Cut (Desk × AskExit) :=
  match call.child? with
  | none => call.expire lease t deadline w
  | some child =>
    let name := childSignal child
    let (s, report?) := t.child.consume call.runId name (call.claimId c name) w.store
    match report? with
    | some report => call.close lease t { w with store := s } (endOutcome report)
    | none => call.expire lease t deadline { w with store := s }

/-- The wait, from the reply on. -/
def wait (call : AskCall) (c : Config) (lease : Lease) (t : AskTiming) (deadline : Time)
    (w : Desk) : Except Cut (Desk × AskExit) :=
  let (s, data?) := t.reply.consume call.runId call.replyName
    (call.claimId c call.replyName) w.store
  match data? with
  | some data => call.close lease t { w with store := s } (.replied data)
  | none => call.awaitChild c lease t deadline { w with store := s }

def ask (call : AskCall) (c : Config) (lease : Lease) (t : AskTiming) (w : Desk) :
    Except Cut (Desk × AskExit) :=
  if t.stopped then .error .stopped
  else do
    let w ← call.sendStep c lease t w
    let (w, deadline) ← call.deadlineStep c lease t w
    call.wait c lease t deadline w

def deadline (call : AskCall) (c : Config) (w : Desk) : Time :=
  deadlineIn ((w.record.get? (call.deadlineId c).id).getD [])

def Prepared (call : AskCall) (c : Config) (w : Desk) : Prop :=
  (call.boot? = none → (w.record.get? (call.sendId c).id).isSome) ∧
    (w.record.get? (call.deadlineId c).id).isSome

def hears (call : AskCall) (c : Config) (s : Store) (name : String) : Option JsonObject :=
  heard s call.runId name (call.claimId c name)

def Held (call : AskCall) (c : Config) (s : Store) : AskOutcome → Prop
  | .replied data => s.claims.get? (call.claimId c call.replyName) = some data
  | .timedOut => True
  | outcome => ∃ child report, call.child? = some child ∧ endOutcome report = outcome ∧
      s.claims.get? (call.claimId c (childSignal child)) = some report

section Attempts

variable {call : AskCall} {c : Config} {lease : Lease} {t : AskTiming} {w w' : Desk}
  {deadline : Time} {exit : AskExit} {outcome : AskOutcome}

theorem close_ok (h : call.close lease t w outcome = .ok (w', exit)) :
    exit = .returned outcome ∧ w'.record = w.record ∧
      t.close.commit lease { entries := [call.entry outcome] } w.store = .ok w'.store := by
  unfold close at h
  obtain ⟨s, hcommit, h⟩ := bind_ok_iff.mp h
  cases h
  exact ⟨rfl, rfl, hcommit⟩

theorem Held.close (hheld : call.Held c w.store outcome)
    (h : call.close lease t w outcome = .ok (w', exit)) : call.Held c w'.store outcome := by
  obtain ⟨_, _, hcommit⟩ := close_ok h
  cases outcome with
  | replied data => exact Turn.claims_commit hcommit hheld
  | timedOut => trivial
  | targetFailed | targetCancelled =>
    obtain ⟨child, report, hchild, hend, hclaim⟩ := hheld
    exact ⟨child, report, hchild, hend, Turn.claims_commit hcommit hclaim⟩

theorem Held.calls {s s' : Store} (hheld : call.Held c s outcome) (h : Store.Calls s s') :
    call.Held c s' outcome := by
  cases outcome with
  | replied data => exact Store.claims_calls h hheld
  | timedOut => trivial
  | targetFailed | targetCancelled =>
    obtain ⟨child, report, hchild, hend, hclaim⟩ := hheld
    exact ⟨child, report, hchild, hend, Store.claims_calls h hclaim⟩

theorem held_endOutcome {s : Store} {child : RunId} {report : JsonObject}
    (hchild : call.child? = some child)
    (hclaim : s.claims.get? (call.claimId c (childSignal child)) = some report) :
    call.Held c s (endOutcome report) := by
  have hfound : ∃ other found, call.child? = some other ∧ endOutcome found = endOutcome report ∧
      s.claims.get? (call.claimId c (childSignal other)) = some found :=
    ⟨child, report, hchild, rfl, hclaim⟩
  unfold endOutcome at hfound ⊢
  split
  · rename_i hcancelled
    rw [if_pos hcancelled] at hfound
    exact hfound
  · rename_i hother
    rw [if_neg hother] at hfound
    exact hfound

theorem expire_held (h : call.expire lease t deadline w = .ok (w', .returned outcome)) :
    w'.record = w.record ∧ call.Held c w'.store outcome := by
  unfold expire at h
  split at h
  · obtain ⟨hexit, hrecord, _⟩ := close_ok h
    cases hexit
    exact ⟨hrecord, trivial⟩
  · cases h

theorem awaitChild_held (h : call.awaitChild c lease t deadline w = .ok (w', .returned outcome)) :
    w'.record = w.record ∧ call.Held c w'.store outcome := by
  unfold awaitChild at h
  cases hchild : call.child? with
  | none =>
    rw [hchild] at h
    exact expire_held h
  | some child =>
    rw [hchild] at h
    simp only at h
    cases hconsume : t.child.consume call.runId (childSignal child)
        (call.claimId c (childSignal child)) w.store with
    | mk s report? =>
      rw [hconsume] at h
      cases report? with
      | none => exact expire_held (w := { w with store := s }) h
      | some report =>
        have hheld : call.Held c s (endOutcome report) :=
          held_endOutcome hchild (consume_claimed hconsume)
        obtain ⟨hexit, hrecord, _⟩ := close_ok h
        cases hexit
        exact ⟨hrecord, Held.close (w := { w with store := s }) hheld h⟩

theorem wait_held (h : call.wait c lease t deadline w = .ok (w', .returned outcome)) :
    w'.record = w.record ∧ call.Held c w'.store outcome := by
  unfold wait at h
  cases hconsume : t.reply.consume call.runId call.replyName
      (call.claimId c call.replyName) w.store with
  | mk s data? =>
    rw [hconsume] at h
    cases data? with
    | none => exact awaitChild_held (w := { w with store := s }) h
    | some data =>
      have hheld : call.Held c s (.replied data) := consume_claimed hconsume
      obtain ⟨hexit, hrecord, _⟩ := close_ok h
      cases hexit
      exact ⟨hrecord, Held.close (w := { w with store := s }) hheld h⟩

theorem sendStep_recorded (h : call.sendStep c lease t w = .ok w') :
    (call.boot? = none → (w'.record.get? (call.sendId c).id).isSome) := by
  intro hboot
  unfold sendStep at h
  rw [hboot] at h
  obtain ⟨⟨u, answer⟩, hrecord, h⟩ := bind_ok_iff.mp h
  cases h
  exact isSome_of_eq_some (Desk.recordAtomic_recorded hrecord).1

theorem deadlineStep_recorded (h : call.deadlineStep c lease t w = .ok (w', deadline)) :
    (∃ value, w'.record.get? (call.deadlineId c).id = some value ∧ deadline = deadlineIn value) ∧
      ∀ id known, w.record.get? id = some known → w'.record.get? id = some known := by
  unfold deadlineStep at h
  obtain ⟨⟨u, answer⟩, hrecord, h⟩ := bind_ok_iff.mp h
  cases h
  obtain ⟨hanswer, hkept⟩ := Desk.recordAtomic_recorded hrecord
  exact ⟨⟨answer, hanswer, rfl⟩, hkept⟩

theorem ask_prepared (h : call.ask c lease t w = .ok (w', exit)) :
    ∃ u, call.Prepared c u ∧ call.wait c lease t (call.deadline c u) u = .ok (w', exit) := by
  unfold ask at h
  split at h
  · cases h
  · obtain ⟨u, hsend, h⟩ := bind_ok_iff.mp h
    obtain ⟨⟨v, due⟩, hdeadline, h⟩ := bind_ok_iff.mp h
    obtain ⟨⟨value, hvalue, rfl⟩, hkept⟩ := deadlineStep_recorded hdeadline
    have hdue : call.deadline c v = deadlineIn value := by
      unfold AskCall.deadline
      rw [hvalue]
      rfl
    refine ⟨v, ⟨?_, isSome_of_eq_some hvalue⟩, ?_⟩
    · intro hboot
      obtain ⟨known, hknown⟩ := isSome_iff_exists.mp (sendStep_recorded hsend hboot)
      exact isSome_of_eq_some (hkept _ known hknown)
    · rw [hdue]
      exact h

theorem ask_again (hprepared : call.Prepared c w) (h : call.ask c lease t w = .ok (w', exit)) :
    call.wait c lease t (call.deadline c w) w = .ok (w', exit) := by
  obtain ⟨value, hvalue⟩ := isSome_iff_exists.mp hprepared.2
  have hsend : call.sendStep c lease t w = .ok w := by
    unfold sendStep
    cases hboot : call.boot? with
    | some correlationId => rfl
    | none =>
      obtain ⟨known, hknown⟩ := isSome_iff_exists.mp (hprepared.1 hboot)
      simp only [Desk.recordAtomic_answered hknown]
      rfl
  have hdeadline : call.deadlineStep c lease t w = .ok (w, call.deadline c w) := by
    unfold deadlineStep AskCall.deadline
    rw [Desk.recordAtomic_answered hvalue, hvalue]
    rfl
  unfold ask at h
  split at h
  · cases h
  · rw [hsend] at h
    obtain ⟨u, hfirst, h⟩ := bind_ok_iff.mp h
    cases hfirst
    obtain ⟨⟨v, due⟩, hstep, h⟩ := bind_ok_iff.mp h
    rw [hdeadline] at hstep
    cases hstep
    exact h

theorem Prepared.later (hprepared : call.Prepared c w) (h : Desk.Later w w') :
    call.Prepared c w' := by
  have hkept : ∀ id, (w.record.get? id).isSome → (w'.record.get? id).isSome := by
    intro id hid
    obtain ⟨known, hknown⟩ := isSome_iff_exists.mp hid
    exact isSome_of_eq_some (h.record id known hknown)
  exact ⟨fun hboot => hkept _ (hprepared.1 hboot), hkept _ hprepared.2⟩

theorem wait_of_heard {data : JsonObject}
    (hheard : call.hears c (t.reply.store w.store) call.replyName = some data)
    (h : call.wait c lease t deadline w = .ok (w', exit)) :
    exit = .returned (.replied data) := by
  unfold wait Turn.consume at h
  have hanswer := consume_answer (t.reply.store w.store) call.runId call.replyName
    (call.claimId c call.replyName)
  cases hconsume : (t.reply.store w.store).consume call.runId call.replyName
      (call.claimId c call.replyName) with
  | mk s data? =>
    rw [hconsume] at h hanswer
    have hdata : data? = some data := hanswer.trans hheard
    subst hdata
    exact (close_ok (w := { w with store := s }) h).1

theorem wait_of_silent (hsilent : call.hears c (t.reply.store w.store) call.replyName = none) :
    call.wait c lease t deadline w =
      call.awaitChild c lease t deadline { w with store := t.reply.store w.store } := by
  unfold wait Turn.consume
  rw [consume_silent hsilent]

theorem awaitChild_of_heard {child : RunId} {report : JsonObject}
    (hchild : call.child? = some child)
    (hheard : call.hears c (t.child.store w.store) (childSignal child) = some report)
    (h : call.awaitChild c lease t deadline w = .ok (w', exit)) :
    exit = .returned (endOutcome report) := by
  unfold awaitChild Turn.consume at h
  rw [hchild] at h
  simp only at h
  have hanswer := consume_answer (t.child.store w.store) call.runId (childSignal child)
    (call.claimId c (childSignal child))
  cases hconsume : (t.child.store w.store).consume call.runId (childSignal child)
      (call.claimId c (childSignal child)) with
  | mk s report? =>
    rw [hconsume] at h hanswer
    have hreport : report? = some report := hanswer.trans hheard
    subst hreport
    exact (close_ok (w := { w with store := s }) h).1

theorem awaitChild_of_silent (hsilent : ∀ child, call.child? = some child →
      call.hears c (t.child.store w.store) (childSignal child) = none)
    (h : call.awaitChild c lease t deadline w = .ok (w', exit)) :
    exit = .returned .timedOut ↔ deadline ≤ t.checkedAt := by
  have hexpire : ∀ {u : Desk}, call.expire lease t deadline u = .ok (w', exit) →
      (exit = .returned .timedOut ↔ deadline ≤ t.checkedAt) := by
    intro u h
    unfold expire at h
    split at h
    · rename_i hdue
      exact iff_of_true (close_ok h).1 hdue
    · rename_i hdue
      cases h
      exact iff_of_false (by simp) hdue
  unfold awaitChild Turn.consume at h
  cases hchild : call.child? with
  | none =>
    rw [hchild] at h
    exact hexpire h
  | some child =>
    rw [hchild] at h
    simp only at h
    rw [consume_silent (hsilent child hchild)] at h
    exact hexpire h

end Attempts

/-- What a later attempt must find for an outcome to stand: a reply answers
again whatever happens; a target's end must find no reply; and a timeout must
find neither a reply nor an end, and a clock that is not before the deadline. -/
def Undisturbed (call : AskCall) (c : Config) (t : AskTiming) (w : Desk) : AskOutcome → Prop
  | .replied _ => True
  | .targetFailed | .targetCancelled =>
    call.hears c (t.reply.store w.store) call.replyName = none
  | .timedOut =>
    call.hears c (t.reply.store w.store) call.replyName = none ∧
      (∀ child, call.child? = some child →
        call.hears c (t.child.store (t.reply.store w.store)) (childSignal child) = none) ∧
      call.deadline c w ≤ t.checkedAt

private theorem wait_held_end {call : AskCall} {c : Config} {lease : Lease} {t : AskTiming}
    {w w' : Desk} {deadline : Time} {exit : AskExit} {child : RunId} {report : JsonObject}
    (hchild : call.child? = some child)
    (hclaim : w.store.claims.get? (call.claimId c (childSignal child)) = some report)
    (h : call.wait c lease t deadline w = .ok (w', exit)) :
    exit = .returned (endOutcome report) ↔
      call.hears c (t.reply.store w.store) call.replyName = none := by
  cases hreply : call.hears c (t.reply.store w.store) call.replyName with
  | some data =>
    apply iff_of_false _ (by simp)
    rw [wait_of_heard hreply h]
    unfold endOutcome
    split <;> simp
  | none =>
    rw [wait_of_silent hreply] at h
    apply iff_of_true _ rfl
    apply awaitChild_of_heard hchild _ h
    exact heard_claimed (Store.claims_calls (t.child.calls _)
      (Store.claims_calls (t.reply.calls _) hclaim)) ..

/-- Once an attempt has returned an outcome for an `ask`, any later attempt that
gets through the call, after any calls whatever, returns the same outcome if
and only if it finds the outcome undisturbed. -/
theorem ask_outcome_stable {call : AskCall} {c : Config} {lease lease' : Lease}
    {t t' : AskTiming} {w w₁ w₂ w₃ : Desk} {outcome : AskOutcome} {exit : AskExit}
    (hfirst : call.ask c lease t w = .ok (w₁, .returned outcome)) (hlater : w₁.Later w₂)
    (hagain : call.ask c lease' t' w₂ = .ok (w₃, exit)) :
    exit = .returned outcome ↔ call.Undisturbed c t' w₂ outcome := by
  obtain ⟨u, hprepared, hwait⟩ := ask_prepared hfirst
  obtain ⟨hrecord, hheld⟩ := wait_held hwait
  have hprepared₁ : call.Prepared c w₁ := by
    unfold Prepared
    rw [hrecord]
    exact hprepared
  have hheld₂ : call.Held c w₂.store outcome := hheld.calls hlater.store
  have hwait₂ := ask_again (hprepared₁.later hlater) hagain
  cases outcome with
  | replied data =>
    apply iff_of_true _ trivial
    exact wait_of_heard (heard_claimed (Store.claims_calls (t'.reply.calls _) hheld₂) ..) hwait₂
  | targetFailed | targetCancelled =>
    obtain ⟨child, report, hchild, hend, hclaim⟩ := hheld₂
    rw [← hend, wait_held_end hchild hclaim hwait₂, hend]
    rfl
  | timedOut =>
    cases hreply : call.hears c (t'.reply.store w₂.store) call.replyName with
    | some data =>
      rw [wait_of_heard hreply hwait₂]
      apply iff_of_false (by simp)
      rintro ⟨hnone, _⟩
      rw [hreply] at hnone
      cases hnone
    | none =>
      rw [wait_of_silent hreply] at hwait₂
      by_cases hsilent : ∀ child, call.child? = some child →
          call.hears c (t'.child.store (t'.reply.store w₂.store)) (childSignal child) = none
      · rw [awaitChild_of_silent hsilent hwait₂]
        exact ⟨fun hdue => ⟨hreply, hsilent, hdue⟩, fun h => h.2.2⟩
      · apply iff_of_false _ fun h => hsilent h.2.1
        simp only [not_forall] at hsilent
        obtain ⟨child, hchild, hheard⟩ := hsilent
        obtain ⟨report, hreport⟩ := ne_none_iff_exists'.mp hheard
        rw [awaitChild_of_heard hchild hreport hwait₂]
        unfold endOutcome
        split <;> simp

def kindOf : Except Cut (Desk × AskExit) → Option String
  | .ok (_, .returned outcome) => some outcome.kind
  | .ok (_, .suspended _) | .error _ => none

def deskOf (before : Desk) : Except Cut (Desk × AskExit) → Desk
  | .ok (w, _) => w
  | .error _ => before

private theorem ok_of_timedOut {before : Desk} {result : Except Cut (Desk × AskExit)}
    (h : kindOf result = some "timed_out") :
    result = .ok (deskOf before result, .returned .timedOut) := by
  cases result with
  | error cut => cases h
  | ok done =>
    obtain ⟨w, exit⟩ := done
    cases exit with
    | suspended wake => cases h
    | returned outcome =>
      cases outcome with
      | timedOut => rfl
      | replied data | targetFailed | targetCancelled => simp [kindOf, AskOutcome.kind] at h

private def askConfig : Config where
  makeId path kind := kind ++ "@" ++ path
  digest _ := ""

private def question : AskCall where
  runId := "p"
  target := .actor "b"
  msg := { id := "m", sender := "agent" }
  timeout := 10

private def asking : Desk where
  store := Store.execAll [⟨.plain 0, .createRun { agent := "agent", runId := some "p" } []⟩,
     ⟨.plain 0, .lease "w" 1 100 0⟩] .init

private def firstAttempt : Except Cut (Desk × AskExit) :=
  question.ask askConfig (firstLease "p") { startedAt := 0, checkedAt := 10 } asking

private def secondAttempt : Except Cut (Desk × AskExit) :=
  question.ask askConfig (firstLease "p") { startedAt := 20, checkedAt := 20 }
    (deskOf asking firstAttempt)

/-- Nothing comes after the deadline: the replay times out again. -/
theorem ask_outcome_stable_silent : kindOf firstAttempt = some "timed_out" ∧
      ∃ w, secondAttempt = .ok (w, .returned .timedOut) := by
  have hfirst : kindOf firstAttempt = some "timed_out" := by decide
  have hsecond : (kindOf secondAttempt).isSome := by decide
  refine ⟨hfirst, ?_⟩
  cases hagain : secondAttempt with
  | error cut =>
    rw [hagain] at hsecond
    cases hsecond
  | ok done =>
    obtain ⟨w, exit⟩ := done
    have hsame : exit = .returned .timedOut := by
      have hlater : (deskOf asking firstAttempt).Later (deskOf asking firstAttempt) :=
        ⟨Lib.Steps.refl _, fun _ _ h => h⟩
      apply (ask_outcome_stable (ok_of_timedOut hfirst) hlater hagain).mpr
      refine ⟨by decide, ?_, by decide⟩
      intro child hchild
      cases hchild
    rw [hsame]
    exact ⟨w, rfl⟩

private def lateReply : Desk :=
  { deskOf asking firstAttempt with
    store := Store.execAll [⟨.plain 15, .signal "p" question.replyName []⟩]
      (deskOf asking firstAttempt).store }

/-- A reply that comes after the deadline: the replay is answered. -/
theorem ask_changes_its_answer : Store.Calls .init asking.store ∧
      firstAttempt = .ok (deskOf asking firstAttempt, .returned .timedOut) ∧
      (deskOf asking firstAttempt).Later lateReply ∧
      kindOf (question.ask askConfig (firstLease "p") { startedAt := 20, checkedAt := 20 }
        lateReply) = some "replied" :=
  ⟨Store.calls_execAll _ _, ok_of_timedOut (by decide),
    ⟨Store.calls_execAll _ _, fun _ _ h => h⟩, by decide⟩

end AskCall

end Substrate.Context
