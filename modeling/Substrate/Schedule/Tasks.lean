import Mathlib.Data.List.Count
import Mathlib.Logic.Function.Basic
import Substrate.Lib.Runs

/-!
Scheduled tasks (`scheduled_service.py`). Every replica of the server hears every tick of
a schedule, and runs at its start what came due while the server was down. A firing reads
the row of its task, claims it by an `UPDATE` that looks at the time of the last claim,
and only then looks at what it has read.
-/

namespace Substrate.Schedule

open Lib Function

/-- What is used of Python and of APScheduler: `int(text)`, and when a crontab next comes
due from an instant on. Both are none where they raise. -/
structure Expressions where
  int : String → Option Int
  next : String → Nat → Option Nat

inductive Status where
  | active | paused | completed | error
  deriving DecidableEq, Repr

/-- `ScheduledTask`, without what only the run itself uses. -/
structure ScheduledTask where
  kind : String
  cronExpression : String
  threadId : Nat
  status : Status
  autoDisable : Bool
  lastClaimedAt : Option Nat
  createdAt : Nat
  deriving DecidableEq, Repr

/-- `Thread`: whether `deleted_at` and `locked_at` are set. -/
structure Thread where
  deleted : Bool
  locked : Bool
  deriving DecidableEq, Repr

inductive RunStatus where
  | waiting | silent | success | failed
  deriving DecidableEq, Repr

structure ScheduledTaskRun where
  taskId : Nat
  status : RunStatus
  executedAt : Nat
  deriving DecidableEq, Repr

/-- Why a task is executed: a tick for an instant at which it is due, the catch-up of a
replica that found it overdue, or by hand. -/
inductive Cause where
  | tick (due : Nat)
  | catchUp (outage since now : Nat)
  | manual
  deriving DecidableEq, Repr

/-- Where `execute_scheduled_task` stands: the row is read, the firing claimed, the task
and its thread found in order, the run submitted. -/
inductive Stage where
  | read | claimed | cleared | submitted
  deriving DecidableEq, Repr

/-- A call of `execute_scheduled_task` with the row it has read. `began` is when its open
transaction began. Of the claim it keeps the time, and whether the task was active. -/
structure Firing where
  taskId : Nat
  replica : Nat
  cause : Cause
  task : ScheduledTask
  began : Nat
  stage : Stage
  claimedAt : Option Nat
  wasActive : Bool
  deriving DecidableEq, Repr

/-- `catch_up_missed_tasks` of a replica: what is left of `overdue`, each with the instant
since when it was looked at, and whether one of them is being run. -/
structure CatchUp where
  outage : Nat
  now : Nat
  overdue : List (Nat × Nat)
  busy : Bool
  deriving DecidableEq, Repr

/-- The database, the replicas and what they are doing. `taskIds` are the rows in the order
of a query. The last six fields are a record
of what has happened: the outages that have ended, the ticks of active tasks, the claims
won, the runs submitted, the firings that failed, and when tasks stopped being active. -/
structure World where
  clock : Nat
  taskIds : List Nat
  tasks : Nat → Option ScheduledTask
  threads : Nat → Option Thread
  records : List ScheduledTaskRun
  started : Nat
  replicas : List Nat
  catchUps : Nat → Option CatchUp
  firings : List Firing
  outage : Nat
  ticks : List (Nat × Nat)
  claims : List Firing
  runs : List Firing
  failures : List Firing
  halts : List (Nat × Nat)

inductive Action where
  | advance (duration : Nat)
  | start
  | stop (replica : Nat)
  | sweep (replica : Nat)
  | tick (replica taskId due : Nat)
  | next (replica : Nat)
  | runNow (replica taskId : Nat)
  | claim (firing : Firing) (now : Nat)
  | check (firing : Firing)
  | submit (firing : Firing)
  | fail (firing : Firing)
  | finish (firing : Firing) (waiting silent : Bool)
  | setStatus (taskId : Nat) (status : Status)
  | setThread (threadId : Nat) (thread : Thread)

namespace Expressions

variable (x : Expressions)

/-- `firing_gap_seconds`, in microseconds. -/
def firingGap (task : ScheduledTask) : Nat :=
  if task.kind = "interval" then
    match x.int task.cronExpression with
    | some seconds => max 1000000 (seconds * 500000).toNat
    | none => 30000000
  else 30000000

def missedFiring (kind expression : String) (since now : Nat) : Bool :=
  if kind = "interval" then
    match x.int expression with
    | some seconds => decide (seconds * 1000000 ≤ (now : Int) - since)
    | none => false
  else
    match x.next expression since with
    | some due => decide (due ≤ now)
    | none => false

end Expressions

/-- The `WHERE` of `claim_firing`. -/
def claimable (task : ScheduledTask) (now gap : Nat) : Bool :=
  match task.lastClaimedAt with
  | none => true
  | some last => decide (last + gap < now)

namespace World

variable (x : Expressions) (s : World)

/-- The world before any replica is there, with any rows. -/
def rest (clock : Nat) (taskIds : List Nat) (tasks : Nat → Option ScheduledTask)
    (threads : Nat → Option Thread) (records : List ScheduledTaskRun) : World where
  clock := clock
  taskIds := taskIds
  tasks := tasks
  threads := threads
  records := records
  started := 0
  replicas := []
  catchUps _ := none
  firings := []
  outage := 0
  ticks := []
  claims := []
  runs := []
  failures := []
  halts := []

def setTask (taskId : Nat) (task : ScheduledTask) : World :=
  { s with tasks := update s.tasks taskId (some task) }

def setStatus (taskId : Nat) (status : Status) : World :=
  match s.tasks taskId with
  | none => s
  | some task =>
    { s.setTask taskId { task with status := status } with
      halts := if status = .active then s.halts else (taskId, s.clock) :: s.halts }

/-- A firing begins: `db.get(ScheduledTask, task_id)`. One by hand needs no claim. -/
def begin (taskId replica : Nat) (cause : Cause) (task : ScheduledTask) : World :=
  { s with
    firings := ⟨taskId, replica, cause, task, s.clock,
      if cause = .manual then .claimed else .read, none, false⟩ :: s.firings }

def replace (firing firing' : Firing) : World :=
  { s with firings := firing' :: s.firings.erase firing }

/-- `execute_scheduled_task` returns, to the catch-up if that had called it. -/
def return_ (firing : Firing) : World :=
  { s with
    firings := s.firings.erase firing
    catchUps := match firing.cause with
      | .catchUp _ _ _ => update s.catchUps firing.replica
          ((s.catchUps firing.replica).map fun c => { c with busy := false })
      | _ => s.catchUps }

def start : World :=
  { s with
    started := s.started + 1
    replicas := s.started :: s.replicas
    outage := if s.replicas = [] then s.outage + 1 else s.outage }

def stop (replica : Nat) : World :=
  { s with
    replicas := s.replicas.erase replica
    catchUps := update s.catchUps replica none
    firings := s.firings.filter fun firing => firing.replica ≠ replica }

/-- `max(seen)` in `catch_up_missed_tasks`: when a task was claimed, run or made last. -/
def seen (taskId : Nat) (task : ScheduledTask) : Nat :=
  ((s.records.filter fun run => run.taskId = taskId).map ScheduledTaskRun.executedAt).foldl max
    (max (task.lastClaimedAt.getD 0) task.createdAt)

/-- A task is active and came due since it was seen. -/
def overdue (taskId : Nat) : Option (Nat × Nat) :=
  (s.tasks taskId).bind fun task =>
    let since := s.seen taskId task
    if task.status = .active ∧
        x.missedFiring task.kind task.cronExpression since s.clock = true then
      some (taskId, since)
    else none

/-- `catch_up_missed_tasks` up to its loop, once for a replica. -/
def sweep (replica : Nat) : Option World :=
  if replica ∈ s.replicas ∧ s.catchUps replica = none then
    some { s with
      catchUps := update s.catchUps replica
        (some ⟨s.outage, s.clock, s.taskIds.filterMap (s.overdue x), false⟩) }
  else none

/-- The loop of `catch_up_missed_tasks` comes to its next task. -/
def next (replica : Nat) : Option World :=
  match s.catchUps replica with
  | some ⟨outage, now, (taskId, since) :: overdue, false⟩ =>
    match s.tasks taskId with
    | none =>
      some { s with
        catchUps := update s.catchUps replica (some ⟨outage, now, overdue, false⟩) }
    | some task =>
      some { s.begin taskId replica (.catchUp outage since now) task with
        catchUps := update s.catchUps replica (some ⟨outage, now, overdue, true⟩) }
  | _ => none

def tick (replica taskId due : Nat) : Option World :=
  if replica ∈ s.replicas ∧ due ≤ s.clock then
    (s.tasks taskId).map fun task =>
      { s.begin taskId replica (.tick due) task with
        ticks := if task.status = .active then (taskId, due) :: s.ticks else s.ticks }
  else none

def runNow (replica taskId : Nat) : Option World :=
  if replica ∈ s.replicas then
    (s.tasks taskId).map fun task => s.begin taskId replica .manual task
  else none

/-- `claim_firing`. It takes the time `now` before its `UPDATE`. -/
def claim (firing : Firing) (now : Nat) : Option World :=
  if firing ∈ s.firings ∧ firing.stage = .read ∧ firing.began ≤ now ∧ now ≤ s.clock then
    match s.tasks firing.taskId with
    | none => some (s.return_ firing)
    | some task =>
      if claimable task now (x.firingGap firing.task) = true then
        let won := { firing with
          stage := .claimed, claimedAt := some now, wasActive := task.status = .active }
        some { (s.setTask firing.taskId { task with lastClaimedAt := some now }).replace firing
            won with
          claims := won :: s.claims }
      else some (s.return_ firing)
  else none

/-- The task as it was read and the thread as it is are looked at. -/
def check (firing : Firing) : Option World :=
  if firing ∈ s.firings ∧ firing.stage = .claimed then
    if firing.task.status ≠ .active then some (s.return_ firing)
    else
      match s.threads firing.task.threadId with
      | some ⟨false, false⟩ =>
        some (s.replace firing { firing with stage := .cleared, began := s.clock })
      | _ => some ((s.setStatus firing.taskId .paused).return_ firing)
  else none

def submit (firing : Firing) : Option World :=
  if firing ∈ s.firings ∧ firing.stage = .cleared then
    some { s.replace firing { firing with stage := .submitted } with
      runs := firing :: s.runs }
  else none

def record (firing : Firing) (status : RunStatus) : World :=
  { s with records := ⟨firing.taskId, status, firing.began⟩ :: s.records }

def fail (firing : Firing) : Option World :=
  if firing ∈ s.firings ∧ firing.stage ≠ .read then
    some { (s.record firing .failed).return_ firing with
      failures := firing :: s.failures }
  else none

/-- The run ends or waits for a person, and is recorded. -/
def finish (firing : Firing) (waiting silent : Bool) : Option World :=
  if firing ∈ s.firings ∧ firing.stage = .submitted then
    let status := if waiting = true then .waiting else if silent = true then .silent else .success
    let recorded := s.record firing status
    some ((if silent = false ∧ firing.task.autoDisable = true then
      recorded.setStatus firing.taskId .completed else recorded).return_ firing)
  else none

end World

/-- One step. -/
def step (x : Expressions) : Action → World → Option World
  | .advance duration, s => some { s with clock := s.clock + duration }
  | .start, s => some s.start
  | .stop replica, s => some (s.stop replica)
  | .sweep replica, s => s.sweep x replica
  | .tick replica taskId due, s => s.tick replica taskId due
  | .next replica, s => s.next replica
  | .runNow replica taskId, s => s.runNow replica taskId
  | .claim firing now, s => s.claim x firing now
  | .check firing, s => s.check firing
  | .submit firing, s => s.submit firing
  | .fail firing, s => s.fail firing
  | .finish firing waiting silent, s => s.finish firing waiting silent
  | .setStatus taskId status, s => some (s.setStatus taskId status)
  | .setThread threadId thread, s =>
    some { s with threads := update s.threads threadId (some thread) }

end Substrate.Schedule
