import Mathlib.Data.List.Perm.Basic
import Mathlib.Data.List.Sort
import Substrate.Types
import Substrate.Lib.Table

/-!
The runtime store's tables. Each `rt_*` table is a field: a table with a primary key that
the code looks up is a keyed table, and a table read in the order of its autoincrement id
is a list, oldest row first. The follow graph and the columns no modelled query reads are
left out.
-/

namespace Substrate

open Lib

structure RunResult where
  runId : RunId
  status : RunStatus
  error : Option String := none
  deriving DecidableEq, Repr

/-- A row of `rt_runs`, keyed by its run id. -/
structure RunRow where
  agent : Address
  tenant : Tenant
  threadId : Option String := none
  parentRunId : Option RunId := none
  treeId : RunId
  status : RunStatus := .pending
  priority : Priority := .normal
  epoch : Nat := 0
  attempt : Nat := 0
  retryCount : Nat := 0
  retryPolicy : RunRetryPolicy := {}
  workerId : Option String := none
  leaseExpiresAt : Option Time := none
  wake : Option Wakeup := none
  wakeAt : Option Time := none
  deadline : Option Time := none
  cancelRequested : Bool := false
  supervision : Option Supervision := none
  enqueuedAt : Time
  startedAt : Option Time := none
  terminatedAt : Option Time := none
  result : Option RunResult := none

/-- A row of `rt_events`. -/
structure EventRow where
  runId : RunId
  seq : Nat
  kind : String
  payload : JsonObject
  ts : Time
  ephemeral : Bool
  dedupKey : Option String

/-- A row of `rt_inbox`. -/
structure InboxRow where
  agent : Address
  tenant : Tenant
  msg : Message
  attempts : Nat := 0

/-- A row of `rt_dead_letters`, with the fields of its `DeadLetterEntry`. -/
structure DeadLetter where
  agent : Address
  tenant : Tenant
  msg : Message
  attempts : Nat
  lastError : String

/-- A row of `rt_signals`. -/
structure SignalRow where
  runId : RunId
  name : String
  payload : JsonObject

/-- A row of `rt_accounts`: what was spent, and the limits. -/
structure Account where
  spent : Spend := {}
  maxTokens : Option Nat := none
  maxCostMicros : Option Nat := none
  maxTurns : Option Nat := none

structure Store where
  runs : Table RunId RunRow := .empty
  wake : List (RunId × String) := []
  events : List EventRow := []
  inbox : List InboxRow := []
  processed : Table (Address × String) Time := .empty
  deadLetters : List DeadLetter := []
  signals : List SignalRow := []
  claims : Table String JsonObject := .empty
  spawns : Table String RunId := .empty
  spend : Table RunId Spend := .empty
  runAccounts : List (RunId × String) := []
  accounts : Table String Account := .empty

/-- The state after `migrate` on an empty database. -/
def Store.init : Store := {}

inductive StoreError where
  | leaseLost (runId : RunId) (epoch : Nat)
  | threadBusy (threadId : String)
  | uniqueViolation (runId : RunId)
  | budgetExhausted (treeId : RunId) (active cap : Nat) (agent : Address)
  | unknownRun (runId : RunId)
  | assertionFailed
  | diverged
  deriving DecidableEq, Repr

/-- The text of the exception, where the code gives one. -/
def StoreError.message : StoreError → String
  | .leaseLost runId _ => "lease on run " ++ runId ++ " was lost"
  | .threadBusy threadId => "thread " ++ threadId ++ " already has an active run"
  | .budgetExhausted treeId active cap agent =>
    "run tree " ++ treeId ++ " is at its headcount cap (" ++ toString active ++
      "/" ++ toString cap ++ " agents); cannot spawn " ++ agent
  | .unknownRun runId => runId
  | .uniqueViolation _ | .assertionFailed | .diverged => ""

/-- What one transaction takes from outside the database. `newId n` is the id
drawn when `n` runs are stored, so two draws of one transaction may differ.
`turns` bounds the loop that walks a cancelled run's descendants, which the
source does not bound: a result for every environment covers every finite
number of turns. -/
structure TxEnv where
  clock : Time
  newId : Nat → RunId
  rowOrder : List (RunId × RunRow) → List (RunId × RunRow)
  rowOrder_perm : ∀ rows, (rowOrder rows).Perm rows
  maxAttempts : Nat := 3
  turns : Nat := 1000

/-- The environment at an instant, with numbered ids and rows in the order they
were inserted. -/
def TxEnv.plain (clock : Time) : TxEnv where
  clock := clock
  newId n := "run-" ++ toString n
  rowOrder := id
  rowOrder_perm _ := List.Perm.refl _

/-- The lease of a run claimed once by worker `w`. -/
def firstLease (runId : RunId) : Lease where
  runId := runId
  agent := "agent"
  workerId := "w"
  epoch := 1
  expiresAt := 100
  attempt := 1
  tenant := "default"
  threadId := none
  retryCount := 0
  retryPolicy := {}
  supervision := none
  deadline := none
  startedAt := none
  parentRunId := none

/-- `_EPHEMERAL_GRACE_S`. -/
def ephemeralGrace : Time := 120000000

namespace RunRow

def isActive (row : RunRow) : Bool := row.status.isActive

def parent? (row : RunRow) : Option RunId := row.parentRunId.filter (· ≠ "")

/-- `status IN ('pending', 'suspended')`: no worker has the run. -/
def isWaiting (row : RunRow) : Bool := row.status = .pending || row.status = .suspended

/-- A run no worker has, with `deadline IS NOT NULL AND deadline <= now`. -/
def overdue (now : Time) (row : RunRow) : Bool := row.isWaiting && row.deadline.any (· ≤ now)

/-- The columns no statement updates, in a row with the other columns as they
were at first. -/
def birth (row : RunRow) : RunRow where
  agent := row.agent
  tenant := row.tenant
  threadId := row.threadId
  parentRunId := row.parentRunId
  treeId := row.treeId
  priority := row.priority
  retryPolicy := row.retryPolicy
  deadline := row.deadline
  supervision := row.supervision
  enqueuedAt := row.enqueuedAt

/-- The `UPDATE` of `_make_pending`: only a suspended run is queued. -/
def queued (row : RunRow) : RunRow :=
  if row.status = .suspended then
    { row with
      status := .pending, workerId := none, leaseExpiresAt := none
      wakeAt := none, wake := none }
  else row

/-- The `UPDATE` of `_terminate`, whatever the row says. -/
def ended (row : RunRow) (result : RunResult) (at' : Time) : RunRow :=
  { row with
    status := result.status, workerId := none, leaseExpiresAt := none
    wakeAt := none, wake := none, terminatedAt := some at'
    result := some result }

def reclaimed (row : RunRow) (now : Time) : RunRow :=
  if row.status = .running && row.leaseExpiresAt.any (· < now) then
    { row with status := .pending, workerId := none, leaseExpiresAt := none }
  else row

def claimed (row : RunRow) (worker : String) (expires now : Time) : RunRow :=
  { row with
    status := .running, workerId := some worker
    leaseExpiresAt := some expires, epoch := row.epoch + 1
    attempt := row.attempt + 1
    startedAt := some (row.startedAt.getD now) }

/-- The row of a run put to sleep until `wake`. -/
def asleep (row : RunRow) (wake : Wakeup) : RunRow :=
  { row with
    status := .suspended, workerId := none, leaseExpiresAt := none
    wake := some wake, wakeAt := wake.at? }

def parked (row : RunRow) (until' : Time) : RunRow :=
  { row with
    status := .suspended, workerId := none, leaseExpiresAt := none
    retryCount := row.retryCount + 1, wakeAt := some until', wake := none }

/-- `_lease`. -/
def toLease (row : RunRow) (runId : RunId) (worker : String) (clock : Time) :
    Lease where
  runId := runId
  agent := row.agent
  workerId := worker
  epoch := row.epoch
  expiresAt := row.leaseExpiresAt.getD clock
  attempt := row.attempt
  tenant := row.tenant
  threadId := row.threadId
  retryCount := row.retryCount
  retryPolicy := row.retryPolicy
  supervision := row.supervision
  deadline := row.deadline
  startedAt := row.startedAt
  parentRunId := row.parent?

end RunRow

def Lease.current (lease : Lease) (row : RunRow) : Bool :=
  row.status = .running && row.epoch = lease.epoch && row.workerId = some lease.workerId

def terminalKey : String := "terminal"

namespace Ending

def entry (how : Ending) : NewEntry where
  kind := how.entryKind
  payload := how.payload
  dedupKey := some terminalKey

def result (how : Ending) (runId : RunId) : RunResult where
  runId := runId
  status := how.status
  error := how.error?.map ErrorInfo.text

def report (how : Ending) : JsonObject :=
  [("status", .str how.status.value), ("kind", .str how.how),
    ("error", match how.error? with | some error => error.dump | none => .null)]

end Ending

def Delivery.wakeSpec (delivery : Delivery) : RunSpec where
  agent := delivery.agent
  tenant := delivery.tenant
  accounts := delivery.accounts

/-- The row `_insert_run` writes. -/
def RunSpec.row (spec : RunSpec) (runId : RunId) (clock : Time) : RunRow where
  agent := spec.agent
  tenant := spec.tenant
  threadId := spec.threadId
  parentRunId := spec.parentRunId
  treeId := match spec.supervision with
    | some supervision => supervision.runId
    | none => runId
  priority := spec.priority
  retryPolicy := spec.retryPolicy
  deadline := spec.deadline
  supervision := spec.supervision
  enqueuedAt := clock

namespace Store

/-- `SELECT … FROM rt_runs WHERE p`, in the order the database returns it. -/
def selectRuns (s : Store) (env : TxEnv) (p : RunId → RunRow → Bool) : List (RunId × RunRow) :=
  env.rowOrder (s.runs.rows.filter fun row => p row.1 row.2)

theorem mem_selectRuns {s : Store} {env : TxEnv} {p : RunId → RunRow → Bool}
    {runId : RunId} {row : RunRow} :
    (runId, row) ∈ s.selectRuns env p ↔ s.runs.get? runId = some row ∧ p runId row = true := by
  rw [selectRuns, (env.rowOrder_perm _).mem_iff, Table.mem_filter_rows]

def activeChildren (s : Store) (env : TxEnv) (runId : RunId) : List (RunId × RunRow) :=
  s.selectRuns env fun _ row => row.parentRunId = some runId && row.isActive

/-- Whether a run of the agent other than `except` is active. -/
def hasOtherActive (s : Store) (agent : Address) (except : RunId) : Bool :=
  s.runs.rows.any fun row =>
    row.2.agent = agent && row.2.isActive && row.1 ≠ except

/-- The agent's latest active run: `ORDER BY enqueued_at DESC, run_id DESC`. -/
def latestActive (s : Store) (agent : Address) : Option (RunId × RunRow) :=
  (s.runs.rows.filter fun row => row.2.agent = agent && row.2.isActive).foldl
    (fun best row =>
      match best with
      | none => some row
      | some top =>
        if top.2.enqueuedAt < row.2.enqueuedAt ∨
            (top.2.enqueuedAt = row.2.enqueuedAt ∧ top.1 < row.1)
        then some row else best)
    none

def threadTaken (s : Store) (threadId : Option String) : Bool :=
  threadId.any fun thread =>
    s.runs.rows.any fun row => row.2.threadId = some thread && row.2.isActive

/-- `COUNT(*)` of the active runs of a tree. -/
def treeHeadcount (s : Store) (treeId : RunId) : Nat :=
  s.runs.rows.countP fun row => row.2.treeId = treeId && row.2.isActive

/-- `COALESCE(MAX(seq), -1) + 1`. -/
def nextSeq (s : Store) (runId : RunId) : Nat :=
  (s.events.filter fun row => row.runId = runId).foldl (fun next row => max next (row.seq + 1)) 0

def findDedup (s : Store) (runId : RunId) (key : Option String) : Option EventRow :=
  key.bind fun key =>
    s.events.find? fun row => row.runId = runId && row.dedupKey = some key

def inboxOf (s : Store) (agent : Address) : List InboxRow :=
  s.inbox.filter fun row => row.agent = agent

def hasMail (s : Store) (agent : Address) (msgId : String) : Bool :=
  s.inbox.any fun row => row.agent = agent && row.msg.id = msgId

/-- `drain`: the first `limit` messages, by sender and then by arrival. -/
def drain (s : Store) (agent : Address) (limit : Nat) : List Message :=
  (((s.inboxOf agent).insertionSort fun a b => a.msg.sender ≤ b.msg.sender).take limit).map (·.msg)

/-- `read_events(…, durable_only=True)` from the start: what a replay folds. -/
def durableEvents (s : Store) (runId : RunId) : List EventRow :=
  s.events.filter fun row => row.runId = runId && !row.ephemeral

end Store

end Substrate
