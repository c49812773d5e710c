import Mathlib.Data.List.Basic

/-!
The value types of the runtime store's port: what a caller hands to a store method and
what a run's record is made of. They follow `types/` and `runtime/store.py` field by
field. Fields that no modelled function reads (trace context, rebuild recipe, message
target and metadata) are left out.
-/

namespace Substrate

abbrev RunId := String
abbrev Address := String
abbrev Tenant := String

abbrev Time := Int

/-- A JSON value. An object keeps its fields in insertion order, as a Python
dictionary does. -/
inductive Json where
  | null
  | bool (value : Bool)
  | num (value : Int)
  | str (value : String)
  | arr (items : List Json)
  | obj (fields : List (String × Json))
  deriving Repr, Inhabited

abbrev JsonObject := List (String × Json)

/-- A text field of an object, absent when the key is missing or holds
something else. -/
def JsonObject.text? (fields : JsonObject) (key : String) : Option String :=
  match fields.lookup key with
  | some (.str value) => some value
  | _ => none

def Json.ofText? : Option String → Json
  | none => .null
  | some value => .str value

inductive RunStatus where
  | pending
  | running
  | suspended
  | completed
  | failed
  | cancelled
  deriving DecidableEq, Repr

/-- `_ACTIVE`. -/
def RunStatus.isActive : RunStatus → Bool
  | .pending | .running | .suspended => true
  | .completed | .failed | .cancelled => false

/-- `_TERMINAL`, and the `is_terminal` property. -/
def RunStatus.isTerminal : RunStatus → Bool
  | .completed | .failed | .cancelled => true
  | .pending | .running | .suspended => false

def RunStatus.value : RunStatus → String
  | .pending => "pending"
  | .running => "running"
  | .suspended => "suspended"
  | .completed => "completed"
  | .failed => "failed"
  | .cancelled => "cancelled"

@[simp] theorem RunStatus.isActive_eq_not_isTerminal (status : RunStatus) :
    status.isActive = !status.isTerminal := by
  cases status <;> rfl

inductive Priority where
  | background
  | low
  | normal
  | high
  | critical
  deriving DecidableEq, Repr

/-- The stored integer of an `IntEnum` member. -/
def Priority.value : Priority → Nat
  | .background => 0
  | .low => 1
  | .normal => 2
  | .high => 4
  | .critical => 8

structure RunRetryPolicy where
  maxRetries : Nat := 3
  backoff : Nat := 5000000
  maxBackoff : Nat := 300000000
  deriving DecidableEq, Repr

/-- Resource limits of one agent; `none` is unlimited. -/
structure ExecutionBudget where
  maxTokens : Option Nat := none
  maxCostMicros : Option Nat := none
  maxTurns : Option Nat := none
  deadline : Option Nat := none
  deriving DecidableEq, Repr

/-- A run's place in its execution tree. `runId` names the whole tree, and
`maxAgents` is the tree's headcount cap. -/
structure Supervision where
  runId : RunId
  maxAgents : Nat := 50
  maxAgents_pos : 0 < maxAgents := by decide
  executionBudget : ExecutionBudget := {}
  deriving DecidableEq, Repr

structure ErrorInfo where
  code : String
  message : String
  retryable : Bool := false
  details : JsonObject := []
  deriving Repr

/-- `str(error)`. -/
def ErrorInfo.text (error : ErrorInfo) : String := "[" ++ error.code ++ "] " ++ error.message

/-- `error.model_dump(mode="json")`. -/
def ErrorInfo.dump (error : ErrorInfo) : Json :=
  .obj [("code", .str error.code), ("message", .str error.message),
    ("retryable", .bool error.retryable), ("details", .obj error.details)]

inductive WakeKind where
  | message
  | timer
  | signal
  | childDone
  deriving DecidableEq, Repr

def WakeKind.value : WakeKind → String
  | .message => "message"
  | .timer => "timer"
  | .signal => "signal"
  | .childDone => "child_done"

/-- What resumes a dormant run. The `valid` field is the model validator
`_fields_match_kind`: a timer has a time, a signal wait has a name and a child
wait has a child. -/
structure Wakeup where
  kind : WakeKind
  at? : Option Time := none
  signals : Option (List String) := none
  childRun : Option RunId := none
  valid : (kind = .timer → at?.isSome) ∧ (kind = .signal → signals.getD [] ≠ []) ∧
    (kind = .childDone → childRun.isSome) := by decide

def childSignal (child : RunId) : String := "child:" ++ child

/-- The names a suspension registers: the wakeup's signals, and for a child
wait the child's own signal. An empty child id counts as none. -/
def Wakeup.names (wake : Wakeup) : List String := wake.signals.getD [] ++
    match wake.kind, wake.childRun with
    | .childDone, some child => if child = "" then [] else [childSignal child]
    | _, _ => []

/-- `wake.model_dump(mode="json")`, over the fields kept here. -/
def Wakeup.dump (wake : Wakeup) : Json := .obj [("kind", .str wake.kind.value),
    ("at", match wake.at? with | none => .null | some time => .num time),
    ("signals", match wake.signals with
      | none => .null
      | some names => .arr (names.map .str)),
    ("child_run", Json.ofText? wake.childRun)]

/-- A message, with the fields the store, the worker and `ask` read. -/
structure Message where
  id : String
  sender : Address
  payload : Json := .null
  correlationId : String := ""
  replyTo : Option RunId := none
  deriving Repr

structure Delivery where
  agent : Address
  msg : Message
  tenant : Tenant := "default"
  accounts : List String := []
  deriving Repr

structure RunSpec where
  agent : Address
  tenant : Tenant := "default"
  runId : Option RunId := none
  threadId : Option String := none
  parentRunId : Option RunId := none
  priority : Priority := .normal
  retryPolicy : RunRetryPolicy := {}
  deadline : Option Time := none
  supervision : Option Supervision := none
  accounts : List String := []

/-- A worker's right to execute one run. `epoch` is the fence. -/
structure Lease where
  runId : RunId
  agent : Address
  workerId : String
  epoch : Nat
  expiresAt : Time
  attempt : Nat
  tenant : Tenant
  threadId : Option String
  retryCount : Nat
  retryPolicy : RunRetryPolicy
  supervision : Option Supervision
  deadline : Option Time
  startedAt : Option Time
  parentRunId : Option RunId

structure Spend where
  tokens : Nat := 0
  costMicros : Nat := 0
  turns : Nat := 0
  deriving DecidableEq, Repr

/-- A journal entry to append; the store assigns its sequence number. -/
structure NewEntry where
  kind : String
  payload : JsonObject := []
  dedupKey : Option String := none
  ephemeral : Bool := false
  spend : Option Spend := none

structure Nack where
  msgId : String
  error : ErrorInfo
  final : Bool := false

structure SignalSpec where
  runId : RunId
  name : String
  payload : JsonObject := []

structure SpawnSpec where
  effectId : String
  child : RunSpec
  boot : Message

inductive Ending where
  | complete
  | fail (error : ErrorInfo)
  | cancel (reason : String)

inductive Outcome where
  | suspend (wake : Wakeup)
  | retry (error : ErrorInfo) (delay : Int)
  | ending (how : Ending)

structure Commit where
  entries : List NewEntry := []
  ack : List String := []
  nack : List Nack := []
  deliveries : List Delivery := []
  signals : List SignalSpec := []
  spawns : List SpawnSpec := []
  outcome : Option Outcome := none

namespace Ending

def kind : Ending → String
  | .complete => "complete"
  | .fail _ => "fail"
  | .cancel _ => "cancel"

def status : Ending → RunStatus
  | .complete => .completed
  | .fail _ => .failed
  | .cancel _ => .cancelled

/-- What the parent is told: the `kind` of the child signal. -/
def how : Ending → String
  | .complete => "completed"
  | .fail _ => "target_failed"
  | .cancel _ => "target_cancelled"

def entryKind : Ending → String
  | .complete => "run.completed"
  | .fail _ => "run.failed"
  | .cancel _ => "run.cancelled"

def payload : Ending → JsonObject
  | .complete => []
  | .fail error => [("error", .str error.message), ("status", .str error.code),
      ("error_info", error.dump)]
  | .cancel reason => [("reason", .str reason)]

def error? : Ending → Option ErrorInfo
  | .fail error => some error
  | .complete | .cancel _ => none

end Ending

def RunStatus.entryKind? : RunStatus → Option String
  | .completed => some "run.completed"
  | .failed => some "run.failed"
  | .cancelled => some "run.cancelled"
  | .pending | .running | .suspended => none

@[simp] theorem Ending.status_isTerminal (how : Ending) :
    how.status.isTerminal = true := by
  cases how <;> rfl

@[simp] theorem Ending.status_ne_suspended (how : Ending) :
    how.status ≠ .suspended := by
  cases how <;> simp [Ending.status]

theorem Ending.status_entryKind? (how : Ending) : how.status.entryKind? = some how.entryKind := by
  cases how <;> rfl

end Substrate
