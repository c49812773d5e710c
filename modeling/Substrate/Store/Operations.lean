import Substrate.Store.State

/-!
The store's methods, each the body of one transaction. A method that cannot fail maps the
store to its next state and a result; a method that can raise returns in `Except`, and its
caller then rolls the transaction back.
-/

namespace Substrate.Store

open Lib

/-- Add an entry's cost to its tree's total and to the run's accounts. -/
def charge (s : Store) (runId : RunId) (cost : Spend) : Store :=
  let add (total : Spend) : Spend :=
    { tokens := total.tokens + cost.tokens
      costMicros := total.costMicros + cost.costMicros
      turns := total.turns + cost.turns }
  { s with
    spend :=
      match s.runs.get? runId with
      | some row => s.spend.upsert row.treeId {} add
      | none => s.spend
    accounts :=
      (s.runAccounts.filter fun row => row.1 = runId).foldl
        (fun accounts row =>
          accounts.upsert row.2 {} fun account =>
            { account with spent := add account.spent })
        s.accounts }

/-- Insert the row of a new entry, with the next sequence number. -/
def insertEvent (s : Store) (env : TxEnv) (runId : RunId) (entry : NewEntry) :
    Store :=
  { s with
    events := s.events ++
      [{ runId, seq := s.nextSeq runId, kind := entry.kind
         payload := entry.payload, ts := env.clock, ephemeral := entry.ephemeral
         dedupKey := entry.dedupKey }] }

/-- `_append`: a repeated deduplication key returns the sequence number already
there and writes nothing. -/
def append (s : Store) (env : TxEnv) (runId : RunId) (entry : NewEntry) :
    Store × Nat :=
  match s.findDedup runId entry.dedupKey with
  | some row => (s, row.seq)
  | none =>
    let s' := s.insertEvent env runId entry
    (match entry.spend with
      | some cost => s'.charge runId cost
      | none => s',
     s.nextSeq runId)

def clearWake (s : Store) (runId : RunId) : Store :=
  { s with wake := s.wake.filter fun row => row.1 ≠ runId }

def makePending (s : Store) (runId : RunId) : Store :=
  clearWake { s with runs := s.runs.modify runId RunRow.queued } runId

def bufferSignal (s : Store) (runId : RunId) (name : String)
    (payload : JsonObject) : Store :=
  { s with signals := s.signals ++ [{ runId, name, payload }] }

/-- `_signal`: buffer a signal, and wake the run if it sleeps on that name. A
finished run's signal is dropped; an unknown run's is kept. -/
def signal (s : Store) (runId : RunId) (name : String) (payload : JsonObject) :
    Store × Bool :=
  match s.runs.get? runId with
  | none => (s.bufferSignal runId name payload, false)
  | some row =>
    if row.status.isTerminal then (s, false)
    else if row.status = .suspended ∧ (runId, name) ∈ s.wake then
      ((s.bufferSignal runId name payload).makePending runId, true)
    else (s.bufferSignal runId name payload, false)

def specRunId (s : Store) (env : TxEnv) (spec : RunSpec) : RunId :=
  match spec.runId with
  | some runId => if runId = "" then env.newId s.runs.rows.length else runId
  | none => env.newId s.runs.rows.length

def addAccounts (s : Store) (runId : RunId) (accounts : List String) : Store :=
  { s with
    runAccounts := accounts.foldl
      (fun rows account =>
        if (runId, account) ∈ rows then rows else rows ++ [(runId, account)])
      s.runAccounts }

def insertRow (s : Store) (runId : RunId) (row : RunRow) : Store :=
  { s with runs := s.runs.insert runId row }

def insertRun (s : Store) (env : TxEnv) (spec : RunSpec) :
    Except StoreError (Store × RunId) :=
  let runId := s.specRunId env spec
  if (s.runs.get? runId).isSome || s.threadTaken spec.threadId then
    match spec.threadId with
    | some thread => .error (.threadBusy thread)
    | none => .error (.uniqueViolation runId)
  else
    .ok ((s.insertRow runId (spec.row runId env.clock)).addAccounts runId
      spec.accounts, runId)

structure DeliverResult where
  accepted : Bool
  wokeRun : Option RunId := none
  createdRun : Option RunId := none
  deriving DecidableEq, Repr

/-- What `_deliver` does for the agent once the message is in its inbox. -/
def wakeAgent (s : Store) (env : TxEnv) (delivery : Delivery) :
    Except StoreError (Store × DeliverResult) :=
  match s.latestActive delivery.agent with
  | none => do
      let (s, runId) ← s.insertRun env delivery.wakeSpec
      return (s, { accepted := true, createdRun := some runId })
  | some (runId, row) =>
    if row.status = .suspended then
      return (s.makePending runId, { accepted := true, wokeRun := some runId })
    else return (s, { accepted := true })

def insertMail (s : Store) (delivery : Delivery) : Store :=
  { s with
    inbox := s.inbox ++
      [{ agent := delivery.agent, tenant := delivery.tenant
         msg := delivery.msg }] }

/-- `_deliver`: a message already pending or processed is refused. -/
def deliver (s : Store) (env : TxEnv) (delivery : Delivery) (wake : Bool) :
    Except StoreError (Store × DeliverResult) :=
  if s.hasMail delivery.agent delivery.msg.id then
    return (s, { accepted := false })
  else if (s.processed.get? (delivery.agent, delivery.msg.id)).isSome then
    return (s, { accepted := false })
  else if wake then (s.insertMail delivery).wakeAgent env delivery
  else return (s.insertMail delivery, { accepted := true })

/-- `_ack` of one message id: out of the inbox, into the processed set. -/
def ackOne (env : TxEnv) (agent : Address) (s : Store) (msgId : String) : Store :=
  { s with
    inbox := s.inbox.filter fun row => !(row.agent = agent && row.msg.id = msgId)
    processed := s.processed.insert (agent, msgId) env.clock }

def ack (s : Store) (env : TxEnv) (agent : Address) (msgIds : List String) :
    Store :=
  msgIds.foldl (ackOne env agent) s

/-- `_nack`: count the failure, or dead-letter the message when it has failed
often enough or the failure is final. -/
def nack (env : TxEnv) (agent : Address) (s : Store) (failure : Nack) : Store :=
  match s.inbox.find? fun row => row.agent = agent && row.msg.id = failure.msgId with
  | none => s
  | some row =>
    let attempts := row.attempts + 1
    if attempts < env.maxAttempts && !failure.final then
      { s with
        inbox := s.inbox.map fun other =>
          if other.agent = agent && other.msg.id = failure.msgId then
            { other with attempts }
          else other }
    else
      ackOne env agent
        { s with
          deadLetters := s.deadLetters ++
            [{ agent, tenant := row.tenant, msg := row.msg, attempts
               lastError := failure.error.text }] }
        failure.msgId

/-- The `UPDATE` of `_terminate`. -/
def endRow (s : Store) (env : TxEnv) (runId : RunId) (how : Ending) : Store :=
  { s with runs := s.runs.modify runId (·.ended (how.result runId) env.clock) }

def dropSignals (s : Store) (runId : RunId) : Store :=
  { s with signals := s.signals.filter fun row => row.runId ≠ runId }

/-- The first half of `_terminate`: the terminal entry, the status row, and no
registration or buffered signal left. The row is overwritten whatever it says,
while the entry is not written a second time. -/
def close (s : Store) (env : TxEnv) (runId : RunId) (how : Ending) : Store :=
  (((s.append env runId how.entry).1.endRow env runId how).clearWake runId).dropSignals
    runId

/-- `_terminate` tells the parent, if the run has one. -/
def reportEnd (s : Store) (runId : RunId) (row : RunRow) (how : Ending) : Store :=
  match row.parent? with
  | some parent => (s.signal parent (childSignal runId) how.report).1
  | none => s

def cascadeReason (runId : RunId) (how : Ending) : String :=
  "parent " ++ runId ++ " " ++ how.kind

def requestFlag (s : Store) (runId : RunId) : Store :=
  { s with
    runs := s.runs.modify runId fun row => { row with cancelRequested := true } }

/-- `_cancel_one` and the `_terminate` it calls, which cancels the children in
turn. Each level finishes one active run, so a bound above the number of active
runs is never reached. -/
def cancelOne (env : TxEnv) :
    Nat → Store → RunId → String → Store × Bool
  | 0, s, _, _ => (s, false)
  | turns + 1, s, runId, reason =>
    match s.runs.get? runId with
    | none => (s, false)
    | some row =>
      if row.status.isTerminal then (s, false)
      else if row.status = .running then (s.requestFlag runId, true)
      else
        let how := Ending.cancel reason
        let s' := (s.close env runId how).reportEnd runId row how
        ((s'.activeChildren env runId).foldl
          (fun s child =>
            (cancelOne env turns s child.1 (cascadeReason runId how)).1) s',
         true)

def cascadeTurns (s : Store) : Nat := s.runs.rows.length + 1

def cancelChildren (s : Store) (env : TxEnv) (runId : RunId) (how : Ending) :
    Store :=
  (s.activeChildren env runId).foldl
    (fun s child =>
      (cancelOne env s.cascadeTurns s child.1 (cascadeReason runId how)).1) s

/-- Mail that arrived while the run was finishing gets a run of its own, unless
another run of the agent is there to read it. -/
def followUp (s : Store) (env : TxEnv) (runId : RunId) (row : RunRow) :
    Except StoreError Store :=
  if (s.inboxOf row.agent).isEmpty || s.hasOtherActive row.agent runId then
    return s
  else do
    let (s, _) ← s.insertRun env { agent := row.agent, tenant := row.tenant }
    return s

/-- `_terminate`, given the row its caller read earlier. -/
def terminate (s : Store) (env : TxEnv) (runId : RunId) (row : RunRow)
    (how : Ending) : Except StoreError Store :=
  let s' := (s.close env runId how).reportEnd runId row how
  match how with
  | .complete => s'.followUp env runId row
  | .fail _ | .cancel _ => .ok (s'.cancelChildren env runId how)

def createRun (s : Store) (env : TxEnv) (spec : RunSpec)
    (deliveries : List Delivery) : Except StoreError (Store × RunId) := do
  let (s, runId) ← s.insertRun env spec
  let s ← deliveries.foldlM
    (fun s delivery => return (← s.deliver env delivery false).1) s
  return (s, runId)

def reclaim (s : Store) (now : Time) : Store :=
  { s with runs := s.runs.map fun _ row => row.reclaimed now }

def wakeTimers (s : Store) (env : TxEnv) (now : Time) : Store :=
  (s.selectRuns env fun _ row =>
    row.status = .suspended && row.wakeAt.any (· ≤ now)).foldl
    (fun s row => s.makePending row.1) s

def deadlineError : ErrorInfo where
  code := "deadline_exceeded"
  message := "the run's deadline passed"

def overdueRuns (s : Store) (env : TxEnv) (now : Time) : List (RunId × RunRow) :=
  s.selectRuns env fun _ row => row.overdue now

def sweepDeadlines (s : Store) (env : TxEnv) (now : Time) :
    Except StoreError Store :=
  (s.overdueRuns env now).foldlM
    (fun s row => s.terminate env row.1 row.2 (.fail deadlineError)) s

def dropLive (s : Store) (now : Time) : Store :=
  { s with
    events := s.events.filter fun event =>
      !(event.ephemeral &&
        ((s.runs.get? event.runId).bind (·.terminatedAt)).any
          (· < now - ephemeralGrace)) }

/-- The columns the claim query orders by: the rank within the tenant, then
priority, enqueue time and id. -/
structure ClaimKey where
  rank : Nat
  priority : Nat
  enqueuedAt : Time
  runId : RunId

namespace ClaimKey

/-- `priority DESC, enqueued_at, run_id`. -/
def within (a b : ClaimKey) : Ordering :=
  (compare b.priority a.priority).then
    ((compare a.enqueuedAt b.enqueuedAt).then (compare a.runId b.runId))

/-- `rn, priority DESC, enqueued_at, run_id`. -/
def before (a b : ClaimKey) : Prop :=
  ((compare a.rank b.rank).then (within a b)).isLE = true

instance : DecidableRel before := fun a b =>
  inferInstanceAs (Decidable (((compare a.rank b.rank).then (within a b)).isLE = true))

end ClaimKey

def claimKey (row : RunId × RunRow) : ClaimKey where
  rank := 0
  priority := row.2.priority.value
  enqueuedAt := row.2.enqueuedAt
  runId := row.1

/-- `ROW_NUMBER() OVER (PARTITION BY tenant ORDER BY …)` among the given rows. -/
def claimRank (rows : List (RunId × RunRow)) (row : RunId × RunRow) : Nat :=
  rows.countP fun other =>
    other.2.tenant = row.2.tenant &&
      ((claimKey other).within (claimKey row)).isLE

/-- The runs one `lease` call claims, in claim order. -/
def candidates (s : Store) (capacity : Int) : List RunId :=
  let rows := s.runs.rows.filter fun row => row.2.status = .pending
  let keys := rows.map fun row => { claimKey row with rank := claimRank rows row }
  ((keys.insertionSort ClaimKey.before).take capacity.toNat).map (·.runId)

def claimOne (s : Store) (worker : String) (expires now : Time)
    (runId : RunId) : Store :=
  { s with runs := s.runs.modify runId (·.claimed worker expires now) }

/-- The claim loop of `lease`. -/
def claimRuns (env : TxEnv) (worker : String) (expires now : Time) :
    Store → List RunId → Store × List Lease
  | s, [] => (s, [])
  | s, runId :: rest =>
    let s := s.claimOne worker expires now runId
    let (s', leases) := claimRuns env worker expires now s rest
    match s.runs.get? runId with
    | some row => (s', row.toLease runId worker env.clock :: leases)
    | none => (s', leases)

/-- `lease`: reclaim, wake timers, sweep deadlines, drop live output, claim. -/
def lease (s : Store) (env : TxEnv) (worker : String) (capacity : Int)
    (leaseFor now : Time) : Except StoreError (Store × List Lease) := do
  let s ← ((s.reclaim now).wakeTimers env now).sweepDeadlines env now
  let s := s.dropLive now
  if capacity ≤ 0 then return (s, [])
  else
    return claimRuns env worker (now + leaseFor) now s (s.candidates capacity)

inductive HeartbeatResult where
  | ok
  | cancelRequested
  | deadline
  | lost
  deriving DecidableEq, Repr

def extendLease (s : Store) (runId : RunId) (expires : Time) : Store :=
  { s with
    runs := s.runs.modify runId fun row =>
      { row with leaseExpiresAt := some expires } }

def heartbeat (s : Store) (lease : Lease) (leaseFor now : Time) :
    Store × HeartbeatResult :=
  match (s.runs.get? lease.runId).filter lease.current with
  | none => (s, .lost)
  | some row =>
    (s.extendLease lease.runId (now + leaseFor),
      if row.cancelRequested then .cancelRequested
      else if row.deadline.any (· ≤ now) then .deadline
      else .ok)

def fencedRun (s : Store) (lease : Lease) : Except StoreError RunRow :=
  match (s.runs.get? lease.runId).filter lease.current with
  | none => .error (.leaseLost lease.runId lease.epoch)
  | some row => .ok row

/-- Append a list of entries, collecting their sequence numbers. -/
def appendAll (env : TxEnv) (runId : RunId) :
    Store → List NewEntry → Store × List Nat
  | s, [] => (s, [])
  | s, entry :: rest =>
    let (s, seq) := s.append env runId entry
    let (s, seqs) := appendAll env runId s rest
    (s, seq :: seqs)

structure RunHandle where
  runId : RunId
  agentId : Address
  parentRun : RunId
  bootCorrelationId : Option String := none
  deriving DecidableEq, Repr

/-- `SELECT account FROM rt_run_accounts WHERE run_id = …`. -/
def accountsOf (s : Store) (runId : RunId) : List String :=
  (s.runAccounts.filter fun row => row.1 = runId).map Prod.snd

def childSpec (s : Store) (parent : RunId) (spec : RunSpec) : RunSpec :=
  { spec with
    parentRunId := some parent
    accounts := (spec.accounts ++ s.accountsOf parent).eraseDups }

def recordSpawn (s : Store) (effectId : String) (child : RunId) : Store :=
  { s with spawns := s.spawns.insert effectId child }

/-- The headcount a spawn must stay under, when its child is supervised. -/
def checkHeadcount (s : Store) (spec : RunSpec) : Except StoreError Unit :=
  match spec.supervision with
  | none => .ok ()
  | some supervision =>
    let active := s.treeHeadcount supervision.runId
    if supervision.maxAgents ≤ active then
      .error (.budgetExhausted supervision.runId active supervision.maxAgents
        spec.agent)
    else .ok ()

/-- `_spawn`: a repeated effect id returns the child it created before. -/
def spawn (s : Store) (env : TxEnv) (parent : RunId) (spec : SpawnSpec) :
    Except StoreError (Store × RunHandle) :=
  match s.spawns.get? spec.effectId with
  | some child =>
    match s.runs.get? child with
    | none => .error .assertionFailed
    | some row =>
      .ok (s, { runId := child, agentId := row.agent, parentRun := parent
                bootCorrelationId := some spec.boot.correlationId })
  | none => do
      s.checkHeadcount spec.child
      let (s, child) ← s.insertRun env (s.childSpec parent spec.child)
      let (s, _) ← s.deliver env
        { agent := spec.child.agent, msg := spec.boot
          tenant := spec.child.tenant } false
      return (s.recordSpawn spec.effectId child,
        { runId := child, agentId := spec.child.agent, parentRun := parent
          bootCorrelationId := some spec.boot.correlationId })

def spawnEntry (spec : SpawnSpec) (handle : RunHandle) : NewEntry where
  kind := "child.spawned"
  payload := [("child_run_id", .str handle.runId),
    ("child_agent", .str handle.agentId)]
  dedupKey := some ("spawn:" ++ spec.effectId)

/-- The spawn loop of `commit`. -/
def spawnAll (env : TxEnv) (parent : RunId) :
    Store → List SpawnSpec → Except StoreError (Store × List (String × RunHandle × Nat))
  | s, [] => .ok (s, [])
  | s, spec :: rest => do
      let (s, handle) ← s.spawn env parent spec
      let (s, seq) := s.append env parent (spawnEntry spec handle)
      let (s, spawned) ← spawnAll env parent s rest
      return (s, (spec.effectId, handle, seq) :: spawned)

/-- The delivery loop of `commit`. -/
def deliverAll (env : TxEnv) :
    Store → List Delivery → Except StoreError (Store × List DeliverResult)
  | s, [] => .ok (s, [])
  | s, delivery :: rest => do
      let (s, result) ← s.deliver env delivery true
      let (s, results) ← deliverAll env s rest
      return (s, result :: results)

def signalAll (s : Store) (signals : List SignalSpec) : Store :=
  signals.foldl (fun s spec => (s.signal spec.runId spec.name spec.payload).1) s

def registerWake (s : Store) (runId : RunId) (names : List String) : Store :=
  { s with
    wake := names.foldl
      (fun rows name =>
        if (runId, name) ∈ rows then rows else rows ++ [(runId, name)]) s.wake }

def sleepRow (s : Store) (runId : RunId) (wake : Wakeup) : Store :=
  { s with runs := s.runs.modify runId (·.asleep wake) }

def wakeReady (s : Store) (env : TxEnv) (runId : RunId) (wake : Wakeup) : Bool :=
  (s.signals.any fun row => row.runId = runId && wake.names.contains row.name) ||
    wake.at?.any (· ≤ env.clock)

/-- `_suspend`: park a run, unless what it waits for has already arrived. -/
def suspend (s : Store) (env : TxEnv) (runId : RunId) (wake : Wakeup) :
    Store × RunStatus × Bool :=
  let s' := ((s.sleepRow runId wake).clearWake runId).registerWake runId wake.names
  if s'.wakeReady env runId wake then (s'.makePending runId, .pending, true)
  else (s', .suspended, false)

def suspendedEntry (wake : Wakeup) : NewEntry where
  kind := "run.suspended"
  payload := [("wake", wake.dump)]

def parkRow (s : Store) (runId : RunId) (until' : Time) : Store :=
  { s with runs := s.runs.modify runId (·.parked until') }

def retryingEntry (error : ErrorInfo) (delay : Int) : NewEntry where
  kind := "run.retrying"
  payload := [("error", error.dump), ("delay_s", .num delay)]

def retry (s : Store) (env : TxEnv) (runId : RunId) (error : ErrorInfo)
    (delay : Int) : Store :=
  (((s.parkRow runId (env.clock + max delay 0)).clearWake runId).append env runId
    (retryingEntry error delay)).1

/-- A cancel that arrived while the attempt was working wins over sleeping and
retrying. -/
def effectiveOutcome (row : RunRow) : Outcome → Outcome
  | .ending how => .ending how
  | outcome =>
    if row.cancelRequested then .ending (.cancel "cancelled") else outcome

/-- The outcome part of `commit`: the status it leaves, whether a suspension
was resumed at once, and the sequence number of a suspension entry. -/
def settle (s : Store) (env : TxEnv) (runId : RunId) (row : RunRow) :
    Option Outcome → Except StoreError (Store × RunStatus × Bool × List Nat)
  | none => .ok (s, row.status, false, [])
  | some outcome =>
    match effectiveOutcome row outcome with
    | .suspend wake =>
      match s.suspend env runId wake with
      | (s, .suspended, resumed) =>
        let (s, seq) := s.append env runId (suspendedEntry wake)
        .ok (s, .suspended, resumed, [seq])
      | (s, status, resumed) => .ok (s, status, resumed, [])
    | .retry error delay => .ok (s.retry env runId error delay, .suspended, false, [])
    | .ending how => do
        let s ← s.terminate env runId row how
        return (s, how.status, false, [])

structure CommitResult where
  seqs : List Nat
  spawned : List (String × RunHandle)
  deliveries : List DeliverResult
  resumedImmediately : Bool
  status : RunStatus

/-- `commit`: everything a worker's step does, fenced by its lease. -/
def commit (s : Store) (env : TxEnv) (lease : Lease) (work : Commit) :
    Except StoreError (Store × CommitResult) := do
  let row ← s.fencedRun lease
  let runId := lease.runId
  let (s, seqs) := appendAll env runId s work.entries
  let s := s.ack env row.agent work.ack
  let s := work.nack.foldl (nack env row.agent) s
  let (s, spawned) ← spawnAll env runId s work.spawns
  let (s, deliveries) ← deliverAll env s work.deliveries
  let s := s.signalAll work.signals
  let (s, status, resumed, last) ← s.settle env runId row work.outcome
  return (s,
    { seqs := seqs ++ spawned.map (·.2.2) ++ last
      spawned := spawned.map fun item => (item.1, item.2.1)
      deliveries, resumedImmediately := resumed, status })

/-- The walk of `request_cancel`: a run before its descendants. -/
def cancelOrder (s : Store) (env : TxEnv) (cascade : Bool) :
    Nat → List RunId → Option (List RunId)
  | _, [] => some []
  | 0, _ :: _ => none
  | turns + 1, current :: frontier =>
    let children :=
      if cascade then
        (s.selectRuns env fun _ row => row.parentRunId = some current).map Prod.fst
      else []
    (cancelOrder s env cascade turns (frontier ++ children)).map (current :: ·)

/-- The loop of `request_cancel` over the walk, children first. -/
def cancelAll (env : TxEnv) (reason : String) :
    Store → List RunId → Store × List RunId
  | s, [] => (s, [])
  | s, runId :: rest =>
    let (s, hit) := cancelOne env s.cascadeTurns s runId reason
    let (s, affected) := cancelAll env reason s rest
    (s, if hit then runId :: affected else affected)

def requestCancel (s : Store) (env : TxEnv) (runId : RunId) (reason : String)
    (cascade : Bool) : Except StoreError (Store × List RunId) :=
  match s.cancelOrder env cascade env.turns [runId] with
  | none => .error .diverged
  | some order => .ok (cancelAll env reason s order.reverse)

def annotate (s : Store) (env : TxEnv) (runId : RunId) (entries : List NewEntry) :
    Except StoreError (Store × List Nat) :=
  match s.runs.get? runId with
  | none => .error (.unknownRun runId)
  | some _ => .ok (appendAll env runId s entries)

def NewEntry.live (entry : NewEntry) : NewEntry :=
  { entry with ephemeral := true, dedupKey := none }

def appendEphemeral (s : Store) (env : TxEnv) (lease : Lease)
    (entries : List NewEntry) : Except StoreError Store := do
  let _ ← s.fencedRun lease
  return (appendAll env lease.runId s (entries.map NewEntry.live)).1

def forgetDeadLetter (s : Store) (agent : Address) (msgId : String) : Store :=
  { s with
    deadLetters := s.deadLetters.eraseP fun row =>
      row.agent = agent && row.msg.id = msgId
    processed := s.processed.erase (agent, msgId) }

/-- `redrive`: a dead letter goes back to the inbox it came from. -/
def redrive (s : Store) (env : TxEnv) (agent : Address) (msgId : String) :
    Except StoreError (Store × Bool) :=
  match s.deadLetters.find? fun row => row.agent = agent && row.msg.id = msgId with
  | none => return (s, false)
  | some row => do
      let (s, _) ← (s.forgetDeadLetter agent msgId).deliver env
        { agent, msg := row.msg, tenant := row.tenant } true
      return (s, true)

def claimSignal (s : Store) (runId : RunId) (name claimId : String)
    (payload : JsonObject) : Store :=
  { s with
    signals := s.signals.eraseP fun row => row.runId = runId && row.name = name
    claims := s.claims.insert claimId payload }

/-- `consume`: a claim already made answers again; else the oldest buffered
signal of that name is claimed. -/
def consume (s : Store) (runId : RunId) (name claimId : String) :
    Store × Option JsonObject :=
  match s.claims.get? claimId with
  | some payload => (s, some payload)
  | none =>
    match s.signals.find? fun row => row.runId = runId && row.name = name with
    | none => (s, none)
    | some row => (s.claimSignal runId name claimId row.payload, some row.payload)

def accountLimit (s : Store) (account : String) (budget : ExecutionBudget) : Store :=
  { s with
    accounts := s.accounts.upsert account {} fun row =>
      { row with
        maxTokens := budget.maxTokens, maxCostMicros := budget.maxCostMicros
        maxTurns := budget.maxTurns } }

def forgetRun (s : Store) (runId : RunId) : Store :=
  { s with
    events := s.events.filter fun row => row.runId ≠ runId
    wake := s.wake.filter fun row => row.1 ≠ runId
    signals := s.signals.filter fun row => row.runId ≠ runId }

/-- The further rows `erase` deletes for a run. -/
def forgetLinks (s : Store) (runId : RunId) : Store :=
  { s with
    spawns := s.spawns.filter fun _ child => child ≠ runId
    runAccounts := s.runAccounts.filter fun row => row.1 ≠ runId }

/-- `DELETE FROM rt_spend WHERE tree_id NOT IN (SELECT tree_id FROM rt_runs)`. -/
def dropSpend (s : Store) : Store :=
  { s with
    spend := s.spend.filter fun tree _ =>
      s.runs.rows.any fun row => row.2.treeId = tree }

def dropAccounts (s : Store) (names : List String) : Store :=
  { s with accounts := s.accounts.filter fun name _ => !names.contains name }

/-- The mail of an address no run is left for. -/
def dropMail (s : Store) (address : Address) : Store :=
  if s.runs.rows.any fun row => row.2.agent = address then s
  else
    { s with
      inbox := s.inbox.filter fun row => row.agent ≠ address
      processed := s.processed.filter fun key _ => key.1 ≠ address
      deadLetters := s.deadLetters.filter fun row => row.agent ≠ address }

/-- The rows an `erase` names. -/
def eraseMatch (tenant : Tenant) (threadId : Option String)
    (agent : Option Address) (row : RunRow) : Bool :=
  row.tenant = tenant && threadId.all (row.threadId = some ·) &&
    agent.all (row.agent = ·)

/-- `erase`. `channels` are the tenant's channels, whose own tables are not part
of this state; their budget accounts are. -/
def erase (s : Store) (tenant : Tenant) (threadId : Option String)
    (agent : Option Address) (channels : List String) : Store :=
  let rows := s.runs.rows.filter fun row => eraseMatch tenant threadId agent row.2
  let s := rows.foldl (fun s row => (s.forgetRun row.1).forgetLinks row.1) s
  let s := { s with
    runs := s.runs.filter fun _ row => !eraseMatch tenant threadId agent row }
  let s :=
    if threadId.isNone && agent.isNone then
      s.dropAccounts (channels.map ("channel:" ++ ·) ++ ["tenant:" ++ tenant])
    else s
  let s := s.dropSpend
  let s := match agent with
    | some agent => s.dropAccounts ["agent:" ++ agent]
    | none => s
  (rows.map (·.2.agent) ++ agent.toList).foldl dropMail s

def dropRun (s : Store) (runId : RunId) : Store :=
  { s.forgetRun runId with runs := s.runs.erase runId }

/-- The rows a `prune` names. -/
def pruneMatch (before : Time) (row : RunRow) : Bool :=
  row.terminatedAt.any (· < before)

def prune (s : Store) (before : Time) : Store :=
  let s := { s with processed := s.processed.filter fun _ at' => !(at' < before) }
  let old := s.runs.rows.filter fun row => pruneMatch before row.2
  (old.foldl (fun s row => s.dropRun row.1) s).dropSpend

/-- The methods that write, with their arguments. `wakeDeliveries` is what
appending to a channel does to these tables: the wake deliveries to its
members, in one transaction. -/
inductive Op where
  | createRun (spec : RunSpec) (deliveries : List Delivery)
  | lease (worker : String) (capacity : Int) (leaseFor now : Time)
  | heartbeat (lease : Lease) (leaseFor now : Time)
  | commit (lease : Lease) (work : Commit)
  | requestCancel (runId : RunId) (reason : String) (cascade : Bool)
  | annotate (runId : RunId) (entries : List NewEntry)
  | appendEphemeral (lease : Lease) (entries : List NewEntry)
  | deliver (delivery : Delivery) (wake : Bool)
  | wakeDeliveries (deliveries : List Delivery)
  | redrive (agent : Address) (msgId : String)
  | signal (runId : RunId) (name : String) (payload : JsonObject)
  | consume (runId : RunId) (name claimId : String)
  | accountLimit (account : String) (budget : ExecutionBudget)
  | erase (tenant : Tenant) (threadId : Option String) (agent : Option Address)
      (channels : List String)
  | prune (before : Time)

/-- One transaction: the next state, or the exception that rolls it back. -/
def perform (env : TxEnv) (s : Store) : Op → Except StoreError Store
  | .createRun spec deliveries => return (← s.createRun env spec deliveries).1
  | .lease worker capacity leaseFor now =>
    return (← s.lease env worker capacity leaseFor now).1
  | .heartbeat lease leaseFor now => .ok (s.heartbeat lease leaseFor now).1
  | .commit lease work => return (← s.commit env lease work).1
  | .requestCancel runId reason cascade =>
    return (← s.requestCancel env runId reason cascade).1
  | .annotate runId entries => return (← s.annotate env runId entries).1
  | .appendEphemeral lease entries => s.appendEphemeral env lease entries
  | .deliver delivery wake => return (← s.deliver env delivery wake).1
  | .wakeDeliveries deliveries => return (← deliverAll env s deliveries).1
  | .redrive agent msgId => return (← s.redrive env agent msgId).1
  | .signal runId name payload => .ok (s.signal runId name payload).1
  | .consume runId name claimId => .ok (s.consume runId name claimId).1
  | .accountLimit account budget => .ok (s.accountLimit account budget)
  | .erase tenant threadId agent channels =>
    .ok (s.erase tenant threadId agent channels)
  | .prune before => .ok (s.prune before)

/-- A call of the store: a method and what its transaction takes from outside. -/
structure Call where
  env : TxEnv
  op : Op

def exec (call : Call) (s : Store) : Store :=
  match s.perform call.env call.op with
  | .ok s' => s'
  | .error _ => s

theorem exec_ok {call : Call} {s s' : Store} (h : s.perform call.env call.op = .ok s') :
    exec call s = s' := by
  unfold exec
  rw [h]

theorem exec_error {call : Call} {s : Store} {e : StoreError}
    (h : s.perform call.env call.op = .error e) : exec call s = s := by
  unfold exec
  rw [h]

def execAll (calls : List Call) (s : Store) : Store :=
  calls.foldl (fun s call => exec call s) s

end Substrate.Store
