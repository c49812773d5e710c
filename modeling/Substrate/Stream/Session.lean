import Mathlib.Logic.Function.Basic
import Substrate.Lib.Runs

/-!
Live chat streams (`AgentStreamSession` in `stream/session.py`). A session submits a run
and tails its log into a queue of its own.
-/

namespace Substrate.Stream

open Lib Function

/-- How a run ends: `run.completed`, `run.failed` or `run.cancelled`. -/
inductive Ending where
  | completed
  | failed (error : String)
  | cancelled
  deriving DecidableEq, Repr

/-- An entry of a run's log: one that has a wire event, with the request it makes if it is a
card for a person, or one that is not streamed. -/
inductive LogEntry (ω : Type) where
  | wire (body : ω) (request : Option String)
  | other
  deriving DecidableEq, Repr

structure BridgeEvent (ω : Type) where
  type : String
  body : ω
  deriving DecidableEq, Repr

/-- What lies in the queue of a bridge: the end marker or an event, with the session that
has put it there, or whose run has. -/
inductive Outgoing (ω : Type) where
  | done (session : Nat)
  | event (event : BridgeEvent ω) (origin : Option Nat)
  deriving DecidableEq, Repr

/-- `WebHITLBridge`: the outgoing queue, the requests of its futures and those that wait
for a signal. -/
structure Bridge (ω : Type) where
  outgoing : List (Outgoing ω)
  pending : List String
  signalRequests : List String
  deriving DecidableEq, Repr

inductive Wire (ω : Type) where
  | hello
  | log (body : ω)
  | board (body : ω)
  | bridge (event : BridgeEvent ω) (origin : Option Nat)
  | ending (ending : Ending)
  deriving DecidableEq, Repr

inductive Queued (ω : Type) where
  | wire (wire : Wire ω)
  | workersDone
  deriving DecidableEq, Repr

/-- Where `_agent_worker` stands. -/
inductive Agent where
  | starting | tailing | ended (reason : String)
  deriving DecidableEq, Repr

/-- Where `_bridge_worker` stands. -/
inductive Relay where
  | running | stopped | cancelled
  deriving DecidableEq, Repr

/-- Where `events` stands: in its loop, awaiting the agent worker, or at its end. -/
inductive Phase where
  | reading | awaiting | over
  deriving DecidableEq, Repr

/-- `AgentStreamSession`, whether its client is there, and its run: the log but for its
last entry, how it has ended, and what it has put on the bridge. A run that is refused
counts as failed. `read` is how much of the log is tailed, `boards` what was settled. -/
structure Session (ω : Type) where
  bridge : Nat
  connected : Bool
  entries : List (LogEntry ω)
  ending : Option Ending
  emitted : List (BridgeEvent ω)
  agent : Agent
  read : Nat
  boards : List ω
  error : Option String
  signaled : Bool
  relay : Relay
  queue : List (Queued ω)
  phase : Phase
  yielded : List (Wire ω)

def bridgeEventToWire {ω : Type} (event : BridgeEvent ω) (origin : Option Nat) :
    Option (Wire ω) :=
  if event.type ∈ ["tool.result", "tool_approval_request", "human_input_request"] then
    some (.bridge event origin)
  else none

inductive Event (ω : Type) where
  | refused (error : String)
  | submitted
  | logs (entry : LogEntry ω)
  | ends (ending : Ending)
  | puts (event : BridgeEvent ω) (request : Option String)
  | tail (boards : List ω)
  | relay
  | take
  | finish
  | disconnects
  | checkDisconnect
  | close
  deriving DecidableEq, Repr

namespace Bridge

variable {ω : Type} (b : Bridge ω)

def put (item : Outgoing ω) : Bridge ω := { b with outgoing := b.outgoing ++ [item] }

def registerSignalRequest (request : Option String) : Bridge ω :=
  match request with
  | some request =>
    { b with signalRequests := request :: b.signalRequests.filter fun r => r ≠ request }
  | none => b

def answered (request : String) : Bridge ω :=
  { b with
    pending := b.pending.filter fun r => r ≠ request
    signalRequests := b.signalRequests.filter fun r => r ≠ request }

def hasPending : Bool := !b.pending.isEmpty || !b.signalRequests.isEmpty

def cancelAllPending : Bridge ω := { b with pending := [] }

end Bridge

namespace Session

variable {ω : Type} (sid : Nat) (x : Session ω) (b : Bridge ω)

/-- The session when `events` has yielded its first event. -/
def init (bridge : Nat) : Session ω where
  bridge := bridge
  connected := true
  entries := []
  ending := none
  emitted := []
  agent := .starting
  read := 0
  boards := []
  error := none
  signaled := false
  relay := .running
  queue := []
  phase := .reading
  yielded := [.hello]

def enqueue (wire : Wire ω) : Session ω := { x with queue := x.queue ++ [.wire wire] }

/-- `signal_done`, once. -/
def signalDone : Bridge ω := if x.signaled = true then b else b.put (.done sid)

/-- The end of `_agent_worker`. -/
def endAgent (reason : String) : Session ω × Bridge ω :=
  ({ x with agent := .ended reason, signaled := true }, x.signalDone sid b)

/-- `_agent_worker` comes to the next entry of the log. -/
def tail (boards : List ω) : Option (Session ω × Bridge ω) :=
  match x.agent, x.entries[x.read]? with
  | .tailing, some (.wire body request) =>
    some ({ x.enqueue (.log body) with read := x.read + 1 }, b.registerSignalRequest request)
  | .tailing, some .other => some ({ x with read := x.read + 1 }, b)
  | .tailing, none =>
    match x.ending with
    | some .completed =>
      some ({ x with
        boards := boards
        queue := x.queue ++ boards.map fun board => Queued.wire (.board board) }.endAgent
          sid b "success")
    | some (.failed error) => some ({ x with error := some error }.endAgent sid b "error")
    | some .cancelled => some (x.endAgent sid b "cancelled")
    | none => none
  | _, _ => none

/-- `_bridge_worker` takes the next item from the bridge. -/
def relayNext : Option (Session ω × Bridge ω) :=
  match x.relay, b.outgoing with
  | .running, .done _ :: outgoing =>
    some ({ x with relay := .stopped, queue := x.queue ++ [.workersDone] },
      { b with outgoing := outgoing })
  | .running, .event event origin :: outgoing =>
    some ((bridgeEventToWire event origin).elim x x.enqueue, { b with outgoing := outgoing })
  | _, _ => none

/-- `events` takes the next item from the queue of the session. -/
def take : Option (Session ω) :=
  match x.phase, x.queue with
  | .reading, .wire wire :: queue => some { x with queue := queue, yielded := x.yielded ++ [wire] }
  | .reading, .workersDone :: queue => some { x with queue := queue, phase := .awaiting }
  | _, _ => none

/-- The terminal event, from what `_agent_worker` has left. -/
def terminal (reason : String) : Ending :=
  match x.error with
  | some error => .failed error
  | none =>
    if reason = "cancelled" then .cancelled
    else if reason = "success" then .completed
    else .failed reason

def cancelRelay : Relay := if x.relay = .stopped then .stopped else .cancelled

/-- The agent worker has ended, and `events` yields the terminal event. -/
def finish : Option (Session ω) :=
  match x.phase, x.agent with
  | .awaiting, .ended reason =>
    some { x with
      relay := x.cancelRelay, phase := .over,
      yielded := x.yielded ++ [.ending (x.terminal reason)] }
  | _, _ => none

/-- What an event does to a session and its bridge. `checkDisconnect` is the check that
finds the client gone; `close` is the end of a generator that is not read any more. -/
def step : Event ω → Option (Session ω × Bridge ω)
  | .refused error =>
    if x.agent = .starting then
      some ({ x with ending := some (.failed error), error := some error }.endAgent
        sid b "error")
    else none
  | .submitted => if x.agent = .starting then some ({ x with agent := .tailing }, b) else none
  | .logs entry =>
    if x.agent = .tailing ∧ x.ending = none then
      some ({ x with entries := x.entries ++ [entry] }, b)
    else none
  | .ends ending =>
    if x.agent = .tailing ∧ x.ending = none then some ({ x with ending := some ending }, b)
    else none
  | .puts event request =>
    if x.agent = .tailing ∧ x.ending = none then
      some ({ x with emitted := x.emitted ++ [event] },
        { b.put (.event event (some sid)) with pending := request.toList ++ b.pending })
    else none
  | .tail boards => x.tail sid b boards
  | .relay => x.relayNext b
  | .take => x.take.map fun x' => (x', b)
  | .finish => x.finish.map fun x' => (x', b)
  | .disconnects => some ({ x with connected := false }, b)
  | .checkDisconnect =>
    if x.connected = false ∧ x.phase = .reading then
      some ({ x with signaled := true, relay := x.cancelRelay, phase := .over },
        x.signalDone sid b.cancelAllPending)
    else none
  | .close =>
    if x.connected = false then some ({ x with relay := x.cancelRelay, phase := .over }, b)
    else none

end Session

/-- The sessions of a thread, the bridges that were made for it and the one that
`BridgeRegistry` has. -/
structure World (ω : Type) where
  sessions : Nat → Option (Session ω)
  opened : Nat
  bridges : Nat → Bridge ω
  made : Nat
  registry : Option Nat

inductive Action (ω : Type) where
  | acquire
  | session (sid : Nat) (event : Event ω)
  | emit (event : BridgeEvent ω)
  | answered (bridge : Nat) (request : String)
  | releaseIfIdle
  deriving DecidableEq, Repr

namespace World

variable {ω : Type} (s : World ω)

def init : World ω where
  sessions _ := none
  opened := 0
  bridges _ := ⟨[], [], []⟩
  made := 0
  registry := none

/-- A session of the thread is opened, with the bridge from `BridgeRegistry.acquire`. -/
def acquire : World ω :=
  match s.registry with
  | some bridge =>
    { s with
      sessions := update s.sessions s.opened (some (.init bridge))
      opened := s.opened + 1 }
  | none =>
    { sessions := update s.sessions s.opened (some (.init s.made))
      opened := s.opened + 1
      bridges := update s.bridges s.made ⟨[], [], []⟩
      made := s.made + 1
      registry := some s.made }

def act (sid : Nat) (event : Event ω) : Option (World ω) :=
  (s.sessions sid).bind fun x =>
    (x.step sid (s.bridges x.bridge) event).map fun (x', b') =>
      { s with
        sessions := update s.sessions sid (some x')
        bridges := update s.bridges x.bridge b' }

/-- `BridgeRegistry.emit`, for what is not of the run of a session. -/
def emit (event : BridgeEvent ω) : World ω :=
  match s.registry with
  | some bridge =>
    { s with
      bridges := update s.bridges bridge ((s.bridges bridge).put (.event event none)) }
  | none => s

def releaseIfIdle : World ω :=
  match s.registry with
  | some bridge => if (s.bridges bridge).hasPending = true then s else { s with registry := none }
  | none => s

end World

/-- One step. -/
def step {ω : Type} : Action ω → World ω → Option (World ω)
  | .acquire, s => some s.acquire
  | .session sid event, s => s.act sid event
  | .emit event, s => some (s.emit event)
  | .answered bridge request, s =>
    some { s with
      bridges := update s.bridges bridge ((s.bridges bridge).answered request) }
  | .releaseIfIdle, s => some s.releaseIfIdle

end Substrate.Stream
