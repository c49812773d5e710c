import Substrate.Journal.Fold

/-!
One attempt of a run over its journal. A program is agent code with everything it does
between journaled calls folded into what it calls next; `run` executes it against the
memory folded from the durable record.
-/

namespace Substrate

/-- `ControlSignal`: unwinds to the worker, past any `except Exception`. -/
inductive ControlSignal where
  | suspend
  | cancelled
  | leaseLost
  deriving DecidableEq, Repr

/-- `repr` of a printable text. -/
def pyRepr (text : String) : String :=
  let quote := if text.contains '\'' && !text.contains '"' then "\"" else "'"
  let escaped := (text.replace "\\" "\\\\").replace "\n" "\\n"
  quote ++ (if quote = "'" then escaped.replace "'" "\\'" else escaped) ++ quote

/-- What `except Exception` catches. A body's own exception is kept as the
`ErrorInfo` that is recorded for it. -/
inductive Failure where
  | error (info : ErrorInfo)
  | orphaned (call : CallId)
  | nonDeterminism (path : String) (recorded now : String × String)
  | unresolved (ref : String)

/-- What `_fail` records. -/
def Failure.info : Failure → ErrorInfo
  | .error info => info
  | .orphaned call =>
    { code := "orphaned_effect"
      message := call.kind ++ " at path " ++ pyRepr call.path ++
        " was started and its outcome was never recorded; it is not " ++
        "marked idempotent, so it will not be run again. Check whether it took effect." }
  | .nonDeterminism path recorded now =>
    { code := "non_determinism"
      message := "replay diverged from the journal at path " ++ pyRepr path ++
        ": recorded " ++ pyRepr recorded.1 ++ ", now " ++ pyRepr now.1 ++
        if recorded.1 = now.1 then " with different arguments" else "" }
  | .unresolved ref =>
    { code := "effect_failed"
      message := "journaled value is offloaded (" ++ ref ++
        ") but no blob store is configured" }

abbrev Answer := Except Failure JsonObject

/-- Code over the journal. `outside` ends as the world decides. A program that
catches exceptions is one whose `next` goes on after an error; one that does
not raises it again. -/
inductive Prog where
  | done (value : JsonObject)
  | raise (failure : Failure)
  | interrupt (signal : ControlSignal)
  | outside
  | effect (kind : String) (args : Json) (idempotent : Bool) (body : Prog)
      (next : Answer → Prog)
  | atomic (kind : String) (args : Json) (next : Answer → Prog)

/-- A blob store, from outside the repository: which values are too large to
journal, the reference a value is stored under, and what a reference gives
back. -/
structure BlobStore where
  large : JsonObject → Bool
  ref : JsonObject → String
  load : String → JsonObject
  ref_ne : ∀ value, ref value ≠ ""
  load_ref : ∀ value, load (ref value) = value

structure Config where
  makeId : String → String → String
  digest : Json → String
  blob : Option BlobStore := none

/-- How a commit is answered: applied and acknowledged, applied or not and
reported as failed, ended by a control signal, or never answered because the
worker died. -/
inductive CommitAnswer where
  | acknowledged
  | failed (applied : Bool) (info : ErrorInfo)
  | signalled (applied : Bool) (signal : ControlSignal)
  | died (applied : Bool)

inductive World where
  | returns (value : JsonObject)
  | raises (failure : Failure)
  | signals (signal : ControlSignal)

structure Tick where
  commit : CommitAnswer := .acknowledged
  world : World := .returns []

/-- What the journal decides about a call before it does anything. -/
inductive Reply where
  | answered (value : JsonObject)
  | unresolved (ref : String)
  | orphaned
  | admitted

/-- What happens in a run. `issued` is a call that has taken its path, and
`observed` is what the code that made it goes on with. -/
inductive Event where
  | attempt
  | issued (call : CallId)
  | diverged (call : CallId)
  | called (call : CallId) (idempotent : Bool) (reply : Reply)
  | started (call : CallId)
  | returned (call : CallId) (value : JsonObject)
  | raised (call : CallId)
  | wrote (r : Record)
  | observed (call : CallId) (answer : Answer)

def Event.call? : Event → Option CallId
  | .attempt | .wrote _ => none
  | .issued call | .diverged call | .called call _ _ | .started call | .returned call _
  | .raised call | .observed call _ => some call

/-- One attempt: its journal, the run's durable record, what it still gets from
outside, and what has happened. -/
structure Session where
  memory : Memory := {}
  stack : PathStack := [0]
  log : List Record := []
  tape : List Tick := []
  trace : List Event := []

/-- How a piece of code ends. `cut` is the worker's death. -/
inductive Exit where
  | value (value : JsonObject)
  | raised (failure : Failure)
  | signalled (signal : ControlSignal)
  | cut

def Exit.answer? : Exit → Option Answer
  | .value result => some (.ok result)
  | .raised failure => some (.error failure)
  | .signalled _ | .cut => none

def Config.callAt (c : Config) (stack : PathStack) (kind : String) (args : Json) : CallId :=
  let path := pathText stack.reverse
  { id := c.makeId path kind, path, kind, digest := c.digest args }

namespace Session

def note (s : Session) (event : Event) : Session := { s with trace := s.trace ++ [event] }

def setKnown (s : Session) (id : String) (known : Known) : Session :=
  { s with memory := s.memory.setKnown id known }

/-- `alloc_path`, after the path has been read. -/
def allocPath (s : Session) : Session := { s with stack := nextStack s.stack }

def enterScope (s : Session) : Session := { s with stack := 0 :: s.stack }

def exitScope (s : Session) : Session := { s with stack := s.stack.tail }

def append (s : Session) (r : Record) : Session :=
  { s with
    log := if r.dedupKey.isSome && s.log.any (·.dedupKey = r.dedupKey) then s.log
      else s.log ++ [r]
    trace := s.trace ++ [.wrote r] }

def await (s : Session) : Option (Tick × Session) :=
  match s.tape with
  | [] => none
  | tick :: rest => some (tick, { s with tape := rest })

/-- Commit one entry. The value of the exit is not used. -/
def commit (s : Session) (r : Record) : Exit × Session :=
  match s.await with
  | none => (.cut, s)
  | some (tick, s) =>
    match tick.commit with
    | .acknowledged => (.value [], s.append r)
    | .failed applied info => (.raised (.error info), if applied then s.append r else s)
    | .signalled applied signal => (.signalled signal, if applied then s.append r else s)
    | .died applied => (.cut, if applied then s.append r else s)

/-- `_record`: commit an outcome, with `retries` more tries after a failure. -/
def record : Nat → Session → Record → Exit × Session
  | 0, s, r => s.commit r
  | retries + 1, s, r =>
    match s.commit r with
    | (.raised _, s) => record retries s r
    | exit => exit

/-- `_OUTCOME_ATTEMPTS` less the first. -/
def outcomeRetries : Nat := 2

def identify (c : Config) (s : Session) (kind : String) (args : Json) :
    Except Failure CallId × Session :=
  let call := c.callAt s.stack kind args
  match s.memory.byPath call.path with
  | none => (.ok call, s.allocPath)
  | some prior =>
    if prior = (call.kind, call.digest) then (.ok call, s.allocPath)
    else (.error (.nonDeterminism call.path prior (call.kind, call.digest)), s.allocPath)

end Session

/-- `_resolve`: the recorded value, or the reference that cannot be loaded. -/
def resolve (c : Config) (known : Known) : Except String JsonObject :=
  let value := known.value.getD []
  match known.artifactRef with
  | none => .ok value
  | some ref =>
    if value.isEmpty then
      match c.blob with
      | none => .error ref
      | some blob => .ok (blob.load ref)
    else .ok value

/-- What is stored gives back the value it was stored for. -/
def Stored.Restores (c : Config) (stored : Stored) (value : JsonObject) : Prop :=
  ∀ known : Known, known.value = some stored.inline →
    known.artifactRef = stored.artifactRef → resolve c known = .ok value

theorem restores_value (c : Config) (value : JsonObject) :
    (Stored.value value).Restores c value := by
  intro known hvalue href
  unfold resolve
  rw [href, hvalue]
  rfl

theorem restores_ref {c : Config} {blob : BlobStore} (hblob : c.blob = some blob)
    (value : JsonObject) : (Stored.ref (blob.ref value)).Restores c value := by
  intro known hvalue href
  unfold resolve
  rw [href, hvalue, hblob]
  exact congrArg Except.ok (blob.load_ref value)

namespace Session

/-- What `effect` decides from the record: answer, refuse, or go on. -/
def replyTo (c : Config) (s : Session) (call : CallId) (idempotent : Bool) : Reply :=
  match s.memory.known call.id with
  | none => .admitted
  | some known =>
    match known.state with
    | .completed =>
      match resolve c known with
      | .ok value => .answered value
      | .error ref => .unresolved ref
    | .pending => if idempotent then .admitted else .orphaned
    | .absent => .admitted

def intended (s : Session) (call : CallId) : Bool :=
  (s.memory.known call.id).any (·.state = .pending)

/-- Let go of a step whose body did not return, and record why. A store failure
does not mask how the body ended. -/
def recordEnd (s : Session) (r : Record) (exit : Exit) : Exit × Session :=
  match record outcomeRetries (s.setKnown r.id { state := .absent }) r with
  | (.value _, s) | (.raised _, s) => (exit, s)
  | other => other

def abort (s : Session) (call : CallId) (signal : ControlSignal) : Exit × Session :=
  s.recordEnd (.aborted call.id "interrupted") (.signalled signal)

def fail (s : Session) (call : CallId) (failure : Failure) : Exit × Session :=
  s.recordEnd (.failed call.id failure.info) (.raised failure)

/-- Commit the value a body returned, in place or by reference. -/
def recordValue (s : Session) (call : CallId) (value : JsonObject) (stored : Stored) :
    Exit × Session :=
  match record outcomeRetries s (.ok call stored false) with
  | (.value _, s) =>
    (.value value, s.setKnown call.id
      { state := .completed, kind := call.kind, digest := call.digest, value := some value })
  | exit => exit

/-- `_offload` and what follows it. -/
def finish (c : Config) (s : Session) (call : CallId) (value : JsonObject) : Exit × Session :=
  match c.blob with
  | none => s.recordValue call value (.value value)
  | some blob =>
    if blob.large value then
      match s.await with
      | none => (.cut, s)
      | some (tick, s) =>
        match tick.world with
        | .returns _ => s.recordValue call value (.ref (blob.ref value))
        | .raises failure => (.raised failure, s)
        | .signals signal => (.signalled signal, s)
    else s.recordValue call value (.value value)

/-- Run the body of a step whose intent is on record, and record how it ends. -/
def runBody (c : Config) (call : CallId) (fn : Session → Exit × Session) (s : Session) :
    Exit × Session :=
  match (s.note (.started call)).await with
  | none => (.cut, s.note (.started call))
  | some (_, s) =>
    match fn s with
    | (.value value, s) => (s.note (.returned call value)).finish c call value
    | (.raised failure, s) => (s.note (.raised call)).fail call failure
    | (.signalled signal, s) => (s.note (.raised call)).abort call signal
    | (.cut, s) => (.cut, s)

/-- Put the step's intent on record, unless it is there, and run the body. -/
def execute (c : Config) (call : CallId) (idempotent : Bool) (fn : Session → Exit × Session)
    (s : Session) : Exit × Session :=
  if s.intended call then s.runBody c call fn
  else
    match s.commit (.intent call idempotent) with
    | (.value _, s) =>
      (s.setKnown call.id
        { state := .pending, kind := call.kind, digest := call.digest }).runBody c call fn
    | exit => exit

/-- What both kinds of step begin with: identify the call, and go no further if
the replay has diverged. -/
def atCall (c : Config) (kind : String) (args : Json)
    (step : Tick → CallId → Session → Exit × Session) (s : Session) : Exit × Session :=
  match s.await with
  | none => (.cut, s)
  | some (tick, s) =>
    let call := c.callAt s.stack kind args
    match (s.note (.issued call)).identify c kind args with
    | (.error failure, s) => (.raised failure, s.note (.diverged call))
    | (.ok call, s) => step tick call s

/-- Act on what the record says about the call. -/
def serve (c : Config) (call : CallId) (idempotent : Bool) (fn : Session → Exit × Session)
    (s : Session) : Reply → Exit × Session
  | .answered value => (.value value, s)
  | .unresolved ref => (.raised (.unresolved ref), s)
  | .orphaned => (.raised (.orphaned call), s)
  | .admitted =>
    let (exit, s) := s.enterScope.execute c call idempotent fn
    (exit, s.exitScope)

/-- `effect`, with the code that `fn` runs. -/
def effect (c : Config) (kind : String) (args : Json) (idempotent : Bool)
    (fn : Session → Exit × Session) : Session → Exit × Session :=
  atCall c kind args fun _ call s =>
    let reply := s.replyTo c call idempotent
    (s.note (.called call idempotent reply)).serve c call idempotent fn reply

/-- The part of `record_atomic` after the call is identified. `build` gets its
value from outside, and `do_commit` is the commit that does the step and records
it. -/
def atomicStep (c : Config) (tick : Tick) (call : CallId) (s : Session) : Exit × Session :=
  match (s.memory.known call.id).filter (·.state = .completed) with
  | some known =>
    match resolve c known with
    | .ok value => (.value value, s)
    | .error ref => (.raised (.unresolved ref), s)
  | none =>
    match tick.world with
    | .raises failure => (.raised failure, s)
    | .signals signal => (.signalled signal, s)
    | .returns value =>
      match s.commit (.ok call (.value value) true) with
      | (.value _, s) =>
        (.value value, s.setKnown call.id
          { state := .completed, kind := call.kind, digest := call.digest
            value := some value })
      | exit => exit

def recordAtomic (c : Config) (kind : String) (args : Json) : Session → Exit × Session :=
  atCall c kind args (atomicStep c)

end Session

def goOn (call : CallId) (next : Answer → Session → Exit × Session)
    (result : Exit × Session) : Exit × Session :=
  match result.1.answer? with
  | some answer => next answer (result.2.note (.observed call answer))
  | none => result

/-- Run a program to its end, or to where the attempt dies. -/
def run (c : Config) : Prog → Session → Exit × Session
  | .done value, s => (.value value, s)
  | .raise failure, s => (.raised failure, s)
  | .interrupt signal, s => (.signalled signal, s)
  | .outside, s =>
    match s.await with
    | none => (.cut, s)
    | some (tick, s) =>
      match tick.world with
      | .returns value => (.value value, s)
      | .raises failure => (.raised failure, s)
      | .signals signal => (.signalled signal, s)
  | .effect kind args idempotent body next, s =>
    goOn (c.callAt s.stack kind args) (fun answer s => run c (next answer) s)
      (s.effect c kind args idempotent (run c body))
  | .atomic kind args next, s =>
    goOn (c.callAt s.stack kind args) (fun answer s => run c (next answer) s)
      (s.recordAtomic c kind args)

/-- The durable record of a run, and what its attempts have done so far. -/
structure History where
  log : List Record := []
  trace : List Event := []

def History.session (h : History) (tape : List Tick) : Session :=
  { memory := .ofLog h.log, log := h.log, tape, trace := h.trace ++ [.attempt] }

def Session.history (s : Session) : History := { log := s.log, trace := s.trace }

def History.attempt (c : Config) (h : History) (try' : Prog × List Tick) : History :=
  (run c try'.1 (h.session try'.2)).2.history

def history (c : Config) (attempts : List (Prog × List Tick)) : History :=
  attempts.foldl (History.attempt c) {}

end Substrate
