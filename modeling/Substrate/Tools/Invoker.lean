import Mathlib.Logic.Function.Basic
import Substrate.Tools.Approval

/-!
`ToolInvoker.invoke`, await by await, with many invocations of one agent's tools under
way.
-/

namespace Substrate.Tools

open Function

abbrev Path := List Nat

inductive Status where
  | ok | error | denied
  deriving DecidableEq, Repr

/-- `InvocationResult`: its status and text. -/
structure InvocationResult where
  status : Status
  text : String

structure Request where
  tool : String
  arguments : Args
  risk : ToolRisk

/-- `decision_key`: the id of a request that waits for a signal, or the id of the call. -/
inductive DecisionKey where
  | request (id : String)
  | call (id : String)
  deriving DecidableEq

def DecisionKey.text : DecisionKey → String
  | .request id => id
  | .call id => id

structure RequestedEntry where
  requestId : String
  toolName : String
  args : Args
  risk : ToolRisk
  summary : String

structure DecidedEntry where
  requestId : String
  toolName : String
  risk : ToolRisk
  decision : ApprovalDecision
  decidedBy : Option String
  decidedAt : Option String
  reason : Option String
  modified : Bool
  deriving DecidableEq

/-- The payload that `_journal_decision` writes. -/
def decidedEntry (key : DecisionKey) (request : Request) (result : ApprovalResult) :
    DecidedEntry where
  requestId := key.text
  toolName := request.tool
  risk := request.risk
  decision := result.decision
  decidedBy := result.decidedBy
  decidedAt := result.decidedAt
  reason := result.reason
  modified := result.decision = .modified

/-- Where an invocation stands: what it awaits next, or what it has returned. `cleared` and
`resolved` keep the decision that the call was approved by, if any. -/
inductive Phase where
  | classifying
  | identifying (risk : ToolRisk) (summary : Option String)
  | requesting (risk : ToolRisk) (summary : Option String) (id : String)
  | waiting (risk : ToolRisk) (id : String)
  | asking (risk : ToolRisk)
  | deciding (risk : ToolRisk) (key : DecisionKey) (result : ApprovalResult)
  | cleared (risk : ToolRisk) (approval : Option (DecisionKey × ApprovalResult)) (args : Args)
  | resolved (risk : ToolRisk) (approval : Option (DecisionKey × ApprovalResult)) (args : Args)
  | running (args : Args)
  | ended (result : InvocationResult)

/-- An invocation: the call, its session, the scope of the run's journal that it is made in,
if it is made in a run, and its tool. -/
structure Invocation where
  name : String
  arguments : Args
  callId : String
  session : Nat
  scope : Option Path
  tool : Tool
  phase : Phase

def Invocation.request (inv : Invocation) (risk : ToolRisk) : Request :=
  ⟨inv.name, inv.arguments, risk⟩

/-- The sessions of the invoker, the invocations and the journal. The last five fields are
what has happened: which request each id was drawn for, what was signalled, what the handlers
answered to which invocation, and which invocations were counted and started, each with its
session. -/
structure World where
  callCount : Nat → Nat
  invocations : Nat → Option Invocation
  opened : Nat
  counter : Path → Nat
  uuids : Path → Option String
  requested : Path → Option RequestedEntry
  decided : Path → Option DecidedEntry
  signals : List (String × JsonObject)
  claims : Path → Option (String × JsonObject)
  drawn : String → Option Request
  signalled : List (String × JsonObject)
  answers : List (Nat × Request × ApprovalResult)
  admitted : List (Nat × Nat)
  started : List (Nat × Nat)

inductive Action where
  | invoke (name : String) (arguments : Args) (callId : String) (session : Nat)
      (scope : Option Path)
  | classify (i : Nat)
  | identify (i : Nat) (fresh : String)
  | request (i : Nat) (logged : Bool)
  | wake (i : Nat)
  | answer (i : Nat) (result : ApprovalResult)
  | expire (i : Nat)
  | journal (i : Nat)
  | resolve (i : Nat) (fetched : String → Option (List UInt8))
  | execute (i : Nat)
  | finish (i : Nat) (result : InvocationResult)
  | fail (i : Nat) (text : String)
  | signal (name : String) (payload : JsonObject)
  | restart

namespace World

def init : World where
  callCount _ := 0
  invocations _ := none
  opened := 0
  counter _ := 0
  uuids _ := none
  requested _ := none
  decided _ := none
  signals := []
  claims _ := none
  drawn _ := none
  signalled := []
  answers := []
  admitted := []
  started := []

variable (agent : Agent) (instant : String → Option String) (s : World)

/-- Invocation `i` goes to a phase. -/
def goTo (i : Nat) (inv : Invocation) (phase : Phase) : World :=
  { s with invocations := update s.invocations i (some { inv with phase := phase }) }

def refuse (i : Nat) (inv : Invocation) (text : String) : World :=
  s.goTo i inv (.ended ⟨.error, text⟩)

/-- `Journal.alloc_path` in a scope. -/
def path (scope : Path) : Path := scope ++ [s.counter scope]

def alloc (scope : Path) : World :=
  { s with counter := update s.counter scope (s.counter scope + 1) }

def enter (inv : Invocation) : World :=
  { s with
    invocations := update s.invocations s.opened (some inv)
    opened := s.opened + 1 }

def count (session : Nat) : World :=
  { s with
    callCount := update s.callCount session (s.callCount session + 1)
    admitted := (s.opened, session) :: s.admitted }

/-- Budget, registry and type gate, all before the first await. -/
def invoke (name : String) (arguments : Args) (callId : String) (session : Nat)
    (scope : Option Path) : World :=
  let policy := (buildInvoker agent).policy
  let stopped (text : String) : Invocation :=
    ⟨name, arguments, callId, session, scope, .hosted, .ended ⟨.error, text⟩⟩
  if policy.maxToolCalls ≤ s.callCount session then
    s.enter (stopped ("Chain budget exhausted: max_tool_calls=" ++ toString policy.maxToolCalls))
  else
    let s := s.count session
    match (buildInvoker agent).registry name with
    | none => s.enter (stopped ("Unknown tool: '" ++ name ++ "'"))
    | some .hosted =>
      s.enter (stopped ("Tool '" ++ name ++
        "' is provider-hosted and cannot be called from a chain."))
    | some .providerDefined =>
      s.enter (stopped ("Tool '" ++ name ++
        "' is provider-defined and cannot be called from a chain."))
    | some (.callable risk classifyRisk) =>
      if name = "tool_chain" then
        s.enter (stopped "Recursive tool_chain calls are not allowed.")
      else
        s.enter ⟨name, arguments, callId, session, scope, .callable risk classifyRisk, .classifying⟩

/-- The risk gate up to the first await of an approval. -/
def classify (i : Nat) : Option World :=
  match s.invocations i with
  | some inv =>
    match inv.phase with
    | .classifying =>
      match inv.tool.classify inv.arguments with
      | .error text => some (s.refuse i inv ("Invoker error: " ++ text))
      | .ok (risk, summary) =>
        if (buildInvoker agent).policy.maxRiskUnapproved < risk then
          match (buildInvoker agent).approval with
          | none =>
            some (s.goTo i inv (.ended ⟨.denied, "Tool '" ++ inv.name ++
              "' has risk=" ++ risk.value ++ " which requires approval, but no " ++
              "ApprovalHandler is configured. Call this tool directly outside the " ++
              "chain."⟩))
          | some .signalling =>
            match inv.scope with
            | some _ => some (s.goTo i inv (.identifying risk summary))
            | none => some (s.goTo i inv (.asking risk))
          | some _ => some (s.goTo i inv (.asking risk))
        else some (s.goTo i inv (.cleared risk none inv.arguments))
    | _ => none
  | none => none

/-- `ctx.uuid`: the id that the journal has for the path, or a fresh one. -/
def identify (i : Nat) (fresh : String) : Option World :=
  match s.invocations i with
  | some inv =>
    match inv.phase, inv.scope with
    | .identifying risk summary, some scope =>
      match s.uuids (s.path scope) with
      | some id => some ((s.alloc scope).goTo i inv (.requesting risk summary id))
      | none =>
        if (s.drawn fresh).isSome then none
        else
          some { (s.alloc scope).goTo i inv (.requesting risk summary fresh) with
            uuids := update s.uuids (s.path scope) (some fresh)
            drawn := update s.drawn fresh (some (inv.request risk)) }
    | _, _ => none
  | none => none

/-- `ctx.log_once` of APPROVAL_REQUESTED; its failure is passed over. -/
def request (i : Nat) (logged : Bool) : Option World :=
  match s.invocations i with
  | some inv =>
    match inv.phase, inv.scope with
    | .requesting risk summary id, some scope =>
      let entry : RequestedEntry := ⟨id, inv.name, inv.arguments, risk, summary.getD ""⟩
      some { (s.alloc scope).goTo i inv (.waiting risk id) with
        requested :=
          if logged then
            update s.requested (s.path scope)
              (some ((s.requested (s.path scope)).getD entry))
          else s.requested }
    | _, _ => none
  | none => none

def buffered (name : String) : Option (String × JsonObject) :=
  s.signals.find? fun signal => signal.1 = name

/-- `ctx.sleep_until_signal`: the payload that the path has claimed, or the first one of the
name, or a suspension; then `from_response`. -/
def wake (i : Nat) : Option World :=
  match s.invocations i with
  | some inv =>
    match inv.phase, inv.scope with
    | .waiting risk id, some scope =>
      let heard (s : World) (payload : JsonObject) : World :=
        match ApprovalResult.fromResponse instant payload with
        | .ok result => s.goTo i inv (.deciding risk (.request id) result)
        | .error text => s.refuse i inv ("Invoker error: " ++ text)
      match s.claims (s.path scope), s.buffered (approvalSignal id) with
      | some claim, _ => some (heard (s.alloc scope) claim.2)
      | none, some signal =>
        some (heard
          { s.alloc scope with
            signals := s.signals.eraseP fun signal => signal.1 = approvalSignal id
            claims := update s.claims (s.path scope) (some signal) }
          signal.2)
      | none, none =>
        some ((s.alloc scope).refuse i inv ("sleep_until_signal:" ++ approvalSignal id))
    | _, _ => none
  | none => none

/-- The handler answers. -/
def answer (i : Nat) (result : ApprovalResult) : Option World :=
  match s.invocations i with
  | some inv =>
    match inv.phase, (buildInvoker agent).approval with
    | .asking risk, some handler =>
      if handler.admits result then
        some { s.goTo i inv (.deciding risk (.call inv.callId) result) with
          answers := (i, inv.request risk, result) :: s.answers }
      else none
    | _, _ => none
  | none => none

/-- The handler does not answer in time. -/
def expire (i : Nat) : Option World :=
  match s.invocations i with
  | some inv =>
    match inv.phase with
    | .asking _ =>
      some (s.goTo i inv (.ended ⟨.denied, "Approval for '" ++ inv.name ++
        "' timed out after " ++ (buildInvoker agent).policy.approvalTimeoutS ++
        "s. Call this tool directly outside the chain for interactive approval."⟩))
    | _ => none
  | none => none

/-- `_journal_decision`, and what the decision says. -/
def journal (i : Nat) : Option World :=
  match s.invocations i with
  | some inv =>
    match inv.phase with
    | .deciding risk key result =>
      let entry := decidedEntry key (inv.request risk) result
      let logged : World :=
        match inv.scope with
        | some scope =>
          { s.alloc scope with
            decided := update s.decided (s.path scope)
              (some ((s.decided (s.path scope)).getD entry)) }
        | none => s
      match result.decision with
      | .modified =>
        some (logged.goTo i inv (.cleared risk (some (key, result)) (result.modifiedArgs.getD [])))
      | .approved => some (logged.goTo i inv (.cleared risk (some (key, result)) inv.arguments))
      | _ => some (logged.goTo i inv
          (.ended ⟨.denied, "Approval denied for tool '" ++ inv.name ++ "'."⟩))
    | _ => none
  | none => none

def resolve (i : Nat) (fetched : String → Option (List UInt8)) : Option World :=
  match s.invocations i with
  | some inv =>
    match inv.phase with
    | .cleared risk approval args =>
      some (s.goTo i inv (.resolved risk approval
        (resolveInboundRefs (buildInvoker agent).store fetched args)))
    | _ => none
  | none => none

/-- `tool.execute(ctx=ctx, **args)`. -/
def execute (i : Nat) : Option World :=
  match s.invocations i with
  | some inv =>
    match inv.phase with
    | .resolved _ _ args =>
      if (args.lookup "ctx").isSome then
        some (s.refuse i inv ("Invoker error: TypeError: " ++
          "got multiple values for keyword argument 'ctx'"))
      else
        some { s.goTo i inv (.running args) with
          started := (i, inv.session) :: s.started }
    | _ => none
  | none => none

/-- The tool returns, raises or runs out of time, and its result is shaped. -/
def finish (i : Nat) (result : InvocationResult) : Option World :=
  match s.invocations i with
  | some inv =>
    match inv.phase with
    | .running _ => some (s.goTo i inv (.ended result))
    | _ => none
  | none => none

def fail (i : Nat) (text : String) : Option World :=
  match s.invocations i with
  | some inv => some (s.refuse i inv ("Invoker error: " ++ text))
  | none => none

def signal (name : String) (payload : JsonObject) : World :=
  { s with
    signals := s.signals ++ [(name, payload)]
    signalled := (name, payload) :: s.signalled }

def restart : World :=
  { s with
    invocations := fun _ => none
    counter := fun _ => 0 }

end World

/-- One step. -/
def step (agent : Agent) (instant : String → Option String) : Action → World → Option World
  | .invoke name arguments callId session scope, s =>
    some (s.invoke agent name arguments callId session scope)
  | .classify i, s => s.classify agent i
  | .identify i fresh, s => s.identify i fresh
  | .request i logged, s => s.request i logged
  | .wake i, s => s.wake instant i
  | .answer i result, s => s.answer agent i result
  | .expire i, s => s.expire agent i
  | .journal i, s => s.journal i
  | .resolve i fetched, s => s.resolve agent i fetched
  | .execute i, s => s.execute i
  | .finish i result, s => s.finish i result
  | .fail i text, s => s.fail i text
  | .signal name payload, s => some (s.signal name payload)
  | .restart, s => some s.restart

end Substrate.Tools
