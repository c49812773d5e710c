import Mathlib.Order.Defs.LinearOrder
import Substrate.Types

/-!
Tools, the approval of their calls and the invoker that an agent declares
(`tools/protocols.py`, `tools/approval.py`, `tools/chain.py` and `build_invoker` of
`runtime/tool_invoker.py`). An argument of a call is a JSON value or, once a reference to an
artifact has been resolved, the bytes of the artifact.
-/

namespace Substrate.Tools

/-- `ToolRisk`, ordered by `rank`. -/
inductive ToolRisk where
  | safe | high | critical
  deriving DecidableEq, Repr

namespace ToolRisk

def rank : ToolRisk → Nat
  | .safe => 0
  | .high => 1
  | .critical => 2

def value : ToolRisk → String
  | .safe => "safe"
  | .high => "high"
  | .critical => "critical"

instance : LE ToolRisk := ⟨fun a b => a.rank ≤ b.rank⟩

instance : LT ToolRisk := ⟨fun a b => a.rank < b.rank⟩

instance (a b : ToolRisk) : Decidable (a ≤ b) := inferInstanceAs (Decidable (a.rank ≤ b.rank))

instance (a b : ToolRisk) : Decidable (a < b) := inferInstanceAs (Decidable (a.rank < b.rank))

theorem not_lt {a b : ToolRisk} : ¬a < b ↔ b ≤ a := Nat.not_lt

theorem le_refl (a : ToolRisk) : a ≤ a := Nat.le_refl a.rank

end ToolRisk

inductive Value where
  | json (value : Json)
  | bytes (data : List UInt8)

abbrev Args := List (String × Value)

def argsOf (fields : JsonObject) : Args := fields.map fun field => (field.1, .json field.2)

/-- `{"$artifact": ref}`. -/
def Value.isArtifact : Value → Bool
  | .json (.obj fields) => (fields.lookup "$artifact").isSome
  | _ => false

/-- `_resolve_inbound_refs`: with a blob store, every reference to an artifact gives way to
what was fetched for it, or stays when that failed. -/
def resolveInboundRefs (store : Bool) (fetched : String → Option (List UInt8)) (args : Args) :
    Args :=
  if store then
    args.map fun arg =>
      if arg.2.isArtifact then
        match fetched arg.1 with
        | some data => (arg.1, .bytes data)
        | none => arg
      else arg
  else args

/-- What the registry holds under a name. A tool has a static risk and maybe a classifier,
which gives the risk of a call and a summary, or raises. -/
inductive Tool where
  | hosted
  | providerDefined
  | callable (risk : ToolRisk)
      (classifyRisk : Option (Args → Except String (ToolRisk × Option String)))

def Tool.classify : Tool → Args → Except String (ToolRisk × Option String)
  | .callable risk none, _ => .ok (risk, none)
  | .callable _ (some classifyRisk), args => classifyRisk args
  | _, _ => .error "AttributeError: risk"

def Tool.riskOf (tool : Tool) (args : Args) : Option ToolRisk :=
  (tool.classify args).toOption.map (·.1)

inductive ApprovalDecision where
  | approved | denied | skipped | modified
  deriving DecidableEq, Repr

def ApprovalDecision.value : ApprovalDecision → String
  | .approved => "approved"
  | .denied => "denied"
  | .skipped => "skipped"
  | .modified => "modified"

/-- `ApprovalResult`. Its validator refuses arguments on any other decision than MODIFIED. -/
structure ApprovalResult where
  decision : ApprovalDecision
  modifiedArgs : Option Args
  decidedBy : Option String
  decidedAt : Option String
  reason : Option String
  args_only_when_modified : decision = .modified ↔ modifiedArgs.isSome = true

/-- The truth of a JSON value in a condition. -/
def truthy : Json → Bool
  | .null => false
  | .bool value => value
  | .num value => value != 0
  | .str value => value != ""
  | .arr items => !items.isEmpty
  | .obj fields => !fields.isEmpty

/-- `data.get(key)`. -/
def get (data : JsonObject) (key : String) : Json := (data.lookup key).getD .null

def optionalText (key : String) : Json → Except String (Option String)
  | .null => .ok none
  | .str value => .ok (some value)
  | _ => .error ("ValidationError: " ++ key)

/-- `decided_at` of a response. `instant` is `datetime.fromisoformat` followed by
`isoformat`. -/
def decidedAtOf (instant : String → Option String) : Json → Except String (Option String)
  | .str value =>
    match instant value with
    | some text => .ok (some text)
    | none => .error "ValueError: Invalid isoformat string"
  | _ => .ok none

/-- `ApprovalResult.from_response`. -/
def ApprovalResult.fromResponse (instant : String → Option String) (data : JsonObject) :
    Except String ApprovalResult := do
  let reason := if truthy (get data "reason") then get data "reason" else .null
  let decidedAt ← decidedAtOf instant (get data "decided_at")
  let decidedBy ← optionalText "decided_by" (get data "decided_by")
  let reason ← optionalText "reason" reason
  let denied : ApprovalResult := ⟨.denied, none, decidedBy, decidedAt, reason, by decide⟩
  if truthy (get data "session_disconnected") || truthy (get data "timed_out") then
    return denied
  match (data.lookup "action").getD (.str "deny") with
  | .str "modify" =>
    if truthy (get data "modified_arguments") then
      match get data "modified_arguments" with
      | .obj fields =>
        return ⟨.modified, some (argsOf fields), decidedBy, decidedAt, reason, iff_of_true rfl rfl⟩
      | _ => .error "ValidationError: modified_args"
    else return ⟨.modified, some [], decidedBy, decidedAt, reason, iff_of_true rfl rfl⟩
  | .str "approve" => return ⟨.approved, none, decidedBy, decidedAt, reason, by decide⟩
  | _ => return denied

def approvalSignal (requestId : String) : String := "hitl:" ++ requestId

/-- The kinds of approval handlers: one that waits for a signal, one that is asked, and a bare
callback. -/
inductive ApprovalHandler where
  | signalling | direct | callback
  deriving DecidableEq, Repr

def ApprovalHandler.admits : ApprovalHandler → ApprovalResult → Bool
  | .callback, result =>
    (result.decision = .approved || result.decision = .denied) &&
      result.decidedBy.isNone && result.decidedAt.isNone && result.reason.isNone
  | _, _ => true

/-- `ChainPolicy`. The timeouts are as they are printed. -/
structure ChainPolicy where
  maxToolCalls : Nat := 50
  callTimeoutS : String := "60.0"
  approvalTimeoutS : String := "55.0"
  maxRiskUnapproved : ToolRisk := .safe

def directCallPolicy : ChainPolicy where
  maxToolCalls := 10000
  callTimeoutS := "600.0"
  approvalTimeoutS := "300.0"

structure Agent where
  tools : String → Option Tool
  approvalHandler : Option ApprovalHandler
  toolPolicy : Option ChainPolicy
  approvalRequiredRisk : Option ToolRisk
  blobStore : Bool

structure ToolInvoker where
  registry : String → Option Tool
  approval : Option ApprovalHandler
  store : Bool
  policy : ChainPolicy

/-- `below.get(required, ToolRisk.SAFE)`. -/
def below : ToolRisk → ToolRisk
  | .critical => .high
  | .high => .safe
  | .safe => .safe

def buildInvoker (agent : Agent) : ToolInvoker where
  registry := agent.tools
  approval := agent.approvalHandler
  store := agent.blobStore
  policy :=
    let policy := agent.toolPolicy.getD directCallPolicy
    match agent.approvalRequiredRisk with
    | some required => { policy with maxRiskUnapproved := below required }
    | none => policy

/-- The agent requires approval of calls of a risk: from the level that it names upward, else
above the highest that its policy lets through. -/
def Agent.requires (agent : Agent) (risk : ToolRisk) : Prop :=
  match agent.approvalRequiredRisk with
  | some required => required ≤ risk
  | none => (agent.toolPolicy.getD directCallPolicy).maxRiskUnapproved < risk

theorem not_le_of_le_below {required risk : ToolRisk} (h : risk ≤ below required)
    (hsafe : required = .safe → risk ≠ .safe) : ¬required ≤ risk := by
  cases required <;> cases risk <;> first
    | decide
    | exact absurd h (by decide)
    | exact absurd rfl (hsafe rfl)

theorem not_requires_of_le {agent : Agent} {risk : ToolRisk}
    (h : risk ≤ (buildInvoker agent).policy.maxRiskUnapproved)
    (hsafe : agent.approvalRequiredRisk = some .safe → risk ≠ .safe) : ¬agent.requires risk := by
  unfold Agent.requires
  unfold buildInvoker at h
  cases hrequired : agent.approvalRequiredRisk with
  | none =>
    rw [hrequired] at h
    exact Nat.not_lt.mpr h
  | some required =>
    rw [hrequired] at h
    apply not_le_of_le_below h
    rintro rfl
    exact hsafe hrequired

end Substrate.Tools
