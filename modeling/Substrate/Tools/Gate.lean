import Mathlib.Data.List.Perm.Subperm
import Substrate.Lib.Runs
import Substrate.Tools.Invoker

/-!
What the invoker starts. The gate looks at a call's risk before its arguments are modified
or resolved, and a run that is taken up again finds decisions by the path of a step.
-/

namespace Substrate.Tools

open Lib List Function Option

/-- A decision lets a call go ahead with some arguments. -/
def Approves (result : ApprovalResult) (asked args : Args) : Prop :=
  (result.decision = .approved ∧ args = asked) ∨
    (result.decision = .modified ∧ result.modifiedArgs = some args)

def Phase.past : Phase → Prop
  | .running _ | .ended _ => True
  | _ => False

namespace World

variable (agent : Agent) (instant : String → Option String) (s : World)

/-- A decision was made for the very request of an invocation: it was signalled under the id
that was drawn for this request, or the handler answered it to this invocation. -/
def Decided (i : Nat) (inv : Invocation) (risk : ToolRisk) (result : ApprovalResult) :
    DecisionKey → Prop
  | .request id => s.drawn id = some (inv.request risk) ∧ ∃ payload,
      (approvalSignal id, payload) ∈ s.signalled ∧
        ApprovalResult.fromResponse instant payload = .ok result
  | .call id => id = inv.callId ∧ (i, inv.request risk, result) ∈ s.answers

/-- In a run, the journal has the decision. -/
def Recorded (inv : Invocation) (risk : ToolRisk) (result : ApprovalResult)
    (key : DecisionKey) : Prop :=
  inv.scope.isSome = true →
    ∃ path, s.decided path = some (decidedEntry key (inv.request risk) result)

/-- Arguments that an invocation may be executed with: their risk needs no approval, or a
recorded decision on its request approved them, at a risk that is not lower. -/
def Allowed (i : Nat) (inv : Invocation) (args : Args) : Prop :=
  ∃ risk, inv.tool.riskOf args = some risk ∧ (¬agent.requires risk ∨
    ∃ asked key result, s.Decided instant i inv asked result key ∧
      Approves result inv.arguments args ∧ risk ≤ asked ∧ s.Recorded inv asked result key)

def startedIn (session : Nat) : Nat :=
  (s.started.filter fun start => start.2 = session).length

/-- A move is guarded: an execution that it starts is of the agent's tool and allowed, and no
session has started more than the policy's number. -/
structure Guarded (m : Taken World Action) : Prop where
  allowed : ∀ i inv args, m.act = .execute i → m.after.invocations i = some inv →
    inv.phase = .running args →
      agent.tools inv.name = some inv.tool ∧ m.after.Allowed agent instant i inv args
  budget : ∀ session, m.after.startedIn session ≤ (buildInvoker agent).policy.maxToolCalls

/-- The moves that leave the gate whole. -/
def Meets : Action → Prop
  | .classify i => ∀ inv, s.invocations i = some inv → inv.phase = .classifying →
      agent.approvalRequiredRisk = some .safe → inv.tool.riskOf inv.arguments ≠ some .safe
  | .identify i _ => ∀ inv risk summary scope id, s.invocations i = some inv →
      inv.phase = .identifying risk summary → inv.scope = some scope →
      s.uuids (s.path scope) = some id → s.drawn id = some (inv.request risk)
  | .wake i => ∀ inv risk id scope claim, s.invocations i = some inv →
      inv.phase = .waiting risk id → inv.scope = some scope →
      s.claims (s.path scope) = some claim → claim.1 = approvalSignal id
  | .journal i => ∀ inv risk key result, s.invocations i = some inv →
      inv.phase = .deciding risk key result →
      (∀ scope entry, inv.scope = some scope → s.decided (s.path scope) = some entry →
        entry = decidedEntry key (inv.request risk) result) ∧
      ∀ args, result.modifiedArgs = some args →
        ∃ modified, inv.tool.riskOf args = some modified ∧ modified ≤ risk
  | .resolve i fetched => ∀ inv risk approval args, s.invocations i = some inv →
      inv.phase = .cleared risk approval args →
      resolveInboundRefs (buildInvoker agent).store fetched args = args ∨
        ∃ resolved, inv.tool.riskOf (resolveInboundRefs (buildInvoker agent).store fetched args) =
          some resolved ∧ ¬agent.requires resolved
  | _ => True

/-- What is known of an invocation in a phase. -/
def Fact (i : Nat) (inv : Invocation) : Phase → Prop
  | .classifying | .ended _ => True
  | .identifying risk _ | .asking risk => inv.tool.riskOf inv.arguments = some risk
  | .requesting risk _ id | .waiting risk id =>
    inv.tool.riskOf inv.arguments = some risk ∧ s.drawn id = some (inv.request risk)
  | .deciding risk key result =>
    inv.tool.riskOf inv.arguments = some risk ∧ s.Decided instant i inv risk result key
  | .cleared _ _ args | .resolved _ _ args | .running args => s.Allowed agent instant i inv args

structure Grows (s' : World) : Prop where
  drawn : ∀ id request, s.drawn id = some request → s'.drawn id = some request
  signalled : ∀ signal ∈ s.signalled, signal ∈ s'.signalled
  answers : ∀ given ∈ s.answers, given ∈ s'.answers
  decided : ∀ path entry, s.decided path = some entry → s'.decided path = some entry

structure Inv : Prop where
  claims : ∀ path signal, s.claims path = some signal → signal ∈ s.signalled
  signals : ∀ signal ∈ s.signals, signal ∈ s.signalled
  facts : ∀ i inv, s.invocations i = some inv → s.Fact agent instant i inv inv.phase
  tools : ∀ i inv, s.invocations i = some inv → (∃ result, inv.phase = .ended result) ∨
    agent.tools inv.name = some inv.tool

/-- The budget: every execution was counted in its session, once. -/
structure Budget : Prop where
  opened : ∀ i, s.opened ≤ i → s.invocations i = none
  numbered : ∀ count ∈ s.admitted, count.1 < s.opened
  counted : ∀ session, (s.admitted.filter fun count => count.2 = session).length =
    s.callCount session
  bounded : ∀ session, s.callCount session ≤ (buildInvoker agent).policy.maxToolCalls
  admitted : ∀ i inv, s.invocations i = some inv → (∃ result, inv.phase = .ended result) ∨
    (i, inv.session) ∈ s.admitted
  once : s.started.Nodup
  covered : ∀ start ∈ s.started, start ∈ s.admitted
  past : ∀ start ∈ s.started, ∀ inv, s.invocations start.1 = some inv → inv.phase.past

structure Advances (s' : World) (i : Nat) (inv : Invocation) (phase : Phase) : Prop where
  found : s.invocations i = some inv
  invocations : s'.invocations = update s.invocations i (some { inv with phase := phase })
  opened : s'.opened = s.opened
  callCount : s'.callCount = s.callCount
  admitted : s'.admitted = s.admitted
  started : s'.started = s.started
  ahead : inv.phase.past → phase.past
  live : (∃ result, inv.phase = .ended result) → ∃ result, phase = .ended result

section

variable {agent} {instant} {s} {s' : World}

variable {i : Nat} {inv found : Invocation} {risk : ToolRisk} {result : ApprovalResult}
    {key : DecisionKey} {args : Args} {phase : Phase}

theorem Decided.grow (h : s.Decided instant i inv risk result key) (hgrows : s.Grows s') :
    s'.Decided instant i inv risk result key := by
  cases key with
  | request id =>
    obtain ⟨hdrawn, payload, hsent, hread⟩ := h
    exact ⟨hgrows.drawn id _ hdrawn, payload, hgrows.signalled _ hsent, hread⟩
  | call id => exact ⟨h.1, hgrows.answers _ h.2⟩

theorem Recorded.grow (h : s.Recorded inv risk result key) (hgrows : s.Grows s') :
    s'.Recorded inv risk result key := by
  intro hscope
  obtain ⟨path, hentry⟩ := h hscope
  exact ⟨path, hgrows.decided path _ hentry⟩

theorem Allowed.grow (h : s.Allowed agent instant i inv args) (hgrows : s.Grows s') :
    s'.Allowed agent instant i inv args := by
  obtain ⟨risk, hrisk, hfree | ⟨asked, key, result, hdecided, happroves, hle, hrecorded⟩⟩ := h
  · exact ⟨risk, hrisk, Or.inl hfree⟩
  · exact ⟨risk, hrisk, Or.inr ⟨asked, key, result, hdecided.grow hgrows, happroves, hle,
      hrecorded.grow hgrows⟩⟩

theorem Fact.grow (h : s.Fact agent instant i inv phase) (hgrows : s.Grows s') :
    s'.Fact agent instant i inv phase := by
  cases phase with
  | classifying | ended result => trivial
  | identifying risk summary | asking risk => exact h
  | requesting risk summary id | waiting risk id => exact ⟨h.1, hgrows.drawn id _ h.2⟩
  | deciding risk key result => exact ⟨h.1, h.2.grow hgrows⟩
  | cleared risk approval args | resolved risk approval args | running args =>
    exact Allowed.grow h hgrows

theorem Grows.same (hdrawn : s'.drawn = s.drawn) (hsignalled : s'.signalled = s.signalled)
    (hanswers : s'.answers = s.answers) (hdecided : s'.decided = s.decided) : s.Grows s' := by
  refine ⟨?_, ?_, ?_, ?_⟩
  · rw [hdrawn]
    exact fun _ _ h => h
  · rw [hsignalled]
    exact fun _ h => h
  · rw [hanswers]
    exact fun _ h => h
  · rw [hdecided]
    exact fun _ _ h => h

theorem Grows.goTo (h : s.Grows s') (i : Nat) (inv : Invocation) (phase : Phase) :
    s.Grows (s'.goTo i inv phase) :=
  ⟨h.drawn, h.signalled, h.answers, h.decided⟩

theorem Advances.invocations_at {other : Nat} (h : s.Advances s' i inv phase)
    (hfound : s'.invocations other = some found) :
    (other = i ∧ found = { inv with phase := phase }) ∨
      (other ≠ i ∧ s.invocations other = some found) := by
  rw [h.invocations] at hfound
  rcases eq_or_ne other i with rfl | hne
  · rw [update_self] at hfound
    exact Or.inl ⟨rfl, (Option.some.inj hfound).symm⟩
  · rw [update_of_ne hne] at hfound
    exact Or.inr ⟨hne, hfound⟩

theorem Inv.advance (h : s.Inv agent instant) (hadvances : s.Advances s' i inv phase)
    (hgrows : s.Grows s') (hfact : s'.Fact agent instant i inv phase)
    (hclaims : ∀ path signal, s'.claims path = some signal → signal ∈ s'.signalled)
    (hsignals : ∀ signal ∈ s'.signals, signal ∈ s'.signalled) : s'.Inv agent instant := by
  refine ⟨hclaims, hsignals, ?_, ?_⟩
  · intro other found hfound
    rcases hadvances.invocations_at hfound with ⟨rfl, rfl⟩ | ⟨_, hfound⟩
    · cases phase <;> exact hfact
    · exact (h.facts other found hfound).grow hgrows
  · intro other found hfound
    rcases hadvances.invocations_at hfound with ⟨rfl, rfl⟩ | ⟨_, hfound⟩
    · rcases h.tools other inv hadvances.found with hended | htool
      · exact Or.inl (hadvances.live hended)
      · exact Or.inr htool
    · exact h.tools other found hfound

theorem Budget.advance (h : s.Budget agent) (hadvances : s.Advances s' i inv phase) :
    s'.Budget agent := by
  refine ⟨?_, ?_, ?_, ?_, ?_, ?_, ?_, ?_⟩
  · intro other hother
    rw [hadvances.opened] at hother
    rw [hadvances.invocations, update_of_ne]
    · exact h.opened other hother
    · rintro rfl
      have hnone := h.opened other hother
      rw [hadvances.found] at hnone
      cases hnone
  · rw [hadvances.admitted, hadvances.opened]
    exact h.numbered
  · rw [hadvances.admitted, hadvances.callCount]
    exact h.counted
  · rw [hadvances.callCount]
    exact h.bounded
  · intro other found hfound
    rw [hadvances.admitted]
    rcases hadvances.invocations_at hfound with ⟨rfl, rfl⟩ | ⟨_, hfound⟩
    · rcases h.admitted other inv hadvances.found with hended | hmem
      · exact Or.inl (hadvances.live hended)
      · exact Or.inr hmem
    · exact h.admitted other found hfound
  · rw [hadvances.started]
    exact h.once
  · rw [hadvances.started, hadvances.admitted]
    exact h.covered
  · intro start hstart found hfound
    rw [hadvances.started] at hstart
    rcases hadvances.invocations_at hfound with ⟨heq, rfl⟩ | ⟨_, hfound⟩
    · apply hadvances.ahead
      apply h.past start hstart
      rw [heq]
      exact hadvances.found
    · exact h.past start hstart found hfound

theorem Budget.startedIn_le (h : s.Budget agent) (session : Nat) :
    s.startedIn session ≤ (buildInvoker agent).policy.maxToolCalls := by
  have hsub : s.started.filter (fun start => start.2 = session) ⊆
      s.admitted.filter fun count => count.2 = session := by
    intro start hstart
    obtain ⟨hmem, hsession⟩ := mem_filter.mp hstart
    exact mem_filter.mpr ⟨h.covered start hmem, hsession⟩
  calc s.startedIn session
      ≤ (s.admitted.filter fun count => count.2 = session).length :=
        (subperm_of_subset (h.once.filter _) hsub).length_le
    _ = s.callCount session := h.counted session
    _ ≤ _ := h.bounded session

theorem Advances.before (phase : Phase) {t : World} (hfound : s.invocations i = some inv)
    (hpast : ¬inv.phase.past) (hinvocations : t.invocations = s.invocations)
    (hopened : t.opened = s.opened) (hcallCount : t.callCount = s.callCount)
    (hadmitted : t.admitted = s.admitted) (hstarted : t.started = s.started) :
    s.Advances (t.goTo i inv phase) i inv phase where
  found := hfound
  invocations := by
    change update t.invocations i _ = _
    rw [hinvocations]
  opened := hopened
  callCount := hcallCount
  admitted := hadmitted
  started := hstarted
  ahead h := absurd h hpast
  live h := by
    obtain ⟨result, heq⟩ := h
    rw [heq] at hpast
    exact absurd trivial hpast

theorem Advances.ends (result : InvocationResult) (hfound : s.invocations i = some inv) :
    s.Advances (s.goTo i inv (.ended result)) i inv (.ended result) where
  found := hfound
  invocations := rfl
  opened := rfl
  callCount := rfl
  admitted := rfl
  started := rfl
  ahead _ := trivial
  live _ := ⟨result, rfl⟩

def Kept (agent : Agent) (instant : String → Option String) (s : World) : Prop :=
  s.Inv agent instant ∧ s.Budget agent

theorem Kept.goTo (h : s.Kept agent instant) (hfound : s.invocations i = some inv)
    (hpast : ¬inv.phase.past) (hfact : s.Fact agent instant i inv phase) :
    (s.goTo i inv phase).Kept agent instant := by
  have hadvances := Advances.before phase hfound hpast rfl rfl rfl rfl rfl
  have hgrows : s.Grows (s.goTo i inv phase) := Grows.same rfl rfl rfl rfl
  exact ⟨h.1.advance hadvances hgrows (hfact.grow hgrows) h.1.claims h.1.signals,
    h.2.advance hadvances⟩

theorem Kept.ends (h : s.Kept agent instant) (result : InvocationResult)
    (hfound : s.invocations i = some inv) :
    (s.goTo i inv (.ended result)).Kept agent instant := by
  have hadvances := Advances.ends result hfound
  exact ⟨h.1.advance hadvances (Grows.same rfl rfl rfl rfl) trivial h.1.claims h.1.signals,
    h.2.advance hadvances⟩

theorem Kept.alloc (h : s.Kept agent instant) (scope : Path) :
    (s.alloc scope).Kept agent instant := by
  have hgrows : s.Grows (s.alloc scope) := Grows.same rfl rfl rfl rfl
  exact ⟨⟨h.1.claims, h.1.signals, fun i inv hfound => (h.1.facts i inv hfound).grow hgrows,
    h.1.tools⟩, ⟨h.2.opened, h.2.numbered, h.2.counted, h.2.bounded, h.2.admitted, h.2.once,
    h.2.covered, h.2.past⟩⟩

theorem riskOf_of_classify {tool : Tool} {summary : Option String}
    (h : tool.classify args = .ok (risk, summary)) : tool.riskOf args = some risk := by
  unfold Tool.riskOf
  rw [h]
  rfl

theorem Kept.classify (h : s.Kept agent instant) (hmeets : s.Meets agent (.classify i))
    (hstep : s.classify agent i = some s') : s'.Kept agent instant := by
  unfold World.classify at hstep
  split at hstep
  · rename_i inv hfound
    split at hstep
    · rename_i hphase
      have hpast : ¬inv.phase.past := by
        rw [hphase]
        exact id
      split at hstep
      · cases hstep
        exact h.ends _ hfound
      · rename_i risk summary hclassify
        have hrisk := riskOf_of_classify hclassify
        split at hstep
        · split at hstep
          · cases hstep
            exact h.ends _ hfound
          · split at hstep
            · cases hstep
              exact h.goTo hfound hpast hrisk
            · cases hstep
              exact h.goTo hfound hpast hrisk
          · cases hstep
            exact h.goTo hfound hpast hrisk
        · rename_i hle
          cases hstep
          apply h.goTo hfound hpast
          refine ⟨risk, hrisk, Or.inl (not_requires_of_le (ToolRisk.not_lt.mp hle) ?_)⟩
          rintro hrequired rfl
          exact hmeets inv hfound hphase hrequired hrisk
    · cases hstep
  · cases hstep

theorem Kept.identify (h : s.Kept agent instant) {fresh : String}
    (hmeets : s.Meets agent (.identify i fresh)) (hstep : s.identify i fresh = some s') :
    s'.Kept agent instant := by
  unfold World.identify at hstep
  split at hstep
  · rename_i inv hfound
    split at hstep
    · rename_i risk summary scope hphase hscope
      have hpast : ¬inv.phase.past := by
        rw [hphase]
        exact id
      have hrisk : inv.tool.riskOf inv.arguments = some risk := by
        have hfact := h.1.facts i inv hfound
        rw [hphase] at hfact
        exact hfact
      split at hstep
      · rename_i id hid
        cases hstep
        have hdrawn := hmeets inv risk summary scope id hfound hphase hscope hid
        exact (h.alloc scope).goTo hfound hpast ⟨hrisk, hdrawn⟩
      · split at hstep
        · cases hstep
        · rename_i hfresh
          cases hstep
          have hfresh : s.drawn fresh = none := not_isSome_iff_eq_none.mp hfresh
          have hgrows : s.Grows { s.alloc scope with
              uuids := update s.uuids (s.path scope) (some fresh)
              drawn := update s.drawn fresh (some (inv.request risk)) } := by
            refine ⟨fun id request hid => ?_, fun _ hmem => hmem, fun _ hmem => hmem,
              fun _ _ hentry => hentry⟩
            change update s.drawn _ _ id = _
            rw [update_of_ne]
            · exact hid
            · rintro rfl
              rw [hfresh] at hid
              cases hid
          have hadvances := Advances.before (s := s) (.requesting risk summary fresh)
            (t := { s.alloc scope with
              uuids := update s.uuids (s.path scope) (some fresh)
              drawn := update s.drawn fresh (some (inv.request risk)) })
            hfound hpast rfl rfl rfl rfl rfl
          refine ⟨h.1.advance hadvances (hgrows.goTo i inv _) ⟨hrisk, ?_⟩ h.1.claims h.1.signals,
            h.2.advance hadvances⟩
          exact update_self ..
    · cases hstep
  · cases hstep

theorem Kept.request (h : s.Kept agent instant) {logged : Bool}
    (hstep : s.request i logged = some s') : s'.Kept agent instant := by
  unfold World.request at hstep
  split at hstep
  · rename_i inv hfound
    split at hstep
    · rename_i risk summary id scope hphase hscope
      cases hstep
      have hpast : ¬inv.phase.past := by
        rw [hphase]
        exact fun h => h
      have hfact := h.1.facts i inv hfound
      rw [hphase] at hfact
      have hadvances := Advances.before (s := s) (t := s.alloc scope) (.waiting risk id) hfound
        hpast rfl rfl rfl rfl rfl
      have hgrows : s.Grows ((s.alloc scope).goTo i inv (.waiting risk id)) :=
        Grows.same rfl rfl rfl rfl
      have hkept : ((s.alloc scope).goTo i inv (.waiting risk id)).Kept agent instant :=
        ⟨h.1.advance hadvances hgrows hfact h.1.claims h.1.signals, h.2.advance hadvances⟩
      have hsame : ∀ requested : Path → Option RequestedEntry,
          World.Grows ((s.alloc scope).goTo i inv (.waiting risk id))
            { (s.alloc scope).goTo i inv (.waiting risk id) with requested := requested } :=
        fun requested => Grows.same rfl rfl rfl rfl
      obtain ⟨⟨hclaims, hsignals, hfacts, htools⟩, hbudget⟩ := hkept
      exact ⟨⟨hclaims, hsignals, fun other found hother => (hfacts other found hother).grow
        (hsame _), htools⟩, ⟨hbudget.opened, hbudget.numbered, hbudget.counted, hbudget.bounded,
          hbudget.admitted, hbudget.once, hbudget.covered, hbudget.past⟩⟩
    · cases hstep
  · cases hstep

theorem Kept.heard (h : s.Kept agent instant) {i : Nat} {inv : Invocation} {risk : ToolRisk}
    {id : String} {payload : JsonObject} (hfound : s.invocations i = some inv)
    (hphase : inv.phase = .waiting risk id)
    (hsent : (approvalSignal id, payload) ∈ s.signalled)
    {t : World} (ht : t = match ApprovalResult.fromResponse instant payload with
      | .ok result => s.goTo i inv (.deciding risk (.request id) result)
      | .error text => s.refuse i inv ("Invoker error: " ++ text)) : t.Kept agent instant := by
  have hfact := h.1.facts i inv hfound
  rw [hphase] at hfact
  obtain ⟨hrisk, hdrawn⟩ := hfact
  split at ht
  · rename_i result hresult
    rw [ht]
    apply h.goTo hfound
    · rw [hphase]
      exact fun h => h
    · exact ⟨hrisk, hdrawn, payload, hsent, hresult⟩
  · rw [ht]
    exact h.ends _ hfound

theorem buffered_some {name : String} {signal : String × JsonObject}
    (h : s.buffered name = some signal) : signal ∈ s.signals ∧ signal.1 = name := by
  unfold buffered at h
  exact ⟨mem_of_find?_eq_some h, by simpa using List.find?_some h⟩

theorem Kept.claim (h : s.Kept agent instant) (name : String) {signal : String × JsonObject}
    (path : Path) (hsignal : signal ∈ s.signals) :
    World.Kept agent instant { s with
      signals := s.signals.eraseP fun signal => signal.1 = name
      claims := update s.claims path (some signal) } := by
  obtain ⟨⟨hclaims, hsignals, hfacts, htools⟩, hbudget⟩ := h
  refine ⟨⟨?_, ?_, fun other found hother => (hfacts other found hother).grow
    (Grows.same rfl rfl rfl rfl), htools⟩, ⟨hbudget.opened, hbudget.numbered, hbudget.counted,
      hbudget.bounded, hbudget.admitted, hbudget.once, hbudget.covered, hbudget.past⟩⟩
  · intro other claimed hclaim
    change update s.claims path (some signal) other = some claimed at hclaim
    rcases eq_or_ne other path with rfl | hne
    · rw [update_self] at hclaim
      cases hclaim
      exact hsignals _ hsignal
    · rw [update_of_ne hne] at hclaim
      exact hclaims other claimed hclaim
  · intro other hother
    exact hsignals other (mem_of_mem_eraseP hother)

theorem Kept.wake (h : s.Kept agent instant) (hmeets : s.Meets agent (.wake i))
    (hstep : s.wake instant i = some s') : s'.Kept agent instant := by
  unfold World.wake at hstep
  split at hstep
  · rename_i inv hfound
    split at hstep
    · rename_i risk id scope hphase hscope
      dsimp only at hstep
      split at hstep
      · rename_i claim hclaim
        have hname := hmeets inv risk id scope claim hfound hphase hscope hclaim
        have hsent := h.1.claims _ claim hclaim
        rw [show claim = (approvalSignal id, claim.2) from Prod.ext hname rfl] at hsent
        exact (h.alloc scope).heard hfound hphase hsent (Option.some.inj hstep).symm
      · rename_i signal hclaim hbuffered
        obtain ⟨hmem, hname⟩ := buffered_some hbuffered
        have hsent := h.1.signals signal hmem
        rw [show signal = (approvalSignal id, signal.2) from Prod.ext hname rfl] at hsent
        exact ((h.alloc scope).claim (approvalSignal id) (s.path scope) hmem).heard hfound hphase
          hsent (Option.some.inj hstep).symm
      · cases hstep
        exact (h.alloc scope).ends _ hfound
    · cases hstep
  · cases hstep

theorem Kept.answer (h : s.Kept agent instant) (hstep : s.answer agent i result = some s') :
    s'.Kept agent instant := by
  unfold World.answer at hstep
  split at hstep
  · rename_i inv hfound
    split at hstep
    · rename_i risk handler hphase hhandler
      split at hstep
      · cases hstep
        have hpast : ¬inv.phase.past := by
          rw [hphase]
          exact fun h => h
        have hrisk := h.1.facts i inv hfound
        rw [hphase] at hrisk
        have hadvances := Advances.before (s := s)
          (t := { s with answers := (i, inv.request risk, result) :: s.answers })
          (.deciding risk (.call inv.callId) result) hfound hpast rfl rfl rfl rfl rfl
        refine ⟨h.1.advance hadvances ?_ ⟨hrisk, rfl, mem_cons_self⟩ h.1.claims h.1.signals,
          h.2.advance hadvances⟩
        exact ⟨fun _ _ hid => hid, fun _ hmem => hmem, fun _ => mem_cons_of_mem _,
          fun _ _ hentry => hentry⟩
      · cases hstep
    · cases hstep
  · cases hstep

theorem Kept.expire (h : s.Kept agent instant) (hstep : s.expire agent i = some s') :
    s'.Kept agent instant := by
  unfold World.expire at hstep
  split at hstep
  · rename_i inv hfound
    split at hstep
    · cases hstep
      exact h.ends _ hfound
    · cases hstep
  · cases hstep

theorem Kept.decide (h : s.Kept agent instant) (hfound : s.invocations i = some inv)
    (hphase : inv.phase = .deciding risk key result) (hrecorded : s.Recorded inv risk result key)
    (happroves : Approves result inv.arguments args)
    (hrisk : ∃ modified, inv.tool.riskOf args = some modified ∧ modified ≤ risk) :
    (s.goTo i inv (.cleared risk (some (key, result)) args)).Kept agent instant := by
  have hfact := h.1.facts i inv hfound
  rw [hphase] at hfact
  obtain ⟨_, hdecided⟩ := hfact
  obtain ⟨modified, hmodified, hle⟩ := hrisk
  apply h.goTo hfound
  · rw [hphase]
    exact fun h => h
  · exact ⟨modified, hmodified, Or.inr ⟨risk, key, result, hdecided, happroves, hle, hrecorded⟩⟩

def logged (scope : Path) (entry : DecidedEntry) : World :=
  { s.alloc scope with
    decided := update s.decided (s.path scope)
      (some ((s.decided (s.path scope)).getD entry)) }

theorem Kept.logged (h : s.Kept agent instant) (scope : Path) (entry : DecidedEntry) :
    (s.logged scope entry).Kept agent instant := by
  have hgrows : s.Grows (s.logged scope entry) := by
    refine ⟨fun _ _ hid => hid, fun _ hmem => hmem, fun _ hmem => hmem, fun path there hthere => ?_⟩
    change update s.decided _ _ path = some there
    rcases eq_or_ne path (s.path scope) with rfl | hne
    · rw [update_self, hthere]
      rfl
    · rw [update_of_ne hne]
      exact hthere
  obtain ⟨⟨hclaims, hsignals, hfacts, htools⟩, hbudget⟩ := h
  exact ⟨⟨hclaims, hsignals, fun other found hother => (hfacts other found hother).grow hgrows,
    htools⟩, ⟨hbudget.opened, hbudget.numbered, hbudget.counted, hbudget.bounded,
      hbudget.admitted, hbudget.once, hbudget.covered, hbudget.past⟩⟩

theorem decided_logged {scope : Path} {entry : DecidedEntry}
    (h : ∀ there, s.decided (s.path scope) = some there → there = entry) :
    (s.logged scope entry).decided (s.path scope) = some entry := by
  change update s.decided _ _ _ = _
  rw [update_self]
  cases hthere : s.decided (s.path scope) with
  | none => rfl
  | some there =>
    rw [h there hthere]
    rfl

theorem journaled (h : s.Kept agent instant) {i : Nat} {inv : Invocation} {risk : ToolRisk}
    {key : DecisionKey} {result : ApprovalResult} (hmeets : s.Meets agent (.journal i))
    (hfound : s.invocations i = some inv) (hphase : inv.phase = .deciding risk key result)
    {t : World} (ht : t = match inv.scope with
      | some scope => s.logged scope (decidedEntry key (inv.request risk) result)
      | none => s) :
    t.Kept agent instant ∧ t.invocations = s.invocations ∧ t.Recorded inv risk result key := by
  obtain ⟨hentry, _⟩ := hmeets inv risk key result hfound hphase
  cases hscope : inv.scope with
  | none =>
    rw [hscope] at ht
    dsimp only at ht
    rw [ht]
    refine ⟨h, rfl, fun hsome => ?_⟩
    rw [hscope] at hsome
    cases hsome
  | some scope =>
    rw [hscope] at ht
    dsimp only at ht
    rw [ht]
    refine ⟨h.logged scope _, rfl, fun _ => ⟨s.path scope, ?_⟩⟩
    exact decided_logged fun there hthere => hentry scope there hscope hthere

theorem Kept.journal (h : s.Kept agent instant) (hmeets : s.Meets agent (.journal i))
    (hstep : s.journal i = some s') : s'.Kept agent instant := by
  unfold World.journal at hstep
  split at hstep
  · rename_i inv hfound
    split at hstep
    · rename_i risk key result hphase
      dsimp only at hstep
      obtain ⟨hkept, hsame, hrecorded⟩ := journaled h hmeets hfound hphase rfl
      obtain ⟨_, hmodified⟩ := hmeets inv risk key result hfound hphase
      have hrisk := h.1.facts i inv hfound
      rw [hphase] at hrisk
      have hthere := (congrFun hsame i).trans hfound
      split at hstep
      · rename_i hdecision
        cases hstep
        obtain ⟨args, hargs⟩ := isSome_iff_exists.mp
          (result.args_only_when_modified.mp hdecision)
        rw [hargs]
        exact hkept.decide hthere hphase hrecorded (Or.inr ⟨hdecision, hargs⟩)
          (hmodified args hargs)
      · rename_i hdecision
        cases hstep
        exact hkept.decide hthere hphase hrecorded (Or.inl ⟨hdecision, rfl⟩)
          ⟨risk, hrisk.1, ToolRisk.le_refl risk⟩
      · cases hstep
        exact hkept.ends _ hthere
    · cases hstep
  · cases hstep

theorem Kept.resolve (h : s.Kept agent instant) {fetched : String → Option (List UInt8)}
    (hmeets : s.Meets agent (.resolve i fetched)) (hstep : s.resolve agent i fetched = some s') :
    s'.Kept agent instant := by
  unfold World.resolve at hstep
  split at hstep
  · rename_i inv hfound
    split at hstep
    · rename_i risk approval args hphase
      cases hstep
      apply h.goTo hfound
      · rw [hphase]
        exact fun h => h
      · rcases hmeets inv risk approval args hfound hphase with hsame | ⟨resolved, hresolved, hfree⟩
        · have hallowed := h.1.facts i inv hfound
          rw [hphase] at hallowed
          rw [hsame]
          exact hallowed
        · exact ⟨resolved, hresolved, Or.inl hfree⟩
    · cases hstep
  · cases hstep

theorem Kept.execute (h : s.Kept agent instant) (hstep : s.execute i = some s') :
    s'.Kept agent instant := by
  unfold World.execute at hstep
  split at hstep
  · rename_i inv hfound
    split at hstep
    · rename_i risk approval args hphase
      split at hstep
      · cases hstep
        exact h.ends _ hfound
      · cases hstep
        have hpast : ¬inv.phase.past := by
          rw [hphase]
          exact fun h => h
        have hfact := h.1.facts i inv hfound
        rw [hphase] at hfact
        have hkept : (s.goTo i inv (.running args)).Kept agent instant :=
          h.goTo hfound hpast hfact
        obtain ⟨⟨hclaims, hsignals, hfacts, htools⟩, hbudget⟩ := hkept
        refine ⟨⟨hclaims, hsignals, fun other found hother => (hfacts other found hother).grow
          (Grows.same rfl rfl rfl rfl), htools⟩, ⟨hbudget.opened, hbudget.numbered,
            hbudget.counted, hbudget.bounded, hbudget.admitted, ?_, ?_, ?_⟩⟩
        · refine nodup_cons.mpr ⟨fun hmem => ?_, h.2.once⟩
          exact hpast (h.2.past _ hmem inv hfound)
        · intro start hstart
          rcases mem_cons.mp hstart with rfl | hstart
          · rcases h.2.admitted i inv hfound with ⟨result, hended⟩ | hmem
            · rw [hphase] at hended
              cases hended
            · exact hmem
          · exact h.2.covered start hstart
        · intro start hstart found hstarted
          rcases mem_cons.mp hstart with rfl | hstart
          · have hself : (s.goTo i inv (.running args)).invocations i =
                some { inv with phase := .running args } := update_self ..
            have heq := hself.symm.trans hstarted
            cases heq
            trivial
          · exact hbudget.past start hstart found hstarted
    · cases hstep
  · cases hstep

theorem Kept.finish (h : s.Kept agent instant) {result : InvocationResult}
    (hstep : s.finish i result = some s') : s'.Kept agent instant := by
  unfold World.finish at hstep
  split at hstep
  · rename_i inv hfound
    split at hstep
    · cases hstep
      exact h.ends _ hfound
    · cases hstep
  · cases hstep

theorem Kept.fail (h : s.Kept agent instant) {i : Nat} {text : String}
    (hstep : s.fail i text = some s') : s'.Kept agent instant := by
  unfold World.fail at hstep
  split at hstep
  · rename_i inv hfound
    cases hstep
    exact h.ends _ hfound
  · cases hstep

theorem Kept.signal (h : s.Kept agent instant) (name : String) (payload : JsonObject) :
    (s.signal name payload).Kept agent instant := by
  have hgrows : s.Grows (s.signal name payload) :=
    ⟨fun _ _ hid => hid, fun _ => mem_cons_of_mem _, fun _ hmem => hmem,
      fun _ _ hentry => hentry⟩
  obtain ⟨⟨hclaims, hsignals, hfacts, htools⟩, hbudget⟩ := h
  refine ⟨⟨fun path claim hclaim => mem_cons_of_mem _ (hclaims path claim hclaim), ?_,
    fun other found hother => (hfacts other found hother).grow hgrows, htools⟩,
    ⟨hbudget.opened, hbudget.numbered, hbudget.counted, hbudget.bounded, hbudget.admitted,
      hbudget.once, hbudget.covered, hbudget.past⟩⟩
  intro other hother
  rcases mem_append.mp hother with hother | hother
  · exact mem_cons_of_mem _ (hsignals other hother)
  · rw [mem_singleton.mp hother]
    exact mem_cons_self

theorem Kept.restart (h : s.Kept agent instant) : s.restart.Kept agent instant := by
  have hnone : ∀ i inv, s.restart.invocations i = some inv → False := by
    intro i inv hfound
    cases hfound
  constructor
  · exact ⟨h.1.claims, h.1.signals, fun i inv hfound => (hnone i inv hfound).elim,
      fun i inv hfound => (hnone i inv hfound).elim⟩
  · exact ⟨fun _ _ => rfl, h.2.numbered, h.2.counted, h.2.bounded,
      fun i inv hfound => (hnone i inv hfound).elim, h.2.once, h.2.covered,
      fun start _ inv hfound => (hnone start.1 inv hfound).elim⟩

def Phase.enters (agent : Agent) (inv : Invocation) : Prop :=
  (∃ result, inv.phase = .ended result) ∨
    (inv.phase = .classifying ∧ agent.tools inv.name = some inv.tool)

theorem invocations_enter (h : (s.enter inv).invocations i = some found) :
    (i = s.opened ∧ found = inv) ∨ (i ≠ s.opened ∧ s.invocations i = some found) := by
  change update s.invocations s.opened (some inv) i = some found at h
  rcases eq_or_ne i s.opened with rfl | hne
  · rw [update_self] at h
    exact Or.inl ⟨rfl, (Option.some.inj h).symm⟩
  · rw [update_of_ne hne] at h
    exact Or.inr ⟨hne, h⟩

theorem Inv.enter (h : s.Inv agent instant) (henters : Phase.enters agent inv) :
    (s.enter inv).Inv agent instant := by
  have hgrows : s.Grows (s.enter inv) := Grows.same rfl rfl rfl rfl
  refine ⟨h.claims, h.signals, ?_, ?_⟩
  · intro i found hfound
    rcases invocations_enter hfound with ⟨_, rfl⟩ | ⟨_, hfound⟩
    · rcases henters with ⟨result, hphase⟩ | ⟨hphase, _⟩
      · rw [hphase]
        trivial
      · rw [hphase]
        trivial
    · exact (h.facts i found hfound).grow hgrows
  · intro i found hfound
    rcases invocations_enter hfound with ⟨_, rfl⟩ | ⟨_, hfound⟩
    · exact henters.imp id fun h => h.2
    · exact h.tools i found hfound

theorem Budget.opened_enter (h : s.Budget agent) (inv : Invocation) (i : Nat)
    (hi : s.opened + 1 ≤ i) : (s.enter inv).invocations i = none := by
  have hne : i ≠ s.opened := by omega
  change update s.invocations s.opened (some inv) i = none
  rw [update_of_ne hne]
  exact h.opened i (by omega)

theorem Budget.past_enter (h : s.Budget agent) :
    ∀ start ∈ s.started, ∀ found, (s.enter inv).invocations start.1 = some found →
      found.phase.past := by
  intro start hstart found hfound
  have hlt := h.numbered start (h.covered start hstart)
  rcases invocations_enter hfound with ⟨heq, _⟩ | ⟨_, hfound⟩
  · omega
  · exact h.past start hstart found hfound

theorem Budget.enter (h : s.Budget agent) (hended : ∃ result, inv.phase = .ended result) :
    (s.enter inv).Budget agent := by
  refine ⟨h.opened_enter inv, ?_, h.counted, h.bounded, ?_, h.once, h.covered, h.past_enter⟩
  · intro count hcount
    exact Nat.lt_succ_of_lt (h.numbered count hcount)
  · intro i found hfound
    rcases invocations_enter hfound with ⟨_, rfl⟩ | ⟨_, hfound⟩
    · exact Or.inl hended
    · exact h.admitted i found hfound

theorem Budget.count (h : s.Budget agent) {session : Nat}
    (hroom : s.callCount session < (buildInvoker agent).policy.maxToolCalls)
    (hsession : inv.session = session) : ((s.count session).enter inv).Budget agent := by
  subst hsession
  refine ⟨h.opened_enter inv, ?_, ?_, ?_, ?_, h.once, ?_, h.past_enter⟩
  · intro count hcount
    rcases mem_cons.mp hcount with rfl | hcount
    · exact Nat.lt_succ_self _
    · exact Nat.lt_succ_of_lt (h.numbered count hcount)
  · intro session
    change (((s.opened, inv.session) :: s.admitted).filter fun count => count.2 = session).length =
      update s.callCount inv.session (s.callCount inv.session + 1) session
    rcases eq_or_ne session inv.session with rfl | hne
    · rw [update_self, filter_cons_of_pos (by simp), length_cons,
        h.counted inv.session]
    · rw [update_of_ne hne, filter_cons_of_neg (by simpa using Ne.symm hne),
        h.counted session]
  · intro session
    change update s.callCount inv.session (s.callCount inv.session + 1) session ≤ _
    rcases eq_or_ne session inv.session with rfl | hne
    · rw [update_self]
      exact hroom
    · rw [update_of_ne hne]
      exact h.bounded session
  · intro i found hfound
    rcases invocations_enter hfound with ⟨rfl, rfl⟩ | ⟨_, hfound⟩
    · exact Or.inr mem_cons_self
    · exact (h.admitted i found hfound).imp id fun hmem => mem_cons_of_mem _ hmem
  · intro start hstart
    exact mem_cons_of_mem _ (h.covered start hstart)

theorem Inv.count (h : s.Inv agent instant) (session : Nat) :
    (s.count session).Inv agent instant := by
  have hgrows : s.Grows (s.count session) := Grows.same rfl rfl rfl rfl
  exact ⟨h.claims, h.signals, fun i found hfound => (h.facts i found hfound).grow hgrows, h.tools⟩

theorem Kept.invoke (h : s.Kept agent instant) (name : String) (arguments : Args)
    (callId : String) (session : Nat) (scope : Option Path) :
    (s.invoke agent name arguments callId session scope).Kept agent instant := by
  unfold World.invoke
  dsimp only
  split
  · exact ⟨h.1.enter (Or.inl ⟨_, rfl⟩), h.2.enter ⟨_, rfl⟩⟩
  · rename_i hroom
    have hroom := Nat.not_le.mp hroom
    have hcounted := h.1.count session
    split
    · exact ⟨hcounted.enter (Or.inl ⟨_, rfl⟩), h.2.count hroom rfl⟩
    · exact ⟨hcounted.enter (Or.inl ⟨_, rfl⟩), h.2.count hroom rfl⟩
    · exact ⟨hcounted.enter (Or.inl ⟨_, rfl⟩), h.2.count hroom rfl⟩
    · rename_i risk classifyRisk htool
      split
      · exact ⟨hcounted.enter (Or.inl ⟨_, rfl⟩), h.2.count hroom rfl⟩
      · exact ⟨hcounted.enter (Or.inr ⟨rfl, htool⟩), h.2.count hroom rfl⟩

theorem Kept.step {action : Action} (h : s.Kept agent instant) (hmeets : s.Meets agent action)
    (hstep : Tools.step agent instant action s = some s') : s'.Kept agent instant := by
  cases action with
  | invoke name arguments callId session scope =>
    cases hstep
    exact h.invoke name arguments callId session scope
  | classify i => exact h.classify hmeets hstep
  | identify i fresh => exact h.identify hmeets hstep
  | request i logged => exact h.request hstep
  | wake i => exact h.wake hmeets hstep
  | answer i result => exact h.answer hstep
  | expire i => exact h.expire hstep
  | journal i => exact h.journal hmeets hstep
  | resolve i fetched => exact h.resolve hmeets hstep
  | execute i => exact h.execute hstep
  | finish i result => exact h.finish hstep
  | fail i text => exact h.fail hstep
  | signal name payload =>
    cases hstep
    exact h.signal name payload
  | restart =>
    cases hstep
    exact h.restart

theorem Kept.guarded {action : Action} (h : s'.Kept agent instant) :
    Guarded agent instant ⟨s, action, s'⟩ := by
  refine ⟨fun i inv args _ hfound hphase => ⟨?_, ?_⟩, h.2.startedIn_le⟩
  · rcases h.1.tools i inv hfound with ⟨result, hended⟩ | htool
    · rw [hphase] at hended
      cases hended
    · exact htool
  · have hallowed := h.1.facts i inv hfound
    rw [hphase] at hallowed
    exact hallowed

theorem kept_init : init.Kept agent instant where
  left := {
    claims := fun _ _ hclaim => nomatch hclaim
    signals := fun _ hsignal => nomatch hsignal
    facts := fun _ _ hfound => nomatch hfound
    tools := fun _ _ hfound => nomatch hfound }
  right := {
    opened := fun _ _ => rfl
    numbered := fun _ hcount => nomatch hcount
    counted := fun _ => rfl
    bounded := fun _ => Nat.zero_le _
    admitted := fun _ _ hfound => nomatch hfound
    once := nodup_nil
    covered := fun _ hstart => nomatch hstart
    past := fun _ hstart => nomatch hstart }

end

end World

/-- In every run whose moves leave the gate whole, no call is executed above what was
approved, and no session starts more executions than its policy allows. -/
theorem no_call_above_approved (agent : Agent) (instant : String → Option String)
    (actions : List Action) (ms : List (Taken World Action))
    (hrun : moves (step agent instant) actions World.init = some ms)
    (hmeets : ∀ m ∈ ms, m.before.Meets agent m.act) :
    ∀ m ∈ ms, World.Guarded agent instant m := by
  have hstep : ∀ (s : World) (action : Action) (s' : World), s.Kept agent instant →
      step agent instant action s = some s' → s.Meets agent action →
      World.Guarded agent instant ⟨s, action, s'⟩ ∧ s'.Kept agent instant := by
    intro s action s' hkept htaken hmeets
    have hnext := hkept.step hmeets htaken
    exact ⟨hnext.guarded, hnext⟩
  exact fine_of_meets hstep World.kept_init hrun hmeets

section

def mailer (required : ToolRisk) (risk : ToolRisk) : Agent where
  tools _ := some (.callable risk none)
  approvalHandler := some .direct
  toolPolicy := none
  approvalRequiredRisk := some required
  blobStore := true

def noInstant (_ : String) : Option String := none

theorem approved_plain :
    ApprovalDecision.approved = .modified ↔ (none : Option Args).isSome = true := by decide

def approved : ApprovalResult := ⟨.approved, none, none, none, none, approved_plain⟩

def sending : List Action :=
  [.invoke "mail" [] "c" 0 (some []), .classify 0, .answer 0 approved, .journal 0,
    .resolve 0 fun _ => none, .execute 0]

theorem no_call_above_approved_sending :
    ∃ ms, moves (step (mailer .high .high) noInstant) sending World.init = some ms ∧
      ms.length = 6 ∧ ∀ m ∈ ms, World.Guarded (mailer .high .high) noInstant m := by
  refine ⟨_, rfl, rfl, no_call_above_approved (mailer .high .high) noInstant sending _ rfl ?_⟩
  intro m hm
  rcases mem_cons.mp hm with rfl | hm
  · trivial
  rcases mem_cons.mp hm with rfl | hm
  · intro inv _ _ hsafe
    cases hsafe
  rcases mem_cons.mp hm with rfl | hm
  · trivial
  rcases mem_cons.mp hm with rfl | hm
  · intro inv risk key result hfound hphase
    cases hfound
    cases hphase
    constructor
    · intro scope entry _ hentry
      cases hentry
    · intro args hargs
      cases hargs
  rcases mem_cons.mp hm with rfl | hm
  · intro inv risk approval args hfound hphase
    cases hfound
    cases hphase
    exact Or.inl rfl
  rcases mem_cons.mp hm with rfl | hm
  · trivial
  cases hm

def unasked : List Action :=
  [.invoke "mail" [] "c" 0 (some []), .classify 0, .resolve 0 fun _ => none, .execute 0]

/-- A call is executed that needs approval and that nobody was asked for. -/
theorem executed_unasked :
    ¬∀ (agent : Agent) (instant : String → Option String) (actions : List Action)
      (ms : List (Taken World Action)),
      moves (step agent instant) actions World.init = some ms →
      ∀ m ∈ ms, World.Guarded agent instant m := by
  intro h
  have hlast := h (mailer .safe .safe) noInstant unasked _ rfl _
    (getLast_mem (cons_ne_nil _ _))
  obtain ⟨_, risk, hrisk, hfree | ⟨asked, key, result, hdecided, _⟩⟩ :=
    hlast.allowed 0 _ [] rfl rfl rfl
  · cases hrisk
    exact hfree (ToolRisk.le_refl .safe)
  · cases key with
    | request id => exact nomatch hdecided.1
    | call id => exact nomatch hdecided.2

end

end Substrate.Tools
