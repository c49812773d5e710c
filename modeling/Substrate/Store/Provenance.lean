import Substrate.Store.Erase
import Substrate.Store.Termination
import Substrate.Store.Wakeup

/-!
Whose rows the tables hold. A run, a message and a dead letter have a tenant column.
-/

namespace Substrate.Store

open Lib List Option

def Op.caller : Op → RunId
  | .commit held _ => held.runId
  | .consume runId _ _ => runId
  | _ => ""

/-- The store, with what was noted about its rows: the tenant of a run, the run
that made a claim, and the tenants of an acknowledged id. -/
structure Archive where
  store : Store := init
  tenants : List (RunId × Tenant) := []
  claimants : List (String × RunId) := []
  readers : List ((Address × String) × List Tenant) := []

namespace Archive

def tenantOf (w : Archive) (runId : RunId) : Option Tenant := Table.latest w.tenants runId

def claimTenant (w : Archive) (claimId : String) : Option Tenant :=
  (Table.latest w.claimants claimId).bind w.tenantOf

def readersOf (w : Archive) (key : Address × String) : List Tenant :=
  (Table.latest w.readers key).getD []

/-- The tenants of an id that a run acknowledges: the run's, and that of the
message in the inbox. -/
def readersNow (w : Archive) (runId : RunId) (key : Address × String) : List Tenant :=
  (w.tenantOf runId).toList ++
    (w.store.inbox.filter fun row => row.agent = key.1 && row.msg.id = key.2).map (·.tenant)

/-- One call. -/
def step (call : Call) (w : Archive) : Archive :=
  let s := exec call w.store
  { store := s
    tenants := Table.note w.store.runs s.runs (fun _ row => row.tenant) w.tenants
    claimants := Table.note w.store.claims s.claims (fun _ _ => call.op.caller) w.claimants
    readers := Table.note w.store.processed s.processed
      (fun key _ => w.readersNow call.op.caller key) w.readers }

abbrev Reachable (w : Archive) : Prop := Steps step (fun _ _ => True) {} w

structure Traceless (w : Archive) (tenant : Tenant) : Prop where
  runs : ∀ runId row, w.store.runs.get? runId = some row → row.tenant ≠ tenant
  events : ∀ event ∈ w.store.events, w.tenantOf event.runId ≠ some tenant
  wake : ∀ wait ∈ w.store.wake, w.tenantOf wait.1 ≠ some tenant
  signals : ∀ signal ∈ w.store.signals, w.tenantOf signal.runId ≠ some tenant
  claims : ∀ claimId payload, w.store.claims.get? claimId = some payload →
    w.claimTenant claimId ≠ some tenant
  spawns : ∀ effectId child, w.store.spawns.get? effectId = some child →
    w.tenantOf child ≠ some tenant
  runAccounts : ∀ link ∈ w.store.runAccounts, w.tenantOf link.1 ≠ some tenant
  inbox : ∀ row ∈ w.store.inbox, row.tenant ≠ tenant
  processed : ∀ key at', w.store.processed.get? key = some at' → tenant ∉ w.readersOf key
  deadLetters : ∀ row ∈ w.store.deadLetters, row.tenant ≠ tenant

def Has (w : Archive) (tenant : Tenant) (runId : RunId) : Prop :=
  ∃ row, w.store.runs.get? runId = some row ∧ row.tenant = tenant

/-- Runs of the tenant, and of no other, are stored at the address. -/
def Alone (w : Archive) (tenant : Tenant) (address : Address) : Prop :=
  (∃ runId row, w.store.runs.get? runId = some row ∧ row.agent = address ∧
      row.tenant = tenant) ∧
    ∀ runId row, w.store.runs.get? runId = some row → row.agent = address → row.tenant = tenant

/-- What an erasure of the tenant reaches: nothing was claimed for it, its signals, spawn records
and account links name runs it still has, and the addresses of its mail are its own. -/
structure Reached (w : Archive) (tenant : Tenant) : Prop where
  claims : ∀ claimId payload, w.store.claims.get? claimId = some payload →
    w.claimTenant claimId ≠ some tenant
  signals : ∀ signal ∈ w.store.signals, w.tenantOf signal.runId = some tenant →
    w.Has tenant signal.runId
  spawns : ∀ effectId child, w.store.spawns.get? effectId = some child →
    w.tenantOf child = some tenant → w.Has tenant child
  runAccounts : ∀ link ∈ w.store.runAccounts, w.tenantOf link.1 = some tenant →
    w.Has tenant link.1
  inbox : ∀ row ∈ w.store.inbox, row.tenant = tenant → w.Alone tenant row.agent
  processed : ∀ key at', w.store.processed.get? key = some at' → tenant ∈ w.readersOf key →
    w.Alone tenant key.1
  deadLetters : ∀ row ∈ w.store.deadLetters, row.tenant = tenant → w.Alone tenant row.agent

/-- Stored runs are noted with their tenant, and what is keyed by a run in the
journal and among the registrations belongs to a stored run. -/
structure Kept (w : Archive) : Prop where
  tenants : ∀ runId row, w.store.runs.get? runId = some row → w.tenantOf runId = some row.tenant
  events : ∀ event ∈ w.store.events, (w.store.runs.get? event.runId).isSome
  wake : ∀ wait ∈ w.store.wake, (w.store.runs.get? wait.1).isSome

end Archive

def Journalled (s : Store) : Prop :=
  ∀ event ∈ s.events, (s.runs.get? event.runId).isSome

variable {s : Store} {runId : RunId}

private theorem append_events {env : TxEnv} {entry : NewEntry} {event : EventRow}
    (h : event ∈ (s.append env runId entry).1.events) :
    event ∈ s.events ∨ event.runId = runId := by
  unfold append at h
  cases hfind : s.findDedup runId entry.dedupKey with
  | some row =>
    rw [hfind] at h
    exact Or.inl h
  | none =>
    rw [hfind] at h
    have hinsert : event ∈ (s.insertEvent env runId entry).events := by
      cases hspend : entry.spend with
      | none => simpa only [hspend] using h
      | some cost => simpa only [hspend, charge] using h
    rcases mem_append.mp hinsert with hold | hnew
    · exact Or.inl hold
    · exact Or.inr (by rw [mem_singleton.mp hnew])

private theorem journalled_move {L : Licence} {m : Move} (h : Journalled s) (hok : m.Ok L s) :
    Journalled (m.apply s) := by
  have hstored : ∀ runId, (s.runs.get? runId).isSome → ((m.apply s).runs.get? runId).isSome :=
    fun runId => Moves.keeps_stored (Steps.single m hok)
  have hsame : (m.apply s).events = s.events → Journalled (m.apply s) := by
    intro hevents event hevent
    rw [hevents] at hevent
    exact hstored _ (h event hevent)
  cases m with
  | write env runId entry =>
    intro event hevent
    rcases mem_append.mp hevent with hold | hnew
    · exact hstored _ (h event hold)
    · rw [mem_singleton.mp hnew]
      exact hstored _ hok.1
  | finish env runId row how =>
    intro event hevent
    change event ∈ ((s.close env runId how).reportEnd runId row how).events at hevent
    rw [reportEnd_events] at hevent
    obtain ⟨row', hrow', _⟩ := hok
    rcases append_events hevent with hold | hnew
    · exact hstored _ (h event hold)
    · rw [hnew]
      exact hstored _ (isSome_of_eq_some hrow')
  | dropLive now =>
    intro event hevent
    exact hstored _ (h event (mem_filter.mp hevent).1)
  | _ =>
    apply hsame
    apply events_kept <;> intros <;> intro heq <;> cases heq

theorem journalled_exec (h : Journalled s) (call : Call) : Journalled (exec call s) := by
  unfold exec
  cases hrun : s.perform call.env call.op with
  | error e => exact h
  | ok s' =>
    cases hdeletes : call.op.deletes with
    | true =>
      obtain ⟨gone, hforgets⟩ := perform_forgets hdeletes hrun
      intro event hevent
      rw [hforgets.events, mem_filter] at hevent
      obtain ⟨row, hrow⟩ := isSome_iff_exists.mp (h event hevent.1)
      rw [hforgets.runs, hrow]
      simpa using hevent.2
    | false =>
      exact Steps.invariant (P := Journalled) (fun _ _ ht hok => journalled_move ht hok)
        (perform_moves_any hdeletes hrun).moves h

theorem exec_tenant (call : Call) {row row' : RunRow} (hrow : s.runs.get? runId = some row)
    (hrow' : (exec call s).runs.get? runId = some row') : row'.tenant = row.tenant := by
  unfold exec at hrow'
  cases hrun : s.perform call.env call.op with
  | error e =>
    rw [hrun] at hrow'
    rw [Option.some.inj (hrow.symm.trans hrow')]
  | ok s' =>
    rw [hrun] at hrow'
    cases hdeletes : call.op.deletes with
    | true =>
      obtain ⟨gone, hforgets⟩ := perform_forgets hdeletes hrun
      simp only at hrow'
      rw [hforgets.runs, hrow, filter_eq_some_iff] at hrow'
      rw [Option.some.inj hrow'.1]
    | false =>
      obtain ⟨new, hnew, hbirth⟩ :=
        (perform_moves_any hdeletes hrun).moves.keeps_run hrow
      rw [Option.some.inj (hrow'.symm.trans hnew)]
      exact (congrArg RunRow.tenant hbirth :)

namespace Archive

theorem tenantOf_step (w : Archive) (call : Call) (runId : RunId) :
    (w.step call).tenantOf runId =
      ((((exec call w.store).runs.get? runId).filter fun _ =>
        (w.store.runs.get? runId).isNone).map (·.tenant)).or (w.tenantOf runId) :=
  Table.latest_note w.store.runs (exec call w.store).runs (fun _ row => row.tenant) w.tenants runId

variable {w : Archive}

theorem kept_step (hawake : Awake w.store) (h : Kept w) (call : Call) :
    Kept (w.step call) where
  tenants := by
    intro runId row hrow
    change (exec call w.store).runs.get? runId = some row at hrow
    rw [tenantOf_step, hrow]
    cases hold : w.store.runs.get? runId with
    | none => rfl
    | some old =>
      rw [exec_tenant call hold hrow]
      exact h.tenants runId old hold
  events := journalled_exec h.events call
  wake := by
    rintro ⟨runId, name⟩ hwait
    obtain ⟨row, hrow, _⟩ := (awake_exec hawake call).registered runId name hwait
    exact isSome_of_eq_some hrow

theorem reachable_step (h : Reachable w) (call : Call) : Reachable (w.step call) :=
  Steps.trans h (Steps.single call trivial)

theorem kept_reachable (h : Reachable w) : Kept w := by
  have hboth : Awake w.store ∧ Kept w := by
    refine Steps.invariant (P := fun w => Awake w.store ∧ Kept w) ?_ h ⟨awake_init, ?_⟩
    · intro w call hw _
      exact ⟨awake_exec hw.1 call, kept_step hw.1 hw.2 call⟩
    · constructor
      · intro runId row hrow
        cases hrow
      · intro event hevent
        cases hevent
      · intro wait hwait
        cases hwait
  exact hboth.2

end Archive

end Substrate.Store
