import Substrate.Lib.Fence
import Substrate.Store.Calls

/-!
Fencing. A worker holds a run by its lease, and every fenced command compares the lease's
epoch and worker with the run's row and asks for status running.
-/

namespace Substrate

open Lib List Option Bool

def RunRow.holder (row : RunRow) : Option String :=
  if row.status = .running then row.workerId else none

namespace Store

/-- The leases a call grants. -/
def Call.grants (call : Call) (s : Store) : List Lease :=
  match call.op with
  | .lease worker capacity leaseFor now =>
    match s.lease call.env worker capacity leaseFor now with
    | .ok (_, leases) => leases
    | .error _ => []
  | _ => []

/-- The lease under which a call has an effect. -/
def Call.acts (call : Call) (s : Store) : List Lease :=
  match call.op with
  | .commit lease _ | .appendEphemeral lease _ =>
    match s.perform call.env call.op with
    | .ok _ => [lease]
    | .error _ => []
  | .heartbeat lease leaseFor now =>
    if (s.heartbeat lease leaseFor now).2 = .lost then [] else [lease]
  | _ => []

/-- The store, the leases granted so far and the leases acted under so far. -/
structure Watched where
  store : Store := init
  granted : List Lease := []
  acted : List Lease := []

def watch (call : Call) (w : Watched) : Watched :=
  let s := exec call w.store
  let stored (lease : Lease) : Bool := (s.runs.get? lease.runId).isSome
  { store := s
    granted := (w.granted ++ call.grants w.store).filter stored
    acted := (w.acted ++ call.acts w.store).filter stored }

def leasesOf (leases : List Lease) (runId : RunId) : List Lease :=
  leases.filter fun lease => lease.runId = runId

/-- The lease is its run's latest grant, to the same worker, and the run is
still running. -/
def HoldsLatest (w : Watched) (lease : Lease) : Prop :=
  (∃ row, w.store.runs.get? lease.runId = some row ∧ row.status = .running) ∧
    ∃ grant, (leasesOf w.granted lease.runId).getLast? = some grant ∧
      grant.epoch = lease.epoch ∧ grant.workerId = lease.workerId

def Lease.grant (lease : Lease) : Nat × String := (lease.epoch, lease.workerId)

def fenceOf (s : Store) (runId : RunId) (grants acts : List (Nat × String)) :
    Fence String where
  epoch := ((s.runs.get? runId).map (·.epoch)).getD 0
  holder := (s.runs.get? runId).bind RunRow.holder
  grants := grants
  acts := acts

variable {s s' : Store} {runId : RunId} {row row' : RunRow} {L : Licence} {m : Move}
    {lease : Lease} {env : TxEnv} {leaseFor now : Time} {w : Watched}

theorem RowStep.fence (h : RowStep L m runId row row')
    (hgrant : ∀ worker expires now other, m ≠ .claim worker expires now other) :
    row'.epoch = row.epoch ∧ (row'.holder = row.holder ∨ row'.holder = none) := by
  cases h with
  | same | flagged | extended => exact ⟨rfl, Or.inl rfl⟩
  | queued hstatus =>
    rw [RunRow.queued, if_pos hstatus]
    exact ⟨rfl, Or.inr rfl⟩
  | claimed worker expires now hm => exact absurd hm (hgrant worker expires now runId)
  | resumed | reclaimed | slept | parked => exact ⟨rfl, Or.inr rfl⟩
  | ended env read how =>
    refine ⟨rfl, Or.inr ?_⟩
    cases how <;> rfl

def Watched.fence (w : Watched) (runId : RunId) : Fence String :=
  fenceOf w.store runId ((leasesOf w.granted runId).map Lease.grant)
    ((leasesOf w.acted runId).map Lease.grant)

structure Tracked (w : Watched) : Prop where
  sound : ∀ runId, (w.fence runId).Sound
  stored : ∀ runId, w.store.runs.get? runId = none →
    leasesOf w.granted runId = [] ∧ leasesOf w.acted runId = []

theorem Tracked.holds (h : Tracked w) (hrow : w.store.runs.get? lease.runId = some row)
    (hcurrent : lease.current row = true) : HoldsLatest w lease := by
  simp only [Lease.current, and_eq_true, decide_eq_true_eq] at hcurrent
  obtain ⟨⟨hrun, hepoch⟩, hworker⟩ := hcurrent
  have hholder : (w.fence lease.runId).holder = some lease.workerId := by
    simp [Watched.fence, fenceOf, hrow, RunRow.holder, hrun, hworker]
  have hlatest := (h.sound lease.runId).latest lease.workerId hholder
  have hlast : ((leasesOf w.granted lease.runId).map Lease.grant).getLast? =
      some (row.epoch, lease.workerId) := by
    simpa [Watched.fence, fenceOf, hrow] using hlatest
  rw [List.getLast?_map, map_eq_some_iff] at hlast
  obtain ⟨grant, hgrant, heq⟩ := hlast
  obtain ⟨hgrantEpoch, hgrantWorker⟩ := Prod.mk.inj heq
  exact ⟨⟨row, hrow, hrun⟩, grant, hgrant, hgrantEpoch.trans hepoch, hgrantWorker⟩

private theorem Tracked.fenced (h : Tracked w) (lease : Lease) :
    HoldsLatest w lease ∨
      (w.store.runs.get? lease.runId).filter lease.current = none := by
  cases hrow : (w.store.runs.get? lease.runId).filter lease.current with
  | none => exact Or.inr rfl
  | some row =>
    obtain ⟨hget, hcurrent⟩ := filter_eq_some_iff.mp hrow
    exact Or.inl (h.holds hget hcurrent)

/-- Worker `v` loses the run to worker `w` when its lease expires, and then
tries to commit. -/
private def reclaimed : Watched :=
  [⟨.plain 0, .createRun { agent := "agent", runId := some "r" } []⟩,
   ⟨.plain 0, .lease "v" 1 10 0⟩,
   ⟨.plain 20, .lease "w" 1 10 20⟩,
   ⟨.plain 21, .commit { firstLease "r" with workerId := "v" } { ack := ["m"] }⟩,
   ⟨.plain 21, .commit { firstLease "r" with epoch := 2 } { ack := ["m"] }⟩].foldl
    (fun w call => watch call w) {}

end Store

end Substrate
