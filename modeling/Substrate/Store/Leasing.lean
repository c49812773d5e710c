import Mathlib.Data.String.Basic
import Substrate.Lib.Ranking
import Substrate.Store.Calls

/-!
Which runs a call of `lease` claims. The claim query is the general ranking of pending runs by
tenant, so what holds of that ranking holds of the runs that are claimed.
-/

namespace Substrate.Store

open Lib List

/-- The columns the claim query orders by within a tenant: priority descending, enqueue time
and run id. -/
def orderKey (row : RunId × RunRow) : Natᵒᵈ ×ₗ Time ×ₗ RunId :=
  toLex (.toDual row.2.priority.value, toLex (row.2.enqueuedAt, row.1))

def pendingRuns (s : Store) : List (RunId × RunRow) :=
  s.runs.rows.filter fun row => decide (row.2.status = .pending)

def rankedKey (s : Store) (row : RunId × RunRow) : ClaimKey :=
  { claimKey row with rank := claimRank s.pendingRuns row }

def claimedOf (s : Store) (claimed : List RunId) (tenant : Tenant) : Nat :=
  claimed.countP fun runId => (s.runs.get? runId).any fun row => decide (row.tenant = tenant)

/-- What `lease` promises of the runs it claims among the pending ones. -/
structure ClaimedFairly (s : Store) (capacity : Int) (claimed : List RunId) : Prop where
  nodup : claimed.Nodup
  pending : ∀ runId ∈ claimed, ∃ row, (runId, row) ∈ s.pendingRuns
  all : claimed.length = min capacity.toNat s.pendingRuns.length
  first : ∀ a ∈ s.pendingRuns, ∀ b ∈ s.pendingRuns, a.2.tenant = b.2.tenant →
    orderKey a ≤ orderKey b → b.1 ∈ claimed → a.1 ∈ claimed
  fair : ∀ a ∈ s.pendingRuns, a.1 ∉ claimed → ∀ tenant,
    s.claimedOf claimed tenant ≤ s.claimedOf claimed a.2.tenant + 1

variable {s s' : Store} {env : TxEnv} {worker : String} {capacity : Int}
    {leaseFor now expires : Time} {leases : List Lease}

theorem then_isLE {α : Type*} [LinearOrder α] (a b : α) (next : Ordering) :
    ((compare a b).then next).isLE = true ↔ a < b ∨ a = b ∧ next.isLE = true := by
  rcases lt_trichotomy a b with hlt | heq | hgt
  · simp [compare_lt_iff_lt.mpr hlt, hlt]
  · simp [heq]
  · simp [compare_gt_iff_gt.mpr hgt, hgt.not_gt, hgt.ne']

theorem within_iff (a b : RunId × RunRow) :
    ((claimKey a).within (claimKey b)).isLE = true ↔ orderKey a ≤ orderKey b := by
  unfold ClaimKey.within
  rw [then_isLE, then_isLE, orderKey, orderKey, Prod.Lex.toLex_le_toLex, Prod.Lex.toLex_le_toLex]
  have hid : (compare (claimKey a).runId (claimKey b).runId).isLE = true ↔ a.1 ≤ b.1 := by
    rw [← compare_le_iff_le (a := a.1)]
    exact Ordering.isLE_iff_ne_gt
  rw [hid, OrderDual.toDual_lt_toDual, OrderDual.toDual_inj, eq_comm (a := (claimKey b).priority)]
  rfl

theorem claimRank_eq (rows : List (RunId × RunRow)) (row : RunId × RunRow) :
    claimRank rows row = Ranking.place (fun row => row.2.tenant) orderKey rows row := by
  apply countP_congr
  intro other _
  simp only [Bool.and_eq_true, decide_eq_true_eq, within_iff]

theorem candidates_eq (s : Store) (capacity : Int) :
    s.candidates capacity =
      (Ranking.taken (fun row => row.2.tenant) orderKey capacity.toNat s.pendingRuns).map
        Prod.fst := by
  have hsort : (Ranking.sorted (fun row => row.2.tenant) orderKey s.pendingRuns).map s.rankedKey =
      (s.pendingRuns.map s.rankedKey).insertionSort ClaimKey.before := by
    apply map_insertionSort
    intro a _ b _
    change _ ↔ ((compare (claimRank s.pendingRuns a) (claimRank s.pendingRuns b)).then
      ((claimKey a).within (claimKey b))).isLE = true
    rw [then_isLE, within_iff, claimRank_eq, claimRank_eq]
    exact Prod.Lex.toLex_le_toLex
  change ((insertionSort ClaimKey.before (s.pendingRuns.map s.rankedKey)).take _).map
    ClaimKey.runId = _
  rw [← hsort, Ranking.taken, ← map_take, map_map]
  rfl

theorem mem_pendingRuns {row : RunId × RunRow} :
    row ∈ s.pendingRuns ↔ s.runs.get? row.1 = some row.2 ∧ row.2.status = .pending := by
  rw [pendingRuns, mem_filter, decide_eq_true_eq, ← Table.mem_rows_iff]

theorem nodup_pendingRuns (s : Store) : (s.pendingRuns.map Prod.fst).Nodup :=
  s.runs.nodup.sublist (filter_sublist.map Prod.fst)

theorem orderKey_inj {a b : RunId × RunRow} (ha : a ∈ s.pendingRuns) (hb : b ∈ s.pendingRuns)
    (h : orderKey a = orderKey b) : a = b := by
  have hid : a.1 = b.1 := congrArg (fun key => (ofLex (ofLex key).2).2) h
  have hrow := (mem_pendingRuns.mp ha).1
  rw [hid, (mem_pendingRuns.mp hb).1] at hrow
  exact Prod.ext hid (Option.some.inj hrow).symm

theorem claimedOf_eq {rows : List (RunId × RunRow)} (hrows : ∀ row ∈ rows, row ∈ s.pendingRuns)
    (tenant : Tenant) : s.claimedOf (rows.map Prod.fst) tenant =
      rows.countP fun row => decide (row.2.tenant = tenant) := by
  rw [claimedOf, countP_map]
  apply countP_congr
  intro row hrow
  simp [(mem_pendingRuns.mp (hrows row hrow)).1]

theorem candidates_fair (s : Store) (capacity : Int) :
    ClaimedFairly s capacity (s.candidates capacity) := by
  have hnodup : s.pendingRuns.Nodup := (nodup_pendingRuns s).of_map _
  have hkey := fun a (ha : a ∈ s.pendingRuns) b (hb : b ∈ s.pendingRuns) => orderKey_inj ha hb
  rw [candidates_eq]
  generalize htaken : Ranking.taken (fun row : RunId × RunRow => row.2.tenant) orderKey
    capacity.toNat s.pendingRuns = taken
  have hpending : ∀ row ∈ taken, row ∈ s.pendingRuns := by
    intro row hrow
    rw [← htaken] at hrow
    exact Ranking.mem_of_mem_taken hrow
  have hmem : ∀ row ∈ s.pendingRuns, row.1 ∈ taken.map Prod.fst ↔ row ∈ taken := by
    intro row hrow
    constructor
    · intro hid
      obtain ⟨other, hother, heq⟩ := mem_map.mp hid
      have hsame := (mem_pendingRuns.mp (hpending other hother)).1
      rw [heq, (mem_pendingRuns.mp hrow).1] at hsame
      rwa [Prod.ext heq.symm (Option.some.inj hsame)]
    · exact fun h => mem_map.mpr ⟨row, h, rfl⟩
  constructor
  · refine Nodup.map_on ?_ (htaken ▸ Ranking.nodup_taken hnodup)
    intro a ha b hb heq
    exact inj_on_of_nodup_map (nodup_pendingRuns s) (hpending a ha) (hpending b hb) heq
  · intro runId hid
    obtain ⟨row, hrow, rfl⟩ := mem_map.mp hid
    exact ⟨row.2, hpending row hrow⟩
  · rw [length_map, ← htaken, Ranking.length_taken]
  · intro a ha b hb hsame hle hclaimed
    rw [hmem b hb, ← htaken] at hclaimed
    rw [hmem a ha, ← htaken]
    exact Ranking.first_taken hkey ha hclaimed hsame hle
  · intro a ha hleft tenant
    rw [hmem a ha, ← htaken] at hleft
    rw [claimedOf_eq hpending, claimedOf_eq hpending, ← htaken]
    exact Ranking.taken_fair hkey hnodup ha hleft tenant

theorem claimRuns_granted (runIds : List RunId) : ∀ {s : Store}, runIds.Nodup →
    (∀ runId ∈ runIds, (s.runs.get? runId).isSome) →
      (claimRuns env worker expires now s runIds).2.map (·.runId) = runIds ∧
        ∀ runId, (claimRuns env worker expires now s runIds).1.runs.get? runId =
          if runId ∈ runIds then
            (s.runs.get? runId).map (·.claimed worker expires now)
          else s.runs.get? runId := by
  induction runIds with
  | nil => exact fun _ _ => ⟨rfl, fun _ => rfl⟩
  | cons first rest ih =>
    intro s hnodup hstored
    obtain ⟨hfresh, hnodup⟩ := nodup_cons.mp hnodup
    have hclaim : ∀ runId, (s.claimOne worker expires now first).runs.get? runId =
        if runId = first then (s.runs.get? runId).map (·.claimed worker expires now)
        else s.runs.get? runId := by
      intro runId
      exact Table.get?_modify ..
    have hrest : ∀ runId ∈ rest,
        ((s.claimOne worker expires now first).runs.get? runId).isSome := by
      intro runId hmem
      have hne : runId ≠ first := fun heq => hfresh (heq ▸ hmem)
      rw [hclaim, if_neg hne]
      exact hstored runId (mem_cons_of_mem _ hmem)
    obtain ⟨hids, hrows⟩ := ih hnodup hrest
    obtain ⟨row, hrow⟩ := Option.isSome_iff_exists.mp (hstored first mem_cons_self)
    have hfirst : (s.claimOne worker expires now first).runs.get? first =
        some (row.claimed worker expires now) := by
      rw [hclaim, if_pos rfl, hrow]
      rfl
    unfold claimRuns
    simp only [hfirst]
    refine ⟨?_, fun runId => ?_⟩
    · rw [map_cons, hids]
      rfl
    · rw [hrows, hclaim]
      by_cases hmem : runId ∈ rest
      · have hne : runId ≠ first := fun heq => hfresh (heq ▸ hmem)
        simp [hmem, hne]
      · by_cases heq : runId = first <;> simp [hmem, heq, hfresh]

/-- A call of `lease` with room reclaims, wakes and sweeps, then claims as many pending runs as
it has room for: the first ones of each tenant, and fairly across tenants. -/
theorem lease_fair (h : s.lease env worker capacity leaseFor now = .ok (s', leases)) :
    ∃ t, ((s.reclaim now).wakeTimers env now).sweepDeadlines env now = .ok t ∧
      ClaimedFairly t capacity (leases.map (·.runId)) ∧
      ∀ runId, s'.runs.get? runId =
        if runId ∈ leases.map (·.runId) then
          (t.runs.get? runId).map (·.claimed worker (now + leaseFor) now)
        else t.runs.get? runId := by
  obtain ⟨t, hswept, h⟩ := bind_ok_iff.mp h
  refine ⟨t, hswept, ?_⟩
  have hfair : ClaimedFairly t capacity (t.candidates capacity) := candidates_fair t capacity
  by_cases hcapacity : capacity ≤ 0
  · rw [if_pos hcapacity] at h
    cases h
    have hnone : t.candidates capacity = [] := by
      apply eq_nil_of_length_eq_zero
      rw [hfair.all, Int.toNat_of_nonpos hcapacity, Nat.zero_min]
    rw [hnone] at hfair
    exact ⟨hfair, fun _ => rfl⟩
  · rw [if_neg hcapacity] at h
    injection h with h
    have hstored : ∀ runId ∈ (t.dropLive now).candidates capacity,
        ((t.dropLive now).runs.get? runId).isSome := by
      intro runId hmem
      obtain ⟨row, hrow, _⟩ := mem_candidates hmem
      exact Option.isSome_of_eq_some hrow
    obtain ⟨hids, hrows⟩ :=
      @claimRuns_granted env worker now (now + leaseFor) _ _ (candidates_nodup _ _) hstored
    rw [h] at hids hrows
    rw [hids]
    exact ⟨hfair, hrows⟩

def twoPending : Store where
  runs := (Table.empty.insert "a" (RunSpec.row { agent := "x", tenant := "t" } "a" 1)).insert "b"
    (RunSpec.row { agent := "y", tenant := "u" } "b" 2)

theorem lease_fair_two : ∃ s' leases, twoPending.lease (.plain 5) "w" 1 100 5 = .ok (s', leases) ∧
    leases.map (·.runId) = ["a"] ∧
      ∃ t, ClaimedFairly t 1 (leases.map (·.runId)) := by
  have h : twoPending.lease (.plain 5) "w" 1 100 5 = .ok (_, _) := rfl
  obtain ⟨t, _, hfair, _⟩ := lease_fair h
  exact ⟨_, _, h, rfl, t, hfair⟩

end Substrate.Store
