import Substrate.Store.Provenance
import Substrate.Store.Sequence

/-!
The records of a run. Its row keeps beside the status who works on the run and until when, what
it sleeps on, when it started and how it ended; every statement that moves the status moves
these with it. Its journal only grows, but for live output.
-/

namespace Substrate

open Lib List

/-- The columns of a row agree with its status. -/
structure RunRow.Whole (row : RunRow) : Prop where
  worker : row.workerId.isSome = decide (row.status = .running)
  lease : row.leaseExpiresAt.isSome = decide (row.status = .running)
  sleep : (row.wake.isSome || row.wakeAt.isSome) = decide (row.status = .suspended)
  ended : row.terminatedAt.isSome = row.status.isTerminal
  result : row.result.map (·.status) = if row.status.isTerminal then some row.status else none
  attempts : row.attempt = row.epoch
  started : row.startedAt.isSome = decide (0 < row.epoch)

namespace Store

theorem RowStep.whole {L : Licence} {m : Move} {runId : RunId} {row row' : RunRow}
    (h : RowStep L m runId row row') (hrow : row.Whole) : row'.Whole := by
  obtain ⟨hworker, hlease, hsleep, hended, hresult, hattempts, hstarted⟩ := hrow
  cases h with
  | same => exact ⟨hworker, hlease, hsleep, hended, hresult, hattempts, hstarted⟩
  | flagged => exact ⟨hworker, hlease, hsleep, hended, hresult, hattempts, hstarted⟩
  | queued hstatus =>
    rw [RunRow.queued, if_pos hstatus]
    constructor <;> simp_all [RunStatus.isTerminal]
  | reclaimed now hm hstatus => constructor <;> simp_all [RunStatus.isTerminal]
  | extended expires hm hstatus => constructor <;> simp_all [RunStatus.isTerminal]
  | claimed worker expires now hm hstatus =>
    constructor <;> simp_all [RunRow.claimed, RunStatus.isTerminal]
  | slept env wake hm hstatus => constructor <;> simp_all [RunRow.asleep, RunStatus.isTerminal]
  | resumed env wake hm hstatus =>
    constructor <;> simp_all [RunRow.asleep, RunRow.queued, RunStatus.isTerminal]
  | parked until' hm hstatus => constructor <;> simp_all [RunRow.parked, RunStatus.isTerminal]
  | ended env read how =>
    have hends : how.status.isTerminal = true := how.status_isTerminal
    constructor <;> cases how <;> simp_all [RunRow.ended, Ending.result, Ending.status]

def RowsWhole (s : Store) : Prop := ∀ runId row, s.runs.get? runId = some row → row.Whole

/-- Every row agrees with itself, and every journal entry is of a stored run. -/
structure Whole (s : Store) : Prop where
  rows : s.RowsWhole
  journals : ∀ event ∈ s.events, (s.runs.get? event.runId).isSome

theorem rows_move {L : Licence} {s : Store} {m : Move} (hok : m.Ok L s) (h : s.RowsWhole) :
    (m.apply s).RowsWhole := by
  intro runId row hrow
  rcases row_origin hok hrow with ⟨old, hold, hstep⟩ | ⟨_, spec, clock, _, rfl⟩
  · exact hstep.whole (h runId old hold)
  · exact ⟨rfl, rfl, rfl, rfl, rfl, rfl, rfl⟩

theorem whole_exec {s : Store} (call : Call) (h : s.Whole) : (exec call s).Whole where
  journals := journalled_exec h.journals call
  rows := by
    cases hperform : s.perform call.env call.op with
    | error e =>
      rw [exec_error hperform]
      exact h.rows
    | ok s' =>
      rw [exec_ok hperform]
      cases hdeletes : call.op.deletes with
      | true =>
        obtain ⟨gone, hforgets⟩ := perform_forgets hdeletes hperform
        intro runId row hrow
        rw [hforgets.runs, Option.filter_eq_some_iff] at hrow
        exact h.rows runId row hrow.1
      | false =>
        exact Steps.invariant (P := RowsWhole) (fun _ _ ht hok => rows_move hok ht)
          (perform_moves_any hdeletes hperform).moves h.rows

/-- After any calls, by any callers and in any order, every record is whole. -/
theorem records_whole (calls : List Call) : (execAll calls init).Whole := by
  refine Steps.invariant (P := Whole) (fun s call hs _ => whole_exec call hs)
    (calls_execAll calls init) ⟨?_, ?_⟩
  · intro runId row hrow
    cases hrow
  · intro event hevent
    cases hevent

theorem durable_exec {s : Store} (runId : RunId) {call : Call} (hkeeps : call.op.deletes = false) :
    s.durableEvents runId <+: (exec call s).durableEvents runId := by
  rw [Tail.durableEvents_eq, Tail.durableEvents_eq]
  refine exec_journal (P := fun rows => (s.journal runId).filter durable <+: rows.filter durable)
    ?_ hkeeps prefix_rfl ?_
  · intro rows row hrows _
    rw [filter_append]
    exact hrows.trans (prefix_append ..)
  · intro worker capacity leaseFor now hop t _ ht
    have hsame : ((t.dropLive now).journal runId).filter durable =
        (t.journal runId).filter durable := by
      rw [dropLive_journal, List.filter_filter]
      refine filter_congr fun row _ => ?_
      cases hrow : row.ephemeral <;> simp [durable, stale, hrow]
    rwa [hsame]

/-- What a replay folds is only ever added to at its end, from whatever state and by whatever
calls, but for those that delete runs. -/
theorem durable_grows (s : Store) (runId : RunId) (calls : List Call) :
    s.durableEvents runId <+:
      (execAll (calls.filter fun call => !call.op.deletes) s).durableEvents runId := by
  refine foldl_filter_keeps (P := fun t : Store => s.durableEvents runId <+: t.durableEvents runId)
    (fun t call hkeeps ht => ht.trans (durable_exec runId ?_)) calls prefix_rfl
  simpa using hkeeps

end Store

end Substrate
