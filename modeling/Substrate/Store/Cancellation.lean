import Substrate.Lib.Forest
import Substrate.Store.Mail

/-!
Cancelling runs. A request ends a run no worker has, and flags one that a worker has; the
flag is read when the worker's next commit would put the run to sleep.
-/

namespace Substrate

open Lib List Option

def RunRow.stopped (row : RunRow) : Prop :=
  row.status.isTerminal = true ∨ row.status = .running ∧ row.cancelRequested = true

namespace Store

def Heeded (s : Store) (runId : RunId) : Prop :=
  ∀ row, s.runs.get? runId = some row → row.cancelRequested = true → row.status ≠ .suspended

/-- `child` names `parent` as its parent. -/
def Linked (s : Store) (child parent : RunId) : Prop :=
  ∃ row, s.runs.get? child = some row ∧ row.parentRunId = some parent

section Rows

variable {L : Licence} {m : Move} {runId : RunId} {row row' : RunRow}

theorem RowStep.flag_kept (h : RowStep L m runId row row')
    (hflag : row.cancelRequested = true) : row'.cancelRequested = true := by
  cases h with
  | queued hstatus =>
    rw [RunRow.queued, if_pos hstatus]
    exact hflag
  | resumed =>
    unfold RunRow.queued RunRow.asleep
    simpa using hflag
  | flagged => rfl
  | _ => exact hflag

theorem RowStep.flag_from (h : RowStep L m runId row row')
    (hm : m ≠ .requestFlag runId) (hflag : row.cancelRequested = false) :
    row'.cancelRequested = false := by
  cases h with
  | queued hstatus =>
    rw [RunRow.queued, if_pos hstatus]
    exact hflag
  | resumed =>
    unfold RunRow.queued RunRow.asleep
    simpa using hflag
  | flagged hrequest => exact absurd hrequest hm
  | _ => exact hflag

theorem RowStep.heeded (h : RowStep L m runId row row') (hsleeps : ¬ L.sleeps runId)
    (hrow : row.cancelRequested = true → row.status ≠ .suspended) :
    row'.cancelRequested = true → row'.status ≠ .suspended := by
  intro hflag
  by_cases hstatus : row.status = .suspended
  · cases h with
    | same => exact hrow hflag
    | queued =>
      rw [RunRow.queued, if_pos hstatus]
      simp
    | flagged _ hrun | extended _ _ hrun | slept _ _ _ hrun | resumed _ _ _ hrun
    | parked _ _ hrun =>
      rw [hstatus] at hrun
      cases hrun
    | reclaimed _ _ hrun =>
      rw [hstatus] at hrun
      cases hrun
    | claimed _ _ _ _ hpending =>
      rw [hstatus] at hpending
      cases hpending
    | ended _ _ how => exact Ending.status_ne_suspended how
  · exact h.stays_awake hsleeps hstatus

theorem RowStep.stopped {ended : RunId → Prop} (h : RowStep L m runId row row')
    (hkind : EndsOnly ended m) (hrow : row.stopped) : row'.stopped := by
  cases h with
  | same => exact hrow
  | queued hstatus =>
    rcases hrow with hended | ⟨hrun, _⟩
    · rw [hstatus] at hended
      cases hended
    · rw [hstatus] at hrun
      cases hrun
  | flagged _ hrun => exact .inr ⟨hrun, rfl⟩
  | ended _ _ how => exact .inl (Ending.status_isTerminal how)
  | reclaimed _ hm | claimed _ _ _ hm | extended _ hm | slept _ _ hm | resumed _ _ hm
  | parked _ hm =>
    subst hm
    cases hkind

end Rows

variable {s s' : Store} {runId child parent root : RunId} {env : TxEnv} {row : RunRow}
    {how : Ending} {outcome : Outcome} {held : Lease} {work : Commit}

private theorem moves_heeded {L : Licence} {may : Move → Prop} (h : MovesBy L may s s')
    (hsleeps : ¬ L.sleeps runId) (hheeded : s.Heeded runId) : s'.Heeded runId := by
  refine Steps.invariant (P := fun t => t.Heeded runId) ?_ h hheeded
  rintro t m ht ⟨hok, _⟩ row hrow
  rcases row_origin hok hrow with ⟨old, hold, hstep⟩ | ⟨_, spec, clock, _, hnew⟩
  · exact hstep.heeded hsleeps (ht old hold)
  · rw [hnew]
    intro hflag
    cases hflag

theorem closed_row (hrow : s.runs.get? runId = some row) : (s.close env runId how).runs.get? runId =
      some (row.ended (how.result runId) env.clock) := by
  rw [close_runs, Table.get?_modify_self, hrow]
  rfl

theorem terminate_ends {row' : RunRow} (hrow : s.runs.get? runId = some row')
    (h : s.terminate env runId row how = .ok s') :
    ∃ last, s'.runs.get? runId = some last ∧ last.status = how.status := by
  have hclosed : ((s.close env runId how).reportEnd runId row how).runs.get? runId =
      some (row'.ended (how.result runId) env.clock) :=
    reportEnd_keeps (closed_row hrow) (Ending.status_ne_suspended how)
  have hrest : Moves Licence.strict ((s.close env runId how).reportEnd runId row how) s' := by
    cases how with
    | complete =>
      have hmoves : RoutineMoves Licence.strict _ s' := followUp_moves h
      exact hmoves.moves
    | fail error =>
      cases h
      exact (@cancelChildren_moves _ (fun _ => True) (fun _ _ => trivial) _ env runId
        (.fail error)).moves
    | cancel reason =>
      cases h
      exact (@cancelChildren_moves _ (fun _ => True) (fun _ _ => trivial) _ env runId
        (.cancel reason)).moves
  refine Steps.invariant
    (P := fun t => ∃ last, t.runs.get? runId = some last ∧ last.status = how.status)
    ?_ hrest ⟨_, hclosed, rfl⟩
  rintro t m ⟨last, hlast, hstatus⟩ hok
  obtain ⟨next, hnext, hstep⟩ := row_step hok hlast
  have hended : last.status.isTerminal = true := by
    rw [hstatus]
    exact Ending.status_isTerminal how
  rw [hstep.keeps_ended hended] at hnext
  exact ⟨last, hnext, hstatus⟩

theorem effectiveOutcome_flagged (hflag : row.cancelRequested = true)
    (hsleep : ∀ how, outcome ≠ .ending how) :
    effectiveOutcome row outcome = .ending (.cancel "cancelled") := by
  cases outcome with
  | ending how => exact absurd rfl (hsleep how)
  | suspend wake | retry error delay => exact if_pos hflag

theorem unflagged_of_sleep {effective : Outcome} (h : effectiveOutcome row outcome = effective)
    (hsleep : ∀ how, effective ≠ .ending how) : row.cancelRequested = false := by
  cases hflag : row.cancelRequested with
  | false => rfl
  | true =>
    subst h
    by_cases hends : ∃ how, outcome = .ending how
    · obtain ⟨how, rfl⟩ := hends
      exact absurd rfl (hsleep how)
    · simp only [not_exists] at hends
      exact absurd (effectiveOutcome_flagged hflag hends) (hsleep _)

private theorem settle_heeded {outcome : Option Outcome} {status : RunStatus} {resumed : Bool}
    {seqs : List Nat} (hrow : s.runs.get? runId = some row) (hrun : row.status = .running)
    (h : s.settle env runId row outcome = .ok (s', status, resumed, seqs)) : s'.Heeded runId := by
  cases outcome with
  | none =>
    cases h
    intro row' hrow' _
    rw [hrow] at hrow'
    cases hrow'
    rw [hrun]
    simp
  | some outcome =>
    simp only [settle] at h
    have hkept : ∀ m : Move, m.Ok Licence.any s → m ≠ .requestFlag runId →
        row.cancelRequested = false → ∀ last, (m.apply s).runs.get? runId = some last →
          last.cancelRequested = false := by
      intro m hok hm hflag last hlast
      obtain ⟨row', hrow', hstep⟩ := row_step hok hrow
      rw [hrow'] at hlast
      cases hlast
      exact hstep.flag_from hm hflag
    cases heff : effectiveOutcome row outcome with
    | suspend wake =>
      have hflag := unflagged_of_sleep heff (by simp)
      have hslept := hkept (.suspend env runId wake) ⟨⟨row, hrow, hrun⟩, trivial⟩ (by simp) hflag
      simp only [heff] at h
      intro last hlast hset
      have hruns : s'.runs = (s.suspend env runId wake).1.runs := by
        split at h
        · rename_i t _ hsuspend
          cases h
          rw [append_runs, hsuspend]
        · rename_i t _ _ _ hsuspend
          cases h
          rw [hsuspend]
      rw [hruns] at hlast
      rw [hslept last hlast] at hset
      cases hset
    | retry error delay =>
      have hflag := unflagged_of_sleep heff (by simp)
      have hparked := hkept (.park runId (env.clock + max delay 0))
        ⟨⟨row, hrow, hrun⟩, trivial⟩ (by simp) hflag
      simp only [heff] at h
      cases h
      intro last hlast hset
      unfold retry at hlast
      rw [append_runs] at hlast
      rw [hparked last hlast] at hset
      cases hset
    | ending how =>
      simp only [heff] at h
      obtain ⟨t, hend, h⟩ := bind_ok_iff.mp h
      cases h
      obtain ⟨last, hlast, hstatus⟩ := terminate_ends hrow hend
      intro row' hrow' _
      rw [hlast] at hrow'
      cases hrow'
      rw [hstatus]
      exact Ending.status_ne_suspended how

theorem heeded_exec (call : Call) (hheeded : s.Heeded runId) : (exec call s).Heeded runId := by
  cases hrun : s.perform call.env call.op with
  | error e => rwa [exec_error hrun]
  | ok s' =>
    rw [exec_ok hrun]
    cases hkeeps : call.op.deletes with
    | true =>
      obtain ⟨gone, hforgets⟩ := perform_forgets hkeeps hrun
      intro row hrow
      rw [hforgets.runs] at hrow
      exact hheeded row (filter_eq_some_iff.mp hrow).1
    | false =>
      by_cases hown : ∃ held work, call.op = .commit held work ∧ held.runId = runId
      · obtain ⟨held, work, hop, rfl⟩ := hown
        rw [hop] at hrun
        obtain ⟨⟨t, result⟩, hcommit, ht⟩ := bind_ok_iff.mp hrun
        cases ht
        obtain ⟨u, row, _, hcurrent, _, hkept, seqs, hsettle⟩ := commit_stages
          (Licence.allows_all (L := Licence.any) (fun _ => trivial) call.env held.runId
            work.entries s) hcommit
        exact settle_heeded hkept (current_running hcurrent) hsettle
      · have hsleeps : call.op.SleepsAllowed (Licence.sparing runId) := by
          cases hop : call.op with
          | commit held work => exact fun hsame => hown ⟨held, work, hop, hsame⟩
          | _ => trivial
        have hmoves := perform_moves_free (L := Licence.sparing runId) (fun _ => trivial)
          trivial hkeeps hsleeps hrun
        exact moves_heeded hmoves (fun hne => hne rfl) hheeded

theorem flag_exec {call : Call} (hrow : s.runs.get? runId = some row)
    (hflag : row.cancelRequested = true) (hstored : ((exec call s).runs.get? runId).isSome) :
    ∃ row', (exec call s).runs.get? runId = some row' ∧ row'.cancelRequested = true := by
  cases hrun : s.perform call.env call.op with
  | error e =>
    rw [exec_error hrun]
    exact ⟨row, hrow, hflag⟩
  | ok s' =>
    rw [exec_ok hrun] at hstored ⊢
    cases hkeeps : call.op.deletes with
    | true =>
      obtain ⟨gone, hforgets⟩ := perform_forgets hkeeps hrun
      obtain ⟨row', hrow'⟩ := isSome_iff_exists.mp hstored
      have hold := hrow'
      rw [hforgets.runs, hrow] at hold
      obtain ⟨hsame, _⟩ := filter_eq_some_iff.mp hold
      cases hsame
      exact ⟨row, hrow', hflag⟩
    | false =>
      refine Steps.invariant (P := fun t => ∃ row', t.runs.get? runId = some row' ∧
        row'.cancelRequested = true) ?_ (perform_moves_any hkeeps hrun) ⟨row, hrow, hflag⟩
      rintro t m ⟨last, hlast, hset⟩ ⟨hok, _⟩
      obtain ⟨next, hnext, hstep⟩ := row_step hok hlast
      exact ⟨next, hnext, hstep.flag_kept hset⟩

theorem flagged_commit {result : CommitResult} (hrow : s.runs.get? held.runId = some row)
    (hflag : row.cancelRequested = true) (houtcome : work.outcome = some outcome)
    (hsleep : ∀ how, outcome ≠ .ending how) (h : s.commit env held work = .ok (s', result)) :
    result.status = .cancelled ∧
      ∃ last, s'.runs.get? held.runId = some last ∧ last.status = .cancelled := by
  obtain ⟨t, fenced, hfenced, _, _, hkept, seqs, hsettle⟩ := commit_stages
    (Licence.allows_all (L := Licence.any) (fun _ => trivial) env held.runId work.entries s) h
  rw [hrow] at hfenced
  cases hfenced
  rw [houtcome] at hsettle
  simp only [settle, effectiveOutcome_flagged hflag hsleep] at hsettle
  obtain ⟨u, hend, hresult⟩ := bind_ok_iff.mp hsettle
  have hparts := Prod.mk.inj (Except.ok.inj hresult)
  rw [← hparts.1]
  refine ⟨(Prod.mk.inj hparts.2).1.symm, ?_⟩
  exact terminate_ends hkept hend

theorem flagged_commit_ok (env : TxEnv) (hrow : s.runs.get? held.runId = some row)
    (hcurrent : held.current row = true) (hflag : row.cancelRequested = true)
    (houtcome : work.outcome = some outcome) (hsleep : ∀ how, outcome ≠ .ending how)
    (hspawns : work.spawns = []) (hdeliveries : work.deliveries = []) :
    ∃ s' result, s.commit env held work = .ok (s', result) := by
  have hfence : s.fencedRun held = .ok row := by
    unfold fencedRun
    rw [hrow, filter_some, if_pos hcurrent]
  unfold commit
  rw [hfence, hspawns, hdeliveries, houtcome]
  simp only [spawnAll, deliverAll, settle, effectiveOutcome_flagged hflag hsleep, terminate,
    bind, Except.bind, pure, Except.pure]
  exact ⟨_, _, rfl⟩

def childIds (s : Store) (runId : RunId) : List RunId :=
  (s.runs.rows.filter fun row => row.2.parentRunId = some runId).map Prod.fst

theorem mem_childIds : child ∈ s.childIds parent ↔ s.Linked child parent := by
  unfold childIds Linked
  constructor
  · intro h
    obtain ⟨⟨runId, row⟩, hmem, rfl⟩ := mem_map.mp h
    obtain ⟨hrow, hparent⟩ := Table.mem_filter_rows.mp hmem
    exact ⟨row, hrow, of_decide_eq_true hparent⟩
  · rintro ⟨row, hrow, hparent⟩
    refine mem_map.mpr ⟨(child, row), Table.mem_filter_rows.mpr ⟨hrow, ?_⟩, rfl⟩
    exact decide_eq_true hparent

private theorem selected_children (s : Store) (env : TxEnv) (runId : RunId) :
    ((s.selectRuns env fun _ row => row.parentRunId = some runId).map Prod.fst).Perm
      (s.childIds runId) :=
  (env.rowOrder_perm _).map Prod.fst

private theorem cancelOrder_ends {weight : RunId → Nat}
    (hweight : ∀ runId, weight runId = 1 + ((s.childIds runId).map weight).sum) (turns : Nat) :
    ∀ {frontier : List RunId}, (frontier.map weight).sum ≤ turns →
      ∃ order, s.cancelOrder env true turns frontier = some order := by
  induction turns with
  | zero =>
    intro frontier hturns
    cases frontier with
    | nil => exact ⟨[], rfl⟩
    | cons runId rest =>
      rw [map_cons, sum_cons, hweight runId] at hturns
      omega
  | succ turns ih =>
    intro frontier hturns
    cases frontier with
    | nil => exact ⟨[], rfl⟩
    | cons runId rest =>
      have hchildren := ((selected_children s env runId).map weight).sum_eq
      have hrest : ((rest ++ (s.selectRuns env fun _ row =>
          row.parentRunId = some runId).map Prod.fst).map weight).sum ≤ turns := by
        rw [map_append, sum_append, hchildren]
        rw [map_cons, sum_cons, hweight runId] at hturns
        omega
      obtain ⟨order, horder⟩ := ih hrest
      refine ⟨runId :: order, ?_⟩
      simp only [cancelOrder, if_true, horder, map_some]

theorem requestCancel_ends (hacyclic : Acyclic s.Linked) (root : RunId) :
    ∃ bound, ∀ env reason, bound ≤ env.turns →
      ∃ s' affected, s.requestCancel env root reason true = .ok (s', affected) := by
  have hwf : WellFounded fun child parent => child ∈ s.childIds parent := by
    have hlinks := hacyclic.wellFounded (s.runs.rows.map Prod.fst) fun child parent hlink => by
      obtain ⟨row, hrow, _⟩ := hlink
      exact mem_map_of_mem (f := Prod.fst) (Table.mem_rows_iff.mpr hrow)
    exact Subrelation.wf (fun h => mem_childIds.mp h) hlinks
  obtain ⟨weight, hweight⟩ := exists_weight hwf
  refine ⟨weight root, fun env reason hturns => ?_⟩
  have hroot : ([root].map weight).sum ≤ env.turns := by simpa using hturns
  obtain ⟨order, horder⟩ : ∃ order, s.cancelOrder env true env.turns [root] = some order :=
    cancelOrder_ends hweight env.turns hroot
  refine ⟨(cancelAll env reason s order.reverse).1, (cancelAll env reason s order.reverse).2, ?_⟩
  unfold requestCancel
  rw [horder]

private theorem cancelOrder_visits (turns : Nat) :
    ∀ {frontier order : List RunId}, s.cancelOrder env true turns frontier = some order →
      (∀ runId ∈ frontier, runId ∈ order) ∧
        ∀ child parent, s.Linked child parent → parent ∈ order → child ∈ order := by
  induction turns with
  | zero =>
    intro frontier order h
    cases frontier with
    | nil =>
      cases h
      exact ⟨fun _ hmem => hmem, fun _ _ _ hmem => absurd hmem not_mem_nil⟩
    | cons => cases h
  | succ turns ih =>
    intro frontier order h
    cases frontier with
    | nil =>
      cases h
      exact ⟨fun _ hmem => hmem, fun _ _ _ hmem => absurd hmem not_mem_nil⟩
    | cons current rest =>
      simp only [cancelOrder, if_true, map_eq_some_iff] at h
      obtain ⟨later, hlater, rfl⟩ := h
      obtain ⟨hfrontier, hclosed⟩ := ih hlater
      constructor
      · intro runId hmem
        rcases mem_cons.mp hmem with rfl | hmem
        · exact mem_cons_self
        · exact mem_cons_of_mem _ (hfrontier runId (mem_append_left _ hmem))
      · intro child parent hlink hmem
        rcases mem_cons.mp hmem with rfl | hmem
        · have hchild := (selected_children s env parent).mem_iff.mpr (mem_childIds.mpr hlink)
          exact mem_cons_of_mem _ (hfrontier child (mem_append_right _ hchild))
        · exact mem_cons_of_mem _ (hclosed child parent hlink hmem)

theorem cancelOrder_descends {turns : Nat} {order : List RunId}
    (h : s.cancelOrder env true turns [root] = some order) (hbelow : s.Descends root runId) :
    runId ∈ order := by
  obtain ⟨hroot, hclosed⟩ := cancelOrder_visits turns h
  induction hbelow with
  | refl => exact hroot root mem_cons_self
  | tail _ hlink ih => exact hclosed _ _ hlink ih

/-- Whatever is stored of a run is over, or with a worker and asked to stop. -/
def Stopped (s : Store) (runId : RunId) : Prop := ∀ row, s.runs.get? runId = some row → row.stopped

private abbrev StopMoves : Store → Store → Prop := MovesBy Licence.any (EndsOnly fun _ => True)

private theorem stop_origin {m : Move} (hok : m.Ok Licence.any s)
    (hkind : EndsOnly (fun _ => True) m) (hrow : (m.apply s).runs.get? runId = some row) :
    ∃ old, s.runs.get? runId = some old ∧ RowStep Licence.any m runId old row := by
  rcases row_origin hok hrow with hold | ⟨_, spec, clock, ⟨accounts, rfl⟩, _⟩
  · exact hold
  · cases hkind

private theorem StopMoves.stopped (h : StopMoves s s') (hstopped : s.Stopped runId) :
    s'.Stopped runId := by
  refine Steps.invariant (P := fun t => t.Stopped runId) ?_ h hstopped
  rintro t m ht ⟨hok, hkind⟩ row hrow
  obtain ⟨old, hold, hstep⟩ := stop_origin hok hkind hrow
  exact hstep.stopped hkind (ht old hold)

private theorem StopMoves.linked (h : StopMoves s s') (hlink : s'.Linked child parent) :
    s.Linked child parent := by
  have hback : ∀ row, s'.runs.get? child = some row →
      ∃ old, s.runs.get? child = some old ∧ old.birth = row.birth := by
    refine Steps.related (P := fun _ => True)
      (R := fun t t' => ∀ row, t'.runs.get? child = some row →
        ∃ old, t.runs.get? child = some old ∧ old.birth = row.birth)
      (fun t row hrow => ⟨row, hrow, rfl⟩) ?_ (fun _ _ _ _ => trivial) ?_ h trivial
    · intro a b c hab hbc row hrow
      obtain ⟨mid, hmid, hbirth⟩ := hbc row hrow
      obtain ⟨old, hold, hbirth'⟩ := hab mid hmid
      exact ⟨old, hold, hbirth'.trans hbirth⟩
    · rintro t m _ ⟨hok, hkind⟩ row hrow
      obtain ⟨old, hold, hstep⟩ := stop_origin hok hkind hrow
      exact ⟨old, hold, hstep.birth.symm⟩
  obtain ⟨row, hrow, hparent⟩ := hlink
  obtain ⟨old, hold, hbirth⟩ := hback row hrow
  have hsame := congrArg RunRow.parentRunId hbirth
  exact ⟨old, hold, hsame.trans hparent⟩

private theorem cancelOne_stop (env : TxEnv) (turns : Nat) (s : Store) (runId : RunId)
    (reason : String) : StopMoves s (cancelOne env turns s runId reason).1 :=
  endsOnly_cancelOne (fun _ _ _ _ => trivial) env turns runId reason (cascade_refl s _)
    fun _ _ _ => trivial

private theorem cancelOne_stopped (env : TxEnv) (turns : Nat) (s : Store) (runId : RunId)
    (reason : String) : (cancelOne env (turns + 1) s runId reason).1.Stopped runId := by
  unfold cancelOne
  cases hrow : s.runs.get? runId with
  | none =>
    intro row hsome
    rw [hrow] at hsome
    cases hsome
  | some row =>
    simp only
    split
    · rename_i hended
      intro last hlast
      rw [hrow] at hlast
      cases hlast
      exact .inl hended
    split
    · rename_i hrun
      intro last hlast
      unfold requestFlag at hlast
      rw [Table.get?_modify_self, hrow] at hlast
      cases hlast
      exact .inr ⟨hrun, rfl⟩
    · have hfinished : ((s.close env runId (.cancel reason)).reportEnd runId row
          (.cancel reason)).Stopped runId := by
        intro last hlast
        rw [reportEnd_keeps (closed_row hrow) (Ending.status_ne_suspended _)] at hlast
        cases hlast
        exact .inl rfl
      refine StopMoves.stopped (Steps.foldl _ (fun t child _ => ?_) _) hfinished
      exact cancelOne_stop env turns t child.1 _

private theorem cancelAll_stop (env : TxEnv) (reason : String) (runIds : List RunId) :
    ∀ s : Store, StopMoves s (cancelAll env reason s runIds).1 ∧
      ∀ runId ∈ runIds, (cancelAll env reason s runIds).1.Stopped runId := by
  induction runIds with
  | nil => exact fun s => ⟨Steps.refl s, fun _ hmem => absurd hmem not_mem_nil⟩
  | cons runId rest ih =>
    intro s
    have hfirst := cancelOne_stop env s.cascadeTurns s runId reason
    obtain ⟨hrest, hstopped⟩ := ih (cancelOne env s.cascadeTurns s runId reason).1
    refine ⟨hfirst.trans hrest, fun other hmem => ?_⟩
    rcases mem_cons.mp hmem with rfl | hmem
    · exact StopMoves.stopped hrest (cancelOne_stopped env s.runs.rows.length s other reason)
    · exact hstopped other hmem

theorem requestCancel_stops {reason : String} {affected : List RunId}
    (h : s.requestCancel env root reason true = .ok (s', affected))
    (hbelow : s'.Descends root runId) : s'.Stopped runId := by
  unfold requestCancel at h
  cases horder : s.cancelOrder env true env.turns [root] with
  | none =>
    rw [horder] at h
    cases h
  | some order =>
    rw [horder] at h
    obtain ⟨hmoves, hstopped⟩ := cancelAll_stop env reason order.reverse s
    rw [Except.ok.inj h] at hmoves hstopped
    have hbefore : s.Descends root runId := by
      induction hbelow with
      | refl => exact .refl
      | tail _ hlink ih => exact ih.tail (StopMoves.linked hmoves hlink)
    exact hstopped runId (mem_reverse.mpr (cancelOrder_descends horder hbefore))

/-- A flagged run is still flagged, and a commit of its worker that would put it
to sleep or park it for another attempt cancels it. -/
structure Honoured (s : Store) (runId : RunId) : Prop where
  flag : ∃ row, s.runs.get? runId = some row ∧ row.cancelRequested = true
  cancels : ∀ env (held : Lease) (work : Commit) outcome s' result, held.runId = runId →
    work.outcome = some outcome → (∀ how, outcome ≠ .ending how) →
    s.commit env held work = .ok (s', result) → result.status = .cancelled ∧
        ∃ last, s'.runs.get? runId = some last ∧ last.status = .cancelled
  accepted : ∀ env (held : Lease) (work : Commit) outcome row, held.runId = runId →
    s.runs.get? runId = some row → held.current row = true →
    work.outcome = some outcome → (∀ how, outcome ≠ .ending how) →
    work.spawns = [] → work.deliveries = [] → ∃ s' result, s.commit env held work = .ok (s', result)

theorem honoured_of_flag
    (hflag : ∃ row, s.runs.get? runId = some row ∧ row.cancelRequested = true) :
    Honoured s runId := by
  obtain ⟨row, hrow, hset⟩ := hflag
  refine ⟨⟨row, hrow, hset⟩, ?_, ?_⟩
  · rintro env held work outcome s' result rfl houtcome hsleep hcommit
    exact flagged_commit hrow hset houtcome hsleep hcommit
  · rintro env held work outcome row' rfl hrow' hcurrent houtcome hsleep hspawns hdeliveries
    rw [hrow] at hrow'
    cases hrow'
    exact flagged_commit_ok env hrow hcurrent hset houtcome hsleep hspawns hdeliveries

/-- What is kept of a request to cancel. `later` ranges over the histories in
which the run is not deleted. -/
structure CancellationKept (s : Store) : Prop where
  awake : ∀ runId, s.Heeded runId
  cascade : ∀ env root reason s' affected,
    s.requestCancel env root reason true = .ok (s', affected) →
      ∀ runId, s'.Descends root runId → s'.Stopped runId
  ends : Acyclic s.Linked → ∀ root, ∃ bound, ∀ env reason, bound ≤ env.turns →
    ∃ s' affected, s.requestCancel env root reason true = .ok (s', affected)
  later : ∀ runId row, s.runs.get? runId = some row → row.cancelRequested = true →
    ∀ t, Steps exec (fun u call => ((exec call u).runs.get? runId).isSome) s t → Honoured t runId

/-- A request to cancel is never forgotten. -/
theorem cancellation_kept {s : Store} (h : Calls init s) : CancellationKept s where
  awake := fun runId => Steps.invariant (P := fun t => t.Heeded runId)
    (fun _ call hheeded _ => heeded_exec call hheeded) h fun row hrow => by cases hrow
  cascade := fun env root reason s' affected hcancel runId => requestCancel_stops hcancel
  ends := fun hacyclic root => requestCancel_ends hacyclic root
  later := by
    intro runId row hrow hflag t hlater
    refine honoured_of_flag ?_
    refine @Steps.invariant _ _ exec _
      (fun u => ∃ row, u.runs.get? runId = some row ∧ row.cancelRequested = true)
      ?_ s t hlater ⟨row, hrow, hflag⟩
    rintro u call ⟨last, hlast, hset⟩ hstored
    exact flag_exec hlast hset hstored

/-- A parent with a worker and a child in the queue, cancelled together. The lease
expires and another worker claims the run. -/
private def cancelledFamily : List Call :=
  [⟨.plain 0, .createRun { agent := "a", runId := some "parent" } []⟩,
   ⟨.plain 1, .createRun { agent := "b", runId := some "child", parentRunId := some "parent" } []⟩,
   ⟨.plain 2, .lease "v" 1 10 2⟩,
   ⟨.plain 3, .requestCancel "parent" "stop" true⟩,
   ⟨.plain 20, .lease "w" 1 10 20⟩]

theorem cancellation_kept_reclaimed :
    let s := execAll cancelledFamily init
    s.runs.rows.map (fun row => (row.1, row.2.status, row.2.cancelRequested, row.2.epoch)) =
        [("parent", .running, true, 2), ("child", .cancelled, false, 0)] ∧
      CancellationKept s :=
  ⟨by decide, cancellation_kept (calls_execAll cancelledFamily init)⟩

end Store

end Substrate
