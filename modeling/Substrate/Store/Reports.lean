import Substrate.Store.Signals

/-!
A child reports to its parent once. The report is buffered when the child ends, and moves
to a claim when the parent consumes it; it is lost only when the parent ends.
-/

namespace Substrate.Store

open Lib List

structure Taken where
  runId : RunId
  name : String
  claimId : String
  payload : JsonObject

/-- What a call consumes. -/
def Call.takes (call : Call) (s : Store) : List Taken :=
  match call.op with
  | .consume runId name claimId =>
    match s.claims.get? claimId, s.buffered runId name with
    | none, payload :: _ => [{ runId, name, claimId, payload }]
    | _, _ => []
  | _ => []

structure Listening where
  store : Store := init
  taken : List Taken := []

def listen (call : Call) (w : Listening) : Listening where
  store := exec call w.store
  taken := w.taken ++ call.takes w.store

def Listening.got (w : Listening) (runId : RunId) (name : String) : List JsonObject :=
  (w.taken.filter fun taken => taken.runId = runId && taken.name = name).map (·.payload)

def Listening.line (w : Listening) (runId : RunId) (name : String) : List JsonObject :=
  w.got runId name ++ w.store.buffered runId name

def Listening.consumed (w : Listening) (parent child : RunId) : List JsonObject :=
  (w.taken.filter fun taken =>
    taken.runId = parent && taken.name = childSignal child).map (·.payload)

def Listening.reports (w : Listening) (parent child : RunId) : List JsonObject :=
  w.consumed parent child ++ w.store.buffered parent (childSignal child)

/-- The child's row, if it is a child of the parent. -/
def ChildRow (s : Store) (parent child : RunId) (row : RunRow) : Prop :=
  s.runs.get? child = some row ∧ row.parent? = some parent

/-- What an open parent has heard of a child: nothing while the child is open,
and its ending, once, when it has ended. -/
def HeardOnce (s : Store) (parent child : RunId) (reports : List JsonObject) : Prop :=
  (∀ row, ChildRow s parent child row → row.status.isTerminal = true →
    ∃ how : Ending, how.status = row.status ∧ reports = [how.report]) ∧
  ((∀ row, ChildRow s parent child row → row.status.isTerminal = false) → reports = [])

/-- The call keeps every run, and does not send the parent a report by hand. -/
def NotByHand (parent child : RunId) (_ : Listening) (call : Call) : Prop :=
  call.op.deletes = false ∧ ∀ payload, ¬ call.op.Sends parent (childSignal child) payload

section Rows

variable {L : Licence} {m : Move} {s : Store} {runId : RunId} {row row' : RunRow}

theorem RowStep.stays_ended (h : RowStep L m runId row row')
    (hended : row.status.isTerminal = true) : row'.status.isTerminal = true := by
  cases h with
  | same => exact hended
  | ended env read how => exact Ending.status_isTerminal how
  | queued hstatus | flagged _ hstatus | reclaimed _ _ hstatus | claimed _ _ _ _ hstatus
  | extended _ _ hstatus | slept _ _ _ hstatus | resumed _ _ _ hstatus
  | parked _ _ hstatus =>
    rw [hstatus] at hended
    cases hended

theorem RowStep.same_of_ended (h : RowStep L m runId row row')
    (hended : row.status.isTerminal = true)
    (hfinish : ∀ env read how, m ≠ .finish env runId read how) : row' = row := by
  cases h with
  | same => rfl
  | ended env read how hm => exact absurd hm (hfinish env read how)
  | queued hstatus | flagged _ hstatus | reclaimed _ _ hstatus | claimed _ _ _ _ hstatus
  | extended _ _ hstatus | slept _ _ _ hstatus | resumed _ _ _ hstatus
  | parked _ _ hstatus =>
    rw [hstatus] at hended
    cases hended

theorem parent?_of_birth (h : row'.birth = row.birth) : row'.parent? = row.parent? := by
  have hparent : row'.birth.parent? = row.birth.parent? := by rw [h]
  exact hparent

theorem RowStep.parent_eq (h : RowStep L m runId row row') : row'.parent? = row.parent? :=
  parent?_of_birth h.birth

theorem ended_move (hok : m.Ok L s) (h : Ended s runId) : Ended (m.apply s) runId := by
  obtain ⟨row, hrow, hended⟩ := h
  obtain ⟨row', hrow', hstep⟩ := row_step hok hrow
  exact ⟨row', hrow', hstep.stays_ended hended⟩

end Rows

variable {L : Licence} {s s' : Store} {runId parent child : RunId} {m : Move} {env : TxEnv}
    {read : RunRow} {how : Ending} {consumed : List JsonObject} {w : Listening} {call : Call}
    {name : String}

theorem ended_moves (hmoves : Moves L s s') (h : Ended s runId) : Ended s' runId :=
  Steps.invariant (P := fun t => Ended t runId) (fun _ _ ht hok => ended_move hok ht) hmoves h

private theorem HeardOnce.frame {reports : List JsonObject} (h : HeardOnce s parent child reports)
    (hok : m.Ok L s) (hfinish : ∀ env read how, m ≠ .finish env child read how) :
    HeardOnce (m.apply s) parent child reports := by
  constructor
  · rintro row ⟨hrow, hparent⟩ hended
    rcases row_origin hok hrow with ⟨old, hold, hstep⟩ | ⟨_, spec, clock, _, rfl⟩
    · have hparent' : old.parent? = some parent := hstep.parent_eq.symm.trans hparent
      cases hstatus : old.status.isTerminal with
      | true =>
        rw [hstep.same_of_ended hstatus hfinish]
        exact h.1 old ⟨hold, hparent'⟩ hstatus
      | false =>
        rcases hstep.stays_open hstatus with hopen | ⟨env, read, how, rfl⟩
        · rw [hopen] at hended
          cases hended
        · exact absurd rfl (hfinish env read how)
    · cases hended
  · intro hopen
    apply h.2
    rintro row ⟨hrow, hparent⟩
    obtain ⟨row', hrow', hstep⟩ := row_step hok hrow
    have hparent' : row'.parent? = some parent := hstep.parent_eq.trans hparent
    cases hstatus : row.status.isTerminal with
    | false => rfl
    | true =>
      have hended := hstep.stays_ended hstatus
      rw [hopen row' ⟨hrow', hparent'⟩] at hended
      cases hended

private theorem buffered_finish_other {other : RunId} (hchild : other ≠ child)
    (hparent : other ≠ parent) :
    ((Move.finish env other read how).apply s).buffered parent (childSignal child) =
      s.buffered parent (childSignal child) := by
  change ((s.close env other how).reportEnd other read how).buffered _ _ = _
  rw [buffered_reportEnd_other hchild, buffered_close_other hparent]

theorem finish_row {row : RunRow} (hrow : s.runs.get? runId = some row) (env : TxEnv)
    (read : RunRow) (how : Ending) :
    ((Move.finish env runId read how).apply s).runs.get? runId =
      some (row.ended (how.result runId) env.clock) := by
  change ((s.close env runId how).reportEnd runId read how).runs.get? runId = _
  apply reportEnd_keeps _ (Ending.status_ne_suspended how)
  rw [close_runs, Table.get?_modify_self, hrow]
  rfl

private theorem heardOnce_finish (hok : (Move.finish env child read how).Ok L s)
    (hopen : ∀ row, ChildRow s parent child row → row.status.isTerminal = false)
    (h : HeardOnce s parent child (consumed ++ s.buffered parent (childSignal child)))
    (hparent : ¬ Ended ((Move.finish env child read how).apply s) parent) :
    HeardOnce ((Move.finish env child read how).apply s) parent child
      (consumed ++ ((Move.finish env child read how).apply s).buffered parent
        (childSignal child)) := by
  obtain ⟨row, hrow, hbirth, _⟩ := hok
  have hafter := finish_row hrow env read how
  have hsame : row.parent? = read.parent? := parent?_of_birth hbirth
  have hne : child ≠ parent := by
    rintro rfl
    exact hparent ⟨_, hafter, Ending.status_isTerminal how⟩
  have hempty := h.2 hopen
  have hclose : (s.close env child how).buffered parent (childSignal child) =
      s.buffered parent (childSignal child) := buffered_close_other hne
  cases hread : read.parent? with
  | none =>
    have happly : (Move.finish env child read how).apply s = s.close env child how := by
      change (s.close env child how).reportEnd child read how = _
      rw [reportEnd, hread]
    rw [happly, hclose, hempty]
    constructor
    · rintro row' ⟨hrow', hparent'⟩ _
      rw [← happly, hafter] at hrow'
      cases hrow'
      cases (hsame.trans hread).symm.trans hparent'
    · exact fun _ => rfl
  | some other =>
    have happly : (Move.finish env child read how).apply s =
        ((s.close env child how).signal other (childSignal child) how.report).1 := by
      change (s.close env child how).reportEnd child read how = _
      rw [reportEnd, hread]
    by_cases hother : other = parent
    · subst hother
      have hclosed : ¬ Ended (s.close env child how) other := by
        rintro ⟨old, hold, hended⟩
        apply hparent
        rw [happly]
        obtain ⟨new, hnew, hstep⟩ := row_step (L := Licence.any)
          (m := .signal other (childSignal child) how.report) trivial hold
        exact ⟨new, hnew, hstep.stays_ended hended⟩
      rw [happly, buffered_signal_open hclosed, hclose, ← append_assoc, hempty]
      constructor
      · rintro row' ⟨hrow', _⟩ _
        rw [← happly, hafter] at hrow'
        cases hrow'
        exact ⟨how, rfl, rfl⟩
      · intro hstill
        rw [← happly] at hstill
        have hopen' := hstill _ ⟨hafter, hsame.trans hread⟩
        rw [show (row.ended (how.result child) env.clock).status = how.status from rfl,
          Ending.status_isTerminal] at hopen'
        cases hopen'
    · have hskip : ¬ (other = parent ∧ childSignal child = childSignal child) :=
        fun hboth => hother hboth.1
      rw [happly, buffered_signal_other how.report hskip, hclose, hempty]
      constructor
      · rintro row' ⟨hrow', hparent'⟩ _
        rw [← happly, hafter] at hrow'
        cases hrow'
        have heq : some other = some parent := (hsame.trans hread).symm.trans hparent'
        cases heq
        exact absurd rfl hother
      · exact fun _ => rfl

/-- While the parent is open, it has heard of the child's end once. -/
def Reported (parent child : RunId) (consumed : List JsonObject) (s : Store) : Prop :=
  ¬ Ended s parent → HeardOnce s parent child (consumed ++ s.buffered parent (childSignal child))

/-- The moves that neither send a report by hand nor take one. -/
def Quiet (parent child : RunId) (m : Move) : Prop :=
  (∀ payload, m ≠ .signal parent (childSignal child) payload) ∧
    ∀ claimId payload, m ≠ .claimSignal parent (childSignal child) claimId payload

theorem quiet_of_common (parent child : RunId) (h : m.common = true) : Quiet parent child m := by
  constructor
  · rintro payload rfl
    cases h
  · rintro claimId payload rfl
    cases h

def Unheard (child : RunId) (s : Store) : Prop :=
  ∀ row, s.runs.get? child = some row → ∀ parent, row.parent? = some parent → Ended s parent

/-- The child is open, or the run it reports to has ended. -/
def Spared (child : RunId) (s : Store) : Prop :=
  ∀ row, s.runs.get? child = some row → row.status.isTerminal = true →
    ∀ parent, row.parent? = some parent → Ended s parent

theorem reported_move (hok : m.Ok L s) (hquiet : Quiet parent child m)
    (hspared : ∀ env read how, m = .finish env child read how → Spared child s)
    (h : Reported parent child consumed s) : Reported parent child consumed (m.apply s) := by
  intro hparent
  have hbefore : ¬ Ended s parent := fun hended => hparent (ended_move hok hended)
  have hheard := h hbefore
  by_cases hfinish : ∃ env read how, m = .finish env child read how
  · obtain ⟨env, read, how, rfl⟩ := hfinish
    apply heardOnce_finish hok _ hheard hparent
    rintro row ⟨hrow, hparentRow⟩
    cases hstatus : row.status.isTerminal with
    | false => rfl
    | true => exact absurd (hspared env read how rfl row hrow hstatus parent hparentRow) hbefore
  · simp only [not_exists] at hfinish
    have hframe := hheard.frame hok hfinish
    have hsame : (m.apply s).buffered parent (childSignal child) =
        s.buffered parent (childSignal child) := by
      cases m with
      | signal runId name payload =>
        apply buffered_signal_other
        rintro ⟨rfl, rfl⟩
        exact hquiet.1 payload rfl
      | claimSignal runId name claimId payload =>
        apply buffered_claimSignal_other
        rintro ⟨rfl, rfl⟩
        exact hquiet.2 claimId payload rfl
      | finish env other read how =>
        apply buffered_finish_other
        · rintro rfl
          exact hfinish env read how rfl
        · rintro rfl
          obtain ⟨row, hrow, _⟩ := hok
          exact hparent ⟨_, finish_row hrow env read how, Ending.status_isTerminal how⟩
      | _ =>
        apply buffered_congr
        apply signals_kept <;> exact fun _ _ => by simp
    rwa [hsame]

def Licence.once : Licence := { Licence.any with again := False }

theorem reported_moves {may : Move → Prop} (hmay : ∀ m, may m → Quiet parent child m)
    (hmoves : MovesBy Licence.once may s s') (h : Reported parent child consumed s) :
    Reported parent child consumed s' := by
  apply Steps.invariant (P := Reported parent child consumed) _ hmoves h
  rintro t m ht ⟨hok, hm⟩
  apply reported_move hok (hmay m hm) _ ht
  rintro env read how rfl row hrow hended
  obtain ⟨row', hrow', _, hagain | hopen⟩ := hok
  · exact hagain.elim
  · rw [hrow] at hrow'
    cases hrow'
    rw [hended] at hopen
    cases hopen

theorem unheard_move (hok : m.Ok L s) (hstored : (s.runs.get? child).isSome) (h : Unheard child s) :
    Unheard child (m.apply s) := by
  obtain ⟨row, hrow⟩ := Option.isSome_iff_exists.mp hstored
  intro row' hrow' parent hparent
  obtain ⟨new, hnew, hstep⟩ := row_step hok hrow
  rw [hrow'] at hnew
  cases hnew
  exact ended_move hok (h row hrow parent (hstep.parent_eq.symm.trans hparent))

theorem spared_move (hok : m.Ok L s)
    (hfinish : ∀ env read how, m = .finish env child read how → Unheard child s)
    (h : Spared child s) : Spared child (m.apply s) := by
  intro row' hrow' hended parent hparent
  rcases row_origin hok hrow' with ⟨row, hrow, hstep⟩ | ⟨_, spec, clock, _, rfl⟩
  · have hparent' : row.parent? = some parent := hstep.parent_eq.symm.trans hparent
    apply ended_move hok
    cases hstatus : row.status.isTerminal with
    | true => exact h row hrow hstatus parent hparent'
    | false =>
      rcases hstep.stays_open hstatus with hopen | ⟨env, read, how, rfl⟩
      · rw [hopen] at hended
        cases hended
      · exact hfinish env read how rfl row hrow parent hparent'
  · cases hended

/-- The child is stored, and the only run it reports to has ended. -/
def Orphaned (child : RunId) (s : Store) : Prop := (s.runs.get? child).isSome ∧ Unheard child s

theorem orphaned_moves (hmoves : Moves L s s') (h : Orphaned child s) : Orphaned child s' := by
  apply Steps.invariant (P := Orphaned child) _ hmoves h
  rintro t m ⟨hstored, hunheard⟩ hok
  exact ⟨Moves.keeps_stored (Steps.single m hok) hstored, unheard_move hok hstored hunheard⟩

theorem orphaned_child {other : RunId × RunRow} (hended : Ended s runId)
    (hother : other ∈ s.activeChildren env runId) : Orphaned other.1 s := by
  obtain ⟨hget, hselect⟩ := mem_selectRuns.mp hother
  refine ⟨Option.isSome_of_eq_some hget, ?_⟩
  intro row hrow parent hparent
  rw [hget] at hrow
  cases hrow
  simp only [Bool.and_eq_true, decide_eq_true_eq] at hselect
  unfold RunRow.parent? at hparent
  rw [hselect.1, Option.filter_eq_some_iff] at hparent
  have hsame : runId = parent := Option.some.inj hparent.1
  rwa [← hsame]

private theorem spared_loop {turn : Store → RunId × RunRow → Store}
    (hmoves : ∀ t other, Moves Licence.any t (turn t other))
    (hturn : ∀ t other, (other.1 = child → Unheard child t) → Spared child t →
      Spared child (turn t other)) (children : List (RunId × RunRow)) :
    ∀ {t : Store}, (∀ other ∈ children, Orphaned other.1 t) → Spared child t →
      Spared child (children.foldl turn t) := by
  induction children with
  | nil => exact fun _ h => h
  | cons other rest ih =>
    intro t horphaned h
    have hfirst := horphaned other mem_cons_self
    apply ih
    · intro later hlater
      exact orphaned_moves (hmoves t other) (horphaned later (mem_cons_of_mem _ hlater))
    · apply hturn t other _ h
      rintro rfl
      exact hfirst.2

theorem spared_cancelOne (env : TxEnv) (child : RunId) (turns : Nat) :
    ∀ (s : Store) (runId : RunId) (reason : String), (runId = child → Unheard child s) →
      Spared child s → Spared child (cancelOne env turns s runId reason).1 := by
  induction turns with
  | zero => exact fun s _ _ _ h => h
  | succ turns ih =>
    intro s runId reason hstart h
    unfold cancelOne
    cases hrow : s.runs.get? runId with
    | none => exact h
    | some row =>
      by_cases hended : row.status.isTerminal = true
      · simp only [hended, if_true]
        exact h
      by_cases hrun : row.status = .running
      · simp only [hended, if_pos hrun]
        exact spared_move (L := Licence.any) (m := .requestFlag runId) ⟨row, hrow, hrun⟩
          (fun _ _ _ heq => by cases heq) h
      simp only [hended, hrun, if_false]
      have hafter : Ended ((Move.finish env runId row (.cancel reason)).apply s) runId :=
        ⟨_, finish_row hrow env row (.cancel reason), rfl⟩
      have hspared := spared_move (L := Licence.any)
        (m := .finish env runId row (.cancel reason)) ⟨row, hrow, rfl, .inl trivial⟩
        (fun _ _ _ heq => by cases heq; exact hstart rfl) h
      apply spared_loop _ (fun t other hother ht => ih t other.1 _ hother ht) _
        (fun other hother => orphaned_child hafter hother) hspared
      exact fun t other => MovesBy.moves
        (cancelOne_moves (fun _ => Move.common_of_free) env turns t other.1 _ :
          MovesBy Licence.any (fun m => m.common = true) t _)

theorem spared_cancelChildren (env : TxEnv) (how : Ending) (hended : Ended s runId)
    (h : Spared child s) : Spared child (s.cancelChildren env runId how) := by
  apply spared_loop _ _ _ (fun other hother => orphaned_child hended hother) h
  · exact fun t other => MovesBy.moves
      (cancelOne_moves (fun _ => Move.common_of_free) env _ t other.1 _ :
        MovesBy Licence.any (fun m => m.common = true) t _)
  · exact fun t other hother ht => spared_cancelOne env child _ t other.1 _ hother ht

private theorem sweep_turn {read : RunId × RunRow} {error : ErrorInfo}
    (hrow : ∃ row, s.runs.get? read.1 = some row ∧ row.birth = read.2.birth)
    (hrun : s.terminate env read.1 read.2 (.fail error) = .ok s')
    (hspared : read.1 = child → Spared child s) (h : Reported parent child consumed s) :
    Reported parent child consumed s' ∧ (read.1 ≠ child → Spared child s → Spared child s') := by
  obtain ⟨row, hrow, hbirth⟩ := hrow
  let how := Ending.fail error
  have hok : (Move.finish env read.1 read.2 how).Ok Licence.any s :=
    ⟨row, hrow, hbirth, .inl trivial⟩
  have hreported := reported_move hok (quiet_of_common parent child rfl)
    (fun _ _ _ heq => by cases heq; exact hspared rfl) h
  have hended : Ended ((Move.finish env read.1 read.2 how).apply s) read.1 :=
    ⟨_, finish_row hrow env read.2 how, rfl⟩
  cases hrun
  constructor
  · exact reported_moves (fun _ hm => quiet_of_common parent child hm)
      (cancelChildren_moves (fun _ => Move.common_of_free) _ env read.1 how) hreported
  · intro hne hbefore
    apply spared_cancelChildren env how hended
    exact spared_move hok (fun _ _ _ heq => by cases heq; exact absurd rfl hne) hbefore

private theorem sweep_reported (rows : List (RunId × RunRow)) :
    ∀ {s s' : Store}, (rows.map Prod.fst).Nodup →
      (∀ row ∈ rows, ∃ row', s.runs.get? row.1 = some row' ∧ row'.birth = row.2.birth) →
      (child ∈ rows.map Prod.fst → Spared child s) → Reported parent child consumed s →
      rows.foldlM (fun s row => s.terminate env row.1 row.2 (.fail deadlineError)) s = .ok s' →
      Reported parent child consumed s' := by
  induction rows with
  | nil =>
    intro s s' _ _ _ h hrun
    cases hrun
    exact h
  | cons row rest ih =>
    intro s s' hnodup hstored hspared h hrun
    obtain ⟨hfresh, hnodup⟩ := nodup_cons.mp hnodup
    rw [foldlM_cons] at hrun
    obtain ⟨t, hfirst, hrest⟩ := bind_ok_iff.mp hrun
    obtain ⟨hreported, hkept⟩ := sweep_turn (hstored row mem_cons_self) hfirst
      (fun hsame => hspared (hsame ▸ mem_cons_self)) h
    obtain ⟨found, hfound, hbirth⟩ := hstored row mem_cons_self
    have hmoves : MovesBy Licence.any (fun _ => True) s t :=
      terminate_moves (fun _ _ => trivial) hfound hbirth (.inl trivial) hfirst
    apply ih hnodup _ _ hreported hrest
    · intro other hother
      obtain ⟨old, hold, hsame⟩ := hstored other (mem_cons_of_mem row hother)
      obtain ⟨new, hnew, hbirth'⟩ := hmoves.moves.keeps_run hold
      exact ⟨new, hnew, hbirth'.trans hsame⟩
    · intro hlater
      apply hkept _ (hspared (mem_cons_of_mem _ hlater))
      rintro rfl
      exact hfresh hlater

private theorem lease_reported {worker : String} {capacity : Int} {leaseFor now : Time}
    {leases : List Lease} (h : Reported parent child consumed s)
    (hrun : s.lease env worker capacity leaseFor now = .ok (s', leases)) :
    Reported parent child consumed s' := by
  obtain ⟨t, hswept, hrun⟩ := bind_ok_iff.mp hrun
  have hquiet : ∀ m : Move, m.common = true → Quiet parent child m :=
    fun _ hm => quiet_of_common parent child hm
  have hreclaim : MovesBy Licence.once (fun m => m.common = true) s (s.reclaim now) :=
    MovesBy.single (.reclaim now) trivial rfl
  have hwake : MovesBy Licence.once (fun m => m.common = true) (s.reclaim now)
      ((s.reclaim now).wakeTimers env now) :=
    (wakeTimers_moves (s.reclaim now) env now).by fun _ => Move.common_of_routine
  have hwoken := reported_moves hquiet (hreclaim.trans hwake) h
  let rows := ((s.reclaim now).wakeTimers env now).overdueRuns env now
  have hread : ∀ row ∈ rows, ((s.reclaim now).wakeTimers env now).runs.get? row.1 = some row.2 ∧
        row.2.overdue now = true := fun row hrow => mem_selectRuns.mp hrow
  have hreported : Reported parent child consumed t := by
    apply sweep_reported rows _ _ _ hwoken hswept
    · exact ((env.rowOrder_perm _).map Prod.fst).nodup_iff.mpr
        (((s.reclaim now).wakeTimers env now).runs.nodup.sublist (filter_sublist.map Prod.fst))
    · exact fun row hrow => ⟨row.2, (hread row hrow).1, rfl⟩
    · intro hmem row hrow hended
      obtain ⟨⟨runId, read⟩, hrowMem, rfl⟩ := mem_map.mp hmem
      obtain ⟨hget, hoverdue⟩ := hread _ hrowMem
      rw [hget] at hrow
      cases hrow
      have hwaiting : read.isWaiting = true := by
        rw [RunRow.overdue, Bool.and_eq_true] at hoverdue
        exact hoverdue.1
      revert hwaiting hended
      unfold RunRow.isWaiting
      cases read.status <;> simp [RunStatus.isTerminal]
  have hlive := reported_moves hquiet (MovesBy.single (.dropLive now) trivial rfl :
      MovesBy Licence.once (fun m => m.common = true) t _) hreported
  by_cases hcapacity : capacity ≤ 0
  · rw [if_pos hcapacity] at hrun
    cases hrun
    exact hlive
  · rw [if_neg hcapacity] at hrun
    injection hrun with hrun
    have hclaims : MovesBy Licence.once (fun m => ∃ runId, m = .claim worker (now + leaseFor)
        now runId) (t.dropLive now) (claimRuns env worker (now + leaseFor) now
          (t.dropLive now) ((t.dropLive now).candidates capacity)).1 :=
      claimRuns_moves (fun runId => ⟨runId, rfl⟩) _ (candidates_nodup (t.dropLive now) capacity)
        fun runId => mem_candidates
    rw [hrun] at hclaims
    refine reported_moves ?_ hclaims hlive
    rintro m ⟨runId, rfl⟩
    exact ⟨fun _ heq => (by cases heq), fun _ _ heq => (by cases heq)⟩

theorem line_consume (w : Listening) (env : TxEnv) (runId : RunId) (name claimId : String)
    (other : RunId) (otherName : String) :
    (listen ⟨env, .consume runId name claimId⟩ w).line other otherName = w.line other otherName ∧
      (listen ⟨env, .consume runId name claimId⟩ w).store.runs = w.store.runs := by
  have hexec : exec ⟨env, .consume runId name claimId⟩ w.store =
      (w.store.consume runId name claimId).1 := rfl
  rcases consume_spec w.store runId name claimId with
    ⟨payload, hclaim, hconsume⟩ | ⟨hclaim, hempty, hconsume⟩ |
      ⟨payload, rest, hclaim, hqueue, hconsume, hrest⟩
  · simp [listen, Listening.line, Listening.got, hexec, hconsume, Call.takes, hclaim]
  · simp [listen, Listening.line, Listening.got, hexec, hconsume, Call.takes, hclaim, hempty]
  · have htakes : Call.takes ⟨env, .consume runId name claimId⟩ w.store =
        [{ runId, name, claimId, payload }] := by
      simp [Call.takes, hclaim, hqueue]
    simp only [listen, hexec, hconsume, htakes, Listening.line, Listening.got]
    refine ⟨?_, rfl⟩
    by_cases hmatch : runId = other ∧ name = otherName
    · obtain ⟨rfl, rfl⟩ := hmatch
      simp [filter_append, hrest, hqueue]
    · have hskip : (decide (runId = other) && decide (name = otherName)) = false := by
        simpa using hmatch
      rw [buffered_claimSignal_other hmatch]
      simp [filter_append, hskip]

theorem takes_nil {op : Op} (hconsume : ∀ runId name claimId, op ≠ .consume runId name claimId) :
    Call.takes ⟨env, op⟩ s = [] := by
  cases op with
  | consume runId name claimId => exact absurd rfl (hconsume runId name claimId)
  | _ => rfl

theorem reported_listen (hcall : NotByHand parent child w call)
    (h : Reported parent child (w.consumed parent child) w.store) :
    Reported parent child ((listen call w).consumed parent child) (listen call w).store := by
  obtain ⟨env, op⟩ := call
  obtain ⟨hkeeps, hsends⟩ := hcall
  by_cases hconsume : ∃ runId name claimId, op = .consume runId name claimId
  · obtain ⟨runId, name, claimId, rfl⟩ := hconsume
    obtain ⟨hline, hruns⟩ := line_consume w env runId name claimId parent (childSignal child)
    intro hparent
    unfold Ended at hparent
    rw [hruns] at hparent
    change HeardOnce _ parent child ((listen _ w).line parent (childSignal child))
    rw [hline]
    unfold HeardOnce ChildRow
    rw [hruns]
    exact h hparent
  simp only [not_exists] at hconsume
  have hsame : (listen ⟨env, op⟩ w).consumed parent child = w.consumed parent child := by
    simp [listen, Listening.consumed, takes_nil hconsume]
  rw [hsame]
  change Reported parent child _ (exec ⟨env, op⟩ w.store)
  cases hrun : w.store.perform env op with
  | error e =>
    have hexec : exec ⟨env, op⟩ w.store = w.store := exec_error hrun
    rwa [hexec]
  | ok s' =>
    have hexec : exec ⟨env, op⟩ w.store = s' := exec_ok hrun
    rw [hexec]
    have hquiet : ∀ m, op.Makes m → Quiet parent child m := by
      intro m hm
      constructor
      · rintro payload rfl
        exact hsends payload hm
      · rintro claimId payload rfl
        exact hconsume parent (childSignal child) claimId hm
    cases op with
    | lease worker capacity leaseFor now =>
      obtain ⟨⟨t, leases⟩, hlease, hrun⟩ := bind_ok_iff.mp hrun
      cases hrun
      exact lease_reported h hlease
    | _ =>
      refine reported_moves hquiet (perform_moves hkeeps ?_ trivial ?_ hrun) h
      all_goals first
        | exact Licence.allows_all (fun _ => trivial) env _ _ _
        | trivial

private theorem prefix_of_same {before after : List JsonObject} (h : after = before) :
    before <+: after := by
  subst h
  exact prefix_rfl

private theorem buffered_grows (hok : m.Ok L s) (hopen : ¬ Ended (m.apply s) runId)
    (hclaim : ∀ claimId payload, m ≠ .claimSignal runId name claimId payload) :
    s.buffered runId name <+: (m.apply s).buffered runId name := by
  have hsignal : ∀ (t : Store) other otherName payload,
      t.buffered runId name <+: (t.signal other otherName payload).1.buffered runId name := by
    intro t other otherName payload
    have hbuffer : t.buffered runId name <+:
        (t.bufferSignal other otherName payload).buffered runId name := by
      unfold buffered bufferSignal
      rw [filter_append, map_append]
      exact prefix_append ..
    rcases signal_cases t other otherName payload with h | h | h
    · exact prefix_of_same (congrArg (fun u : Store => u.buffered runId name) h)
    · rwa [h]
    · rwa [h]
  cases m with
  | signal other otherName payload => exact hsignal s other otherName payload
  | claimSignal other otherName claimId payload =>
    have hother : ¬ (other = runId ∧ otherName = name) := by
      rintro ⟨rfl, rfl⟩
      exact hclaim claimId payload rfl
    have hsame : ((Move.claimSignal other otherName claimId payload).apply s).buffered runId
        name = s.buffered runId name := buffered_claimSignal_other hother
    exact prefix_of_same hsame
  | finish env other read how =>
    have hne : other ≠ runId := by
      rintro rfl
      obtain ⟨row, hrow, _⟩ := hok
      exact hopen ⟨_, finish_row hrow env read how, Ending.status_isTerminal how⟩
    have hclose : (s.close env other how).buffered runId name = s.buffered runId name :=
      buffered_close_other hne
    change s.buffered runId name <+:
      ((s.close env other how).reportEnd other read how).buffered runId name
    rw [← hclose]
    unfold reportEnd
    split
    · exact hsignal ..
    · exact prefix_of_same rfl
  | _ =>
    apply prefix_of_same
    exact buffered_congr (signals_kept _ s (by simp) (by simp) (by simp))

theorem buffered_kept (hok : m.Ok L s) (hopen : ¬ Ended (m.apply s) runId)
    (hname : ∀ child, name ≠ childSignal child)
    (hsignal : ∀ payload, m ≠ .signal runId name payload)
    (hclaim : ∀ claimId payload, m ≠ .claimSignal runId name claimId payload) :
    (m.apply s).buffered runId name = s.buffered runId name := by
  cases m with
  | signal other otherName payload =>
    apply buffered_signal_other
    rintro ⟨rfl, rfl⟩
    exact hsignal payload rfl
  | claimSignal other otherName claimId payload =>
    apply buffered_claimSignal_other
    rintro ⟨rfl, rfl⟩
    exact hclaim claimId payload rfl
  | finish env other read how =>
    have hne : other ≠ runId := by
      rintro rfl
      obtain ⟨row, hrow, _⟩ := hok
      exact hopen ⟨_, finish_row hrow env read how, Ending.status_isTerminal how⟩
    have hclose : (s.close env other how).buffered runId name = s.buffered runId name :=
      buffered_close_other hne
    refine Eq.trans ?_ hclose
    change ((s.close env other how).reportEnd other read how).buffered runId name = _
    unfold reportEnd
    split
    · exact buffered_signal_other _ fun hsame => hname other hsame.2.symm
    · rfl
  | _ => exact buffered_congr (signals_kept _ s (by simp) (by simp) (by simp))

theorem line_listen (hkeeps : call.op.deletes = false) (hname : ∀ child, name ≠ childSignal child)
    (hsends : ∀ payload, ¬ call.op.Sends runId name payload)
    (hopen : ¬ Ended (exec call w.store) runId) :
    (listen call w).line runId name = w.line runId name := by
  obtain ⟨env, op⟩ := call
  by_cases hconsume : ∃ other otherName claimId, op = .consume other otherName claimId
  · obtain ⟨other, otherName, claimId, rfl⟩ := hconsume
    exact (line_consume w env other otherName claimId runId name).1
  simp only [not_exists] at hconsume
  have hbuffered : (exec ⟨env, op⟩ w.store).buffered runId name = w.store.buffered runId name := by
    cases hrun : w.store.perform env op with
    | error e =>
      have hexec : exec ⟨env, op⟩ w.store = w.store := exec_error hrun
      rw [hexec]
    | ok s' =>
      have hexec : exec ⟨env, op⟩ w.store = s' := exec_ok hrun
      rw [hexec] at hopen ⊢
      have hmoves := perform_moves_any hkeeps hrun
      clear hrun hexec
      induction hmoves with
      | refl => rfl
      | tail _ hlast ih =>
        obtain ⟨m, ⟨hok, hm⟩, rfl⟩ := hlast
        rw [← ih fun hended => hopen (ended_move hok hended)]
        apply buffered_kept hok hopen hname
        · rintro payload rfl
          exact hsends payload hm
        · rintro claimId payload rfl
          exact hconsume runId name claimId hm
  simp [Listening.line, Listening.got, listen, takes_nil hconsume, hbuffered]

theorem reports_grow (hkeeps : call.op.deletes = false)
    (hopen : ¬ Ended (exec call w.store) parent) :
    w.reports parent child <+: (listen call w).reports parent child := by
  obtain ⟨env, op⟩ := call
  by_cases hconsume : ∃ runId name claimId, op = .consume runId name claimId
  · obtain ⟨runId, name, claimId, rfl⟩ := hconsume
    exact prefix_of_same (line_consume w env runId name claimId parent (childSignal child)).1
  simp only [not_exists] at hconsume
  have hbuffered : w.store.buffered parent (childSignal child) <+:
      (exec ⟨env, op⟩ w.store).buffered parent (childSignal child) := by
    cases hrun : w.store.perform env op with
    | error e =>
      have hexec : exec ⟨env, op⟩ w.store = w.store := exec_error hrun
      exact prefix_of_same (congrArg (fun u : Store => u.buffered parent _) hexec)
    | ok s' =>
      have hexec : exec ⟨env, op⟩ w.store = s' := exec_ok hrun
      rw [hexec] at hopen ⊢
      have hmoves := perform_moves_any hkeeps hrun
      clear hrun hexec
      induction hmoves with
      | refl => exact prefix_of_same rfl
      | tail _ hlast ih =>
        obtain ⟨m, ⟨hok, hm⟩, rfl⟩ := hlast
        have hbefore := ih fun hended => hopen (ended_move hok hended)
        apply hbefore.trans (buffered_grows hok hopen _)
        rintro claimId payload rfl
        exact hconsume parent (childSignal child) claimId hm
  obtain ⟨more, hmore⟩ := hbuffered
  refine ⟨more, ?_⟩
  simp [Listening.reports, Listening.consumed, listen, takes_nil hconsume, ← hmore]

theorem taken_listen (call : Call)
    (h : ∀ taken ∈ w.taken, w.store.claims.get? taken.claimId = some taken.payload) :
    ∀ taken ∈ (listen call w).taken,
      (listen call w).store.claims.get? taken.claimId = some taken.payload := by
  intro taken htaken
  rcases mem_append.mp htaken with hold | hnew
  · exact claims_exec call (h taken hold)
  · obtain ⟨env, op⟩ := call
    cases op with
    | consume runId name claimId =>
      rcases consume_spec w.store runId name claimId with
        ⟨payload, hclaim, hconsume⟩ | ⟨hclaim, hempty, hconsume⟩ |
          ⟨payload, rest, hclaim, hqueue, hconsume, hrest⟩
      · simp [Call.takes, hclaim] at hnew
      · simp [Call.takes, hclaim, hempty] at hnew
      · simp only [Call.takes, hclaim, hqueue, mem_singleton] at hnew
        subst hnew
        change (w.store.consume runId name claimId).1.claims.get? claimId = _
        rw [hconsume]
        change (w.store.claims.insert claimId payload).get? claimId = _
        simp [Table.get?_insert, hclaim]
    | _ => cases hnew

structure ReportsOnce (w : Listening) (parent child : RunId) : Prop where
  before : ∀ row, ChildRow w.store parent child row → row.status.isTerminal = false →
    w.reports parent child = []
  after : ∀ row, ChildRow w.store parent child row → row.status.isTerminal = true →
    ∃ how : Ending, how.status = row.status ∧ w.reports parent child = [how.report]
  only_grows : ∀ call, call.op.deletes = false → ¬ Ended (exec call w.store) parent →
    w.reports parent child <+: (listen call w).reports parent child
  claimed : ∀ taken ∈ w.taken, w.store.claims.get? taken.claimId = some taken.payload
  joined : ∀ row claimId, ChildRow w.store parent child row →
    row.status.isTerminal = true → w.store.claims.get? claimId = none →
    w.consumed parent child = [] → ∃ how : Ending, how.status = row.status ∧
      (w.store.consume parent (childSignal child) claimId).2 = some how.report

/-- A child reports to its parent exactly once, through every run of calls that
deletes nothing and sends no such report by hand: while the parent is open it
has heard nothing before the child ends, and the child's ending, once, from then
on, in the buffer or under the claim that took it. -/
theorem child_reports_once {w : Listening} {parent child : RunId}
    (h : Steps listen (NotByHand parent child) {} w) (hopen : ¬ Ended w.store parent) :
    ReportsOnce w parent child := by
  have hreported : Reported parent child (w.consumed parent child) w.store := by
    refine Steps.invariant
      (P := fun w => Reported parent child (Listening.consumed w parent child) w.store)
      (fun _ _ hw hcall => reported_listen hcall hw) h fun _ => ⟨?_, fun _ => rfl⟩
    rintro row ⟨hrow, _⟩
    cases hrow
  have htaken : ∀ taken ∈ w.taken, w.store.claims.get? taken.claimId = some taken.payload := by
    refine Steps.invariant (P := fun w : Listening => ∀ taken ∈ w.taken,
      w.store.claims.get? taken.claimId = some taken.payload)
      (fun _ call hw _ => taken_listen call hw) h ?_
    intro taken hmem
    cases hmem
  obtain ⟨hafter, hbefore⟩ := hreported hopen
  refine ⟨?_, hafter, fun call hkeeps => reports_grow hkeeps, htaken, ?_⟩
  · rintro row ⟨hrow, hparent⟩ hstatus
    apply hbefore
    rintro other ⟨hother, _⟩
    rw [hrow] at hother
    cases hother
    exact hstatus
  · intro row claimId hrow hended hfree hnone
    obtain ⟨how, hstatus, hreports⟩ := hafter row hrow hended
    refine ⟨how, hstatus, ?_⟩
    rw [hnone, nil_append] at hreports
    rcases consume_spec w.store parent (childSignal child) claimId with
      ⟨payload, hclaim, _⟩ | ⟨_, hempty, _⟩ | ⟨payload, rest, _, hqueue, hconsume, _⟩
    · rw [hfree] at hclaim
      cases hclaim
    · rw [hreports] at hempty
      cases hempty
    · rw [hreports] at hqueue
      cases hqueue
      rw [hconsume]

private def family : List Call :=
  [⟨.plain 0, .createRun { agent := "agent", runId := some "p" } []⟩,
   ⟨.plain 0, .lease "w" 1 100 0⟩,
   ⟨.plain 0, .commit (firstLease "p")
     { spawns := [{ effectId := "e", child := { agent := "agent", runId := some "c" }
                    boot := { id := "boot", sender := "agent" } }] }⟩]

private def familyJoined : List Call :=
  family ++ [⟨.plain 1, .lease "w" 1 100 1⟩, ⟨.plain 2, .commit (firstLease "c")
       { ack := ["boot"], outcome := some (.ending .complete) }⟩,
     ⟨.plain 3, .consume "p" (childSignal "c") "join"⟩]

theorem child_reports_once_joined :
    let w := familyJoined.foldl (fun w call => listen call w) {}
    (w.store.runs.get? "c").map (·.status) = some .completed ∧
      w.taken.map (·.claimId) = ["join"] ∧ ReportsOnce w "p" "c" := by
  have hruns : Steps listen (NotByHand "p" "c") {}
      (familyJoined.foldl (fun w call => listen call w) {}) := by
    apply Steps.foldl
    intro w call hcall
    refine Steps.single call ?_
    simp only [familyJoined, family, cons_append, nil_append, mem_cons,
      not_mem_nil, or_false] at hcall
    rcases hcall with rfl | rfl | rfl | rfl | rfl | rfl <;>
      exact ⟨rfl, fun _ hsends => by simp [Op.Sends] at hsends⟩
  have hparent : ((familyJoined.foldl (fun w call => listen call w) {}).store.runs.get?
      "p").map (·.status) = some .running := by decide
  refine ⟨by decide, by decide, child_reports_once hruns ?_⟩
  rintro ⟨row, hrow, hended⟩
  rw [hrow] at hparent
  cases row
  cases hparent
  cases hended

private def familyForged : List Call := family ++ [⟨.plain 1, .signal "p" (childSignal "c") []⟩]

/-- A report sent by hand stands in the parent's buffer before the child has
ended. -/
theorem report_by_hand :
    let w := familyForged.foldl (fun w call => listen call w) {}
    (∀ call ∈ familyForged, call.op.deletes = false) ∧
      (w.store.runs.get? "p").map (·.status) = some .running ∧
      (w.store.runs.get? "c").map (fun row => (row.parent?, row.status)) =
        some (some "p", .pending) ∧
      w.reports "p" "c" ≠ [] := by
  have hreports : ((familyForged.foldl (fun w call => listen call w) {}).reports
      "p" "c").length = 1 := by decide
  refine ⟨by decide, by decide, by decide, ?_⟩
  intro hnone
  rw [hnone] at hreports
  cases hreports

end Substrate.Store
