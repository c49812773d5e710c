import Mathlib.Logic.Relation
import Substrate.Store.Calls

/-!
How runs end. The terminal journal entry of a run is deduplicated by a key that all three
kinds share, while the status row is overwritten whenever `_terminate` is called, so the
two agree as long as no run is ended a second time.
-/

namespace Substrate.Store

open Lib List Option Bool

def terminalEntries (s : Store) (runId : RunId) : List EventRow :=
  s.events.filter fun event => event.runId = runId && isTerminalKind event.kind

/-- A run's journal holds exactly the terminal entry of its status: one of that
kind when it has ended, none while it is open. -/
def RecordsAgree (s : Store) : Prop :=
  ∀ runId row, s.runs.get? runId = some row →
    (s.terminalEntries runId).map (·.kind) = row.status.entryKind?.toList

/-- A run that has ended keeps its status and its result. -/
def KeepsEnded (s s' : Store) : Prop :=
  ∀ runId row, s.runs.get? runId = some row → row.status.isTerminal = true →
    ∃ row', s'.runs.get? runId = some row' ∧ row'.status = row.status ∧
      row'.result = row.result

/-! ### A cascade ends

Each level of a cancellation ends one open run, so the recursion is not cut
short by the bound `cascadeTurns` gives it. -/

def openRuns (s : Store) : Nat := s.runs.count fun row => !row.status.isTerminal

/-- A child that a cancelled parent takes with it: one that no worker has. -/
def ChildOf (s : Store) (parent child : RunId) : Prop :=
  ∃ row, s.runs.get? child = some row ∧ row.parentRunId = some parent ∧
    row.isWaiting = true

def Below (s : Store) : RunId → RunId → Prop := Relation.TransGen (ChildOf s)

/-- The deadline sweep of a `lease` call reads no run after one it is below. -/
def Op.SweepInOrder (env : TxEnv) (s : Store) : Op → Prop
  | .lease _ _ _ now =>
    let swept := (s.reclaim now).wakeTimers env now
    (swept.overdueRuns env now).Pairwise fun first later =>
      ¬ Below swept first.1 later.1
  | _ => True

/-- The calls that end no run twice: no sweep meets a run its own cascade has
ended, and no entry the caller writes is, or uses the key of, a terminal one. -/
def Orderly (s : Store) (call : Call) : Prop :=
  ∀ s', s.perform call.env call.op = .ok s' →
    call.op.SweepInOrder call.env s ∧
      call.op.EntriesAllowed Licence.strict call.env s

/-- What is left of a state `s` while runs in `ended` are cancelled: every run
is stored with what it was created with, none has become waiting, and the
waiting runs outside `ended` still are. -/
structure Cascade (s : Store) (ended : RunId → Prop) (t : Store) : Prop where
  births : ∀ runId row, s.runs.get? runId = some row →
    ∃ row', t.runs.get? runId = some row' ∧ row'.birth = row.birth
  shrinks : ∀ runId row, t.runs.get? runId = some row → row.isWaiting = true →
    ∃ old, s.runs.get? runId = some old ∧ old.isWaiting = true ∧
      old.parentRunId = row.parentRunId
  spares : ∀ runId row, ¬ ended runId → s.runs.get? runId = some row →
    row.isWaiting = true →
      ∃ row', t.runs.get? runId = some row' ∧ row'.isWaiting = true

theorem cascade_refl (s : Store) (ended : RunId → Prop) : Cascade s ended s where
  births := fun _ row hrow => ⟨row, hrow, rfl⟩
  shrinks := fun _ row hrow hwaiting => ⟨row, hrow, hwaiting, rfl⟩
  spares := fun _ row _ hrow hwaiting => ⟨row, hrow, hwaiting⟩

variable {s t s' : Store} {ended : RunId → Prop} {row row' : RunRow} {m : Move} {env : TxEnv}
    {runId other : RunId} {how : Ending} {call : Call} {status : RunStatus}

theorem Cascade.mono {ended' : RunId → Prop} (hmono : ∀ runId, ended runId → ended' runId)
    (h : Cascade s ended t) :
    Cascade s ended' t where
  births := h.births
  shrinks := h.shrinks
  spares := fun runId row hout => h.spares runId row fun hin => hout (hmono runId hin)

private theorem queued_waiting (hstatus : row.status = .suspended) :
    row.queued.isWaiting = true := by
  rw [RunRow.queued, if_pos hstatus]
  rfl

/-- The moves that end no run outside `ended`: those of a cascade, and those
that at most queue the runs they touch. -/
def EndsOnly (ended : RunId → Prop) : Move → Prop
  | .finish _ runId _ _ => ended runId
  | .requestFlag _ | .makePending _ | .signal .. | .write .. | .charge .. | .ack ..
  | .nack .. => True
  | _ => False

theorem Cascade.move (h : Cascade s ended t) (hok : m.Ok Licence.any t) (hkind : EndsOnly ended m) :
    Cascade s ended (m.apply t) where
  births := by
    intro runId row hrow
    obtain ⟨old, hold, hbirth⟩ := h.births runId row hrow
    obtain ⟨row', hrow', hstep⟩ := row_step hok hold
    exact ⟨row', hrow', hstep.birth.trans hbirth⟩
  shrinks := by
    intro runId row hrow hwaiting
    rcases row_origin hok hrow with ⟨old, hold, hstep⟩ | ⟨_, _, _, ⟨accounts, hm⟩, _⟩
    · have hwas : old.isWaiting = true := by
        cases hstep with
        | same | flagged | extended => exact hwaiting
        | queued hstatus => simp [RunRow.isWaiting, hstatus]
        | ended _ _ how =>
          cases how <;> cases hwaiting
        | reclaimed _ hm | claimed _ _ _ hm | slept _ _ hm | resumed _ _ hm | parked _ hm =>
          subst hm
          exact hkind.elim
      obtain ⟨first, hfirst, hwaited, hparent⟩ := h.shrinks runId old hold hwas
      exact ⟨first, hfirst, hwaited,
        hparent.trans (congrArg RunRow.parentRunId hstep.birth).symm⟩
    · subst hm
      exact hkind.elim
  spares := by
    intro runId row hout hrow hwaiting
    obtain ⟨old, hold, hwas⟩ := h.spares runId row hout hrow hwaiting
    obtain ⟨row', hrow', hstep⟩ := row_step hok hold
    refine ⟨row', hrow', ?_⟩
    cases hstep with
    | same | flagged | extended => exact hwas
    | queued hstatus => exact queued_waiting hstatus
    | ended env read how hm =>
      subst hm
      exact absurd hkind hout
    | reclaimed _ hm | claimed _ _ _ hm | slept _ _ hm | resumed _ _ hm | parked _ hm =>
      subst hm
      exact hkind.elim

theorem Cascade.moves {t' : Store} (h : Cascade s ended t)
    (hmoves : MovesBy Licence.any (EndsOnly ended) t t') : Cascade s ended t' :=
  Steps.invariant (fun _ _ hu hok => hu.move hok.1 hok.2) hmoves h

/-- The runs a cascade ends are closed under waiting children. -/
def Closed (s : Store) (ended : RunId → Prop) : Prop :=
  ∀ parent child, ended parent → ChildOf s parent child → ended child

private theorem endsOnly_children (hclosed : Closed s ended) {parent : RunId}
    (hparent : ended parent) {turn : Store → RunId × RunRow → Store}
    (hturn : ∀ u child, Cascade s ended u →
      (∀ row, u.runs.get? child.1 = some row → row.isWaiting = true → ended child.1) →
      MovesBy Licence.any (EndsOnly ended) u (turn u child)) (h : Cascade s ended t) :
    MovesBy Licence.any (EndsOnly ended) t ((t.activeChildren env parent).foldl turn t) := by
  have hlisted : ∀ child ∈ t.activeChildren env parent, ∀ row,
      s.runs.get? child.1 = some row → row.parentRunId = some parent := by
    intro child hchild row hrow
    obtain ⟨hget, hselect⟩ := mem_selectRuns.mp hchild
    simp only [and_eq_true, decide_eq_true_eq] at hselect
    obtain ⟨row', hrow', hbirth⟩ := h.births child.1 row hrow
    rw [hget] at hrow'
    cases hrow'
    exact (congrArg RunRow.parentRunId hbirth).symm.trans hselect.1
  revert hlisted
  generalize t.activeChildren env parent = children
  intro hlisted
  induction children generalizing t with
  | nil => exact Steps.refl t
  | cons child rest ih =>
    have hfirst : MovesBy Licence.any (EndsOnly ended) t (turn t child) := by
      apply hturn t child h
      intro row hrow hwaiting
      obtain ⟨old, hold, hwas, _⟩ := h.shrinks child.1 row hrow hwaiting
      exact hclosed parent child.1 hparent
        ⟨old, hold, hlisted child mem_cons_self old hold, hwas⟩
    apply hfirst.trans
    apply ih (h.moves hfirst)
    exact fun other hother => hlisted other (mem_cons_of_mem child hother)

theorem endsOnly_cancelOne (hclosed : Closed s ended) (env : TxEnv) (turns : Nat) :
    ∀ {t : Store} (runId : RunId) (reason : String),
      Cascade s ended t →
      (∀ row, t.runs.get? runId = some row → row.isWaiting = true → ended runId) →
      MovesBy Licence.any (EndsOnly ended) t (cancelOne env turns t runId reason).1 := by
  induction turns with
  | zero => exact fun {t} _ _ _ _ => Steps.refl t
  | succ turns ih =>
    intro t runId reason h hwaits
    unfold cancelOne
    cases hrow : t.runs.get? runId with
    | none => exact Steps.refl t
    | some row =>
      by_cases hended : row.status.isTerminal = true
      · simp only [hended, if_true]
        exact Steps.refl t
      by_cases hrun : row.status = .running
      · simp only [hrun, if_true]
        exact MovesBy.single (.requestFlag runId) ⟨row, hrow, hrun⟩ trivial
      simp only [hended, hrun, if_false]
      have hwaiting : row.isWaiting = true := by
        revert hended hrun
        unfold RunRow.isWaiting
        cases row.status <;> simp [RunStatus.isTerminal]
      have hin := hwaits row hrow hwaiting
      have hfinish : MovesBy Licence.any (EndsOnly ended) t
          ((t.close env runId (.cancel reason)).reportEnd runId row (.cancel reason)) :=
        MovesBy.single (.finish env runId row (.cancel reason))
          ⟨row, hrow, rfl, Or.inl trivial⟩ hin
      exact hfinish.trans (endsOnly_children hclosed hin
        (fun u child hu hchild => ih child.1 _ hu hchild) (h.moves hfinish))

theorem endsOnly_stop (hclosed : Closed s ended) (h : Cascade s ended t) (hin : ended runId)
    (hrow : t.runs.get? runId = some row') (hbirth : row'.birth = row.birth) :
    MovesBy Licence.any (EndsOnly ended) t
      (((t.close env runId how).reportEnd runId row how).cancelChildren env runId how) := by
  have hfinish : MovesBy Licence.any (EndsOnly ended) t
      ((t.close env runId how).reportEnd runId row how) :=
    MovesBy.single (.finish env runId row how) ⟨row', hrow, hbirth, Or.inl trivial⟩ hin
  exact hfinish.trans (endsOnly_children hclosed hin
    (fun u child hu hchild => endsOnly_cancelOne hclosed env _ child.1 _ hu hchild)
    (h.moves hfinish))

private theorem sweep_strict {may : Move → Prop} (hmay : ∀ m : Move, m.free = true → may m)
    (ended : RunId → Prop) (rows : List (RunId × RunRow)) :
    ∀ {t t' : Store}, Closed s ended → Cascade s ended t →
      (∀ row ∈ rows, s.runs.get? row.1 = some row.2 ∧ row.2.isWaiting = true ∧
        ¬ ended row.1) →
      (rows.map Prod.fst).Nodup →
      rows.Pairwise (fun first later => ¬ Below s first.1 later.1) →
      rows.foldlM (fun s row => s.terminate env row.1 row.2 (.fail deadlineError)) t = .ok t' →
      MovesBy Licence.strict may t t' := by
  induction rows generalizing ended with
  | nil =>
    intro t t' _ _ _ _ _ h
    cases h
    exact Steps.refl t
  | cons row rest ih =>
    intro t t' hclosed hcascade hread hnodup horder h
    rw [foldlM_cons] at h
    obtain ⟨u, hfirst, hrest⟩ := bind_ok_iff.mp h
    obtain ⟨hrow, hwaiting, hout⟩ := hread row mem_cons_self
    obtain ⟨hnotin, hnodup⟩ := nodup_cons.mp hnodup
    obtain ⟨hapart, horder⟩ := pairwise_cons.mp horder
    obtain ⟨now, hnow, hopen⟩ := hcascade.spares row.1 row.2 hout hrow hwaiting
    obtain ⟨same, hsame, hbirth⟩ := hcascade.births row.1 row.2 hrow
    rw [hnow] at hsame
    cases hsame
    have hmoves : MovesBy Licence.strict may t u := by
      refine terminate_moves hmay hnow hbirth (Or.inr ?_) hfirst
      revert hopen
      unfold RunRow.isWaiting
      cases now.status <;> simp [RunStatus.isTerminal]
    have hclosed' : Closed s fun x => ended x ∨ x = row.1 ∨ Below s row.1 x := by
      rintro parent child (hin | rfl | hbelow) hchild
      · exact Or.inl (hclosed parent child hin hchild)
      · exact Or.inr (Or.inr (Relation.TransGen.single hchild))
      · exact Or.inr (Or.inr (Relation.TransGen.tail hbelow hchild))
    have hcascade' : Cascade s (fun x => ended x ∨ x = row.1 ∨ Below s row.1 x) u := by
      have hbefore : Cascade s (fun x => ended x ∨ x = row.1 ∨ Below s row.1 x) t :=
        hcascade.mono fun _ => Or.inl
      cases hfirst
      exact hbefore.moves (endsOnly_stop hclosed' hbefore (Or.inr (Or.inl rfl)) hnow hbirth)
    refine hmoves.trans (ih _ hclosed' hcascade' ?_ hnodup horder hrest)
    intro other hother
    obtain ⟨hget, hwaits, hnot⟩ := hread other (mem_cons_of_mem row hother)
    refine ⟨hget, hwaits, ?_⟩
    rintro (hin | hsame | hbelow)
    · exact hnot hin
    · exact hnotin (mem_map.mpr ⟨other, hother, hsame⟩)
    · exact hapart other hother hbelow

theorem sweepMoves_strict {op : Op} (horder : op.SweepInOrder env s) :
    op.SweepMoves Licence.strict op.Makes env s := by
  cases op with
  | lease worker capacity leaseFor now =>
    intro t hswept
    refine sweep_strict (fun _ hm => Op.makes_common _ (Move.common_of_free hm)) (fun _ => False) _
      (fun _ _ hin => hin.elim) (cascade_refl _ _) ?_ ?_ horder hswept
    · intro row hrow
      obtain ⟨hget, hoverdue⟩ := mem_selectRuns.mp hrow
      rw [RunRow.overdue, and_eq_true] at hoverdue
      exact ⟨hget, hoverdue.1, id⟩
    · have hrows := env.rowOrder_perm
        ((((s.reclaim now).wakeTimers env now).runs.rows.filter fun row =>
          row.2.overdue now))
      exact ((hrows.map Prod.fst).nodup_iff).mpr
        (((s.reclaim now).wakeTimers env now).runs.nodup.sublist
          (filter_sublist.map Prod.fst))
  | _ => trivial

theorem perform_moves_strict (horderly : Orderly s call) (hkeeps : call.op.deletes = false)
    (h : s.perform call.env call.op = .ok s') : Moves Licence.strict s s' := by
  obtain ⟨horder, hentries⟩ := horderly s' h
  exact (perform_moves hkeeps hentries (sweepMoves_strict horder)
    (by cases call.op <;> trivial) h).moves

def marksEnd (event : EventRow) : Bool :=
  isTerminalKind event.kind || event.dedupKey = some terminalKey

def endMarks (s : Store) (runId : RunId) : List EventRow :=
  s.events.filter fun event => event.runId = runId && marksEnd event

/-- What the journal of a run holds when its row is `row`. -/
def Tally (row : Option RunRow) (marks : List EventRow) : Prop :=
  match row.bind (·.status.entryKind?) with
  | none => marks = []
  | some kind => ∃ event, marks = [event] ∧ event.kind = kind ∧
      event.dedupKey = some terminalKey ∧ event.ephemeral = false

/-- Every run's journal agrees with its row, and no journal belongs to nobody. -/
def Settled (s : Store) : Prop := ∀ runId, Tally (s.runs.get? runId) (s.endMarks runId)

theorem settled_init : Settled init := fun _ => rfl

theorem RowStep.keeps_ended (h : RowStep Licence.strict m runId row row')
    (hended : row.status.isTerminal = true) : row' = row := by
  cases h with
  | same => rfl
  | ended _ _ _ _ hopen =>
    rcases hopen with hagain | hopen
    · exact hagain.elim
    · rw [hended] at hopen
      cases hopen
  | queued hstatus | flagged _ hstatus | reclaimed _ _ hstatus | claimed _ _ _ _ hstatus
  | extended _ _ hstatus | slept _ _ _ hstatus | resumed _ _ _ hstatus
  | parked _ _ hstatus =>
    rw [hstatus] at hended
    cases hended

theorem entryKind?_of_open (hopen : status.isTerminal = false) : status.entryKind? = none := by
  cases status <;> first | rfl | cases hopen

private theorem kind_kept (hok : m.Ok Licence.strict s) (runId : RunId)
    (hother : ∀ env read how, m ≠ .finish env runId read how) :
    ((m.apply s).runs.get? runId).bind (·.status.entryKind?) =
      (s.runs.get? runId).bind (·.status.entryKind?) := by
  cases hold : s.runs.get? runId with
  | some row =>
    obtain ⟨row', hrow', hstep⟩ := row_step hok hold
    rw [hrow']
    simp only [bind_some]
    cases hended : row.status.isTerminal with
    | true => rw [hstep.keeps_ended hended]
    | false =>
      rcases hstep.stays_open hended with hopen | ⟨env, read, how, rfl⟩
      · rw [entryKind?_of_open hopen, entryKind?_of_open hended]
      · exact absurd rfl (hother env read how)
  | none =>
    cases hnew : (m.apply s).runs.get? runId with
    | none => rfl
    | some row =>
      rcases row_origin hok hnew with ⟨old, hsome, _⟩ | ⟨_, spec, clock, _, rfl⟩
      · rw [hold] at hsome
        cases hsome
      · rfl

theorem events_kept (m : Move) (s : Store)
    (hwrite : ∀ env runId entry, m ≠ .write env runId entry)
    (hfinish : ∀ env runId read how, m ≠ .finish env runId read how)
    (hlive : ∀ now, m ≠ .dropLive now) : (m.apply s).events = s.events := by
  cases m with
  | write env runId entry => exact absurd rfl (hwrite env runId entry)
  | finish env runId read how => exact absurd rfl (hfinish env runId read how)
  | dropLive now => exact absurd rfl (hlive now)
  | signal => exact signal_events ..
  | nack => exact nack_events ..
  | suspend => exact suspend_events ..
  | _ => rfl

private theorem Settled.same (h : Settled s)
    (hkind : ∀ runId, (s'.runs.get? runId).bind (·.status.entryKind?) =
      (s.runs.get? runId).bind (·.status.entryKind?))
    (hmarks : ∀ runId, s'.endMarks runId = s.endMarks runId) : Settled s' := by
  intro runId
  have hold := h runId
  unfold Tally at hold ⊢
  rwa [hkind, hmarks]

private theorem endMarks_insertEvent (s : Store) (env : TxEnv) (other : RunId)
    (entry : NewEntry) (runId : RunId) :
    (s.insertEvent env other entry).endMarks runId = s.endMarks runId ++
      [{ runId := other, seq := s.nextSeq other, kind := entry.kind
         payload := entry.payload, ts := env.clock, ephemeral := entry.ephemeral
         dedupKey := entry.dedupKey }].filter
        fun event => event.runId = runId && marksEnd event := by
  unfold endMarks insertEvent
  rw [filter_append]

private theorem endMarks_plain {entry : NewEntry} (hplain : entry.plain = true) (runId : RunId) :
    (s.insertEvent env other entry).endMarks runId = s.endMarks runId := by
  have hmark : (isTerminalKind entry.kind || entry.dedupKey = some terminalKey) = false := by
    simpa [NewEntry.plain] using hplain
  rw [endMarks_insertEvent, filter_singleton]
  simp [marksEnd, hmark]

private theorem settled_dropLive (h : Settled s) (now : Time) : Settled (s.dropLive now) := by
  intro runId
  have hmarks : (s.dropLive now).endMarks runId =
      (s.endMarks runId).filter fun event =>
        !(event.ephemeral &&
          ((s.runs.get? event.runId).bind (·.terminatedAt)).any
            (· < now - ephemeralGrace)) := by
    unfold endMarks dropLive
    simp only [List.filter_filter]
    exact List.filter_congr fun _ _ => and_comm ..
  have hold := h runId
  change Tally (s.runs.get? runId) _
  rw [hmarks]
  unfold Tally at hold ⊢
  split at hold
  · rw [hold]
    rfl
  · obtain ⟨event, hone, hkind, hkey, hdurable⟩ := hold
    refine ⟨event, ?_, hkind, hkey, hdurable⟩
    rw [hone]
    simp [hdurable]

private theorem settled_finish (h : Settled s) {read : RunRow}
    (hok : (Move.finish env other read how).Ok Licence.strict s) :
    Settled ((Move.finish env other read how).apply s) := by
  have hok' := hok
  obtain ⟨row, hrow, _, hopen⟩ := hok'
  have hopen : row.status.isTerminal = false := hopen.resolve_left id
  have hnone : s.endMarks other = [] := by
    have hold := h other
    unfold Tally at hold
    rwa [hrow, bind_some, entryKind?_of_open hopen] at hold
  have hfresh : s.findDedup other (some terminalKey) = none := by
    unfold findDedup
    rw [bind_some, List.find?_eq_none]
    intro event hevent hmatch
    simp only [and_eq_true, decide_eq_true_eq] at hmatch
    have hmem : event ∈ s.endMarks other :=
      mem_filter.mpr ⟨hevent, by simp [marksEnd, hmatch.1, hmatch.2]⟩
    rw [hnone] at hmem
    cases hmem
  have hevents : ((Move.finish env other read how).apply s).events =
      (s.insertEvent env other how.entry).events := by
    change ((s.close env other how).reportEnd other read how).events = _
    rw [reportEnd_events]
    change (s.append env other how.entry).1.events = _
    rw [append]
    simp [Ending.entry, hfresh]
  have hmarks : ∀ runId, ((Move.finish env other read how).apply s).endMarks runId =
      (s.insertEvent env other how.entry).endMarks runId := by
    intro runId
    unfold endMarks
    rw [hevents]
  intro runId
  rw [hmarks, endMarks_insertEvent]
  by_cases hsame : runId = other
  · subst hsame
    have hended : ((Move.finish env runId read how).apply s).runs.get? runId =
        some (row.ended (how.result runId) env.clock) := by
      refine reportEnd_keeps ?_ (Ending.status_ne_suspended how)
      rw [close_runs, Table.get?_modify_self, hrow]
      rfl
    have hkind : (some (row.ended (how.result runId) env.clock)).bind
        (·.status.entryKind?) = some how.entryKind := Ending.status_entryKind? how
    let event : EventRow :=
      { runId, seq := s.nextSeq runId, kind := how.entryKind, payload := how.payload
        ts := env.clock, ephemeral := false, dedupKey := some terminalKey }
    have hmark : marksEnd event = true := by simp [marksEnd, event]
    unfold Tally
    rw [hended, hkind, hnone]
    refine ⟨event, ?_, rfl, rfl, rfl⟩
    change [event].filter (fun event => event.runId = runId && marksEnd event) = [event]
    rw [filter_singleton, hmark]
    simp [event]
  · have hkept := kind_kept hok runId fun _ _ _ heq => hsame (by cases heq; rfl)
    have hothers : (decide (other = runId) && marksEnd
        { runId := other, seq := s.nextSeq other, kind := how.entry.kind
          payload := how.entry.payload, ts := env.clock, ephemeral := how.entry.ephemeral
          dedupKey := how.entry.dedupKey }) = false := by
      simp [Ne.symm hsame]
    have hold := h runId
    unfold Tally at hold ⊢
    rw [hkept, filter_singleton, hothers]
    simpa using hold

theorem settled_move (h : Settled s) (hok : m.Ok Licence.strict s) : Settled (m.apply s) := by
  by_cases hfinish : ∃ env runId read how, m = .finish env runId read how
  · obtain ⟨env, runId, read, how, rfl⟩ := hfinish
    exact settled_finish h hok
  simp only [not_exists] at hfinish
  by_cases hlive : ∃ now, m = .dropLive now
  · obtain ⟨now, rfl⟩ := hlive
    exact settled_dropLive h now
  simp only [not_exists] at hlive
  refine h.same (fun runId => kind_kept hok runId fun env read how =>
    hfinish env runId read how) fun runId => ?_
  by_cases hwrite : ∃ env runId entry, m = .write env runId entry
  · obtain ⟨env, other, entry, rfl⟩ := hwrite
    exact endMarks_plain hok.2.2 runId
  · simp only [not_exists] at hwrite
    unfold endMarks
    rw [events_kept m s hwrite hfinish hlive]

theorem settled_forgets {gone : RunId → Bool} (h : Settled s) (hforgets : Forgets gone s s') :
    Settled s' := by
  intro runId
  have hmarks : s'.endMarks runId =
      (s.endMarks runId).filter fun event => !gone event.runId := by
    unfold endMarks
    rw [hforgets.events, List.filter_filter, List.filter_filter]
    exact List.filter_congr fun _ _ => and_comm ..
  have hrun : ∀ event ∈ s.endMarks runId, event.runId = runId := by
    intro event hevent
    have hmatch := (mem_filter.mp hevent).2
    rw [and_eq_true] at hmatch
    exact of_decide_eq_true hmatch.1
  rw [hforgets.runs, hmarks]
  cases hgone : gone runId with
  | true =>
    have hempty : (s.endMarks runId).filter (fun event => !gone event.runId) = [] := by
      rw [filter_eq_nil_iff]
      intro event hevent
      simp [hrun event hevent, hgone]
    rw [hempty]
    cases s.runs.get? runId <;> rfl
  | false =>
    have hall : (s.endMarks runId).filter (fun event => !gone event.runId) =
        s.endMarks runId := by
      rw [filter_eq_self]
      intro event hevent
      simp [hrun event hevent, hgone]
    rw [hall]
    have hold := h runId
    cases hrow : s.runs.get? runId with
    | none | some row => rwa [hrow] at hold

theorem settled_exec (h : Settled s) (horderly : Orderly s call) : Settled (exec call s) := by
  unfold exec
  cases hrun : s.perform call.env call.op with
  | error e => exact h
  | ok s' =>
    cases hdeletes : call.op.deletes with
    | true =>
      obtain ⟨gone, hforgets⟩ := perform_forgets hdeletes hrun
      exact settled_forgets h hforgets
    | false =>
      exact Steps.invariant (fun _ _ ht hok => settled_move ht hok)
        (perform_moves_strict horderly hdeletes hrun) h

theorem isTerminalKind_of_entryKind? {kind : String} (h : status.entryKind? = some kind) :
    isTerminalKind kind = true := by
  cases status <;> cases h <;> rfl

theorem Settled.recordsAgree (h : Settled s) : RecordsAgree s := by
  intro runId row hrow
  have hentries : s.terminalEntries runId =
      (s.endMarks runId).filter fun event => isTerminalKind event.kind := by
    unfold terminalEntries endMarks
    rw [List.filter_filter]
    refine List.filter_congr fun event _ => ?_
    cases hkind : isTerminalKind event.kind <;> simp [marksEnd, hkind]
  have htally := h runId
  rw [hentries]
  unfold Tally at htally
  rw [hrow, bind_some] at htally
  cases hstatus : row.status.entryKind? with
  | none =>
    rw [hstatus] at htally
    rw [htally]
    rfl
  | some kind =>
    rw [hstatus] at htally
    obtain ⟨event, hone, hkind, _⟩ := htally
    rw [hone, filter_singleton, hkind, isTerminalKind_of_entryKind? hstatus]
    simp [hkind]

theorem settled_reachable (h : Steps exec Orderly init s) : Settled s :=
  Steps.invariant (P := Settled) (fun _ _ ht horderly => settled_exec ht horderly) h
    settled_init

theorem keepsEnded_exec (horderly : Orderly s call) (hkeeps : call.op.deletes = false)
    (hrow : s.runs.get? runId = some row) (hended : row.status.isTerminal = true) :
    (exec call s).runs.get? runId = some row := by
  unfold exec
  cases hrun : s.perform call.env call.op with
  | error e => exact hrow
  | ok s' =>
    refine Steps.invariant (P := fun t => t.runs.get? runId = some row) ?_
      (perform_moves_strict horderly hkeeps hrun) hrow
    intro t m ht hok
    obtain ⟨row', hrow', hstep⟩ := row_step hok ht
    rw [hrow', hstep.keeps_ended hended]

/-- A run ends exactly once and its record agrees with its status, through
every run of calls that end no run twice: in each state reached the journal of
a run holds exactly the terminal entry of its status, and what happens later
leaves an ended run's status and result as they are. -/
theorem runs_end_once {s : Store} (h : Steps exec Orderly init s) :
    RecordsAgree s ∧
      ∀ s', Steps exec (fun t call => Orderly t call ∧ call.op.deletes = false) s s' →
        KeepsEnded s s' := by
  refine ⟨(settled_reachable h).recordsAgree, ?_⟩
  intro s' hlater runId row hrow hended
  refine ⟨row, ?_, rfl, rfl⟩
  exact Steps.invariant (P := fun t => t.runs.get? runId = some row)
    (fun _ _ ht hok => keepsEnded_exec hok.1 hok.2 ht hended) hlater hrow

private def cancelledStore : Store :=
  execAll
    [⟨.plain 0, .createRun { agent := "a", runId := some "r" } []⟩,
     ⟨.plain 1, .requestCancel "r" "stop" true⟩]
    init

theorem runs_end_once_cancelled :
    (cancelledStore.terminalEntries "r").map (·.kind) = ["run.cancelled"] ∧
      RecordsAgree cancelledStore ∧
      ∀ s', Steps exec (fun t call => Orderly t call ∧ call.op.deletes = false)
        cancelledStore s' → KeepsEnded cancelledStore s' :=
  ⟨by decide,
    runs_end_once (((Steps.refl init).tail
      ⟨⟨.plain 0, .createRun { agent := "a", runId := some "r" } []⟩,
        fun _ _ => ⟨trivial, trivial⟩, rfl⟩).tail
      ⟨⟨.plain 1, .requestCancel "r" "stop" true⟩, fun _ _ => ⟨trivial, trivial⟩, rfl⟩)⟩

/-- A parent and its child, both due at instant 5, and a `lease` call at 10. -/
private def overdueFamily : List Call :=
  [⟨.plain 0, .createRun { agent := "a", runId := some "parent", deadline := some 5 } []⟩,
   ⟨.plain 0, .createRun
     { agent := "b", runId := some "child", parentRunId := some "parent"
       deadline := some 5 } []⟩,
   ⟨.plain 10, .lease "w" 0 100 10⟩]

/-- The cascade cancels the child, and the sweep then marks it failed: its
status is failed while its journal says it was cancelled. -/
theorem double_ending :
    (∀ call ∈ overdueFamily, call.op.deletes = false) ∧
      ((execAll overdueFamily init).runs.get? "child").map (·.status) = some .failed ∧
      ((execAll overdueFamily init).terminalEntries "child").map (·.kind) =
        ["run.cancelled"] ∧
      ¬ RecordsAgree (execAll overdueFamily init) := by
  have hstatus : ((execAll overdueFamily init).runs.get? "child").map (·.status) =
      some .failed := by decide
  have hkind : ((execAll overdueFamily init).terminalEntries "child").map (·.kind) =
      ["run.cancelled"] := by decide
  refine ⟨by decide, hstatus, hkind, fun hagree => ?_⟩
  obtain ⟨row, hrow, hfailed⟩ := map_eq_some_iff.mp hstatus
  have hentries := hagree "child" row hrow
  rw [hkind, hfailed] at hentries
  exact absurd hentries (by decide)

end Substrate.Store
