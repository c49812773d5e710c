import Substrate.Store.Moves

/-!
Every call as a run of moves. The decomposition follows the methods of the
store one by one and ends in `perform_moves`; the two calls that delete runs
are described by `Forgets` instead, which says that they drop some runs with
everything keyed by them and do nothing to the rest.
-/

namespace Substrate

open Lib List

namespace Store

section Helpers

variable {L : Licence} {may : Move → Prop}

theorem MovesBy.single {s : Store} (m : Move) (hok : m.Ok L s) (hmay : may m) :
    MovesBy L may s (m.apply s) :=
  Steps.single m ⟨hok, hmay⟩

variable {s s' : Store} {env : TxEnv} {runId parent : RunId} {entry : NewEntry}
    {spec : RunSpec} {delivery : Delivery} {handle : RunHandle} {row : RunRow}
    {now leaseFor : Time} {capacity : Int} {worker msgId : String} {leases : List Lease}
    {lease : Lease} {seqs : List Nat} {work : Commit} {result : CommitResult} {agent : Address}
    {hit : Bool}

private theorem routine_single (m : Move) (hok : m.Ok L s)
    (hroutine : m.mild = true ∧ m.routine = true) : RoutineMoves L s (m.apply s) :=
  Steps.single m ⟨hok, hroutine⟩

private theorem free_single (m : Move) (hok : m.Ok L s) (hfree : m.mild = true ∧ m.free = true) :
    FreeMoves L s (m.apply s) :=
  Steps.single m ⟨hok, hfree⟩

theorem append_writes (hrow : (s.runs.get? runId).isSome)
    (hentry : s.findDedup runId entry.dedupKey = none → L.entry entry) :
    MovesBy L (fun m => m.writes = true) s (s.append env runId entry).1 := by
  unfold append
  cases hdedup : s.findDedup runId entry.dedupKey with
  | some row => exact Steps.refl s
  | none =>
    have hwrite : MovesBy L (fun m => m.writes = true) s (s.insertEvent env runId entry) :=
      MovesBy.single (.write env runId entry) ⟨hrow, hdedup, hentry hdedup⟩ rfl
    cases hspend : entry.spend with
    | none => exact hwrite
    | some cost =>
      exact hwrite.trans (MovesBy.single (.charge runId cost) trivial rfl)

theorem append_free (hrow : (s.runs.get? runId).isSome)
    (hentry : s.findDedup runId entry.dedupKey = none → L.entry entry)
    (hspend : entry.spend = none) : FreeMoves L s (s.append env runId entry).1 := by
  unfold append
  cases hdedup : s.findDedup runId entry.dedupKey with
  | some row => exact Steps.refl s
  | none =>
    simp only [hspend]
    exact free_single (.write env runId entry) ⟨hrow, hdedup, hentry hdedup⟩ ⟨rfl, rfl⟩

theorem appendAll_writes (entries : List NewEntry) :
    ∀ {s : Store}, (s.runs.get? runId).isSome → L.Allows env runId s entries →
      MovesBy L (fun m => m.writes = true) s (appendAll env runId s entries).1 := by
  induction entries with
  | nil => exact fun _ _ => Steps.refl _
  | cons entry rest ih =>
    intro s hrow hallows
    have hfirst : MovesBy L (fun m => m.writes = true) s (s.append env runId entry).1 :=
      append_writes hrow hallows.1
    have hrow' : ((s.append env runId entry).1.runs.get? runId).isSome := by
      simpa using hrow
    exact hfirst.trans (ih hrow' hallows.2)

theorem appendAll_by (hmay : ∀ m : Move, m.free = true → may m) (entries : List NewEntry) :
    ∀ {s : Store}, (s.runs.get? runId).isSome → L.Allows env runId s entries →
      (∀ entry ∈ entries, ∀ cost, entry.spend = some cost → may (.charge runId cost)) →
      MovesBy L may s (appendAll env runId s entries).1 := by
  induction entries with
  | nil => exact fun _ _ _ => Steps.refl _
  | cons entry rest ih =>
    intro s hrow hallows hcharge
    have hfirst : MovesBy L may s (s.append env runId entry).1 := by
      cases hspend : entry.spend with
      | none => exact (append_free hrow hallows.1 hspend).by hmay
      | some cost =>
        unfold append
        cases hdedup : s.findDedup runId entry.dedupKey with
        | some row => exact Steps.refl s
        | none =>
          simp only [hspend]
          have hwrite : MovesBy L may s (s.insertEvent env runId entry) :=
            MovesBy.single (.write env runId entry) ⟨hrow, hdedup, hallows.1 hdedup⟩ (hmay _ rfl)
          exact hwrite.trans (MovesBy.single (.charge runId cost) trivial
            (hcharge entry mem_cons_self cost hspend))
    have hrow' : ((s.append env runId entry).1.runs.get? runId).isSome := by
      simpa using hrow
    exact hfirst.trans (ih hrow' hallows.2 fun other hother =>
      hcharge other (mem_cons_of_mem entry hother))

theorem appendAll_moves (entries : List NewEntry) (hrow : (s.runs.get? runId).isSome)
    (hallows : L.Allows env runId s entries) : StillMoves L s (appendAll env runId s entries).1 :=
  MovesBy.still (appendAll_writes entries hrow hallows)

theorem appendAll_keeps {β : Type} (view : Store → β)
    (hview : ∀ s entry, view (append s env runId entry).1 = view s) (entries : List NewEntry)
    (s : Store) : view (appendAll env runId s entries).1 = view s := by
  induction entries generalizing s with
  | nil => rfl
  | cons entry rest ih => exact (ih _).trans (hview s entry)

theorem signalAll_moves (s : Store) (signals : List SignalSpec)
    (hmay : ∀ spec ∈ signals, may (.signal spec.runId spec.name spec.payload)) :
    MovesBy L may s (s.signalAll signals) :=
  Steps.foldl signals (fun _ spec hspec =>
    MovesBy.single (.signal spec.runId spec.name spec.payload) trivial (hmay spec hspec)) s

theorem insertRun_ok (h : s.insertRun env spec = .ok (s', runId)) :
    s.runs.get? runId = none ∧ runId = s.specRunId env spec ∧
      s' = (s.insertRow runId (spec.row runId env.clock)).addAccounts runId spec.accounts := by
  unfold insertRun at h
  by_cases hbusy : (s.runs.get? (s.specRunId env spec)).isSome ∨ s.threadTaken spec.threadId = true
  · rw [if_pos (by simpa using hbusy)] at h
    cases hthread : spec.threadId <;> simp [hthread] at h
  · rw [if_neg (by simpa using hbusy)] at h
    cases h
    refine ⟨?_, rfl, rfl⟩
    by_contra hsome
    exact hbusy (.inl (Option.isSome_iff_ne_none.mpr hsome))

theorem insertRun_moves (h : s.insertRun env spec = .ok (s', runId)) : RoutineMoves L s s' := by
  obtain ⟨hfree, _, rfl⟩ := insertRun_ok h
  exact routine_single (.insertRow _ (spec.row _ env.clock) spec.accounts)
    ⟨hfree, spec, env.clock, rfl⟩ ⟨rfl, rfl⟩

theorem insertRun_free (hspec : spec.supervision = none)
    (h : s.insertRun env spec = .ok (s', runId)) : FreeMoves L s s' := by
  obtain ⟨hfree, _, rfl⟩ := insertRun_ok h
  refine free_single (.insertRow _ (spec.row _ env.clock) spec.accounts)
    ⟨hfree, spec, env.clock, rfl⟩ ⟨rfl, ?_⟩
  exact Option.isNone_iff_eq_none.mpr hspec

theorem wakeAgent_free {result : DeliverResult} (h : s.wakeAgent env delivery = .ok (s', result)) :
    FreeMoves L s s' := by
  unfold wakeAgent at h
  cases hactive : s.latestActive delivery.agent with
  | none =>
    rw [hactive] at h
    obtain ⟨⟨s₁, runId⟩, hinsert, hrest⟩ := bind_ok_iff.mp h
    cases hrest
    exact insertRun_free rfl hinsert
  | some top =>
    obtain ⟨runId, row⟩ := top
    rw [hactive] at h
    by_cases hasleep : row.status = .suspended
    · simp only [hasleep, if_true] at h
      cases h
      exact free_single (.makePending runId) trivial ⟨rfl, rfl⟩
    · simp only [hasleep, if_false] at h
      cases h
      exact Steps.refl s

theorem deliver_free {wake : Bool} {result : DeliverResult}
    (h : s.deliver env delivery wake = .ok (s', result)) : FreeMoves L s s' := by
  unfold deliver at h
  by_cases hmail : s.hasMail delivery.agent delivery.msg.id = true
  · rw [if_pos hmail] at h
    cases h
    exact Steps.refl s
  by_cases hdone : (s.processed.get? (delivery.agent, delivery.msg.id)).isSome = true
  · rw [if_neg hmail, if_pos hdone] at h
    cases h
    exact Steps.refl s
  rw [if_neg hmail, if_neg hdone] at h
  have hinsert : FreeMoves L s (s.insertMail delivery) := free_single (.insertMail delivery)
      ⟨by simpa using hmail, by simpa using hdone⟩ ⟨rfl, rfl⟩
  cases wake with
  | false =>
    cases h
    exact hinsert
  | true => exact hinsert.trans (wakeAgent_free h)

theorem deliver_moves {wake : Bool} {result : DeliverResult}
    (h : s.deliver env delivery wake = .ok (s', result)) : RoutineMoves L s s' :=
  (deliver_free h).routine

theorem ack_moves (s : Store) (env : TxEnv) (agent : Address) (msgIds : List String)
    (hmay : ∀ msgId ∈ msgIds, may (.ack env agent msgId)) :
    MovesBy L may s (s.ack env agent msgIds) :=
  Steps.foldl msgIds
    (fun _ msgId hmsg => MovesBy.single (.ack env agent msgId) trivial (hmay msgId hmsg)) s

theorem nackAll_moves (s : Store) (env : TxEnv) (agent : Address) (failures : List Nack)
    (hmay : ∀ failure ∈ failures, may (.nack env agent failure)) :
    MovesBy L may s (failures.foldl (nack env agent) s) :=
  Steps.foldl failures (fun _ failure hfailure =>
    MovesBy.single (.nack env agent failure) trivial (hmay failure hfailure)) s

theorem spawn_ok {spec : SpawnSpec} (h : s.spawn env parent spec = .ok (s', handle)) :
    s' = s ∨ s.spawns.get? spec.effectId = none ∧ ∃ t u child result,
      s.insertRun env (s.childSpec parent spec.child) = .ok (t, child) ∧
      t.deliver env { agent := spec.child.agent, msg := spec.boot, tenant := spec.child.tenant }
        false = .ok (u, result) ∧ s' = u.recordSpawn spec.effectId child := by
  unfold spawn at h
  cases hknown : s.spawns.get? spec.effectId with
  | some child =>
    simp only [hknown] at h
    cases hrow : s.runs.get? child with
    | none =>
      simp only [hrow] at h
      cases h
    | some row =>
      simp only [hrow] at h
      cases h
      exact .inl rfl
  | none =>
    simp only [hknown] at h
    obtain ⟨_, _, h⟩ := bind_ok_iff.mp h
    obtain ⟨⟨t, child⟩, hinsert, h⟩ := bind_ok_iff.mp h
    obtain ⟨⟨u, result⟩, hdeliver, h⟩ := bind_ok_iff.mp h
    cases h
    exact .inr ⟨rfl, t, u, child, result, hinsert, hdeliver, rfl⟩

theorem spawn_moves {spec : SpawnSpec} (h : s.spawn env parent spec = .ok (s', handle)) :
    RoutineMoves L s s' := by
  rcases spawn_ok h with rfl | ⟨_, t, u, child, result, hinsert, hdeliver, rfl⟩
  · exact Steps.refl s'
  · exact ((insertRun_moves hinsert).trans (deliver_moves hdeliver)).trans
      (routine_single (.recordSpawn spec.effectId child) trivial ⟨rfl, rfl⟩)

theorem MildMoves.keeps_running (h : MildMoves L s s') (hrow : s.runs.get? runId = some row)
    (hrun : row.status = .running) : s'.runs.get? runId = some row := by
  refine Steps.invariant (P := fun t => t.runs.get? runId = some row) ?_ h hrow
  intro t m ht hok
  obtain ⟨row', hrow', hstep⟩ := row_step hok.1 ht
  rw [hrow', hstep.mild_running hok.2 hrun]

theorem Moves.keeps_run (h : Moves L s s') (hrow : s.runs.get? runId = some row) :
    ∃ row', s'.runs.get? runId = some row' ∧ row'.birth = row.birth := by
  refine Steps.invariant
    (P := fun t => ∃ row', t.runs.get? runId = some row' ∧ row'.birth = row.birth)
    ?_ h ⟨row, hrow, rfl⟩
  rintro t m ⟨old, hold, hbirth⟩ hok
  obtain ⟨row', hrow', hstep⟩ := row_step hok hold
  exact ⟨row', hrow', hstep.birth.trans hbirth⟩

theorem Moves.keeps_stored (h : Moves L s s') (hrow : (s.runs.get? runId).isSome) :
    (s'.runs.get? runId).isSome := by
  obtain ⟨row, hrow⟩ := Option.isSome_iff_exists.mp hrow
  obtain ⟨row', hrow', _⟩ := h.keeps_run hrow
  exact Option.isSome_of_eq_some hrow'

theorem Moves.stays_awake (h : Moves L s s') (hsleeps : ¬ L.sleeps runId)
    (hrow : ∃ row, s.runs.get? runId = some row ∧ row.status ≠ .suspended) :
    ∃ row, s'.runs.get? runId = some row ∧ row.status ≠ .suspended := by
  refine Steps.invariant
    (P := fun t => ∃ row, t.runs.get? runId = some row ∧ row.status ≠ .suspended)
    ?_ h hrow
  rintro t m ⟨row, hrow, hawake⟩ hok
  obtain ⟨row', hrow', hstep⟩ := row_step hok hrow
  exact ⟨row', hrow', hstep.stays_awake hsleeps hawake⟩

theorem deliverAll_free (deliveries : List Delivery) :
    ∀ {s s' : Store} {results : List DeliverResult},
      deliverAll env s deliveries = .ok (s', results) → FreeMoves L s s' := by
  induction deliveries with
  | nil =>
    intro s s' results h
    cases h
    exact Steps.refl s
  | cons delivery rest ih =>
    intro s s' results h
    obtain ⟨⟨s₁, result⟩, hdeliver, h⟩ := bind_ok_iff.mp h
    obtain ⟨⟨s₂, more⟩, hrest, h⟩ := bind_ok_iff.mp h
    cases h
    exact (deliver_free hdeliver).trans (ih hrest)

theorem deliverAll_moves (deliveries : List Delivery) {results : List DeliverResult}
    (h : deliverAll env s deliveries = .ok (s', results)) : RoutineMoves L s s' :=
  (deliverAll_free deliveries h).routine

theorem spawnEntry_plain (spec : SpawnSpec) (handle : RunHandle) :
    (spawnEntry spec handle).plain = true := by
  have hkey : ("spawn:" ++ spec.effectId : String) ≠ terminalKey := by
    intro heq
    have hchars := congrArg String.toList heq
    rw [String.toList_append] at hchars
    exact absurd (congrArg List.head? hchars) (by simp [terminalKey])
  simp [NewEntry.plain, spawnEntry, isTerminalKind, hkey]

theorem spawnAll_moves (hrun : row.status = .running) (specs : List SpawnSpec) :
    ∀ {s s' : Store} {spawned : List (String × RunHandle × Nat)}, s.runs.get? parent = some row →
      spawnAll env parent s specs = .ok (s', spawned) → RoutineMoves L s s' := by
  induction specs with
  | nil =>
    intro s s' spawned _ h
    cases h
    exact Steps.refl s
  | cons spec rest ih =>
    intro s s' spawned hrow h
    obtain ⟨⟨s₁, handle⟩, hspawn, h⟩ := bind_ok_iff.mp h
    obtain ⟨⟨s₂, more⟩, hrest, h⟩ := bind_ok_iff.mp h
    cases h
    have hspawn' := spawn_moves (L := L) hspawn
    have hrow₁ := hspawn'.still.mild.keeps_running hrow hrun
    have hentry : RoutineMoves L s₁ (s₁.append env parent (spawnEntry spec handle)).1 :=
      (append_free (Option.isSome_of_eq_some hrow₁)
        (fun _ => L.entry_of_plain _ (spawnEntry_plain spec handle)) rfl).routine
    exact (hspawn'.trans hentry).trans (ih (hentry.still.mild.keeps_running hrow₁ hrun) hrest)

theorem cancelOne_moves (hmay : ∀ m : Move, m.free = true → may m) (env : TxEnv)
    (turns : Nat) : ∀ (s : Store) (runId : RunId) (reason : String),
      MovesBy L may s (cancelOne env turns s runId reason).1 := by
  induction turns with
  | zero => exact fun s _ _ => Steps.refl s
  | succ turns ih =>
    intro s runId reason
    unfold cancelOne
    cases hrow : s.runs.get? runId with
    | none => exact Steps.refl s
    | some row =>
      by_cases hended : row.status.isTerminal = true
      · simp only [hended, if_true]
        exact Steps.refl s
      by_cases hrun : row.status = .running
      · simp only [hrun, if_true]
        exact MovesBy.single (.requestFlag runId) ⟨row, hrow, hrun⟩ (hmay _ rfl)
      simp only [hended, hrun, if_false]
      have hfinish : MovesBy L may s ((s.close env runId (.cancel reason)).reportEnd
          runId row (.cancel reason)) :=
        MovesBy.single (.finish env runId row (.cancel reason))
          ⟨row, hrow, rfl, .inr (by simpa using hended)⟩ (hmay _ rfl)
      exact hfinish.trans (Steps.foldl _ (fun t child _ => ih t child.1 _) _)

theorem cancelChildren_moves (hmay : ∀ m : Move, m.free = true → may m) (s : Store)
    (env : TxEnv) (runId : RunId) (how : Ending) :
    MovesBy L may s (s.cancelChildren env runId how) :=
  Steps.foldl _ (fun t child _ => cancelOne_moves hmay env _ t child.1 _) _

theorem followUp_free (h : s.followUp env runId row = .ok s') : FreeMoves L s s' := by
  unfold followUp at h
  split at h
  · cases h
    exact Steps.refl s
  · obtain ⟨⟨s₁, created⟩, hinsert, h⟩ := bind_ok_iff.mp h
    cases h
    exact insertRun_free rfl hinsert

theorem followUp_moves (h : s.followUp env runId row = .ok s') : RoutineMoves L s s' :=
  (followUp_free h).routine

theorem terminate_moves (hmay : ∀ m : Move, m.free = true → may m) {row' : RunRow}
    {how : Ending} (hrow : s.runs.get? runId = some row') (hbirth : row'.birth = row.birth)
    (hopen : L.again ∨ row'.status.isTerminal = false)
    (h : s.terminate env runId row how = .ok s') : MovesBy L may s s' := by
  have hfinish : MovesBy L may s ((s.close env runId how).reportEnd runId row how) :=
    MovesBy.single (.finish env runId row how) ⟨row', hrow, hbirth, hopen⟩ (hmay _ rfl)
  cases how with
  | complete => exact hfinish.trans ((followUp_free h).by hmay)
  | fail error | cancel reason =>
    cases h
    exact hfinish.trans (cancelChildren_moves hmay _ env runId _)

theorem createRun_ok {deliveries : List Delivery}
    (h : s.createRun env spec deliveries = .ok (s', runId)) :
    ∃ t, s.insertRun env spec = .ok (t, runId) ∧ FreeMoves L t s' := by
  obtain ⟨⟨t, created⟩, hinsert, h⟩ := bind_ok_iff.mp h
  obtain ⟨u, hdeliver, h⟩ := bind_ok_iff.mp h
  cases h
  refine ⟨t, hinsert, Steps.foldlM id deliveries ?_ _ _ hdeliver⟩
  intro t t' delivery _ hturn
  obtain ⟨⟨t₁, result⟩, hone, hturn⟩ := bind_ok_iff.mp hturn
  cases hturn
  exact deliver_free hone

theorem createRun_moves {deliveries : List Delivery}
    (h : s.createRun env spec deliveries = .ok (s', runId)) : RoutineMoves L s s' := by
  obtain ⟨t, hinsert, hdelivered⟩ := createRun_ok h
  exact (insertRun_moves hinsert).trans hdelivered.routine

theorem wakeTimers_free (s : Store) (env : TxEnv) (now : Time) :
    FreeMoves L s (s.wakeTimers env now) :=
  Steps.foldl _ (fun _ row _ => free_single (.makePending row.1) trivial ⟨rfl, rfl⟩) s

theorem wakeTimers_moves (s : Store) (env : TxEnv) (now : Time) :
    RoutineMoves L s (s.wakeTimers env now) :=
  (wakeTimers_free s env now).routine

theorem sweepDeadlines_moves (hmay : ∀ m : Move, m.free = true → may m) (hagain : L.again)
    (h : s.sweepDeadlines env now = .ok s') : MovesBy L may s s' := by
  have hstored : ∀ row ∈ s.overdueRuns env now, ∃ row', s.runs.get? row.1 = some row' ∧
      row'.birth = row.2.birth :=
    fun row hrow => ⟨row.2, (mem_selectRuns.mp hrow).1, rfl⟩
  unfold sweepDeadlines at h
  revert h hstored
  generalize s.overdueRuns env now = rows
  induction rows generalizing s with
  | nil =>
    intro h _
    cases h
    exact Steps.refl _
  | cons row rest ih =>
    intro h hstored
    rw [foldlM_cons] at h
    obtain ⟨s₁, hfirst, hrest⟩ := bind_ok_iff.mp h
    obtain ⟨row', hrow', hbirth⟩ := hstored row mem_cons_self
    have hmoves := terminate_moves hmay hrow' hbirth (.inl hagain) hfirst
    refine hmoves.trans (ih hrest fun other hother => ?_)
    obtain ⟨old, hold, hsame⟩ := hstored other (mem_cons_of_mem row hother)
    obtain ⟨new, hnew, hkept⟩ := hmoves.moves.keeps_run hold
    exact ⟨new, hnew, hkept.trans hsame⟩

theorem candidates_nodup (s : Store) (capacity : Int) : (s.candidates capacity).Nodup := by
  unfold candidates
  simp only
  refine List.Nodup.sublist ((take_sublist _ _).map _) ?_
  refine ((perm_insertionSort ClaimKey.before _).map ClaimKey.runId).nodup_iff.mpr ?_
  rw [List.map_map]
  exact s.runs.nodup.sublist (filter_sublist.map Prod.fst)

theorem mem_candidates (h : runId ∈ s.candidates capacity) :
    ∃ row, s.runs.get? runId = some row ∧ row.status = .pending := by
  unfold candidates at h
  simp only at h
  obtain ⟨key, hkey, rfl⟩ := mem_map.mp h
  have hkey' := (perm_insertionSort ClaimKey.before _).mem_iff.mp (mem_of_mem_take hkey)
  obtain ⟨row, hrow, rfl⟩ := mem_map.mp hkey'
  obtain ⟨hmem, hpending⟩ := mem_filter.mp hrow
  exact ⟨row.2, Table.mem_rows_iff.mp hmem, by simpa using hpending⟩

theorem claimRuns_moves {expires : Time} (hmay : ∀ runId, may (.claim worker expires now runId))
    (runIds : List RunId) :
    ∀ {s : Store}, runIds.Nodup →
      (∀ runId ∈ runIds, ∃ row, s.runs.get? runId = some row ∧ row.status = .pending) →
      MovesBy L may s (claimRuns env worker expires now s runIds).1 := by
  induction runIds with
  | nil => exact fun _ _ => Steps.refl _
  | cons runId rest ih =>
    intro s hnodup hpending
    obtain ⟨hfresh, hrest⟩ := nodup_cons.mp hnodup
    have hfirst : MovesBy L may s (s.claimOne worker expires now runId) :=
      MovesBy.single (.claim worker expires now runId) (hpending runId mem_cons_self) (hmay runId)
    have hothers : ∀ other ∈ rest, ∃ row,
        (s.claimOne worker expires now runId).runs.get? other = some row ∧
          row.status = .pending := by
      intro other hother
      obtain ⟨row, hrow, hstatus⟩ := hpending other (mem_cons_of_mem _ hother)
      have hne : other ≠ runId := fun heq => hfresh (heq ▸ hother)
      exact ⟨row, (Table.get?_modify_of_ne hne).trans hrow, hstatus⟩
    have hmore := ih hrest hothers
    unfold claimRuns
    simp only
    split <;> exact hfirst.trans hmore

theorem lease_stages (hmay : ∀ m : Move, m.free = true → may m)
    (hsweep : ∀ t, ((s.reclaim now).wakeTimers env now).sweepDeadlines env now =
      .ok t → MovesBy L may ((s.reclaim now).wakeTimers env now) t)
    (h : s.lease env worker capacity leaseFor now = .ok (s', leases)) :
    ∃ t, MovesBy L may s t ∧
      ((s.reclaim now).wakeTimers env now).sweepDeadlines env now = .ok t ∧
      (s' = t.dropLive now ∧ leases = [] ∨
        claimRuns env worker (now + leaseFor) now (t.dropLive now)
          ((t.dropLive now).candidates capacity) = (s', leases)) := by
  obtain ⟨t, hswept, h⟩ := bind_ok_iff.mp h
  have hreclaim : MovesBy L may s (s.reclaim now) :=
    MovesBy.single (.reclaim now) trivial (hmay _ rfl)
  have hwoken : MovesBy L may (s.reclaim now) ((s.reclaim now).wakeTimers env now) :=
    (wakeTimers_free _ env now).by hmay
  refine ⟨t, (hreclaim.trans hwoken).trans (hsweep t hswept), hswept, ?_⟩
  by_cases hcapacity : capacity ≤ 0
  · rw [if_pos hcapacity] at h
    cases h
    exact .inl ⟨rfl, rfl⟩
  · rw [if_neg hcapacity] at h
    injection h with h
    exact .inr h

theorem claims_moves (hclaim : ∀ runId, may (.claim worker (now + leaseFor) now runId))
    (h : s' = s ∧ leases = [] ∨ claimRuns env worker (now + leaseFor) now s
      (s.candidates capacity) = (s', leases)) : MovesBy L may s s' := by
  rcases h with ⟨rfl, _⟩ | hclaims
  · exact Steps.refl _
  · have hmoves : MovesBy L may s (claimRuns env worker (now + leaseFor) now s
        (s.candidates capacity)).1 :=
      claimRuns_moves hclaim _ (candidates_nodup s capacity) fun runId => mem_candidates
    rwa [hclaims] at hmoves

theorem lease_moves (hmay : ∀ m : Move, m.free = true → may m) (hdrop : may (.dropLive now))
    (hclaim : ∀ runId, may (.claim worker (now + leaseFor) now runId))
    (hsweep : ∀ t, ((s.reclaim now).wakeTimers env now).sweepDeadlines env now =
      .ok t → MovesBy L may ((s.reclaim now).wakeTimers env now) t)
    (h : s.lease env worker capacity leaseFor now = .ok (s', leases)) : MovesBy L may s s' := by
  obtain ⟨t, hbefore, _, hclaims⟩ := lease_stages hmay hsweep h
  have hlive : MovesBy L may t (t.dropLive now) := MovesBy.single (.dropLive now) trivial hdrop
  exact (hbefore.trans hlive).trans (claims_moves hclaim hclaims)

theorem heartbeat_moves (s : Store) (lease : Lease) (leaseFor now : Time)
    (hmay : may (.extendLease lease.runId (now + leaseFor))) :
    MovesBy L may s (s.heartbeat lease leaseFor now).1 := by
  unfold heartbeat
  cases hrow : (s.runs.get? lease.runId).filter lease.current with
  | none => exact Steps.refl s
  | some row =>
    obtain ⟨hget, hcurrent⟩ := Option.filter_eq_some_iff.mp hrow
    have hrun : row.status = .running := by
      simp only [Lease.current, Bool.and_eq_true, decide_eq_true_eq] at hcurrent
      exact hcurrent.1.1
    exact MovesBy.single (.extendLease lease.runId (now + leaseFor)) ⟨row, hget, hrun⟩ hmay

theorem fencedRun_ok (h : s.fencedRun lease = .ok row) :
    s.runs.get? lease.runId = some row ∧ lease.current row = true := by
  unfold fencedRun at h
  cases hrow : (s.runs.get? lease.runId).filter lease.current with
  | none =>
    rw [hrow] at h
    cases h
  | some found =>
    rw [hrow] at h
    cases h
    exact Option.filter_eq_some_iff.mp hrow

theorem current_running (h : lease.current row = true) : row.status = .running := by
  simp only [Lease.current, Bool.and_eq_true, decide_eq_true_eq] at h
  exact h.1.1

theorem suspendedEntry_plain (wake : Wakeup) : (suspendedEntry wake).plain = true := rfl

theorem retryingEntry_plain (error : ErrorInfo) (delay : Int) :
    (retryingEntry error delay).plain = true := rfl

theorem settle_moves (hmay : ∀ m : Move, m.free = true → may m) {outcome : Option Outcome}
    {status : RunStatus} {resumed : Bool} (hsleeps : L.sleeps runId)
    (hrow : s.runs.get? runId = some row) (hrun : row.status = .running)
    (h : s.settle env runId row outcome = .ok (s', status, resumed, seqs)) :
    MovesBy L may s s' := by
  have hstored : (s.runs.get? runId).isSome := Option.isSome_of_eq_some hrow
  cases outcome with
  | none =>
    cases h
    exact Steps.refl s
  | some outcome =>
    simp only [settle] at h
    cases heff : effectiveOutcome row outcome with
    | suspend wake =>
      simp only [heff] at h
      have hsuspend : MovesBy L may s (s.suspend env runId wake).1 :=
        MovesBy.single (.suspend env runId wake) ⟨⟨row, hrow, hrun⟩, hsleeps⟩ (hmay _ rfl)
      split at h
      · rename_i t _ hslept
        rw [hslept] at hsuspend
        cases h
        exact hsuspend.trans ((append_free (hsuspend.moves.keeps_stored hstored)
          (fun _ => L.entry_of_plain _ (suspendedEntry_plain wake)) rfl).by hmay)
      · rename_i t _ _ _ hwoke
        rw [hwoke] at hsuspend
        cases h
        exact hsuspend
    | retry error delay =>
      simp only [heff] at h
      cases h
      have hpark : MovesBy L may s ((s.parkRow runId (env.clock + max delay 0)).clearWake runId) :=
        MovesBy.single (.park runId (env.clock + max delay 0)) ⟨⟨row, hrow, hrun⟩, hsleeps⟩
          (hmay _ rfl)
      exact hpark.trans ((append_free (hpark.moves.keeps_stored hstored)
        (fun _ => L.entry_of_plain _ (retryingEntry_plain error delay)) rfl).by hmay)
    | ending how =>
      simp only [heff] at h
      obtain ⟨t, hend, h⟩ := bind_ok_iff.mp h
      cases h
      exact terminate_moves hmay hrow rfl (.inr (by rw [hrun]; rfl)) hend

def handled (s : Store) (env : TxEnv) (agent : Address) (work : Commit) : Store :=
  work.nack.foldl (nack env agent) (s.ack env agent work.ack)

theorem commit_ok (h : s.commit env lease work = .ok (s', result)) :
    ∃ row t u spawned delivered seqs, s.fencedRun lease = .ok row ∧ spawnAll env lease.runId
        (handled (appendAll env lease.runId s work.entries).1 env row.agent work)
        work.spawns = .ok (t, spawned) ∧
      deliverAll env t work.deliveries = .ok (u, delivered) ∧
      (u.signalAll work.signals).settle env lease.runId row work.outcome =
        .ok (s', result.status, result.resumedImmediately, seqs) := by
  obtain ⟨row, hfence, h⟩ := bind_ok_iff.mp h
  simp only at h
  obtain ⟨⟨t, spawned⟩, hspawn, h⟩ := bind_ok_iff.mp h
  obtain ⟨⟨u, delivered⟩, hdeliver, h⟩ := bind_ok_iff.mp h
  obtain ⟨⟨v, status, resumed, last⟩, hsettle, h⟩ := bind_ok_iff.mp h
  cases h
  exact ⟨row, t, u, spawned, delivered, last, hfence, hspawn, hdeliver, hsettle⟩

theorem handled_moves (s : Store) (env : TxEnv) (agent : Address) (work : Commit)
    (hack : ∀ msgId ∈ work.ack, may (.ack env agent msgId))
    (hnack : ∀ failure ∈ work.nack, may (.nack env agent failure)) :
    MovesBy L may s (s.handled env agent work) :=
  Steps.trans (ack_moves s env agent work.ack hack)
    (nackAll_moves (s.ack env agent work.ack) env agent work.nack hnack)

theorem handled_still (hallows : L.Allows env lease.runId s work.entries)
    (hfence : s.fencedRun lease = .ok row) : StillMoves L s
      (handled (appendAll env lease.runId s work.entries).1 env row.agent work) :=
  (appendAll_moves work.entries (Option.isSome_of_eq_some (fencedRun_ok hfence).1) hallows).trans
    (handled_moves _ env row.agent work (fun _ _ => ⟨rfl, rfl⟩) fun _ _ => ⟨rfl, rfl⟩)

theorem commit_before {t u : Store} {spawned : List (String × RunHandle × Nat)}
    {delivered : List DeliverResult} (hallows : L.Allows env lease.runId s work.entries)
    (hfence : s.fencedRun lease = .ok row)
    (hspawn : spawnAll env lease.runId
      (handled (appendAll env lease.runId s work.entries).1 env row.agent work)
      work.spawns = .ok (t, spawned))
    (hdeliver : deliverAll env t work.deliveries = .ok (u, delivered)) :
    StillMoves L s u ∧ (u.signalAll work.signals).runs.get? lease.runId = some row := by
  obtain ⟨hrow, hcurrent⟩ := fencedRun_ok hfence
  have hrun := current_running hcurrent
  have hmail := handled_still hallows hfence
  have hspawned : StillMoves L s t :=
    hmail.trans (spawnAll_moves hrun work.spawns (hmail.mild.keeps_running hrow hrun) hspawn).still
  have hdelivered : StillMoves L s u :=
    hspawned.trans (deliverAll_moves work.deliveries hdeliver).still
  have hsignalled : MildMoves L u (u.signalAll work.signals) :=
    signalAll_moves u work.signals fun _ _ => rfl
  exact ⟨hdelivered, hsignalled.keeps_running (hdelivered.mild.keeps_running hrow hrun) hrun⟩

theorem commit_stages (hallows : L.Allows env lease.runId s work.entries)
    (h : s.commit env lease work = .ok (s', result)) :
    ∃ t row, s.runs.get? lease.runId = some row ∧ lease.current row = true ∧ StillMoves L s t ∧
      (t.signalAll work.signals).runs.get? lease.runId = some row ∧
      ∃ seqs, (t.signalAll work.signals).settle env lease.runId row work.outcome =
        .ok (s', result.status, result.resumedImmediately, seqs) := by
  obtain ⟨row, t, u, spawned, delivered, seqs, hfence, hspawn, hdeliver, hsettle⟩ := commit_ok h
  obtain ⟨hrow, hcurrent⟩ := fencedRun_ok hfence
  obtain ⟨hbefore, hkept⟩ := commit_before hallows hfence hspawn hdeliver
  exact ⟨u, row, hrow, hcurrent, hbefore, hkept, seqs, hsettle⟩

/-- What a commit does once it has settled its run's mail: spawns, deliveries
and signals, then the outcome. -/
theorem commit_tail (hmay : ∀ m : Move, m.routine = true → may m) {s s' : Store}
    {env : TxEnv} {lease : Lease} {work : Commit} {result : CommitResult}
    (hallows : L.Allows env lease.runId s work.entries) (hsleeps : L.sleeps lease.runId)
    (hsignal : ∀ spec ∈ work.signals, may (.signal spec.runId spec.name spec.payload))
    (h : s.commit env lease work = .ok (s', result)) :
    ∃ row, s.runs.get? lease.runId = some row ∧ lease.current row = true ∧
      MovesBy L may (handled (appendAll env lease.runId s work.entries).1 env row.agent work)
        s' := by
  obtain ⟨row, t, u, spawned, delivered, seqs, hfence, hspawn, hdeliver, hsettle⟩ := commit_ok h
  obtain ⟨hrow, hcurrent⟩ := fencedRun_ok hfence
  obtain ⟨_, hkept⟩ := commit_before hallows hfence hspawn hdeliver
  have hmail := handled_still hallows hfence
  have hspawned := spawnAll_moves (L := L) (current_running hcurrent) work.spawns
    (hmail.mild.keeps_running hrow (current_running hcurrent)) hspawn
  have hdelivered : RoutineMoves L
      (handled (appendAll env lease.runId s work.entries).1 env row.agent work) u :=
    hspawned.trans (deliverAll_moves work.deliveries hdeliver)
  have hsignalled := (hdelivered.by hmay).trans (signalAll_moves u work.signals hsignal)
  exact ⟨row, hrow, hcurrent, hsignalled.trans
    (settle_moves (fun m hm => hmay m (Move.routine_of_free hm)) hsleeps hkept
      (current_running hcurrent) hsettle)⟩

theorem commit_moves (hmay : ∀ m : Move, m.routine = true → may m)
    (hallows : L.Allows env lease.runId s work.entries) (hsleeps : L.sleeps lease.runId)
    (hcharge : ∀ entry ∈ work.entries, ∀ cost, entry.spend = some cost →
      may (.charge lease.runId cost))
    (hack : ∀ agent, ∀ msgId ∈ work.ack, may (.ack env agent msgId))
    (hnack : ∀ agent, ∀ failure ∈ work.nack, may (.nack env agent failure))
    (hsignal : ∀ spec ∈ work.signals, may (.signal spec.runId spec.name spec.payload))
    (h : s.commit env lease work = .ok (s', result)) : MovesBy L may s s' := by
  obtain ⟨row, hrow, _, htail⟩ := commit_tail hmay hallows hsleeps hsignal h
  have hentries : MovesBy L may s (appendAll env lease.runId s work.entries).1 :=
    appendAll_by (fun m hm => hmay m (Move.routine_of_free hm)) work.entries
      (Option.isSome_of_eq_some hrow) hallows hcharge
  have hmail := handled_moves (L := L) (appendAll env lease.runId s work.entries).1 env
    row.agent work (hack row.agent) (hnack row.agent)
  exact (hentries.trans hmail).trans htail

theorem cancelAll_moves (hmay : ∀ m : Move, m.free = true → may m) (env : TxEnv)
    (reason : String) (runIds : List RunId) :
    ∀ s : Store, MovesBy L may s (cancelAll env reason s runIds).1 := by
  induction runIds with
  | nil => exact fun s => Steps.refl s
  | cons runId rest ih =>
    exact fun s => (cancelOne_moves hmay env s.cascadeTurns s runId reason).trans (ih _)

theorem requestCancel_moves (hmay : ∀ m : Move, m.free = true → may m) {reason : String}
    {cascade : Bool} {affected : List RunId}
    (h : s.requestCancel env runId reason cascade = .ok (s', affected)) : MovesBy L may s s' := by
  unfold requestCancel at h
  cases horder : s.cancelOrder env cascade env.turns [runId] with
  | none =>
    rw [horder] at h
    cases h
  | some order =>
    rw [horder] at h
    injection h with h
    have hmoves := cancelAll_moves (L := L) hmay env reason order.reverse s
    rw [h] at hmoves
    exact hmoves

theorem annotate_ok {entries : List NewEntry} (h : s.annotate env runId entries = .ok (s', seqs)) :
    (s.runs.get? runId).isSome ∧ appendAll env runId s entries = (s', seqs) := by
  unfold annotate at h
  cases hrow : s.runs.get? runId with
  | none =>
    rw [hrow] at h
    cases h
  | some row =>
    rw [hrow] at h
    injection h with h
    exact ⟨rfl, h⟩

theorem redrive_ok (h : s.redrive env agent msgId = .ok (s', hit)) : s' = s ∨ ∃ letter result,
      (s.deadLetters.find? fun row => row.agent = agent && row.msg.id = msgId) = some letter ∧
        (s.forgetDeadLetter agent msgId).deliver env
          { agent, msg := letter.msg, tenant := letter.tenant } true = .ok (s', result) := by
  unfold redrive at h
  cases hfind : s.deadLetters.find? fun row => row.agent = agent && row.msg.id = msgId with
  | none =>
    rw [hfind] at h
    cases h
    exact .inl rfl
  | some letter =>
    rw [hfind] at h
    obtain ⟨⟨t, result⟩, hdeliver, h⟩ := bind_ok_iff.mp h
    cases h
    exact .inr ⟨letter, result, rfl, hdeliver⟩

theorem redrive_moves (hmay : ∀ m : Move, m.free = true → may m)
    (hforget : may (.forgetDeadLetter agent msgId))
    (h : s.redrive env agent msgId = .ok (s', hit)) : MovesBy L may s s' := by
  rcases redrive_ok h with rfl | ⟨letter, result, _, hdeliver⟩
  · exact Steps.refl s'
  · have hforgotten : MovesBy L may s (s.forgetDeadLetter agent msgId) :=
      MovesBy.single (.forgetDeadLetter agent msgId) trivial hforget
    exact hforgotten.trans ((deliver_free hdeliver).by hmay)

theorem consume_moves (s : Store) (runId : RunId) (name claimId : String)
    (hmay : ∀ payload, may (.claimSignal runId name claimId payload)) :
    MovesBy L may s (s.consume runId name claimId).1 := by
  unfold consume
  cases hclaim : s.claims.get? claimId with
  | some payload => exact Steps.refl s
  | none =>
    cases hsignal : s.signals.find? fun row => row.runId = runId && row.name = name with
    | none => exact Steps.refl s
    | some row =>
      exact MovesBy.single (.claimSignal runId name claimId row.payload)
        ⟨hclaim, row, hsignal, rfl⟩ (hmay row.payload)

end Helpers

def Op.deletes : Op → Bool
  | .erase .. | .prune .. => true
  | _ => false

/-- The calls that may make a supervised run. -/
def Op.spawns : Op → Bool
  | .createRun .. | .commit .. => true
  | _ => false

def Op.EntriesAllowed (L : Licence) (env : TxEnv) (s : Store) : Op → Prop
  | .commit held work => L.Allows env held.runId s work.entries
  | .annotate runId entries => L.Allows env runId s entries
  | .appendEphemeral held entries =>
    L.Allows env held.runId s (entries.map NewEntry.live)
  | _ => True

def Op.SweepMoves (L : Licence) (may : Move → Prop) (env : TxEnv) (s : Store) : Op → Prop
  | .lease _ _ _ now =>
    ∀ t, ((s.reclaim now).wakeTimers env now).sweepDeadlines env now = .ok t →
      MovesBy L may ((s.reclaim now).wakeTimers env now) t
  | _ => True

def Op.SleepsAllowed (L : Licence) : Op → Prop
  | .commit held _ => L.sleeps held.runId
  | _ => True

def Op.Sends : Op → RunId → String → JsonObject → Prop
  | .commit _ work, runId, name, payload => ⟨runId, name, payload⟩ ∈ work.signals
  | .signal runId name payload, runId', name', payload' =>
    runId = runId' ∧ name = name' ∧ payload = payload'
  | _, _, _, _ => False

/-- The moves of a call: only `lease` grants leases and only `consume` takes
signals, and the signals sent by hand are those of the arguments. -/
def Op.Makes (op : Op) : Move → Prop
  | .claim worker expires now _ =>
    ∃ capacity leaseFor, op = .lease worker capacity leaseFor now ∧ expires = now + leaseFor
  | .signal runId name payload => op.Sends runId name payload
  | .claimSignal runId name claimId _ => op = .consume runId name claimId
  | _ => True

variable {m : Move} {L : Licence} {env : TxEnv} {s s' : Store} {op : Op} {p : RunRow → Bool}

theorem Op.makes_common (op : Op) (h : m.common = true) : op.Makes m := by
  cases m with
  | claim | signal | claimSignal => cases h
  | _ => trivial

def Op.Supplies : Op → RunId → NewEntry → Prop
  | .commit held work, runId, entry => runId = held.runId ∧ entry ∈ work.entries
  | .annotate other entries, runId, entry => runId = other ∧ entry ∈ entries
  | .appendEphemeral held entries, runId, entry =>
    runId = held.runId ∧ entry ∈ entries.map NewEntry.live
  | _, _, _ => False

/-- The moves a call makes because its arguments ask for them. -/
def Op.Requests (op : Op) : Move → Prop
  | .charge runId cost => ∃ entry, op.Supplies runId entry ∧ entry.spend = some cost
  | .ack _ _ msgId => ∃ held work, op = .commit held work ∧ msgId ∈ work.ack
  | .nack _ _ failure => ∃ held work, op = .commit held work ∧ failure ∈ work.nack
  | .forgetDeadLetter agent msgId => op = .redrive agent msgId
  | .dropLive now => ∃ worker capacity leaseFor, op = .lease worker capacity leaseFor now
  | .claim worker expires now _ =>
    ∃ capacity leaseFor, op = .lease worker capacity leaseFor now ∧ expires = now + leaseFor
  | .signal runId name payload => op.Sends runId name payload
  | .claimSignal runId name claimId _ => op = .consume runId name claimId
  | .accountLimit account budget => op = .accountLimit account budget
  | _ => False

/-- The moves of a call: the routine ones, and those it is asked for. -/
def Op.Asks (op : Op) (m : Move) : Prop := m.routine = true ∨ op.Requests m

theorem Op.makes_requests (op : Op) (h : op.Requests m) : op.Makes m := by
  cases m with
  | claim | signal | claimSignal => exact h
  | _ => trivial

theorem perform_by {may : Move → Prop}
    (hmay : ∀ m : Move, m.routine = true → (op.spawns = false → m.free = true) → may m)
    (hasked : ∀ m, op.Requests m → may m) (hkeeps : op.deletes = false)
    (hentries : op.EntriesAllowed L env s) (hsweep : op.SweepMoves L may env s)
    (hsleeps : op.SleepsAllowed L) (h : s.perform env op = .ok s') : MovesBy L may s s' := by
  have hfree : ∀ m : Move, m.free = true → may m :=
    fun m hm => hmay m (Move.routine_of_free hm) fun _ => hm
  cases op with
  | createRun spec deliveries =>
    obtain ⟨⟨t, runId⟩, hcreate, h⟩ := bind_ok_iff.mp h
    cases h
    exact (createRun_moves hcreate).by fun m hm => hmay m hm nofun
  | lease worker capacity leaseFor now =>
    obtain ⟨⟨t, leases⟩, hlease, h⟩ := bind_ok_iff.mp h
    cases h
    exact lease_moves hfree (hasked (.dropLive now) ⟨worker, capacity, leaseFor, rfl⟩)
      (fun _ => hasked (.claim ..) ⟨capacity, leaseFor, rfl, rfl⟩)
      hsweep hlease
  | heartbeat lease leaseFor now =>
    cases h
    exact heartbeat_moves s lease leaseFor now (hfree _ rfl)
  | commit lease work =>
    obtain ⟨⟨t, result⟩, hcommit, h⟩ := bind_ok_iff.mp h
    cases h
    exact commit_moves (fun m hm => hmay m hm nofun) hentries hsleeps
      (fun entry hentry cost hspend =>
        hasked (.charge lease.runId cost) ⟨entry, ⟨rfl, hentry⟩, hspend⟩)
      (fun agent msgId hmsg => hasked (.ack env agent msgId) ⟨lease, work, rfl, hmsg⟩)
      (fun agent failure hfailure =>
        hasked (.nack env agent failure) ⟨lease, work, rfl, hfailure⟩)
      (fun spec hspec => hasked (.signal spec.runId spec.name spec.payload) hspec) hcommit
  | requestCancel runId reason cascade =>
    obtain ⟨⟨t, affected⟩, hcancel, h⟩ := bind_ok_iff.mp h
    cases h
    exact requestCancel_moves hfree hcancel
  | annotate runId entries =>
    obtain ⟨⟨t, seqs⟩, hannotate, h⟩ := bind_ok_iff.mp h
    cases h
    obtain ⟨hstored, hentriesEq⟩ := annotate_ok hannotate
    have hmoves := appendAll_by hfree entries hstored hentries fun entry hentry cost hspend =>
      hasked (.charge runId cost) ⟨entry, ⟨rfl, hentry⟩, hspend⟩
    rw [hentriesEq] at hmoves
    exact hmoves
  | appendEphemeral lease entries =>
    obtain ⟨row, hfence, h⟩ := bind_ok_iff.mp h
    cases h
    exact appendAll_by hfree _ (Option.isSome_of_eq_some (fencedRun_ok hfence).1) hentries
      fun entry hentry cost hspend =>
        hasked (.charge lease.runId cost) ⟨entry, ⟨rfl, hentry⟩, hspend⟩
  | deliver delivery wake =>
    obtain ⟨⟨t, result⟩, hdeliver, h⟩ := bind_ok_iff.mp h
    cases h
    exact (deliver_free hdeliver).by hfree
  | wakeDeliveries deliveries =>
    obtain ⟨⟨t, results⟩, hdeliver, h⟩ := bind_ok_iff.mp h
    cases h
    exact (deliverAll_free deliveries hdeliver).by hfree
  | redrive agent msgId =>
    obtain ⟨⟨t, hit⟩, hredrive, h⟩ := bind_ok_iff.mp h
    cases h
    exact redrive_moves hfree (hasked (.forgetDeadLetter agent msgId) rfl) hredrive
  | signal runId name payload =>
    cases h
    exact MovesBy.single (.signal runId name payload) trivial
      (hasked (.signal runId name payload) ⟨rfl, rfl, rfl⟩)
  | consume runId name claimId =>
    cases h
    exact consume_moves s runId name claimId fun payload =>
      hasked (.claimSignal runId name claimId payload) rfl
  | accountLimit account budget =>
    cases h
    exact MovesBy.single (.accountLimit account budget) trivial
      (hasked (.accountLimit account budget) rfl)
  | erase tenant threadId agent channels | prune before => cases hkeeps

theorem perform_moves (hkeeps : op.deletes = false) (hentries : op.EntriesAllowed L env s)
    (hsweep : op.SweepMoves L op.Makes env s) (hsleeps : op.SleepsAllowed L)
    (h : s.perform env op = .ok s') : MovesBy L op.Makes s s' :=
  perform_by (fun _ hm _ => op.makes_common (Move.common_of_routine hm))
    (fun _ => op.makes_requests) hkeeps hentries hsweep hsleeps h

/-- With nothing assumed of the caller, every call is a run of routine moves and
of those it is asked for. -/
theorem perform_any {may : Move → Prop}
    (hmay : ∀ m : Move, m.routine = true → (op.spawns = false → m.free = true) → may m)
    (hasked : ∀ m, op.Requests m → may m) (hkeeps : op.deletes = false)
    (h : s.perform env op = .ok s') : MovesBy Licence.any may s s' := by
  refine perform_by hmay hasked hkeeps ?_ ?_ ?_ h
  · cases op <;> first
      | trivial
      | exact Licence.allows_all (L := Licence.any) (fun _ => trivial) env _ _ s
  · cases op with
    | lease worker capacity leaseFor now =>
      intro t hswept
      exact sweepDeadlines_moves
        (fun m hm => hmay m (Move.routine_of_free hm) fun _ => hm) trivial hswept
    | _ => trivial
  · cases op <;> trivial

theorem perform_asked (hkeeps : op.deletes = false) (h : s.perform env op = .ok s') :
    MovesBy Licence.any op.Asks s s' :=
  perform_any (fun _ hm _ => .inl hm) (fun _ => .inr) hkeeps h

theorem perform_moves_free (hentry : ∀ entry, L.entry entry) (hagain : L.again)
    (hkeeps : op.deletes = false) (hsleeps : op.SleepsAllowed L) (h : s.perform env op = .ok s') :
    MovesBy L op.Makes s s' := by
  refine perform_moves hkeeps ?_ ?_ hsleeps h
  · cases op <;> first | trivial | exact Licence.allows_all hentry env _ _ s
  · cases op <;> first
      | trivial
      | exact fun t hswept => sweepDeadlines_moves
          (fun _ hm => Op.makes_common _ (Move.common_of_free hm)) hagain hswept

theorem perform_moves_any (hkeeps : op.deletes = false) (h : s.perform env op = .ok s') :
    MovesBy Licence.any op.Makes s s' :=
  perform_moves_free (fun _ => trivial) trivial hkeeps (by cases op <;> trivial) h

abbrev Calls : Store → Store → Prop := Steps exec fun _ _ => True

theorem calls_execAll (calls : List Call) (s : Store) : Calls s (execAll calls s) :=
  Steps.foldl calls (fun _ call _ => Steps.single call trivial) s

/-- Some runs are deleted, and their journal, registrations and signals with
them; what the other runs have is kept. -/
structure Forgets (gone : RunId → Bool) (s s' : Store) : Prop where
  runs : ∀ runId, s'.runs.get? runId = (s.runs.get? runId).filter fun _ => !gone runId
  events : s'.events = s.events.filter fun row => !gone row.runId
  wake : s'.wake = s.wake.filter fun row => !gone row.1
  signals : s'.signals = s.signals.filter fun row => !gone row.runId

private theorem forget_fold {turn : Store → RunId × RunRow → Store}
    (hevents : ∀ s row, (turn s row).events = (s.forgetRun row.1).events)
    (hwake : ∀ s row, (turn s row).wake = (s.forgetRun row.1).wake)
    (hsignals : ∀ s row, (turn s row).signals = (s.forgetRun row.1).signals)
    (rows : List (RunId × RunRow)) (s : Store) :
    (rows.foldl turn s).events = s.events.filter (fun event => event.runId ∉ rows.map Prod.fst) ∧
      (rows.foldl turn s).wake = s.wake.filter (fun name => name.1 ∉ rows.map Prod.fst) ∧
      (rows.foldl turn s).signals =
        s.signals.filter (fun signal => signal.runId ∉ rows.map Prod.fst) := by
  induction rows generalizing s with
  | nil => simp
  | cons row rest ih =>
    obtain ⟨ihevents, ihwake, ihsignals⟩ := ih (turn s row)
    rw [foldl_cons, ihevents, ihwake, ihsignals, hevents, hwake, hsignals]
    simp only [forgetRun, List.filter_filter, map_cons, mem_cons, not_or, Bool.decide_and]
    refine ⟨List.filter_congr ?_, List.filter_congr ?_, List.filter_congr ?_⟩ <;>
      simp [Bool.and_comm]

private theorem dropMail_fold (addresses : List Address) (s : Store) :
    (addresses.foldl dropMail s).runs = s.runs ∧ (addresses.foldl dropMail s).events = s.events ∧
      (addresses.foldl dropMail s).wake = s.wake ∧
      (addresses.foldl dropMail s).signals = s.signals := by
  induction addresses generalizing s with
  | nil => exact ⟨rfl, rfl, rfl, rfl⟩
  | cons address rest ih =>
    rw [foldl_cons]
    obtain ⟨hruns, hevents, hwake, hsignals⟩ := ih (dropMail s address)
    have hone : (dropMail s address).runs = s.runs ∧ (dropMail s address).events = s.events ∧
        (dropMail s address).wake = s.wake ∧
        (dropMail s address).signals = s.signals := by
      unfold dropMail
      split <;> exact ⟨rfl, rfl, rfl, rfl⟩
    exact ⟨hruns.trans hone.1, hevents.trans hone.2.1, hwake.trans hone.2.2.1,
      hsignals.trans hone.2.2.2⟩

def selected (s : Store) (p : RunRow → Bool) (runId : RunId) : Bool := (s.runs.get? runId).any p

theorem mem_selected (runId : RunId) :
    runId ∈ (s.runs.rows.filter fun row => p row.2).map Prod.fst ↔ s.selected p runId = true := by
  rw [mem_map, selected, Option.any_eq_true]
  constructor
  · rintro ⟨⟨other, row⟩, hmem, rfl⟩
    exact ⟨row, Table.mem_filter_rows.mp hmem⟩
  · rintro ⟨row, hrow⟩
    exact ⟨(runId, row), Table.mem_filter_rows.mpr hrow, rfl⟩

theorem filter_selected (runId : RunId) : ((s.runs.get? runId).filter fun row => !p row) =
      (s.runs.get? runId).filter fun _ => !s.selected p runId := by
  unfold selected
  cases s.runs.get? runId <;> rfl

private theorem forget_selected (turn : Store → RunId × RunRow → Store)
    (hevents : ∀ s row, (turn s row).events = (s.forgetRun row.1).events)
    (hwake : ∀ s row, (turn s row).wake = (s.forgetRun row.1).wake)
    (hsignals : ∀ s row, (turn s row).signals = (s.forgetRun row.1).signals) (s : Store)
    (p : RunRow → Bool)
    (hruns : ∀ runId, s'.runs.get? runId = (s.runs.get? runId).filter fun row => !p row)
    (hsame : s'.events = ((s.runs.rows.filter fun row => p row.2).foldl turn s).events ∧
      s'.wake = ((s.runs.rows.filter fun row => p row.2).foldl turn s).wake ∧
      s'.signals = ((s.runs.rows.filter fun row => p row.2).foldl turn s).signals) :
    Forgets (s.selected p) s s' := by
  obtain ⟨hevents', hwake', hsignals'⟩ :=
    forget_fold hevents hwake hsignals (s.runs.rows.filter fun row => p row.2) s
  refine ⟨fun runId => (hruns runId).trans (filter_selected runId), ?_, ?_, ?_⟩
  · rw [hsame.1, hevents']
    exact List.filter_congr fun event _ => by simp [mem_selected]
  · rw [hsame.2.1, hwake']
    exact List.filter_congr fun name _ => by simp [mem_selected]
  · rw [hsame.2.2, hsignals']
    exact List.filter_congr fun signal _ => by simp [mem_selected]

private theorem forgetLinks_fold_runs (rows : List (RunId × RunRow)) (s : Store) :
    (rows.foldl (fun s row => (s.forgetRun row.1).forgetLinks row.1) s).runs = s.runs := by
  induction rows generalizing s with
  | nil => rfl
  | cons row rest ih => exact ih _

theorem erase_forgets (s : Store) (tenant : Tenant) (threadId : Option String)
    (agent : Option Address) (channels : List String) :
    Forgets (s.selected (eraseMatch tenant threadId agent)) s
      (s.erase tenant threadId agent channels) := by
  refine forget_selected (fun s row => (s.forgetRun row.1).forgetLinks row.1)
    (fun _ _ => rfl) (fun _ _ => rfl) (fun _ _ => rfl) s _ ?_ ?_
  · intro runId
    unfold erase
    simp only
    rw [(dropMail_fold _ _).1]
    cases agent with
    | none =>
      simp only [dropSpend]
      split <;> exact (by rw [forgetLinks_fold_runs]; exact Table.get?_filter _ _ runId)
    | some address =>
      simp only [dropSpend, dropAccounts]
      split <;> exact (by rw [forgetLinks_fold_runs]; exact Table.get?_filter _ _ runId)
  · unfold erase
    simp only
    obtain ⟨_, hevents, hwake, hsignals⟩ := dropMail_fold _ _
    rw [hevents, hwake, hsignals]
    cases agent <;> simp only [dropSpend, dropAccounts] <;> split <;> exact ⟨rfl, rfl, rfl⟩

private theorem dropRun_fold_runs (rows : List (RunId × RunRow)) (s : Store) (runId : RunId) :
    (rows.foldl (fun s row => s.dropRun row.1) s).runs.get? runId =
      if runId ∈ rows.map Prod.fst then none else s.runs.get? runId := by
  induction rows generalizing s with
  | nil => simp
  | cons row rest ih =>
    rw [foldl_cons, ih]
    simp only [dropRun, map_cons, mem_cons, Table.get?_erase]
    by_cases hhere : runId = row.1
    · simp [hhere]
    · by_cases hlater : runId ∈ rest.map Prod.fst <;> simp [hhere, hlater]

theorem prune_forgets (s : Store) (before : Time) :
    Forgets (s.selected (pruneMatch before)) s (s.prune before) := by
  let swept : Store :=
    { s with processed := s.processed.filter fun _ at' => !(at' < before) }
  have hforgets : Forgets (swept.selected (pruneMatch before)) swept (s.prune before) := by
    refine forget_selected (fun s row => s.dropRun row.1) (fun _ _ => rfl) (fun _ _ => rfl)
      (fun _ _ => rfl) swept _ ?_ ⟨rfl, rfl, rfl⟩
    intro runId
    change ((swept.runs.rows.filter fun row => pruneMatch before row.2).foldl
      (fun s row => s.dropRun row.1) swept).runs.get? runId = _
    rw [dropRun_fold_runs, filter_selected]
    by_cases hmem : swept.selected (pruneMatch before) runId = true
    · rw [if_pos ((mem_selected runId).mpr hmem), hmem]
      cases swept.runs.get? runId <;> rfl
    · rw [if_neg fun h => hmem ((mem_selected runId).mp h), Bool.eq_false_iff.mpr hmem]
      cases swept.runs.get? runId <;> rfl
  exact ⟨hforgets.runs, hforgets.events, hforgets.wake, hforgets.signals⟩

theorem perform_forgets (hdeletes : op.deletes = true) (h : s.perform env op = .ok s') :
    ∃ gone, Forgets gone s s' := by
  cases op with
  | erase tenant threadId agent channels =>
    cases h
    exact ⟨_, erase_forgets s tenant threadId agent channels⟩
  | prune before =>
    cases h
    exact ⟨_, prune_forgets s before⟩
  | _ => cases hdeletes

end Store

end Substrate
