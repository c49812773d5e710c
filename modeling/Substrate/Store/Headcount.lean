import Mathlib.Data.List.Perm.Subperm
import Substrate.Store.Calls

/-!
The headcount cap of an execution tree. Only a spawn makes a run of the tree, and it counts
the tree's active runs first, in the transaction that adds the run; nothing else makes a run
active that was not.
-/

namespace Substrate.Store

open Lib List

/-- Every run of the tree carries a supervision with this cap. -/
def Supervised (s : Store) (tree : RunId) (cap : Nat) : Prop :=
  ∀ runId row, s.runs.get? runId = some row → row.treeId = tree →
    ∃ supervision, row.supervision = some supervision ∧ supervision.maxAgents = cap

/-- The child of every effect is stored. -/
def ChildrenStored (s : Store) : Prop :=
  ∀ effectId child, s.spawns.get? effectId = some child → (s.runs.get? child).isSome

/-- The moves that make no supervised run and record no child. -/
def Move.sober : Move → Bool
  | insertRow _ row _ => row.supervision.isNone
  | recordSpawn .. => false
  | _ => true

theorem Move.sober_of_free {m : Move} (h : m.free = true) : m.sober = true := by
  cases m with
  | insertRow | recordSpawn => exact h
  | _ => rfl

theorem Op.sober_of_requests {op : Op} {m : Move} (h : op.Requests m) : m.sober = true := by
  cases m with
  | insertRow | recordSpawn => exact h.elim
  | _ => rfl

abbrev SoberMoves : Store → Store → Prop := MovesBy Licence.any fun m => m.sober = true

variable {L : Licence} {m : Move} {s s' t : Store} {env : TxEnv} {runId parent tree : RunId}
    {row row' : RunRow} {cap : Nat} {call : Call} {lease : Lease} {work : Commit}

theorem RowStep.was_active (h : RowStep L m runId row row') (hactive : row'.isActive = true) :
    row.isActive = true := by
  cases h with
  | same | flagged | extended => exact hactive
  | queued hstatus => simp [RunRow.isActive, hstatus, RunStatus.isTerminal]
  | ended _ _ how => cases how <;> cases hactive
  | reclaimed _ _ hstatus | claimed _ _ _ _ hstatus | slept _ _ _ hstatus
  | resumed _ _ _ hstatus | parked _ _ hstatus =>
    simp [RunRow.isActive, hstatus, RunStatus.isTerminal]

theorem headcount_le (h : ∀ runId row, s'.runs.get? runId = some row → row.treeId = tree →
    row.isActive = true →
      ∃ old, s.runs.get? runId = some old ∧ old.treeId = tree ∧ old.isActive = true) :
    s'.treeHeadcount tree ≤ s.treeHeadcount tree := by
  unfold treeHeadcount
  rw [countP_eq_length_filter, countP_eq_length_filter, ← length_map (f := Prod.fst),
    ← length_map (f := Prod.fst)]
  refine (Nodup.subperm (s'.runs.nodup.sublist (filter_sublist.map _)) fun id hid => ?_).length_le
  obtain ⟨⟨runId, row⟩, hmem, rfl⟩ := mem_map.mp hid
  obtain ⟨hget, htree⟩ := Table.mem_filter_rows.mp hmem
  simp only [Bool.and_eq_true, decide_eq_true_eq] at htree
  obtain ⟨old, hold, hsame, hactive⟩ := h runId row hget htree.1 htree.2
  refine mem_map.mpr ⟨(runId, old), Table.mem_filter_rows.mpr ⟨hold, ?_⟩, rfl⟩
  simp [hsame, hactive]

theorem headcount_insert (hnone : s.runs.get? runId = none) (accounts : List String) :
    ((s.insertRow runId row).addAccounts runId accounts).treeHeadcount tree ≤
      s.treeHeadcount tree + 1 := by
  have hnew : runId ∉ s.runs.rows.map Prod.fst := Table.get?_eq_none_iff.mp hnone
  change (s.runs.insert runId row).rows.countP _ ≤ _
  rw [Table.insert, dif_neg hnew, countP_append]
  have hone := countP_le_length (p := fun row : RunId × RunRow =>
    decide (row.2.treeId = tree) && row.2.isActive) (l := [(runId, row)])
  exact Nat.add_le_add_left hone _

theorem Supervised.before (h : Supervised s' tree cap) (hmoves : Moves L s s') :
    Supervised s tree cap := by
  intro runId row hrow htree
  obtain ⟨row', hrow', hbirth⟩ := hmoves.keeps_run hrow
  have htree' : row'.treeId = tree := (congrArg RunRow.treeId hbirth).trans htree
  obtain ⟨supervision, hsome, hcap⟩ := h runId row' hrow' htree'
  exact ⟨supervision, (congrArg RunRow.supervision hbirth).symm.trans hsome, hcap⟩

/-- What a part of a transaction keeps. -/
structure KeepsCap (tree : RunId) (cap : Nat) (s s' : Store) : Prop where
  moves : Moves Licence.any s s'
  headcount : Supervised s' tree cap → s.treeHeadcount tree ≤ cap → s'.treeHeadcount tree ≤ cap
  stored : ChildrenStored s → ChildrenStored s'
  recorded : ∀ effectId child, s.spawns.get? effectId = some child →
    s'.spawns.get? effectId = some child

theorem KeepsCap.refl : KeepsCap tree cap s s :=
  ⟨Steps.refl s, fun _ => id, id, fun _ _ => id⟩

theorem KeepsCap.trans (h : KeepsCap tree cap s t) (h' : KeepsCap tree cap t s') :
    KeepsCap tree cap s s' where
  moves := h.moves.trans h'.moves
  headcount hsuper hcap := h'.headcount hsuper (h.headcount (hsuper.before h'.moves) hcap)
  stored hstored := h'.stored (h.stored hstored)
  recorded effectId child hchild := h'.recorded effectId child (h.recorded effectId child hchild)

theorem SoberMoves.spawns (h : SoberMoves s s') : s'.spawns = s.spawns := by
  apply Steps.invariant (P := fun t => t.spawns = s.spawns) _ h rfl
  intro t m ht ⟨_, hsober⟩
  by_cases hmail : m.ofMail = true
  · obtain ⟨_, _, _, hshape⟩ := apply_ofMail hmail t
    rw [hshape]
    exact ht
  by_cases hruns : m.ofRuns = true
  · obtain ⟨_, _, _, _, hshape⟩ := apply_ofRuns hruns t
    rw [hshape]
    exact ht
  cases m with
  | recordSpawn => cases hsober
  | charge | insertRow | claimSignal | accountLimit => exact ht
  | nack | insertMail | ack | forgetDeadLetter => exact absurd rfl hmail
  | _ => exact absurd rfl hruns

theorem SoberMoves.keeps (h : SoberMoves s s') : KeepsCap tree cap s s' where
  moves := h.moves
  headcount hsuper hcap := by
    have hrows : ∀ runId row, s'.runs.get? runId = some row → row.isActive = true →
        row.supervision = none ∨
          ∃ old, s.runs.get? runId = some old ∧ old.treeId = row.treeId ∧ old.isActive = true := by
      apply Steps.invariant _ h (fun runId row hrow hactive => .inr ⟨row, hrow, rfl, hactive⟩)
      intro t m ht ⟨hok, hsober⟩ runId row hrow hactive
      rcases row_origin hok hrow with ⟨old, hold, hstep⟩ | ⟨_, _, _, ⟨accounts, rfl⟩, _⟩
      · have hbirth := hstep.birth
        rcases ht runId old hold (hstep.was_active hactive) with hnone | ⟨first, hfirst, htree, hwas⟩
        · exact .inl ((congrArg RunRow.supervision hbirth).trans hnone)
        · exact .inr ⟨first, hfirst, htree.trans (congrArg RunRow.treeId hbirth).symm, hwas⟩
      · exact .inl (Option.isNone_iff_eq_none.mp hsober)
    refine (headcount_le fun runId row hrow htree hactive => ?_).trans hcap
    obtain ⟨supervision, hsome, _⟩ := hsuper runId row hrow htree
    rcases hrows runId row hrow hactive with hnone | ⟨old, hold, hsame, hwas⟩
    · rw [hsome] at hnone
      cases hnone
    · exact ⟨old, hold, hsame.trans htree, hwas⟩
  stored hstored := by
    intro effectId child hchild
    rw [h.spawns] at hchild
    exact h.moves.keeps_stored (hstored effectId child hchild)
  recorded effectId child hchild := by rwa [h.spawns]

theorem spawn_checked {spec : SpawnSpec} {handle : RunHandle}
    (h : s.spawn env parent spec = .ok (s', handle))
    (hnew : s.spawns.get? spec.effectId = none) : s.checkHeadcount spec.child = .ok () := by
  unfold spawn at h
  rw [hnew] at h
  obtain ⟨_, hcheck, _⟩ := bind_ok_iff.mp h
  exact hcheck

theorem checkHeadcount_lt {spec : RunSpec} {supervision : Supervision}
    (h : s.checkHeadcount spec = .ok ()) (hspec : spec.supervision = some supervision) :
    s.treeHeadcount supervision.runId < supervision.maxAgents := by
  unfold checkHeadcount at h
  simp only [hspec] at h
  by_contra hover
  rw [if_pos (not_lt.mp hover)] at h
  cases h

theorem insert_headcount {spec : RunSpec} {child : RunId}
    (h : s.insertRun env spec = .ok (t, child)) (hsuper : Supervised t tree cap)
    (hcap : s.treeHeadcount tree ≤ cap)
    (hunder : ∀ supervision, spec.supervision = some supervision → supervision.runId = tree →
      supervision.maxAgents = cap → s.treeHeadcount tree < cap) : t.treeHeadcount tree ≤ cap := by
  obtain ⟨hnone, _, rfl⟩ := insertRun_ok h
  have hget : ((s.insertRow child (spec.row child env.clock)).addAccounts child
      spec.accounts).runs.get? child = some (spec.row child env.clock) := by
    change (s.runs.insert child _).get? child = _
    rw [Table.get?_insert_of_none hnone, if_pos rfl]
  by_cases htree : (spec.row child env.clock).treeId = tree
  · obtain ⟨supervision, hsome, hmax⟩ := hsuper child _ hget htree
    change spec.supervision = some supervision at hsome
    have hid : supervision.runId = tree := by
      rw [← htree, RunSpec.row, hsome]
    exact (headcount_insert hnone _).trans (hunder supervision hsome hid hmax)
  · refine (headcount_le fun runId row hrow hsame hactive => ?_).trans hcap
    change (s.runs.insert child _).get? runId = some row at hrow
    rw [Table.get?_insert_of_none hnone] at hrow
    split at hrow
    · cases hrow
      exact absurd hsame htree
    · exact ⟨row, hrow, hsame, hactive⟩

theorem spawn_keeps {spec : SpawnSpec} {handle : RunHandle}
    (h : s.spawn env parent spec = .ok (s', handle)) : KeepsCap tree cap s s' := by
  rcases spawn_ok h with rfl | ⟨hnew, t, u, child, result, hinsert, hdeliver, rfl⟩
  · exact .refl
  · have hdelivered : SoberMoves t u :=
      (deliver_free hdeliver).by fun _ => Move.sober_of_free
    have hkeeps : KeepsCap tree cap t u := hdelivered.keeps
    have hboot : (t.runs.get? child).isSome := by
      obtain ⟨hnone, _, rfl⟩ := insertRun_ok hinsert
      change ((s.runs.insert child _).get? child).isSome
      rw [Table.get?_insert_of_none hnone, if_pos rfl]
      rfl
    have hspawns : u.spawns = s.spawns := by
      obtain ⟨_, _, rfl⟩ := insertRun_ok hinsert
      exact hdelivered.spawns
    have hrecord : (u.recordSpawn spec.effectId child).spawns =
        s.spawns.insert spec.effectId child := by
      rw [← hspawns]
      rfl
    refine ⟨(spawn_moves h).moves, fun hsuper hcap => ?_, ?_, ?_⟩
    · have hsuper' : Supervised u tree cap := hsuper
      refine hkeeps.headcount hsuper'
        (insert_headcount hinsert (hsuper'.before hdelivered.moves) hcap ?_)
      intro supervision hsome hid hmax
      have hlt := checkHeadcount_lt (spawn_checked h hnew) hsome
      rwa [hid, hmax] at hlt
    · intro hstored effectId other hother
      rw [hrecord, Table.get?_insert_of_none hnew] at hother
      split at hother
      · cases hother
        exact hdelivered.moves.keeps_stored hboot
      · exact (spawn_moves (L := Licence.any) h).moves.keeps_stored (hstored effectId other hother)
    · intro effectId other hother
      have hne : effectId ≠ spec.effectId := by
        rintro rfl
        rw [hnew] at hother
        cases hother
      rw [hrecord, Table.get?_insert_of_none hnew, if_neg hne, hother]

theorem spawnAll_keeps (hrun : row.status = .running) (specs : List SpawnSpec) :
    ∀ {s s' : Store} {spawned : List (String × RunHandle × Nat)},
      s.runs.get? parent = some row → spawnAll env parent s specs = .ok (s', spawned) →
        KeepsCap tree cap s s' := by
  induction specs with
  | nil =>
    intro s s' spawned _ h
    cases h
    exact .refl
  | cons spec rest ih =>
    intro s s' spawned hrow h
    obtain ⟨⟨s₁, handle⟩, hspawn, h⟩ := bind_ok_iff.mp h
    obtain ⟨⟨s₂, more⟩, hrest, h⟩ := bind_ok_iff.mp h
    cases h
    have hrow₁ := (spawn_moves (L := Licence.any) hspawn).still.mild.keeps_running hrow hrun
    have hentry : FreeMoves Licence.any s₁ (s₁.append env parent (spawnEntry spec handle)).1 :=
      append_free (Option.isSome_of_eq_some hrow₁) (fun _ => trivial) rfl
    have hsober : SoberMoves s₁ (s₁.append env parent (spawnEntry spec handle)).1 :=
      hentry.by fun _ => Move.sober_of_free
    exact ((spawn_keeps hspawn).trans hsober.keeps).trans
      (ih (hentry.routine.still.mild.keeps_running hrow₁ hrun) hrest)

theorem handled_keeps (env : TxEnv) (work : Commit) (h : s.fencedRun lease = .ok row) :
    SoberMoves s (handled (appendAll env lease.runId s work.entries).1 env row.agent work) ∧
      (handled (appendAll env lease.runId s work.entries).1 env row.agent work).runs.get?
        lease.runId = some row := by
  obtain ⟨hrow, hcurrent⟩ := fencedRun_ok h
  have hallows := Licence.allows_all (L := Licence.any) (fun _ => trivial) env lease.runId
    work.entries s
  have hwritten := appendAll_writes (L := Licence.any) work.entries
    (Option.isSome_of_eq_some hrow) hallows
  constructor
  · refine Steps.trans (hwritten.mono ?_)
      (handled_moves _ env row.agent work (fun _ _ => rfl) fun _ _ => rfl)
    rintro t m ⟨hok, hwrites⟩
    cases m with
    | write | charge => exact ⟨hok, rfl⟩
    | _ => cases hwrites
  · exact (handled_still hallows h).mild.keeps_running hrow (current_running hcurrent)

theorem commit_keeps {result : CommitResult} (h : s.commit env lease work = .ok (s', result)) :
    KeepsCap tree cap s s' := by
  obtain ⟨row, t, u, spawned, delivered, seqs, hfence, hspawn, hdeliver, hsettle⟩ := commit_ok h
  have hrun := current_running (fencedRun_ok hfence).2
  obtain ⟨_, hkept⟩ := commit_before (Licence.allows_all (L := Licence.any) (fun _ => trivial) env
    lease.runId work.entries s) hfence hspawn hdeliver
  obtain ⟨hbefore, hrow⟩ := handled_keeps env work hfence
  have hspawned : KeepsCap tree cap _ t := spawnAll_keeps hrun work.spawns hrow hspawn
  have hdelivered : SoberMoves t u :=
    (deliverAll_free work.deliveries hdeliver).by fun _ => Move.sober_of_free
  have hsignalled : SoberMoves u (u.signalAll work.signals) :=
    signalAll_moves u work.signals fun _ _ => rfl
  have hafter : SoberMoves t s' := (hdelivered.trans hsignalled).trans
    (settle_moves (fun _ => Move.sober_of_free) trivial hkept hrun hsettle)
  exact (hbefore.keeps.trans hspawned).trans hafter.keeps

theorem createRun_keeps {spec : RunSpec} {deliveries : List Delivery}
    (h : s.createRun env spec deliveries = .ok (s', runId))
    (hroot : 0 < cap → spec.supervision.any (·.runId = tree) = true →
      s.treeHeadcount tree = 0) :
    KeepsCap tree cap s s' := by
  obtain ⟨t, hinsert, hfree⟩ := createRun_ok (L := Licence.any) h
  have hdelivered : SoberMoves t s' := hfree.by fun _ => Move.sober_of_free
  have hkeeps : KeepsCap tree cap t s' := hdelivered.keeps
  have hmoves : Moves Licence.any s t := (insertRun_moves hinsert).moves
  have hspawns : t.spawns = s.spawns := by
    obtain ⟨_, _, rfl⟩ := insertRun_ok hinsert
    rfl
  refine ⟨hmoves.trans hdelivered.moves, fun hsuper hcap => ?_, fun hstored => ?_,
    fun effectId child hchild => hkeeps.recorded effectId child (hspawns ▸ hchild)⟩
  · refine hkeeps.headcount hsuper
      (insert_headcount hinsert (hsuper.before hdelivered.moves) hcap ?_)
    rintro supervision hsome hid rfl
    rw [hroot supervision.maxAgents_pos (by simp [hsome, hid])]
    exact supervision.maxAgents_pos
  · exact hkeeps.stored fun effectId child hchild =>
      hmoves.keeps_stored (hstored effectId child (hspawns ▸ hchild))

theorem perform_sober (hspawns : call.op.spawns = false) (hkeeps : call.op.deletes = false)
    (h : s.perform call.env call.op = .ok s') : SoberMoves s s' :=
  perform_any (fun _ _ hfree => Move.sober_of_free (hfree hspawns))
    (fun _ => Op.sober_of_requests) hkeeps h

theorem perform_keeps (hkeeps : call.op.deletes = false)
    (hroot : 0 < cap → ∀ spec deliveries, call.op = .createRun spec deliveries →
      spec.supervision.any (·.runId = tree) = true → s.treeHeadcount tree = 0)
    (h : s.perform call.env call.op = .ok s') : KeepsCap tree cap s s' := by
  cases hop : call.op with
  | createRun spec deliveries =>
    rw [hop] at h
    obtain ⟨⟨t, runId⟩, hcreate, h⟩ := bind_ok_iff.mp h
    cases h
    exact createRun_keeps hcreate fun hpos => hroot hpos spec deliveries hop
  | commit lease work =>
    rw [hop] at h
    obtain ⟨⟨t, result⟩, hcommit, h⟩ := bind_ok_iff.mp h
    cases h
    exact commit_keeps hcommit
  | _ => exact (perform_sober (by rw [hop]; rfl) hkeeps h).keeps

/-- The spawn loop of a commit comes to a spawn. -/
def Reaches (s : Store) (env : TxEnv) (lease : Lease) (work : Commit) (spec : SpawnSpec)
    (t : Store) : Prop :=
  ∃ row before after spawned, s.fencedRun lease = .ok row ∧
    work.spawns = before ++ spec :: after ∧
    spawnAll env lease.runId
      (handled (appendAll env lease.runId s work.entries).1 env row.agent work) before =
      .ok (t, spawned)

theorem spawnAll_error {spec : SpawnSpec} {e : StoreError}
    (herror : t.spawn env parent spec = .error e) (before after : List SpawnSpec) :
    ∀ {s : Store} {spawned : List (String × RunHandle × Nat)},
      spawnAll env parent s before = .ok (t, spawned) →
        spawnAll env parent s (before ++ spec :: after) = .error e := by
  induction before with
  | nil =>
    intro s spawned h
    cases h
    rw [List.nil_append, spawnAll, herror]
    rfl
  | cons first rest ih =>
    intro s spawned h
    obtain ⟨⟨s₁, handle⟩, hspawn, h⟩ := bind_ok_iff.mp h
    obtain ⟨⟨s₂, more⟩, hrest, h⟩ := bind_ok_iff.mp h
    cases h
    have hmore : spawnAll env parent (s₁.append env parent (spawnEntry first handle)).1
        (rest ++ spec :: after) = .error e := ih hrest
    rw [List.cons_append, spawnAll, hspawn]
    change (spawnAll env parent (s₁.append env parent (spawnEntry first handle)).1
      (rest ++ spec :: after) >>= _) = _
    rw [hmore]
    rfl

theorem Reaches.error {spec : SpawnSpec} {e : StoreError} (h : Reaches s env lease work spec t)
    (herror : t.spawn env lease.runId spec = .error e) : s.commit env lease work = .error e := by
  obtain ⟨row, before, after, spawned, hfence, hspawns, hloop⟩ := h
  have hall := spawnAll_error herror before after hloop
  rw [← hspawns] at hall
  unfold handled at hall
  simp only [commit, hfence, bind, Except.bind]
  rw [hall]

theorem Reaches.keeps {spec : SpawnSpec} (h : Reaches s env lease work spec t) :
    KeepsCap tree cap s t := by
  obtain ⟨row, before, after, spawned, hfence, _, hloop⟩ := h
  obtain ⟨hbefore, hrow⟩ := handled_keeps env work hfence
  exact hbefore.keeps.trans
    (spawnAll_keeps (current_running (fencedRun_ok hfence).2) before hrow hloop)

/-- Calls that delete no run. -/
abbrev KeepingCalls : Store → Store → Prop := Steps exec fun _ call => call.op.deletes = false

theorem KeepingCalls.keeps (h : KeepingCalls s s') : (ChildrenStored s → ChildrenStored s') ∧
      ∀ effectId child, s.spawns.get? effectId = some child →
        s'.spawns.get? effectId = some child := by
  refine Steps.invariant (P := fun t => (ChildrenStored s → ChildrenStored t) ∧
    ∀ effectId child, s.spawns.get? effectId = some child →
      t.spawns.get? effectId = some child) (fun t call ht hkeeps => ?_) h ⟨id, fun _ _ => id⟩
  cases hperform : t.perform call.env call.op with
  | error e => rwa [exec_error hperform]
  | ok u =>
    -- under a cap of 0 there is no tree to count, and creating its root is no exception
    have hone : KeepsCap "" 0 t u :=
      perform_keeps hkeeps (fun hpos => absurd hpos (lt_irrefl 0)) hperform
    rw [exec_ok hperform]
    exact ⟨fun hstored => hone.stored (ht.1 hstored),
      fun effectId child hchild => hone.recorded effectId child (ht.2 effectId child hchild)⟩

end Substrate.Store
