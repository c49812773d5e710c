import Substrate.Lib.Ledger
import Substrate.Store.Accounts

/-!
What was spent. Every entry with a cost adds it to the total of its run's tree and to the
totals of the accounts the run is attached to, in the transaction that writes the entry.
-/

namespace Substrate

open Lib List Option

instance : Zero Spend := ⟨{}⟩

instance : Add Spend :=
  ⟨fun a b =>
    { tokens := a.tokens + b.tokens, costMicros := a.costMicros + b.costMicros
      turns := a.turns + b.turns }⟩

theorem Spend.add_def (a b : Spend) :
    a + b = { tokens := a.tokens + b.tokens, costMicros := a.costMicros + b.costMicros
              turns := a.turns + b.turns } := rfl

theorem Spend.zero_def : (0 : Spend) = {} := rfl

instance : AddCommMonoid Spend where
  add_assoc a b c := by simp only [Spend.add_def, Nat.add_assoc]
  zero_add a := by simp only [Spend.add_def, Spend.zero_def, Nat.zero_add]
  add_zero a := by simp only [Spend.add_def, Spend.zero_def, Nat.add_zero]
  add_comm a b := by simp only [Spend.add_def, Nat.add_comm]
  nsmul := nsmulRec

namespace Store

/-- The row an entry becomes. -/
def entryRow (s : Store) (env : TxEnv) (runId : RunId) (entry : NewEntry) : EventRow where
  runId := runId
  seq := s.nextSeq runId
  kind := entry.kind
  payload := entry.payload
  ts := env.clock
  ephemeral := entry.ephemeral
  dedupKey := entry.dedupKey

def entryCost (s : Store) (env : TxEnv) (runId : RunId) (entry : NewEntry) :
    List (EventRow × Spend) :=
  match s.findDedup runId entry.dedupKey, entry.spend with
  | none, some cost => [(s.entryRow env runId entry, cost)]
  | _, _ => []

def costs (env : TxEnv) (runId : RunId) : Store → List NewEntry → List (EventRow × Spend)
  | _, [] => []
  | s, entry :: rest =>
    s.entryCost env runId entry ++ costs env runId (s.append env runId entry).1 rest

/-- The entries with a cost that a call writes. A call that raises writes none. -/
def Call.bills (call : Call) (s : Store) : List (EventRow × Spend) :=
  match s.perform call.env call.op with
  | .error _ => []
  | .ok _ =>
    match call.op with
    | .commit held work => costs call.env held.runId s work.entries
    | .annotate runId entries => costs call.env runId s entries
    | .appendEphemeral held entries =>
      costs call.env held.runId s (entries.map NewEntry.live)
    | _ => []

structure Billing where
  store : Store := init
  entries : List (EventRow × Spend) := []

def bill (call : Call) (w : Billing) : Billing where
  store := exec call w.store
  entries := w.entries ++ call.bills w.store

def inTree (s : Store) (tree : RunId) (row : EventRow) : Bool :=
  (s.runs.get? row.runId).any fun run => run.treeId = tree

local instance : LawfulBEq (RunId × String) := inferInstance

def attached (s : Store) (account : String) (row : EventRow) : Bool :=
  (row.runId, account) ∈ s.runAccounts

def treeSpend (s : Store) (tree : RunId) : Spend := s.spend.tally id tree

def accountSpend (s : Store) (account : String) : Spend := s.accounts.tally Account.spent account

structure Books (s : Store) (entries : List (EventRow × Spend)) : Prop where
  tree : ∀ tree, s.treeSpend tree = total (s.inTree tree) entries
  account : ∀ account, s.accountSpend account = total (s.attached account) entries
  stored : ∀ entry ∈ entries, (s.runs.get? entry.1.runId).isSome
  journal : ∀ entry ∈ entries, entry.1.ephemeral = false → entry.1 ∈ s.events
  linked : ∀ pair ∈ s.runAccounts, (s.runs.get? pair.1).isSome
  nodup : s.runAccounts.Nodup

theorem books_init : Books init [] where
  tree := fun _ => rfl
  account := fun _ => rfl
  stored := fun _ hmem => absurd hmem not_mem_nil
  journal := fun _ hmem => absurd hmem not_mem_nil
  linked := fun _ hmem => absurd hmem not_mem_nil
  nodup := nodup_nil

variable {s s' : Store} {runId : RunId} {m : Move} {L : Licence}
    {entries : List (EventRow × Spend)} {call : Call} {env : TxEnv} {handle : RunHandle}
    {effectId : String} {held : Lease} {work : Commit} {result : CommitResult}

private theorem accountsOf_nodup (h : s.runAccounts.Nodup) (runId : RunId) :
    (s.accountsOf runId).Nodup := by
  unfold accountsOf
  refine (h.filter _).map_on ?_
  intro a ha b hb hsame
  have hfirst := of_decide_eq_true (mem_filter.mp ha).2
  have hsecond := of_decide_eq_true (mem_filter.mp hb).2
  exact Prod.ext (hfirst.trans hsecond.symm) hsame

theorem charge_treeSpend {row : RunRow} (cost : Spend) (hrow : s.runs.get? runId = some row)
    (tree : RunId) :
    (s.charge runId cost).treeSpend tree =
      s.treeSpend tree + if tree = row.treeId then cost else 0 := by
  unfold treeSpend charge
  simp only [hrow]
  exact Table.tally_upsert id (· + cost) cost rfl (fun _ => rfl) s.spend row.treeId tree

theorem charge_accountSpend (hnodup : s.runAccounts.Nodup) (runId : RunId) (cost : Spend)
    (account : String) :
    (s.charge runId cost).accountSpend account =
      s.accountSpend account + if account ∈ s.accountsOf runId then cost else 0 := by
  unfold accountSpend charge
  have hfold := Table.tally_foldl Account.spent
    (fun account => { account with spent := account.spent + cost }) cost (a := {}) rfl
    (fun _ => rfl) (s.accountsOf runId) (accountsOf_nodup hnodup runId) account s.accounts
  rw [← hfold]
  unfold accountsOf
  rw [foldl_map]
  rfl

private theorem books_charge {s : Store} {entries : List (EventRow × Spend)}
    (h : Books s entries) {row : EventRow} (cost : Spend)
    (hstored : (s.runs.get? row.runId).isSome) (hrow : row ∈ s.events) :
    Books (s.charge row.runId cost) (entries ++ [(row, cost)]) where
  tree := by
    intro tree
    obtain ⟨run, hrun⟩ := isSome_iff_exists.mp hstored
    have hwho : (s.charge row.runId cost).inTree tree = s.inTree tree := rfl
    have hin : s.inTree tree row = true ↔ tree = run.treeId := by
      unfold inTree
      rw [hrun, any_some, decide_eq_true_eq]
      exact eq_comm
    rw [charge_treeSpend cost hrun, total_append, total_single, hwho, h.tree tree]
    congr 1
    by_cases htree : tree = run.treeId
    · rw [if_pos htree, if_pos (hin.mpr htree)]
    · rw [if_neg htree, if_neg (fun hmem => htree (hin.mp hmem))]
  account := by
    intro account
    have hwho : (s.charge row.runId cost).attached account = s.attached account := rfl
    have hin : s.attached account row = true ↔ account ∈ s.accountsOf row.runId := by
      unfold attached
      rw [mem_accountsOf, decide_eq_true_eq]
    rw [charge_accountSpend h.nodup, total_append, total_single, hwho, h.account account]
    congr 1
    by_cases hmem : account ∈ s.accountsOf row.runId
    · rw [if_pos hmem, if_pos (hin.mpr hmem)]
    · rw [if_neg hmem, if_neg (fun hattached => hmem (hin.mp hattached))]
  stored := by
    intro entry hmem
    rcases mem_append.mp hmem with hold | hnew
    · exact h.stored entry hold
    · rw [mem_singleton.mp hnew]
      exact hstored
  journal := by
    intro entry hmem hdurable
    rcases mem_append.mp hmem with hold | hnew
    · exact h.journal entry hold hdurable
    · rw [mem_singleton.mp hnew]
      exact hrow
  linked := h.linked
  nodup := h.nodup

private theorem totals_kept (hcharge : ∀ runId cost, m ≠ .charge runId cost) (s : Store) :
    (m.apply s).treeSpend = s.treeSpend ∧ (m.apply s).accountSpend = s.accountSpend ∧
      ((m.apply s).runAccounts = s.runAccounts ∨ ∃ runId row accounts,
        m = .insertRow runId row accounts ∧
          (m.apply s).runAccounts = (s.addAccounts runId accounts).runAccounts) := by
  by_cases hruns : m.ofRuns = true
  · obtain ⟨runs, wake, events, signals, hshape⟩ := apply_ofRuns hruns s
    rw [hshape]
    exact ⟨rfl, rfl, .inl rfl⟩
  by_cases hmail : m.ofMail = true
  · obtain ⟨inbox, processed, deadLetters, hshape⟩ := apply_ofMail hmail s
    rw [hshape]
    exact ⟨rfl, rfl, .inl rfl⟩
  cases m with
  | charge runId cost => exact absurd rfl (hcharge runId cost)
  | insertRow runId row accounts =>
    exact ⟨rfl, rfl, .inr ⟨runId, row, accounts, rfl, rfl⟩⟩
  | accountLimit account budget =>
    refine ⟨rfl, funext fun other => ?_, .inl rfl⟩
    have hlimit := Table.tally_upsert Account.spent
      (fun row => { row with
        maxTokens := budget.maxTokens, maxCostMicros := budget.maxCostMicros
        maxTurns := budget.maxTurns }) 0 (a := {}) rfl (fun _ => (add_zero _).symm)
      s.accounts account other
    rw [ite_self, add_zero] at hlimit
    exact hlimit
  | recordSpawn | claimSignal => exact ⟨rfl, rfl, .inl rfl⟩
  | insertMail | ack | nack | forgetDeadLetter => exact absurd rfl hmail
  | _ => exact absurd rfl hruns

private theorem addAccounts_nodup (runId : RunId) (accounts : List String)
    (h : s.runAccounts.Nodup) : (s.addAccounts runId accounts).runAccounts.Nodup := by
  have hfold : ∀ (accounts : List String) (rows : List (RunId × String)), rows.Nodup →
      (accounts.foldl (fun rows account =>
        if (runId, account) ∈ rows then rows else rows ++ [(runId, account)]) rows).Nodup := by
    intro accounts
    induction accounts with
    | nil => exact fun _ hrows => hrows
    | cons account rest ih =>
      intro rows hrows
      rw [foldl_cons]
      by_cases hmem : (runId, account) ∈ rows
      · rw [if_pos hmem]
        exact ih rows hrows
      · rw [if_neg hmem]
        refine ih _ ?_
        rw [nodup_append]
        refine ⟨hrows, nodup_singleton _, ?_⟩
        rintro a ha b hb rfl
        exact hmem (mem_singleton.mp hb ▸ ha)
  exact hfold accounts s.runAccounts h

private theorem durable_kept {row : EventRow} (hdurable : row.ephemeral = false)
    (hmem : row ∈ s.events) : row ∈ (m.apply s).events := by
  cases m with
  | write env runId entry => exact mem_append_left _ hmem
  | dropLive now =>
    refine mem_filter.mpr ⟨hmem, ?_⟩
    rw [hdurable]
    rfl
  | finish env runId read how =>
    change row ∈ ((s.close env runId how).reportEnd runId read how).events
    rw [reportEnd_events]
    change row ∈ (s.append env runId how.entry).1.events
    unfold append
    split
    · exact hmem
    · exact mem_append_left _ hmem
  | _ =>
    rw [events_kept _ s (by simp) (by simp) (by simp)]
    exact hmem

private theorem books_move (h : Books s entries) (hok : m.Ok L s)
    (hcharge : ∀ runId cost, m ≠ .charge runId cost) : Books (m.apply s) entries := by
  obtain ⟨hspend, haccounts, hlinks⟩ := totals_kept hcharge s
  have hstored : ∀ runId, (s.runs.get? runId).isSome → ((m.apply s).runs.get? runId).isSome := by
    intro runId hsome
    obtain ⟨row, hrow⟩ := isSome_iff_exists.mp hsome
    obtain ⟨row', hrow', _⟩ := row_step hok hrow
    exact isSome_of_eq_some hrow'
  have htree : ∀ tree, ∀ entry ∈ entries,
      (m.apply s).inTree tree entry.1 = s.inTree tree entry.1 := by
    intro tree entry hmem
    obtain ⟨row, hrow⟩ := isSome_iff_exists.mp (h.stored entry hmem)
    obtain ⟨row', hrow', hstep⟩ := row_step hok hrow
    have hbirth := congrArg RunRow.treeId hstep.birth
    unfold inTree
    rw [hrow, hrow']
    exact congrArg (fun id => decide (id = tree)) hbirth
  have hattached : ∀ account, ∀ entry ∈ entries,
      (m.apply s).attached account entry.1 = s.attached account entry.1 := by
    intro account entry hmem
    unfold attached
    rcases hlinks with hsame | ⟨runId, row, accounts, rfl, hadded⟩
    · rw [hsame]
    · rw [hadded]
      apply decide_eq_decide.mpr
      rw [mem_addAccounts]
      constructor
      · rintro (hold | ⟨other, _, hpair⟩)
        · exact hold
        · have hrun : entry.1.runId = runId := (Prod.mk.inj hpair).1
          have hsome := h.stored entry hmem
          rw [hrun, hok.1] at hsome
          cases hsome
      · exact .inl
  refine ⟨?_, ?_, fun entry hmem => hstored _ (h.stored entry hmem),
    fun entry hmem hdurable => durable_kept hdurable (h.journal entry hmem hdurable), ?_, ?_⟩
  · intro tree
    rw [hspend, h.tree tree, total_congr (htree tree)]
  · intro account
    rw [haccounts, h.account account, total_congr (hattached account)]
  · rcases hlinks with hsame | ⟨runId, row, accounts, rfl, hadded⟩
    · rw [hsame]
      exact fun pair hpair => hstored _ (h.linked pair hpair)
    · rw [hadded]
      intro pair hpair
      rcases mem_addAccounts.mp hpair with hold | ⟨account, _, rfl⟩
      · exact hstored _ (h.linked pair hold)
      · change ((s.runs.insert runId row).get? runId).isSome
        rw [Table.get?_insert, if_pos rfl]
        rfl
  · rcases hlinks with hsame | ⟨runId, row, accounts, rfl, hadded⟩
    · rw [hsame]
      exact h.nodup
    · rw [hadded]
      exact addAccounts_nodup runId accounts h.nodup

private theorem books_moves {may : Move → Prop}
    (hmay : ∀ m, may m → ∀ runId cost, m ≠ .charge runId cost) (h : MovesBy L may s s')
    (hbooks : Books s entries) : Books s' entries :=
  Steps.invariant (P := fun t => Books t entries)
    (fun _ m ht hm => books_move ht hm.1 (hmay m hm.2)) h hbooks

private theorem no_charge_routine (h : m.routine = true) (runId : RunId) (cost : Spend) :
    m ≠ .charge runId cost := by
  rintro rfl
  cases h

theorem books_append (env : TxEnv) (entry : NewEntry) (h : Books s entries)
    (hstored : (s.runs.get? runId).isSome) :
    Books (s.append env runId entry).1 (entries ++ s.entryCost env runId entry) := by
  unfold append entryCost
  cases hdedup : s.findDedup runId entry.dedupKey with
  | some row => simpa using h
  | none =>
    have hwritten : Books (s.insertEvent env runId entry) entries :=
      books_move (L := Licence.any) (m := .write env runId entry) h
        ⟨hstored, hdedup, trivial⟩ (by simp)
    cases hspend : entry.spend with
    | none => simpa using hwritten
    | some cost =>
      have hrow : s.entryRow env runId entry ∈ (s.insertEvent env runId entry).events :=
        mem_append_right _ mem_cons_self
      exact @books_charge _ _ hwritten (s.entryRow env runId entry) cost hstored hrow

theorem books_appendAll (env : TxEnv) (news : List NewEntry) :
    ∀ {s : Store} {entries : List (EventRow × Spend)}, Books s entries →
      (s.runs.get? runId).isSome →
      Books (appendAll env runId s news).1 (entries ++ costs env runId s news) := by
  induction news with
  | nil => exact fun h _ => by simpa [appendAll, costs] using h
  | cons entry rest ih =>
    intro s entries h hstored
    have hfirst := books_append env entry h hstored
    have hrest := ih hfirst (by rwa [append_runs])
    rw [append_assoc] at hrest
    exact hrest

private abbrev Free (m : Move) : Prop := ∀ runId cost, m ≠ .charge runId cost

theorem books_exec (h : Books s entries) (hkeeps : call.op.deletes = false) :
    Books (exec call s) (entries ++ call.bills s) := by
  unfold Call.bills
  cases hrun : s.perform call.env call.op with
  | error e =>
    rw [exec_error hrun]
    simpa using h
  | ok s' =>
    rw [exec_ok hrun]
    obtain ⟨env, op⟩ := call
    cases op with
    | commit held work =>
      obtain ⟨⟨t, result⟩, hcommit, ht⟩ := bind_ok_iff.mp hrun
      cases ht
      obtain ⟨row, hrow, _, htail⟩ := @commit_tail Licence.any Free
        (fun _ hm => no_charge_routine hm) s _ env held work result
        (Licence.allows_all (fun _ => trivial) ..) trivial (fun _ _ _ _ => by simp) hcommit
      have hwritten := books_appendAll env work.entries h (isSome_of_eq_some hrow)
      have hhandled : MovesBy Licence.any Free _
          (handled (appendAll env held.runId s work.entries).1 env row.agent work) :=
        handled_moves _ env row.agent work (fun _ _ _ _ => by simp) (fun _ _ _ _ => by simp)
      exact books_moves (fun _ hm => hm) (hhandled.trans htail) hwritten
    | annotate runId news =>
      obtain ⟨⟨t, seqs⟩, hannotate, ht⟩ := bind_ok_iff.mp hrun
      cases ht
      obtain ⟨hstored, hall⟩ := annotate_ok hannotate
      have hwritten := books_appendAll env news h hstored
      rw [hall] at hwritten
      exact hwritten
    | appendEphemeral held news =>
      obtain ⟨row, hfence, ht⟩ := bind_ok_iff.mp hrun
      cases ht
      exact books_appendAll env (news.map NewEntry.live) h
        (isSome_of_eq_some (fencedRun_ok hfence).1)
    | erase | prune => cases hkeeps
    | _ =>
      rw [append_nil]
      refine books_moves ?_ (perform_asked (by rfl) hrun) h
      rintro m hasks runId cost rfl
      rcases hasks with hroutine | ⟨entry, hsupplies, _⟩
      · cases hroutine
      · cases hsupplies

private theorem deliver_spawns {delivery : Delivery} {result : DeliverResult}
    (h : s.deliver env delivery false = .ok (s', result)) :
    s'.spawns = s.spawns ∧ s'.runAccounts = s.runAccounts := by
  unfold deliver at h
  split at h
  · cases h
    exact ⟨rfl, rfl⟩
  split at h
  · cases h
    exact ⟨rfl, rfl⟩
  · cases h
    exact ⟨rfl, rfl⟩

/-- The run of an effect, if it has one, is attached to these accounts. -/
private def Attached (s : Store) (effectId : String) (accounts : List String) : Prop :=
  ∀ child, s.spawns.get? effectId = some child → ∀ account ∈ accounts, account ∈ s.accountsOf child

private theorem spawn_attached {parent : RunId} {spec : SpawnSpec} {accounts : List String}
    (h : s.spawn env parent spec = .ok (s', handle)) (hattached : Attached s effectId accounts)
    (hparent : ∀ account ∈ accounts, account ∈ s.accountsOf parent) :
    Attached s' effectId accounts ∧
      (spec.effectId = effectId → s'.spawns.get? effectId = some handle.runId) := by
  unfold spawn at h
  cases hfound : s.spawns.get? spec.effectId with
  | some run =>
    rw [hfound] at h
    cases hrun : s.runs.get? run with
    | none =>
      simp only [hrun] at h
      cases h
    | some row =>
      simp only [hrun] at h
      cases h
      exact ⟨hattached, fun hsame => hsame ▸ hfound⟩
  | none =>
    rw [hfound] at h
    obtain ⟨_, _, h⟩ := bind_ok_iff.mp h
    obtain ⟨⟨t, run⟩, hinsert, h⟩ := bind_ok_iff.mp h
    obtain ⟨⟨u, result⟩, hdeliver, h⟩ := bind_ok_iff.mp h
    cases h
    obtain ⟨_, _, rfl⟩ := insertRun_ok hinsert
    obtain ⟨hspawns, haccounts⟩ := deliver_spawns hdeliver
    have hget : ∀ other, (u.recordSpawn spec.effectId run).spawns.get? other =
        if other = spec.effectId then some run else s.spawns.get? other := by
      intro other
      change (u.spawns.insert spec.effectId run).get? other = _
      rw [hspawns]
      exact Table.get?_insert_of_none hfound
    have hlinks : ∀ child account, account ∈ (u.recordSpawn spec.effectId run).accountsOf child ↔
        account ∈ s.accountsOf child ∨
          child = run ∧ account ∈ (s.childSpec parent spec.child).accounts := by
      intro child account
      rw [mem_accountsOf, mem_accountsOf]
      change (child, account) ∈ u.runAccounts ↔ _
      rw [haccounts, mem_addAccounts]
      simp only [Prod.mk.injEq]
      constructor
      · rintro (hold | ⟨_, hmem, rfl, rfl⟩)
        · exact .inl hold
        · exact .inr ⟨rfl, hmem⟩
      · rintro (hold | ⟨rfl, hmem⟩)
        · exact .inl hold
        · exact .inr ⟨account, hmem, rfl, rfl⟩
    refine ⟨?_, fun hsame => ?_⟩
    · intro child hchild account haccount
      rw [hget] at hchild
      rw [hlinks]
      split at hchild
      · cases hchild
        refine .inr ⟨rfl, ?_⟩
        unfold childSpec
        rw [mem_eraseDups]
        exact mem_append_right _ (hparent account haccount)
      · exact .inl (hattached child hchild account haccount)
    · rw [hget, if_pos hsame.symm]

private theorem append_links (s : Store) (env : TxEnv) (runId : RunId) (entry : NewEntry) :
    (s.append env runId entry).1.spawns = s.spawns ∧
      (s.append env runId entry).1.runAccounts = s.runAccounts := by
  unfold append
  cases s.findDedup runId entry.dedupKey with
  | some row => exact ⟨rfl, rfl⟩
  | none => cases entry.spend <;> exact ⟨rfl, rfl⟩

private theorem spawnAll_attached {env : TxEnv} {parent : RunId} {effectId : String}
    {accounts : List String} (specs : List SpawnSpec) :
    ∀ {s s' : Store} {spawned : List (String × RunHandle × Nat)},
      spawnAll env parent s specs = .ok (s', spawned) → Attached s effectId accounts →
      (∀ account ∈ accounts, account ∈ s.accountsOf parent) →
      (∀ pair ∈ s.runAccounts, pair ∈ s'.runAccounts) ∧ ∀ item ∈ spawned, item.1 = effectId →
          ∀ account ∈ accounts, account ∈ s'.accountsOf item.2.1.runId := by
  induction specs with
  | nil =>
    intro s s' spawned h _ _
    cases h
    exact ⟨fun _ hpair => hpair, fun _ hmem => absurd hmem not_mem_nil⟩
  | cons spec rest ih =>
    intro s s' spawned h hattached hparent
    obtain ⟨⟨t, handle⟩, hspawn, h⟩ := bind_ok_iff.mp h
    simp only at h
    obtain ⟨⟨u, more⟩, hrest, h⟩ := bind_ok_iff.mp h
    cases h
    have hkept : ∀ pair ∈ s.runAccounts, pair ∈ t.runAccounts := by
      have hmoves : RoutineMoves Licence.any s t := spawn_moves hspawn
      exact fun pair hpair => hmoves.moves.keeps_accounts hpair
    obtain ⟨hthere, hown⟩ := spawn_attached hspawn hattached hparent
    obtain ⟨hspawns, haccounts⟩ := append_links t env parent (spawnEntry spec handle)
    have hchild : Attached (t.append env parent (spawnEntry spec handle)).1 effectId accounts := by
      intro child hchild account haccount
      rw [hspawns] at hchild
      rw [mem_accountsOf, haccounts, ← mem_accountsOf]
      exact hthere child hchild account haccount
    obtain ⟨hlater, hitems⟩ := ih hrest hchild (by
      intro account haccount
      rw [mem_accountsOf, haccounts]
      exact hkept _ (mem_accountsOf.mp (hparent account haccount)))
    rw [haccounts] at hlater
    refine ⟨fun pair hpair => hlater pair (hkept pair hpair), fun item hitem hid => ?_⟩
    rcases mem_cons.mp hitem with rfl | hmem
    · intro account haccount
      have hfound := hthere _ (hown hid) account haccount
      exact mem_accountsOf.mpr (hlater _ (mem_accountsOf.mp hfound))
    · exact hitems item hmem hid

private theorem commit_spawned (h : s.commit env held work = .ok (s', result)) :
    ∃ row t spawned, s.fencedRun held = .ok row ∧ spawnAll env held.runId
        (handled (appendAll env held.runId s work.entries).1 env row.agent work)
        work.spawns = .ok (t, spawned) ∧
      result.spawned = spawned.map (fun item => (item.1, item.2.1)) ∧
      Moves Licence.any t s' := by
  obtain ⟨row, hfence, h⟩ := bind_ok_iff.mp h
  simp only at h
  obtain ⟨⟨t, spawned⟩, hspawn, h⟩ := bind_ok_iff.mp h
  obtain ⟨⟨u, delivered⟩, hdeliver, h⟩ := bind_ok_iff.mp h
  obtain ⟨⟨v, status, resumed, last⟩, hsettle, h⟩ := bind_ok_iff.mp h
  cases h
  refine ⟨row, t, spawned, hfence, hspawn, rfl, ?_⟩
  obtain ⟨_, hkept⟩ := commit_before (L := Licence.any)
    (Licence.allows_all (fun _ => trivial) ..) hfence hspawn hdeliver
  have hdelivered : RoutineMoves Licence.any t u := deliverAll_moves _ hdeliver
  have hsignalled : MovesBy Licence.any (fun _ => True) u (u.signalAll work.signals) :=
    signalAll_moves u work.signals fun _ _ => trivial
  have hsettled : MovesBy Licence.any (fun _ => True) (u.signalAll work.signals) v :=
    settle_moves (fun _ _ => trivial) trivial hkept (current_running (fencedRun_ok hfence).2)
      hsettle
  exact hdelivered.moves.trans (hsignalled.moves.trans hsettled.moves)

theorem commit_inherits (h : s.commit env held work = .ok (s', result))
    (hspawned : (effectId, handle) ∈ result.spawned) (hnew : s.spawns.get? effectId = none) :
    ∀ account ∈ s.accountsOf held.runId, account ∈ s'.accountsOf handle.runId := by
  obtain ⟨row, t, spawned, hfence, hspawn, hreported, hmoves⟩ := commit_spawned h
  have hstored := isSome_of_eq_some (fencedRun_ok hfence).1
  have hbefore : StillMoves Licence.any s
      (handled (appendAll env held.runId s work.entries).1 env row.agent work) :=
    (appendAll_moves work.entries hstored (Licence.allows_all (fun _ => trivial) ..)).trans
      (handled_moves _ env row.agent work (fun _ _ => ⟨rfl, rfl⟩) (fun _ _ => ⟨rfl, rfl⟩))
  have hspawns : (handled (appendAll env held.runId s work.entries).1 env row.agent
      work).spawns = s.spawns := by
    have hack : ∀ t msgId, (ackOne env row.agent t msgId).spawns = t.spawns := fun _ _ => rfl
    have hnack : ∀ t failure, (nack env row.agent t failure).spawns = t.spawns := by
      intro t failure
      obtain ⟨inbox, processed, deadLetters, hshape⟩ : ∃ inbox processed deadLetters,
            nack env row.agent t failure = { t with inbox, processed, deadLetters } :=
        apply_ofMail (m := .nack env row.agent failure) rfl t
      rw [hshape]
    unfold handled ack
    rw [foldl_keeps Store.spawns hnack, foldl_keeps Store.spawns hack]
    exact appendAll_keeps Store.spawns (fun t entry => (append_links t env _ entry).1) _ s
  rw [hreported] at hspawned
  obtain ⟨item, hitem, hpair⟩ := mem_map.mp hspawned
  obtain ⟨hid, hrun⟩ := Prod.mk.inj hpair
  obtain ⟨_, hitems⟩ := @spawnAll_attached env held.runId effectId
    (s.accountsOf held.runId) work.spawns _ _ _ hspawn (fun child hchild => by
      rw [hspawns, hnew] at hchild
      cases hchild)
    (fun account haccount =>
      mem_accountsOf.mpr (hbefore.moves.keeps_accounts (mem_accountsOf.mp haccount)))
  intro account haccount
  have hthere := hitems item hitem hid account haccount
  rw [hrun] at hthere
  exact mem_accountsOf.mpr (hmoves.keeps_accounts (mem_accountsOf.mp hthere))

/-- The totals are exact: of trees and of accounts, over the entries written so
far, of which those that are not live output are in the journal. A repeated entry
adds nothing, and a child a commit spawned shares its parent's accounts. -/
structure Billing.Exact (w : Billing) : Prop where
  tree : ∀ tree, w.store.treeSpend tree = total (w.store.inTree tree) w.entries
  account : ∀ account, w.store.accountSpend account = total (w.store.attached account) w.entries
  journal : ∀ entry ∈ w.entries, entry.1.ephemeral = false → entry.1 ∈ w.store.events
  repeated : ∀ env runId (entry : NewEntry) row, w.store.findDedup runId entry.dedupKey = some row →
      w.store.append env runId entry = (w.store, row.seq) ∧ w.store.entryCost env runId entry = []
  inherits : ∀ env (held : Lease) (work : Commit) s' result,
    w.store.commit env held work = .ok (s', result) →
      ∀ effectId handle, (effectId, handle) ∈ result.spawned → w.store.spawns.get? effectId = none →
          ∀ account ∈ w.store.accountsOf held.runId, account ∈ s'.accountsOf handle.runId

abbrev Bills : Billing → Billing → Prop := Steps bill fun _ call => call.op.deletes = false

/-- In every history without `erase` and `prune`, what the tables say was spent is
what the entries cost. -/
theorem spend_exact {w : Billing} (h : Bills {} w) : w.Exact := by
  have hbooks : Books w.store w.entries := by
    refine Steps.invariant (P := fun w : Billing => Books w.store w.entries) ?_ h books_init
    exact fun w call hbooks hkeeps => books_exec hbooks hkeeps
  refine ⟨hbooks.tree, hbooks.account, hbooks.journal, ?_, ?_⟩
  · intro env runId entry row hfound
    unfold append entryCost
    rw [hfound]
    exact ⟨rfl, rfl⟩
  · intro env held work s' result hcommit effectId handle hspawned hnew
    exact commit_inherits hcommit hspawned hnew

private def modelCall (key : String) (tokens : Nat) : NewEntry where
  kind := "llm.call"
  dedupKey := some key
  spend := some { tokens, turns := 1 }

/-- A run calls a model, replays the call, and spawns a child that calls once. -/
private def spending : List Call := [⟨.plain 0, .accountLimit "a" { maxTokens := some 100 }⟩,
   ⟨.plain 0, .createRun { agent := "agent", runId := some "r", accounts := ["a"] } []⟩,
   ⟨.plain 1, .lease "w" 1 99 1⟩,
   ⟨.plain 2, .commit (firstLease "r") { entries := [modelCall "k" 7] }⟩,
   ⟨.plain 3, .commit (firstLease "r") { entries := [modelCall "k" 7]
                                         spawns := [{ effectId := "e", child := { agent := "c" }
                                                      boot := { id := "b", sender := "agent" } }] }⟩,
   ⟨.plain 4, .annotate "run-1" [modelCall "k" 5]⟩]

private theorem spending_keeps (hcall : call ∈ spending) : call.op.deletes = false := by
  simp only [spending, mem_cons, not_mem_nil, or_false] at hcall
  rcases hcall with rfl | rfl | rfl | rfl | rfl | rfl <;> rfl

private theorem spending_bills : Bills {} (spending.foldl (fun w call => bill call w) {}) :=
  Steps.foldl spending
    (fun w call hcall => @Steps.single _ _ bill _ w call (spending_keeps hcall)) _

theorem spend_exact_family :
    let w := spending.foldl (fun w call => bill call w) {}
    (w.store.treeSpend "r", w.store.treeSpend "run-1", w.store.accountSpend "a") =
        ({ tokens := 7, turns := 1 }, { tokens := 5, turns := 1 }, { tokens := 12, turns := 2 }) ∧
      w.Exact :=
  ⟨by decide, spend_exact spending_bills⟩

end Store

end Substrate
