import Substrate.Store.Erase
import Substrate.Store.Mail

/-!
Who pays for reading mail. A delivery may carry budget accounts, and a run that is created
because of it is charged to them; so are the runs it spawns.
-/

namespace Substrate.Store

open Lib List

abbrev Label := (Address × String) × List String

def labelOf (labels : List Label) (agent : Address) (msgId : String) : List String :=
  (labels.lookup (agent, msgId)).getD []

def mailAccounts (s : Store) (labels : List Label) (agent : Address) : List String :=
  (s.inboxOf agent).flatMap fun row => labelOf labels agent row.msg.id

/-- The run that `followUp` creates. -/
def followUpRun (s : Store) (env : TxEnv) (runId : RunId) (row : RunRow) : Option RunId :=
  if (s.inboxOf row.agent).isEmpty || s.hasOtherActive row.agent runId then none
  else some (s.specRunId env { agent := row.agent, tenant := row.tenant })

/-- The store, what messages were delivered with, newest first, and the accounts
that runs owe: a run created to read an agent's mail those of the mail, and a
spawned run those of its parent. -/
structure Charging where
  store : Store := init
  labels : List Label := []
  owed : List (RunId × String) := []

namespace Charging

def reads (w : Charging) (agent : Address) : Option RunId → Charging
  | none => w
  | some runId =>
    { w with
      owed := w.owed ++ (w.store.mailAccounts w.labels agent).map (runId, ·) }

def deliver (env : TxEnv) (wake : Bool) (w : Charging) (delivery : Delivery) : Charging :=
  match w.store.deliver env delivery wake with
  | .error _ => w
  | .ok (s, result) =>
    if result.accepted then
      reads
        { w with
          store := s
          labels := ((delivery.agent, delivery.msg.id), delivery.accounts) :: w.labels }
        delivery.agent result.createdRun
    else w

def inherit (w : Charging) (parent : RunId) (s : Store) : Charging where
  store := s
  labels := w.labels
  owed := w.owed ++
    (s.spawns.rows.filter fun row => (w.store.spawns.get? row.1).isNone).flatMap fun row =>
      (w.owed.filter fun pair => pair.1 = parent).map fun pair => (row.2, pair.2)

def commit (env : TxEnv) (lease : Lease) (work : Commit) (w : Charging) : Charging :=
  match w.store.fencedRun lease with
  | .error _ => w
  | .ok row =>
    match spawnAll env lease.runId
        (handled (appendAll env lease.runId w.store work.entries).1 env row.agent work)
        work.spawns with
    | .error _ => w
    | .ok (s, _) =>
      let w := work.deliveries.foldl (deliver env true) (w.inherit lease.runId s)
      match work.outcome.map (effectiveOutcome row) with
      | some (.ending .complete) =>
        let s := ((w.store.signalAll work.signals).close env lease.runId
          .complete).reportEnd lease.runId row .complete
        reads { w with store := s } row.agent (s.followUpRun env lease.runId row)
      | _ => w

/-- What a successful call adds to the labels and to what is owed. -/
def note (call : Call) (w : Charging) : Charging :=
  match call.op with
  | .createRun spec deliveries =>
    match w.store.insertRun call.env spec with
    | .error _ => w
    | .ok (s, _) => deliveries.foldl (deliver call.env false) { w with store := s }
  | .commit lease work => w.commit call.env lease work
  | .deliver delivery wake => w.deliver call.env wake delivery
  | .wakeDeliveries deliveries => deliveries.foldl (deliver call.env true) w
  | .redrive agent msgId =>
    match w.store.deadLetters.find? fun row => row.agent = agent && row.msg.id = msgId with
    | none => w
    | some letter =>
      match (w.store.forgetDeadLetter agent msgId).deliver call.env
          { agent, msg := letter.msg, tenant := letter.tenant } true with
      | .error _ => w
      | .ok (s, result) => reads { w with store := s } agent result.createdRun
  | _ => w

/-- One call. A run that is deleted owes nothing any more. -/
def step (call : Call) (w : Charging) : Charging :=
  match w.store.perform call.env call.op with
  | .error _ => w
  | .ok s =>
    { store := s
      labels := (w.note call).labels
      owed := (w.note call).owed.filter fun pair => (s.runs.get? pair.1).isSome }

def Paid (w : Charging) : Prop :=
  ∀ runId account, (runId, account) ∈ w.owed → account ∈ w.store.accountsOf runId

end Charging

theorem mem_accountsOf {s : Store} {runId : RunId} {account : String} :
    account ∈ s.accountsOf runId ↔ (runId, account) ∈ s.runAccounts := by
  simp [accountsOf, mem_filter]

theorem mem_mailAccounts {s : Store} {labels : List Label} {agent : Address} {account : String} :
    account ∈ s.mailAccounts labels agent ↔
      ∃ row ∈ s.inbox, row.agent = agent ∧ account ∈ labelOf labels agent row.msg.id := by
  simp only [mailAccounts, mem_flatMap, mem_inboxOf, and_assoc]

theorem mem_addAccounts {s : Store} {runId : RunId} {accounts : List String}
    {pair : RunId × String} :
    pair ∈ (s.addAccounts runId accounts).runAccounts ↔
      pair ∈ s.runAccounts ∨ ∃ account ∈ accounts, pair = (runId, account) := by
  have hfold : ∀ (rest : List String) (rows : List (RunId × String)),
      pair ∈ rest.foldl (fun rows account =>
        if (runId, account) ∈ rows then rows else rows ++ [(runId, account)]) rows ↔
      pair ∈ rows ∨ ∃ account ∈ rest, pair = (runId, account) := by
    intro rest
    induction rest with
    | nil => simp
    | cons first rest ih =>
      intro rows
      rw [foldl_cons, ih]
      by_cases hthere : (runId, first) ∈ rows
      · rw [if_pos hthere]
        constructor
        · rintro (hold | ⟨account, hmem, heq⟩)
          · exact Or.inl hold
          · exact Or.inr ⟨account, mem_cons_of_mem first hmem, heq⟩
        · rintro (hold | ⟨account, hmem, rfl⟩)
          · exact Or.inl hold
          · rcases mem_cons.mp hmem with rfl | hlater
            · exact Or.inl hthere
            · exact Or.inr ⟨account, hlater, rfl⟩
      · rw [if_neg hthere, mem_append, mem_singleton]
        simp only [mem_cons, exists_eq_or_imp, or_assoc]
  exact hfold accounts s.runAccounts

theorem runAccounts_kept (m : Move) (s : Store) {pair : RunId × String}
    (h : pair ∈ s.runAccounts) : pair ∈ (m.apply s).runAccounts := by
  by_cases hruns : m.ofRuns = true
  · obtain ⟨runs, wake, events, signals, hshape⟩ := apply_ofRuns hruns s
    rwa [hshape]
  by_cases hmail : m.ofMail = true
  · obtain ⟨inbox, processed, deadLetters, hshape⟩ := apply_ofMail hmail s
    rwa [hshape]
  cases m with
  | insertRow runId row accounts => exact mem_addAccounts.mpr (Or.inl h)
  | charge | recordSpawn | claimSignal | accountLimit => exact h
  | insertMail | ack | nack | forgetDeadLetter => exact absurd rfl hmail
  | _ => exact absurd rfl hruns

theorem Moves.keeps_accounts {L : Licence} {s t : Store} (h : Moves L s t)
    {pair : RunId × String} (hpair : pair ∈ s.runAccounts) : pair ∈ t.runAccounts :=
  Steps.invariant (P := fun u => pair ∈ u.runAccounts)
    (fun u m hu _ => runAccounts_kept m u hu) h hpair

theorem labelOf_cons_self (labels : List Label) (agent : Address) (msgId : String)
    (accounts : List String) :
    labelOf (((agent, msgId), accounts) :: labels) agent msgId = accounts := by
  simp [labelOf]

theorem labelOf_cons_other {labels : List Label} {agent other : Address} {msgId otherId : String}
    {accounts : List String} (hne : ¬ (agent = other ∧ msgId = otherId)) :
    labelOf (((other, otherId), accounts) :: labels) agent msgId = labelOf labels agent msgId := by
  have hkey : ((agent, msgId) == (other, otherId)) = false := by
    simpa [Prod.ext_iff] using hne
  simp [labelOf, lookup_cons, hkey]

theorem hasMail_iff {s : Store} {agent : Address} {msgId : String} :
    s.hasMail agent msgId = true ↔ ∃ row ∈ s.inbox, row.agent = agent ∧ row.msg.id = msgId := by
  simp [hasMail, any_eq_true]

namespace Charging

/-- Where a loop of waking deliveries stands that started from a store and
labels: idle agents have the mail and labels they had, and all is paid. -/
structure Standing (s : Store) (labels : List Label) (w : Charging) : Prop where
  serves : Serves s w.store
  labelled : ∀ agent msgId, ¬ w.store.HasReader agent →
    labelOf w.labels agent msgId = labelOf labels agent msgId
  paid : ∀ pair ∈ w.owed, pair ∈ w.store.runAccounts

theorem Standing.idle_mail {s : Store} {labels : List Label} {w : Charging}
    (h : Standing s labels w) {agent : Address} (hidle : ¬ w.store.HasReader agent)
    {account : String} (haccount : account ∈ w.store.mailAccounts w.labels agent) :
    account ∈ s.mailAccounts labels agent := by
  obtain ⟨row, hrow, rfl, hlabel⟩ := mem_mailAccounts.mp haccount
  rcases h.serves.mail row hrow with ⟨old, hold, hagent, _, hmsg⟩ | hreader
  · rw [h.labelled _ _ hidle, ← hmsg] at hlabel
    exact mem_mailAccounts.mpr ⟨old, hold, hagent, hlabel⟩
  · exact absurd hreader hidle

theorem mailAccounts_taken {s s' : Store} {labels : List Label} {delivery : Delivery}
    (hfresh : s.hasMail delivery.agent delivery.msg.id = false)
    (hinbox : s'.inbox = (s.insertMail delivery).inbox) {account : String}
    (haccount : account ∈ s'.mailAccounts
      (((delivery.agent, delivery.msg.id), delivery.accounts) :: labels) delivery.agent) :
    account ∈ delivery.accounts ∨ account ∈ s.mailAccounts labels delivery.agent := by
  obtain ⟨row, hrow, hagent, hlabel⟩ := mem_mailAccounts.mp haccount
  rw [hinbox] at hrow
  rcases mem_append.mp hrow with hold | hnew
  · right
    have hother : ¬ (delivery.agent = delivery.agent ∧ row.msg.id = delivery.msg.id) := by
      rintro ⟨_, hsame⟩
      rw [hasMail_iff.mpr ⟨row, hold, hagent, hsame⟩] at hfresh
      cases hfresh
    rw [labelOf_cons_other hother] at hlabel
    exact mem_mailAccounts.mpr ⟨row, hold, hagent, hlabel⟩
  · left
    rw [mem_singleton.mp hnew] at hlabel
    rwa [labelOf_cons_self] at hlabel

theorem Standing.deliver {s s' : Store} {labels : List Label} {w : Charging} {env : TxEnv}
    {delivery : Delivery} {result : DeliverResult} (h : Standing s labels w)
    (hbrings : ¬ s.HasReader delivery.agent →
      ∀ account ∈ s.mailAccounts labels delivery.agent, account ∈ delivery.accounts)
    (hrun : w.store.deliver env delivery true = .ok (s', result)) :
    (w.deliver env true delivery).store = s' ∧ Standing s labels (w.deliver env true delivery) := by
  unfold Charging.deliver
  rw [hrun]
  have hserves := deliver_serves (Or.inl rfl) hrun
  have hkept : ∀ pair ∈ w.owed, pair ∈ s'.runAccounts := fun pair hpair =>
    Moves.keeps_accounts (MovesBy.moves (deliver_moves (L := Licence.any) hrun))
      (h.paid pair hpair)
  rcases deliver_cases hrun with ⟨rfl, rfl⟩ | ⟨haccepted, hfresh, hinbox, _, hwoken, hcreated⟩
  · exact ⟨rfl, h⟩
  simp only [haccepted, if_true]
  have hlabelled : ∀ agent msgId, ¬ s'.HasReader agent →
      labelOf (((delivery.agent, delivery.msg.id), delivery.accounts) :: w.labels) agent msgId =
        labelOf labels agent msgId := by
    intro agent msgId hidle
    rw [labelOf_cons_other]
    · exact h.labelled agent msgId fun hreader => hidle (hserves.readers agent hreader)
    · rintro ⟨rfl, _⟩
      exact hidle (hwoken rfl)
  cases hnew : result.createdRun with
  | none => exact ⟨rfl, h.serves.trans hserves, hlabelled, hkept⟩
  | some runId =>
    refine ⟨rfl, h.serves.trans hserves, hlabelled, ?_⟩
    obtain ⟨hidle, hinsert⟩ := hcreated runId hnew
    obtain ⟨_, _, hstore⟩ := insertRun_ok hinsert
    intro pair hpair
    rcases mem_append.mp hpair with hold | howed
    · exact hkept pair hold
    · obtain ⟨account, haccount, rfl⟩ := mem_map.mp howed
      have hbrought : account ∈ delivery.accounts := by
        rcases mailAccounts_taken hfresh hinbox haccount with hown | hbefore
        · exact hown
        · exact hbrings (fun hreader => hidle (h.serves.readers _ hreader)) account
            (h.idle_mail hidle hbefore)
      change (runId, account) ∈ s'.runAccounts
      rw [hstore]
      exact mem_addAccounts.mpr (Or.inr ⟨account, hbrought, rfl⟩)

theorem Standing.deliverAll {s : Store} {labels : List Label} {env : TxEnv}
    (deliveries : List Delivery) : ∀ {s' : Store} {w : Charging} {results : List DeliverResult},
      Standing s labels w →
      (∀ delivery ∈ deliveries, ¬ s.HasReader delivery.agent →
        ∀ account ∈ s.mailAccounts labels delivery.agent, account ∈ delivery.accounts) →
      Store.deliverAll env w.store deliveries = .ok (s', results) →
      (deliveries.foldl (Charging.deliver env true) w).store = s' ∧
        Standing s labels (deliveries.foldl (Charging.deliver env true) w) := by
  induction deliveries with
  | nil =>
    intro s' w results h _ hrun
    cases hrun
    exact ⟨rfl, h⟩
  | cons delivery rest ih =>
    intro s' w results h hbrings hrun
    obtain ⟨⟨t, result⟩, hone, hrun⟩ := bind_ok_iff.mp hrun
    obtain ⟨⟨u, more⟩, hrest, hrun⟩ := bind_ok_iff.mp hrun
    cases hrun
    obtain ⟨hstore, hstanding⟩ := h.deliver (hbrings delivery mem_cons_self) hone
    apply ih hstanding (fun other hother => hbrings other (mem_cons_of_mem _ hother))
    rw [hstore]
    exact hrest

private theorem deliver_silent {s s' : Store} {env : TxEnv} {delivery : Delivery}
    {result : DeliverResult} (h : s.deliver env delivery false = .ok (s', result)) :
    (s' = s ∨ s' = s.insertMail delivery) ∧ result.createdRun = none := by
  unfold Store.deliver at h
  split at h
  · cases h
    exact ⟨Or.inl rfl, rfl⟩
  · split at h <;> cases h
    · exact ⟨Or.inl rfl, rfl⟩
    · exact ⟨Or.inr rfl, rfl⟩

/-- The children recorded since `s` have the accounts their parent had there. -/
def Inherited (s : Store) (parent : RunId) (t : Store) : Prop :=
  (∀ account, (parent, account) ∈ s.runAccounts → (parent, account) ∈ t.runAccounts) ∧
  ∀ effectId child, s.spawns.get? effectId = none → t.spawns.get? effectId = some child →
    ∀ account, (parent, account) ∈ s.runAccounts → (child, account) ∈ t.runAccounts

private theorem Inherited.same {s t u : Store} {parent : RunId} (h : Inherited s parent t)
    (hspawns : u.spawns = t.spawns) (haccounts : ∀ pair ∈ t.runAccounts, pair ∈ u.runAccounts) :
    Inherited s parent u := by
  refine ⟨fun account hparent => haccounts _ (h.1 account hparent), ?_⟩
  intro effectId child hnew hknown account hparent
  rw [hspawns] at hknown
  exact haccounts _ (h.2 effectId child hnew hknown account hparent)

private theorem Inherited.spawn {s t u : Store} {env : TxEnv} {parent : RunId}
    {spec : SpawnSpec} {handle : RunHandle} (h : Inherited s parent t)
    (hrun : t.spawn env parent spec = .ok (u, handle)) : Inherited s parent u := by
  have haccounts : ∀ pair ∈ t.runAccounts, pair ∈ u.runAccounts := fun pair hpair =>
    Moves.keeps_accounts (MovesBy.moves (spawn_moves (L := Licence.any) hrun)) hpair
  rcases spawn_ok hrun with rfl | ⟨hunknown, v, w, child, result, hinsert, hdeliver, rfl⟩
  · exact h
  obtain ⟨_, _, rfl⟩ := insertRun_ok hinsert
  refine ⟨fun account hparent => haccounts _ (h.1 account hparent), ?_⟩
  intro effectId other hnew hknown account hparent
  have hspawns : w.spawns = t.spawns := by
    rcases (deliver_silent hdeliver).1 with rfl | rfl <;> rfl
  change (w.spawns.insert spec.effectId child).get? effectId = some other at hknown
  rw [hspawns, Table.get?_insert_of_none hunknown] at hknown
  split at hknown
  · cases hknown
    have hchild : (child, account) ∈ ((t.insertRow child ((t.childSpec parent spec.child).row child
        env.clock)).addAccounts child (t.childSpec parent spec.child).accounts).runAccounts := by
      apply mem_addAccounts.mpr
      refine Or.inr ⟨account, ?_, rfl⟩
      apply mem_eraseDups.mpr
      exact mem_append_right _ (mem_accountsOf.mpr (h.1 account hparent))
    exact Moves.keeps_accounts (MovesBy.moves (deliver_moves (L := Licence.any) hdeliver)) hchild
  · exact haccounts _ (h.2 effectId other hnew hknown account hparent)

private theorem append_spawns (s : Store) (env : TxEnv) (runId : RunId) (entry : NewEntry) :
    (s.append env runId entry).1.spawns = s.spawns := by
  unfold append
  cases s.findDedup runId entry.dedupKey with
  | some row => rfl
  | none => cases entry.spend <;> rfl

private theorem append_accounts (s : Store) (env : TxEnv) (runId : RunId) (entry : NewEntry) :
    (s.append env runId entry).1.runAccounts = s.runAccounts := by
  unfold append
  cases s.findDedup runId entry.dedupKey with
  | some row => rfl
  | none => cases entry.spend <;> rfl

private theorem Inherited.spawnAll {s : Store} {env : TxEnv} {parent : RunId}
    (specs : List SpawnSpec) : ∀ {t u : Store} {spawned : List (String × RunHandle × Nat)},
      Inherited s parent t → spawnAll env parent t specs = .ok (u, spawned) →
      Inherited s parent u := by
  induction specs with
  | nil =>
    intro t u spawned h hrun
    cases hrun
    exact h
  | cons spec rest ih =>
    intro t u spawned h hrun
    obtain ⟨⟨v, handle⟩, hone, hrun⟩ := bind_ok_iff.mp hrun
    obtain ⟨⟨w, more⟩, hrest, hrun⟩ := bind_ok_iff.mp hrun
    cases hrun
    apply ih _ hrest
    apply (h.spawn hone).same (append_spawns ..)
    intro pair hpair
    rwa [append_accounts]

end Charging

def Op.wakes : Op → List Delivery
  | .deliver delivery true => [delivery]
  | .wakeDeliveries deliveries => deliveries
  | .commit _ work => work.deliveries
  | _ => []

namespace Charging

/-- A call creates no run to read mail whose accounts it does not bring: an idle
agent that is delivered to has no mail waiting for other accounts, a dead letter
that goes back to an idle agent was delivered with none, and so was the mail
that a completed run leaves to a follow-up. -/
structure Funded (w : Charging) (call : Call) : Prop where
  wakes : ∀ delivery ∈ call.op.wakes, ¬ w.store.HasReader delivery.agent →
    ∀ account ∈ w.store.mailAccounts w.labels delivery.agent, account ∈ delivery.accounts
  redrives : ∀ agent msgId, call.op = .redrive agent msgId → ¬ w.store.HasReader agent →
    w.store.mailAccounts w.labels agent = [] ∧ labelOf w.labels agent msgId = []
  completes : ∀ lease work row, call.op = .commit lease work →
    w.store.fencedRun lease = .ok row →
    work.outcome.map (effectiveOutcome row) = some (.ending .complete) →
      w.store.hasOtherActive row.agent lease.runId = true ∨
        work.spawns = [] ∧ work.deliveries = [] ∧
          mailAccounts (w.store.handled call.env row.agent work) w.labels row.agent = []

theorem mailAccounts_congr {s t : Store} (labels : List Label) (agent : Address)
    (h : t.inbox = s.inbox) : t.mailAccounts labels agent = s.mailAccounts labels agent := by
  unfold mailAccounts inboxOf
  rw [h]

private theorem Standing.inherit {w : Charging} {t : Store} {parent : RunId}
    (hpaid : ∀ pair ∈ w.owed, pair ∈ w.store.runAccounts) (hserves : Serves w.store t)
    (hkept : ∀ pair ∈ w.store.runAccounts, pair ∈ t.runAccounts)
    (hinherited : Inherited w.store parent t) :
    Standing w.store w.labels (w.inherit parent t) where
  serves := hserves
  labelled := fun _ _ _ => rfl
  paid := by
    intro pair hpair
    rcases mem_append.mp hpair with hold | hnew
    · exact hkept pair (hpaid pair hold)
    · obtain ⟨⟨effectId, child⟩, hrow, hpair⟩ := mem_flatMap.mp hnew
      obtain ⟨⟨runId, account⟩, hmem, rfl⟩ := mem_map.mp hpair
      obtain ⟨howed, hparent⟩ := mem_filter.mp hmem
      obtain ⟨hget, hunknown⟩ := Table.mem_filter_rows.mp hrow
      simp only [decide_eq_true_eq] at hparent
      have hown : (parent, account) ∈ w.store.runAccounts := by
        rw [← hparent]
        exact hpaid _ howed
      exact hinherited.2 effectId child (Option.isNone_iff_eq_none.mp hunknown) hget account hown

private theorem other_active_after {s t : Store} {env : TxEnv} {runId : RunId} {row : RunRow}
    {agent : Address} {work : Commit} (hmoves : StillMoves Licence.any s t)
    (hrow : (t.signalAll work.signals).runs.get? runId = some row)
    (hother : s.hasOtherActive agent runId = true) :
    (((t.signalAll work.signals).close env runId .complete).reportEnd runId row
      .complete).hasOtherActive agent runId = true := by
  obtain ⟨other, otherRow, hget, rfl, hactive, hne⟩ := hasOtherActive_iff.mp hother
  let may : Move → Prop := fun m =>
    ∀ env other read how, m = .finish env other read how → other = runId
  have hstill : MovesBy Licence.any may s t := by
    apply Steps.mono _ hmoves
    rintro u m ⟨hok, hmild, _⟩
    refine ⟨hok, ?_⟩
    rintro env other read how rfl
    cases hmild
  have hsignals : MovesBy Licence.any may t (t.signalAll work.signals) :=
    signalAll_moves t work.signals fun _ _ _ _ _ _ heq => by cases heq
  have hfinish : MovesBy Licence.any may (t.signalAll work.signals)
      (((t.signalAll work.signals).close env runId .complete).reportEnd runId row .complete) :=
    MovesBy.single (.finish env runId row .complete) ⟨row, hrow, rfl, Or.inl trivial⟩
      fun _ _ _ _ heq => by cases heq; rfl
  have honly : ∀ env other read how, may (.finish env other read how) → other = runId :=
    fun _ _ _ _ hmay => hmay _ _ _ _ rfl
  obtain ⟨new, hnew, hagent, hopen⟩ :=
    active_outlives ((hstill.trans hsignals).trans hfinish) honly hget hactive hne
  exact hasOtherActive_iff.mpr ⟨other, new, hnew, hagent, hopen, hne⟩

private theorem handled_keeps {β : Type} (view : Store → β) (env : TxEnv) (agent : Address)
    (hack : ∀ s msgId, view (ackOne env agent s msgId) = view s)
    (hnack : ∀ s failure, view (nack env agent s failure) = view s) (work : Commit) (s : Store) :
    view (s.handled env agent work) = view s :=
  (foldl_keeps view hnack work.nack (s.ack env agent work.ack)).trans
    (foldl_keeps view hack work.ack s)

private theorem nack_spawns (env : TxEnv) (agent : Address) (s : Store) (failure : Nack) :
    (nack env agent s failure).spawns = s.spawns := by
  unfold nack
  split
  · rfl
  · simp only
    split <;> rfl

private theorem signals_inbox (s : Store) (signals : List SignalSpec) :
    (s.signalAll signals).inbox = s.inbox :=
  foldl_keeps (fun t : Store => t.inbox) (fun t (spec : SignalSpec) =>
    inbox_kept (.signal spec.runId spec.name spec.payload) t (by simp) (by simp) (by simp))
    signals s

private theorem commit_inherit {w : Charging} {t : Store} {env : TxEnv} {lease : Lease}
    {work : Commit} {row : RunRow} {spawned : List (String × RunHandle × Nat)}
    (hpaid : ∀ pair ∈ w.owed, pair ∈ w.store.runAccounts)
    (hrow : w.store.runs.get? lease.runId = some row) (hrun : row.status = .running)
    (hspawn : spawnAll env lease.runId
      (handled (appendAll env lease.runId w.store work.entries).1 env row.agent work)
      work.spawns = .ok (t, spawned)) :
    Standing w.store w.labels (w.inherit lease.runId t) := by
  let first := handled (appendAll env lease.runId w.store work.entries).1 env row.agent work
  have hcalm : MovesBy Licence.any (EndsOnly fun _ => False) w.store first :=
    handled_endsOnly _ env row.agent work (Option.isSome_of_eq_some hrow)
  have hfirst : ∀ pair ∈ w.store.runAccounts, pair ∈ first.runAccounts :=
    fun pair hpair => Moves.keeps_accounts (MovesBy.moves hcalm) hpair
  have hruns : first.runs = w.store.runs :=
    (handled_keeps (·.runs) env row.agent (fun _ _ => rfl) (nack_runs env row.agent) work _).trans
      (appendAll_keeps (·.runs) (fun s => append_runs s env lease.runId) work.entries w.store)
  have hspawns : first.spawns = w.store.spawns :=
    (handled_keeps (·.spawns) env row.agent (fun _ _ => rfl) (nack_spawns env row.agent) work
      _).trans
      (appendAll_keeps (·.spawns) (fun s => append_spawns s env lease.runId) work.entries w.store)
  have hmoves : StillMoves Licence.any first t :=
    (spawnAll_moves hrun work.spawns (by rw [hruns, hrow]) hspawn).still
  have hstart : Inherited w.store lease.runId w.store :=
    ⟨fun _ hparent => hparent, fun _ _ hnew hknown => by rw [hnew] at hknown; cases hknown⟩
  apply Standing.inherit hpaid
  · exact (Serves.quiet hcalm).trans (spawnAll_serves work.spawns hspawn)
  · exact fun pair hpair => Moves.keeps_accounts (MovesBy.moves hmoves) (hfirst pair hpair)
  · exact (hstart.same hspawns hfirst).spawnAll work.spawns hspawn

private theorem followUp_paid {w : Charging} {t u : Store} {env : TxEnv} {lease : Lease}
    {work : Commit} {row : RunRow} {spawned : List (String × RunHandle × Nat)}
    {delivered : List DeliverResult} (hfunded : Funded w ⟨env, .commit lease work⟩)
    (hfence : w.store.fencedRun lease = .ok row)
    (hspawn : spawnAll env lease.runId
      (handled (appendAll env lease.runId w.store work.entries).1 env row.agent work)
      work.spawns = .ok (t, spawned))
    (hdeliver : Store.deliverAll env t work.deliveries = .ok (u, delivered))
    (hcomplete : work.outcome.map (effectiveOutcome row) = some (.ending .complete))
    {runId : RunId}
    (hfollow : followUpRun (((u.signalAll work.signals).close env lease.runId .complete).reportEnd
      lease.runId row .complete) env lease.runId row = some runId) :
    mailAccounts (((u.signalAll work.signals).close env lease.runId .complete).reportEnd
      lease.runId row .complete)
      (work.deliveries.foldl (Charging.deliver env true) (w.inherit lease.runId t)).labels
      row.agent = [] := by
  obtain ⟨hstill, hrow⟩ := commit_before (L := Licence.any)
    (Licence.allows_all (fun _ => trivial) env _ _ w.store) hfence hspawn hdeliver
  rcases hfunded.completes lease work row rfl hfence hcomplete with
    hother | ⟨hspawns, hdeliveries, hmail⟩
  · unfold followUpRun at hfollow
    rw [other_active_after hstill hrow hother, Bool.or_true] at hfollow
    cases hfollow
  · rw [hspawns] at hspawn
    cases hspawn
    rw [hdeliveries] at hdeliver ⊢
    cases hdeliver
    rw [← hmail]
    apply mailAccounts_congr
    rw [finish_inbox, signals_inbox]
    exact handled_inbox env row.agent work
      (appendAll_keeps (·.inbox) (fun t => append_inbox t env lease.runId) work.entries w.store)

private theorem commit_paid {w : Charging} {s' : Store} {env : TxEnv} {lease : Lease}
    {work : Commit} {result : CommitResult}
    (hpaid : ∀ pair ∈ w.owed, pair ∈ w.store.runAccounts)
    (hfunded : Funded w ⟨env, .commit lease work⟩)
    (h : w.store.commit env lease work = .ok (s', result)) :
    ∀ pair ∈ (w.commit env lease work).owed, pair ∈ s'.runAccounts := by
  obtain ⟨row, t, u, spawned, delivered, seqs, hfence, hspawn, hdeliver, hsettle⟩ := commit_ok h
  obtain ⟨hrow, hcurrent⟩ := fencedRun_ok hfence
  have hrun := current_running hcurrent
  have hkept := (commit_before (L := Licence.any)
    (Licence.allows_all (fun _ => trivial) env _ _ w.store) hfence hspawn hdeliver).2
  obtain ⟨hstore, hstanding⟩ := (commit_inherit hpaid hrow hrun hspawn).deliverAll
    work.deliveries hfunded.wakes hdeliver
  have hsignals : MovesBy Licence.any (fun _ => True) u (u.signalAll work.signals) :=
    signalAll_moves u work.signals fun _ _ => trivial
  have hend : MovesBy Licence.any (fun _ => True) (u.signalAll work.signals) s' :=
    settle_moves (fun _ _ => trivial) trivial hkept hrun hsettle
  have hbefore : ∀ pair ∈
      (work.deliveries.foldl (Charging.deliver env true) (w.inherit lease.runId t)).owed,
      pair ∈ s'.runAccounts := by
    intro pair hpair
    have hpaid' := hstanding.paid pair hpair
    rw [hstore] at hpaid'
    exact Moves.keeps_accounts (MovesBy.moves (hsignals.trans hend)) hpaid'
  unfold Charging.commit
  simp only [hfence, hspawn]
  split
  · rename_i hcomplete
    rw [hstore]
    cases hfollow : followUpRun (((u.signalAll work.signals).close env lease.runId
        .complete).reportEnd lease.runId row .complete) env lease.runId row with
    | none => exact hbefore
    | some runId =>
      have hnone := followUp_paid hfunded hfence hspawn hdeliver hcomplete hfollow
      intro pair hpair
      rcases mem_append.mp hpair with hold | hnew
      · exact hbefore pair hold
      · rw [hnone] at hnew
        cases hnew
  · exact hbefore

private theorem deliver_silent_owed (env : TxEnv) (w : Charging) (delivery : Delivery) :
    (w.deliver env false delivery).owed = w.owed := by
  unfold Charging.deliver
  cases hrun : w.store.deliver env delivery false with
  | error e => rfl
  | ok after =>
    obtain ⟨s, result⟩ := after
    simp only
    split
    · rw [(deliver_silent hrun).2]
      rfl
    · rfl

private theorem redrive_paid {w : Charging} {s' : Store} {env : TxEnv} {agent : Address}
    {msgId : String} {hit : Bool} (hpaid : ∀ pair ∈ w.owed, pair ∈ w.store.runAccounts)
    (hfunded : Funded w ⟨env, .redrive agent msgId⟩)
    (h : w.store.redrive env agent msgId = .ok (s', hit)) :
    ∀ pair ∈ (w.note ⟨env, .redrive agent msgId⟩).owed, pair ∈ s'.runAccounts := by
  have hmoves : MovesBy Licence.any (fun _ => True) w.store s' :=
    redrive_moves (fun _ _ => trivial) trivial h
  have hkept : ∀ pair ∈ w.owed, pair ∈ s'.runAccounts := fun pair hpair =>
    Moves.keeps_accounts hmoves.moves (hpaid pair hpair)
  unfold note
  simp only
  split
  · exact hkept
  · rename_i letter hfind
    split
    · exact hkept
    · rename_i t result hdeliver
      cases hcreated : result.createdRun with
      | none => exact hkept
      | some runId =>
        rcases deliver_cases hdeliver with ⟨_, hrefused⟩ | ⟨_, _, hinbox, _, _, hnew⟩
        · rw [hrefused] at hcreated
          cases hcreated
        · obtain ⟨hidle, _⟩ := hnew runId hcreated
          obtain ⟨hmail, hlabel⟩ := hfunded.redrives agent msgId rfl hidle
          have hid : letter.msg.id = msgId := by
            have hmatch := List.find?_some hfind
            simp only [Bool.and_eq_true, decide_eq_true_eq] at hmatch
            exact hmatch.2
          have hnone : ∀ account, account ∉ t.mailAccounts w.labels agent := by
            intro account haccount
            obtain ⟨row, hrow, hagent, hlabelled⟩ := mem_mailAccounts.mp haccount
            rw [hinbox] at hrow
            rcases mem_append.mp hrow with hold | hnew
            · have hthere := mem_mailAccounts.mpr ⟨row, hold, hagent, hlabelled⟩
              change account ∈ w.store.mailAccounts w.labels agent at hthere
              rw [hmail] at hthere
              cases hthere
            · rw [mem_singleton.mp hnew] at hlabelled
              simp only [hid, hlabel] at hlabelled
              cases hlabelled
          intro pair hpair
          rcases mem_append.mp hpair with hold | hnew
          · exact hkept pair hold
          · obtain ⟨account, haccount, _⟩ := mem_map.mp hnew
            exact absurd haccount (hnone account)

theorem paid_step {w : Charging} {call : Call}
    (hpaid : ∀ pair ∈ w.owed, pair ∈ w.store.runAccounts) (hfunded : Funded w call) :
    ∀ pair ∈ (step call w).owed, pair ∈ (step call w).store.runAccounts := by
  obtain ⟨env, op⟩ := call
  unfold step
  simp only
  cases hrun : w.store.perform env op with
  | error e => exact hpaid
  | ok s' =>
    intro pair hpair
    obtain ⟨howed, hstored⟩ := mem_filter.mp hpair
    have hkept : op.deletes = false → ∀ pair ∈ w.owed, pair ∈ s'.runAccounts :=
      fun hkeeps pair hpair => Moves.keeps_accounts
        (MovesBy.moves (perform_moves_any hkeeps hrun)) (hpaid pair hpair)
    have hstart : Standing w.store w.labels w := ⟨Serves.refl _, fun _ _ _ => rfl, hpaid⟩
    cases op with
    | createRun spec deliveries =>
      obtain ⟨⟨t, runId⟩, hcreate, hrun⟩ := bind_ok_iff.mp hrun
      cases hrun
      obtain ⟨⟨u, created⟩, hinsert, _⟩ := bind_ok_iff.mp hcreate
      unfold note at howed
      simp only [hinsert] at howed
      rw [foldl_keeps (fun w : Charging => w.owed)
        (fun w delivery => deliver_silent_owed env w delivery)] at howed
      exact hkept rfl pair howed
    | commit lease work =>
      obtain ⟨⟨t, result⟩, hcommit, hrun⟩ := bind_ok_iff.mp hrun
      cases hrun
      exact commit_paid hpaid hfunded hcommit pair howed
    | deliver delivery wake =>
      obtain ⟨⟨t, result⟩, hdeliver, hrun⟩ := bind_ok_iff.mp hrun
      cases hrun
      cases wake with
      | false =>
        change pair ∈ (w.deliver env false delivery).owed at howed
        rw [deliver_silent_owed] at howed
        exact hkept rfl pair howed
      | true =>
        obtain ⟨hstore, hstanding⟩ :=
          hstart.deliver (hfunded.wakes delivery (mem_singleton.mpr rfl)) hdeliver
        have hafter := hstanding.paid pair howed
        rwa [hstore] at hafter
    | wakeDeliveries deliveries =>
      obtain ⟨⟨t, results⟩, hdeliver, hrun⟩ := bind_ok_iff.mp hrun
      cases hrun
      obtain ⟨hstore, hstanding⟩ := hstart.deliverAll deliveries hfunded.wakes hdeliver
      have hafter := hstanding.paid pair howed
      rwa [hstore] at hafter
    | redrive agent msgId =>
      obtain ⟨⟨t, hit⟩, hredrive, hrun⟩ := bind_ok_iff.mp hrun
      cases hrun
      exact redrive_paid hpaid hfunded hredrive pair howed
    | erase tenant threadId agent channels =>
      cases hrun
      have htables := erase_tables w.store tenant threadId agent channels
      change pair ∈ (w.store.erase tenant threadId agent channels).runAccounts
      rw [htables.runAccounts, mem_filter]
      refine ⟨hpaid pair howed, ?_⟩
      change ((w.store.erase tenant threadId agent channels).runs.get? pair.1).isSome = true
        at hstored
      rw [(erase_forgets w.store tenant threadId agent channels).runs] at hstored
      unfold erases
      cases hgone : w.store.selected (eraseMatch tenant threadId agent) pair.1 with
      | false => rfl
      | true =>
        rw [hgone] at hstored
        cases hrow : w.store.runs.get? pair.1 <;> rw [hrow] at hstored <;> cases hstored
    | prune before =>
      cases hrun
      have hsame : (w.store.prune before).runAccounts = w.store.runAccounts :=
        foldl_keeps (fun s : Store => s.runAccounts)
          (fun s (row : RunId × RunRow) => (rfl : (s.dropRun row.1).runAccounts = _)) _ _
      change pair ∈ (w.store.prune before).runAccounts
      rw [hsame]
      exact hpaid pair howed
    | lease | heartbeat | requestCancel | annotate | appendEphemeral | signal | consume
    | accountLimit => exact hkept rfl pair howed

/-- Runs carry the accounts they owe, in every state reached by calls that create
no reader for mail whose accounts they do not bring: those of the mail a run was
created to read, and those of the run that spawned it. -/
theorem mail_is_paid {w : Charging} (h : Steps step Funded {} w) : Paid w := by
  have hpaid : ∀ pair ∈ w.owed, pair ∈ w.store.runAccounts := by
    refine Steps.invariant
      (P := fun w : Charging => ∀ pair ∈ w.owed, pair ∈ w.store.runAccounts)
      (fun _ _ hw hfunded => paid_step hw hfunded) h ?_
    intro pair hpair
    cases hpair
  exact fun runId account howed => mem_accountsOf.mpr (hpaid _ howed)

private def wakeMember (id : String) : Call :=
  ⟨.plain 0, .wakeDeliveries
    [{ agent := "agent", msg := { id, sender := "user" }, accounts := ["channel:c"] }]⟩

private def leaseMember : Call := ⟨.plain 0, .lease "w" 1 100 0⟩

private def spawnHelper : Call :=
  ⟨.plain 1, .commit (firstLease "run-0")
    { spawns := [{ effectId := "e", child := { agent := "helper" }
                   boot := { id := "boot", sender := "agent" } }] }⟩

private def finishMember : Call :=
  ⟨.plain 2, .commit (firstLease "run-0")
    { ack := ["m1"], outcome := some (.ending .complete) }⟩

/-- The member's run and its child are charged to the channel. -/
theorem mail_is_paid_child :
    let w := step finishMember (step spawnHelper (step leaseMember (step (wakeMember "m1") {})))
    w.owed = [("run-0", "channel:c"), ("run-1", "channel:c")] ∧ Paid w := by
  have hother : ∀ {w : Charging} {call : Call}, call.op.wakes = [] →
      (∀ agent msgId, call.op ≠ .redrive agent msgId) →
      (∀ lease work, call.op = .commit lease work → work.outcome = none) → Funded w call := by
    intro w call hwakes hredrive hcommit
    constructor
    · rw [hwakes]
      exact fun _ hmem => by cases hmem
    · exact fun agent msgId heq => absurd heq (hredrive agent msgId)
    · intro lease work row heq _ hcomplete
      rw [hcommit lease work heq] at hcomplete
      cases hcomplete
  have hwoken : Funded {} (wakeMember "m1") := by
    constructor
    · intro delivery _ _ account haccount
      cases haccount
    · exact fun _ _ heq => by cases heq
    · exact fun _ _ _ heq => by cases heq
  have hleased : Funded (step (wakeMember "m1") {}) leaseMember :=
    hother rfl (fun _ _ heq => by cases heq) fun _ _ heq => by cases heq
  have hspawned : Funded (step leaseMember (step (wakeMember "m1") {})) spawnHelper :=
    hother rfl (fun _ _ heq => by cases heq) fun _ _ heq => by cases heq; rfl
  have hfinished : Funded (step spawnHelper (step leaseMember (step (wakeMember "m1") {})))
      finishMember := by
    constructor
    · exact fun _ hmem => by cases hmem
    · exact fun _ _ heq => by cases heq
    · intro lease work row heq hfence _
      cases heq
      have hagent : ((step spawnHelper (step leaseMember (step (wakeMember "m1") {}))).store.fencedRun
          (firstLease "run-0")).toOption.map (·.agent) = some "agent" := by decide
      rw [hfence] at hagent
      have hrow : row.agent = "agent" := by simpa [Except.toOption] using hagent
      rw [hrow]
      exact Or.inr ⟨rfl, rfl, by decide⟩
  refine ⟨by decide, mail_is_paid ?_⟩
  exact (((Steps.single _ hwoken).trans (Steps.single _ hleased)).trans
    (Steps.single _ hspawned)).trans (Steps.single _ hfinished)

/-- A second message finds the member at work, and the follow-up run that reads
it is charged to nothing. -/
theorem mail_unpaid :
    let w := step finishMember (step (wakeMember "m2") (step leaseMember
      (step (wakeMember "m1") {})))
    w.owed = [("run-0", "channel:c"), ("run-1", "channel:c")] ∧ ¬ Paid w := by
  refine ⟨by decide, ?_⟩
  intro hpaid
  have hmem := hpaid "run-1" "channel:c" (by decide)
  revert hmem
  decide

end Charging

end Substrate.Store
