import Substrate.Store.Termination

/-!
Who reads an agent's mail. A run reads the inbox of its agent, so mail is read as long as
its agent has a run that has not ended. Three places see to that: a waking delivery
creates a run for an idle agent, a spawned child comes with its boot message, and a run
that completes leaves a follow-up run behind when there is mail left.
-/

namespace Substrate.Store

open Lib

def HasReader (s : Store) (agent : Address) : Prop :=
  ∃ runId row, s.runs.get? runId = some row ∧ row.agent = agent ∧ row.isActive = true

/-- An agent with mail has a run that has not ended. -/
def MailRead (s : Store) : Prop :=
  ∀ agent, s.inboxOf agent ≠ [] → s.HasReader agent

variable {s : Store} {agent : Address} {row : InboxRow} {m : Move}

theorem mem_inboxOf : row ∈ s.inboxOf agent ↔ row ∈ s.inbox ∧ row.agent = agent := by
  simp [inboxOf, List.mem_filter]

theorem hasMailFor_iff : s.inboxOf agent ≠ [] ↔ ∃ row ∈ s.inbox, row.agent = agent := by
  constructor
  · intro hmail
    obtain ⟨row, hrow⟩ := List.exists_mem_of_ne_nil _ hmail
    exact ⟨row, mem_inboxOf.mp hrow⟩
  · rintro ⟨row, hrow⟩
    exact List.ne_nil_of_mem (mem_inboxOf.mpr hrow)

theorem isActive_iff {row : RunRow} :
    row.isActive = true ↔ row.status.isTerminal = false := by
  rw [RunRow.isActive, RunStatus.isActive_eq_not_isTerminal, Bool.not_eq_true']

theorem inbox_kept (m : Move) (s : Store) (hmail : ∀ delivery, m ≠ .insertMail delivery)
    (hack : ∀ env agent msgId, m ≠ .ack env agent msgId)
    (hnack : ∀ env agent failure, m ≠ .nack env agent failure) :
    (m.apply s).inbox = s.inbox := by
  by_cases hruns : m.ofRuns = true
  · obtain ⟨runs, wake, events, signals, hshape⟩ := apply_ofRuns hruns s
    rw [hshape]
  cases m with
  | insertMail delivery => exact absurd rfl (hmail delivery)
  | ack env agent msgId => exact absurd rfl (hack env agent msgId)
  | nack env agent failure => exact absurd rfl (hnack env agent failure)
  | charge | insertRow | recordSpawn | forgetDeadLetter | claimSignal | accountLimit => rfl
  | _ => exact absurd rfl hruns

/-- Two rows of the inbox are one delivery of a message, before and after its
failures were counted. -/
def SameMail (old row : InboxRow) : Prop :=
  old.agent = row.agent ∧ old.tenant = row.tenant ∧ old.msg = row.msg

theorem SameMail.trans {a b c : InboxRow} (h : SameMail a b) (h' : SameMail b c) :
    SameMail a c :=
  ⟨h.1.trans h'.1, h.2.1.trans h'.2.1, h.2.2.trans h'.2.2⟩

theorem finish_inbox (s : Store) (env : TxEnv) (runId : RunId) (row : RunRow) (how : Ending) :
    ((s.close env runId how).reportEnd runId row how).inbox = s.inbox :=
  inbox_kept (.finish env runId row how) s (by simp) (by simp) (by simp)

theorem mem_nack_inbox {env : TxEnv} {failure : Nack} (h : row ∈ (nack env agent s failure).inbox) :
    ∃ old ∈ s.inbox, SameMail old row := by
  unfold nack at h
  split at h
  · exact ⟨row, h, rfl, rfl, rfl⟩
  simp only at h
  split at h
  · obtain ⟨old, hold, rfl⟩ := List.mem_map.mp h
    refine ⟨old, hold, ?_⟩
    split <;> exact ⟨rfl, rfl, rfl⟩
  · exact ⟨row, List.mem_of_mem_filter h, rfl, rfl, rfl⟩

theorem mail_origin (h : row ∈ (m.apply s).inbox) :
    (∃ old ∈ s.inbox, SameMail old row) ∨
      ∃ delivery, m = .insertMail delivery ∧ row.agent = delivery.agent ∧
        row.tenant = delivery.tenant ∧ row.msg = delivery.msg := by
  cases m with
  | insertMail delivery =>
    rcases List.mem_append.mp h with hold | hnew
    · exact Or.inl ⟨row, hold, rfl, rfl, rfl⟩
    · rw [List.mem_singleton.mp hnew]
      exact Or.inr ⟨delivery, rfl, rfl, rfl, rfl⟩
  | ack env agent msgId => exact Or.inl ⟨row, List.mem_of_mem_filter h, rfl, rfl, rfl⟩
  | nack env agent failure => exact Or.inl (mem_nack_inbox h)
  | _ =>
    rw [inbox_kept _ s (by simp) (by simp) (by simp)] at h
    exact Or.inl ⟨row, h, rfl, rfl, rfl⟩

theorem active_kept {L : Licence} {runId : RunId} {row : RunRow} (hok : m.Ok L s)
    (hrow : s.runs.get? runId = some row) (hactive : row.isActive = true)
    (hfinish : ∀ env read how, m ≠ .finish env runId read how) :
    ∃ row', (m.apply s).runs.get? runId = some row' ∧ row'.agent = row.agent ∧
      row'.isActive = true := by
  obtain ⟨row', hrow', hstep⟩ := row_step hok hrow
  have hagent := congrArg RunRow.agent hstep.birth
  refine ⟨row', hrow', hagent, ?_⟩
  rcases hstep.stays_open (isActive_iff.mp hactive) with hopen | ⟨env, read, how, hm⟩
  · exact isActive_iff.mpr hopen
  · exact absurd hm (hfinish env read how)

/-- No agent loses its readers, and mail comes only where there is one. -/
structure Serves (s s' : Store) : Prop where
  readers : ∀ agent, s.HasReader agent → s'.HasReader agent
  mail : ∀ row ∈ s'.inbox, (∃ old ∈ s.inbox, SameMail old row) ∨ s'.HasReader row.agent

namespace Serves

theorem refl (s : Store) : Serves s s where
  readers := fun _ h => h
  mail := fun row hrow => Or.inl ⟨row, hrow, rfl, rfl, rfl⟩

variable {s t : Store} {L : Licence}

theorem trans {u : Store} (h : Serves s t) (h' : Serves t u) :
    Serves s u where
  readers := fun agent hreader => h'.readers agent (h.readers agent hreader)
  mail := by
    intro row hrow
    rcases h'.mail row hrow with ⟨old, hold, hsame⟩ | hreader
    · rcases h.mail old hold with ⟨older, holder, hsame'⟩ | hreader
      · exact Or.inl ⟨older, holder, hsame'.trans hsame⟩
      · rw [hsame.1] at hreader
        exact Or.inr (h'.readers _ hreader)
    · exact Or.inr hreader

theorem mailRead (h : Serves s t) (hread : MailRead s) : MailRead t := by
  intro agent hmail
  obtain ⟨row, hrow, rfl⟩ := hasMailFor_iff.mp hmail
  rcases h.mail row hrow with ⟨old, hold, hagent, _⟩ | hreader
  · exact h.readers _ (hread _ (hasMailFor_iff.mpr ⟨old, hold, hagent⟩))
  · exact hreader

theorem same (hruns : t.runs = s.runs) (hinbox : t.inbox = s.inbox) :
    Serves s t where
  readers := by
    intro agent hreader
    unfold HasReader
    rwa [hruns]
  mail := by
    intro row hrow
    rw [hinbox] at hrow
    exact Or.inl ⟨row, hrow, rfl, rfl, rfl⟩

theorem move {m : Move} (hok : m.Ok L s)
    (hfinish : ∀ env runId read how, m ≠ .finish env runId read how)
    (hmail : ∀ delivery, m = .insertMail delivery → s.HasReader delivery.agent) :
    Serves s (m.apply s) := by
  have hreaders : ∀ agent, s.HasReader agent → (m.apply s).HasReader agent := by
    rintro agent ⟨runId, row, hrow, hagent, hactive⟩
    obtain ⟨row', hrow', hsame, hactive'⟩ :=
      active_kept hok hrow hactive fun env read how => hfinish env runId read how
    exact ⟨runId, row', hrow', hsame.trans hagent, hactive'⟩
  refine ⟨hreaders, ?_⟩
  intro row hrow
  rcases mail_origin hrow with hold | ⟨delivery, hm, hagent, _⟩
  · exact Or.inl hold
  · right
    rw [hagent]
    exact hreaders _ (hmail delivery hm)

theorem moves {may : Move → Prop} (h : MovesBy L may s t)
    (hmay : ∀ m, may m → (∀ env runId read how, m ≠ .finish env runId read how) ∧
      ∀ delivery, m ≠ .insertMail delivery) : Serves s t := by
  apply Steps.related (P := fun _ => True) refl (fun _ _ _ => trans) (fun _ _ _ _ => trivial)
    _ h trivial
  rintro u m _ ⟨hok, hm⟩
  exact move hok (hmay m hm).1 fun delivery heq => absurd heq ((hmay m hm).2 delivery)

theorem quiet (h : MovesBy L (EndsOnly fun _ => False) s t) : Serves s t := by
  apply moves h
  intro m hm
  constructor
  · rintro env runId read how rfl
    exact hm.elim
  · rintro delivery rfl
    exact hm.elim

end Serves

variable {α : Type} {s s' t : Store} {agent : Address} {runId parent : RunId} {row : RunRow}
    {env : TxEnv} {spec : RunSpec} {delivery : Delivery} {wake cascade : Bool}
    {result : DeliverResult} {ended : RunId → Prop} {lease : Lease} {work : Commit}

private theorem foldl_pick {pick : Option α → α → Option α}
    (hpick : ∀ best a, pick best a = best ∨ pick best a = some a) (items : List α) :
    ∀ {best : Option α} {a : α}, items.foldl pick best = some a → best = some a ∨ a ∈ items := by
  induction items with
  | nil => exact fun h => Or.inl h
  | cons first rest ih =>
    intro best a h
    rcases ih h with hfirst | hrest
    · rcases hpick best first with hkept | htaken
      · exact Or.inl (hkept.symm.trans hfirst)
      · rw [htaken] at hfirst
        cases hfirst
        exact Or.inr List.mem_cons_self
    · exact Or.inr (List.mem_cons_of_mem first hrest)

theorem latestActive_spec (h : s.latestActive agent = some (runId, row)) :
    s.runs.get? runId = some row ∧ row.agent = agent ∧ row.isActive = true := by
  unfold latestActive at h
  have hpicked := foldl_pick (fun best row => by
    cases best with
    | none => exact Or.inr rfl
    | some top =>
      simp only
      split
      · exact Or.inr rfl
      · exact Or.inl rfl) _ h
  rcases hpicked with hnone | hmem
  · cases hnone
  · obtain ⟨hget, hselect⟩ := Table.mem_filter_rows.mp hmem
    simp only [Bool.and_eq_true, decide_eq_true_eq] at hselect
    exact ⟨hget, hselect⟩

private theorem foldl_isSome {pick : Option α → α → Option α}
    (hpick : ∀ best a, (pick best a).isSome) (items : List α) :
    ∀ (best : Option α), items ≠ [] → (items.foldl pick best).isSome := by
  induction items with
  | nil => exact fun _ hne => absurd rfl hne
  | cons first rest ih =>
    intro best _
    cases rest with
    | nil => exact hpick best first
    | cons second rest => exact ih _ (List.cons_ne_nil second rest)

theorem latestActive_none (h : s.latestActive agent = none) : ¬ s.HasReader agent := by
  rintro ⟨runId, row, hrow, hagent, hactive⟩
  have hmem : (runId, row) ∈ s.runs.rows.filter fun row =>
      row.2.agent = agent && row.2.isActive :=
    Table.mem_filter_rows.mpr ⟨hrow, by simp [hagent, hactive]⟩
  rw [latestActive, ← Option.not_isSome_iff_eq_none] at h
  apply h
  apply foldl_isSome _ _ none (List.ne_nil_of_mem hmem)
  intro best row
  cases best with
  | none => rfl
  | some top =>
    simp only
    split <;> rfl

theorem insertRun_serves (h : s.insertRun env spec = .ok (s', runId)) :
    Serves s s' ∧ s'.inbox = s.inbox ∧ s'.HasReader spec.agent := by
  obtain ⟨hfree, _, rfl⟩ := insertRun_ok h
  have hrow : Serves s ((s.insertRow runId (spec.row runId env.clock)).addAccounts runId
      spec.accounts) :=
    Serves.move (L := Licence.any) (m := .insertRow runId (spec.row runId env.clock) spec.accounts)
      ⟨hfree, spec, env.clock, rfl⟩ (by simp) (by simp)
  refine ⟨hrow, rfl, runId, spec.row runId env.clock, ?_, rfl, rfl⟩
  change (s.runs.insert runId _).get? runId = _
  rw [Table.get?_insert_of_none hfree, if_pos rfl]

theorem deliver_cases (h : s.deliver env delivery wake = .ok (s', result)) :
    (s' = s ∧ result = { accepted := false }) ∨
      (result.accepted = true ∧ s.hasMail delivery.agent delivery.msg.id = false ∧
        s'.inbox = (s.insertMail delivery).inbox ∧ Serves (s.insertMail delivery) s' ∧
        (wake = true → s'.HasReader delivery.agent) ∧
        ∀ runId, result.createdRun = some runId → ¬ s.HasReader delivery.agent ∧
          (s.insertMail delivery).insertRun env delivery.wakeSpec = .ok (s', runId)) := by
  unfold deliver at h
  by_cases hmail : s.hasMail delivery.agent delivery.msg.id = true
  · rw [if_pos hmail] at h
    cases h
    exact Or.inl ⟨rfl, rfl⟩
  by_cases hdone : (s.processed.get? (delivery.agent, delivery.msg.id)).isSome = true
  · rw [if_neg hmail, if_pos hdone] at h
    cases h
    exact Or.inl ⟨rfl, rfl⟩
  rw [if_neg hmail, if_neg hdone] at h
  right
  have hfresh : s.hasMail delivery.agent delivery.msg.id = false := by simpa using hmail
  cases wake with
  | false =>
    cases h
    exact ⟨rfl, hfresh, rfl, Serves.refl _, fun hwake => (by cases hwake),
      fun _ hnone => (by cases hnone)⟩
  | true =>
    simp only [if_true] at h
    unfold wakeAgent at h
    cases hactive : (s.insertMail delivery).latestActive delivery.agent with
    | none =>
      rw [hactive] at h
      obtain ⟨⟨t, runId⟩, hinsert, hrest⟩ := bind_ok_iff.mp h
      cases hrest
      obtain ⟨hserves, hinbox, hread⟩ := insertRun_serves hinsert
      refine ⟨rfl, hfresh, hinbox, hserves, fun _ => hread, ?_⟩
      rintro other hcreated
      cases hcreated
      exact ⟨latestActive_none hactive, hinsert⟩
    | some top =>
      obtain ⟨runId, row⟩ := top
      obtain ⟨hrow, hagent, hopen⟩ := latestActive_spec hactive
      have hread : (s.insertMail delivery).HasReader delivery.agent :=
        ⟨runId, row, hrow, hagent, hopen⟩
      rw [hactive] at h
      by_cases hasleep : row.status = .suspended
      · simp only [hasleep, if_true] at h
        cases h
        have hqueue : Serves (s.insertMail delivery)
            ((s.insertMail delivery).makePending runId) :=
          Serves.move (L := Licence.any) (m := .makePending runId) trivial (by simp) (by simp)
        exact ⟨rfl, hfresh, rfl, hqueue, fun _ => hqueue.readers _ hread,
          fun _ hnone => (by cases hnone)⟩
      · simp only [hasleep, if_false] at h
        cases h
        exact ⟨rfl, hfresh, rfl, Serves.refl _, fun _ => hread,
          fun _ hnone => (by cases hnone)⟩

theorem deliver_serves (hreader : wake = true ∨ s.HasReader delivery.agent)
    (h : s.deliver env delivery wake = .ok (s', result)) : Serves s s' := by
  rcases deliver_cases h with ⟨rfl, _⟩ | ⟨_, _, _, hserves, hwoken, _⟩
  · exact Serves.refl s'
  have hread : s'.HasReader delivery.agent := by
    rcases hreader with hwake | hread
    · exact hwoken hwake
    · exact hserves.readers _ hread
  refine ⟨fun agent hbefore => hserves.readers agent hbefore, ?_⟩
  intro row hrow
  rcases hserves.mail row hrow with ⟨old, hold, hsame⟩ | hthere
  · rcases List.mem_append.mp hold with hold | hnew
    · exact Or.inl ⟨old, hold, hsame⟩
    · right
      rw [← hsame.1, List.mem_singleton.mp hnew]
      exact hread
  · exact Or.inr hthere

theorem deliverAll_serves (deliveries : List Delivery) :
    ∀ {s s' : Store} {results : List DeliverResult},
      deliverAll env s deliveries = .ok (s', results) → Serves s s' := by
  induction deliveries with
  | nil =>
    intro s s' results h
    cases h
    exact Serves.refl s
  | cons delivery rest ih =>
    intro s s' results h
    obtain ⟨⟨t, result⟩, hdeliver, h⟩ := bind_ok_iff.mp h
    obtain ⟨⟨u, more⟩, hrest, h⟩ := bind_ok_iff.mp h
    cases h
    exact (deliver_serves (Or.inl rfl) hdeliver).trans (ih hrest)

theorem spawn_serves {spec : SpawnSpec} {handle : RunHandle}
    (h : s.spawn env parent spec = .ok (s', handle)) : Serves s s' := by
  rcases spawn_ok h with rfl | ⟨_, t, u, child, result, hinsert, hdeliver, rfl⟩
  · exact Serves.refl s'
  · obtain ⟨hserves, _, hread⟩ := insertRun_serves hinsert
    exact (hserves.trans (deliver_serves (Or.inr hread) hdeliver)).trans (Serves.same rfl rfl)

theorem append_inbox (s : Store) (env : TxEnv) (runId : RunId) (entry : NewEntry) :
    (s.append env runId entry).1.inbox = s.inbox := by
  unfold append
  cases s.findDedup runId entry.dedupKey with
  | some row => rfl
  | none => cases entry.spend <;> rfl

theorem spawnAll_serves (specs : List SpawnSpec) :
    ∀ {s s' : Store} {spawned : List (String × RunHandle × Nat)},
      spawnAll env parent s specs = .ok (s', spawned) → Serves s s' := by
  induction specs with
  | nil =>
    intro s s' spawned h
    cases h
    exact Serves.refl s
  | cons spec rest ih =>
    intro s s' spawned h
    obtain ⟨⟨t, handle⟩, hspawn, h⟩ := bind_ok_iff.mp h
    obtain ⟨⟨u, more⟩, hrest, h⟩ := bind_ok_iff.mp h
    cases h
    have hentry : Serves t (t.append env parent (spawnEntry spec handle)).1 :=
      Serves.same (append_runs ..) (append_inbox ..)
    exact ((spawn_serves hspawn).trans hentry).trans (ih hrest)

theorem active_outlives {L : Licence} {may : Move → Prop} (h : MovesBy L may s t)
    (hmay : ∀ env runId read how, may (.finish env runId read how) → ended runId)
    (hrow : s.runs.get? runId = some row) (hactive : row.isActive = true) (hout : ¬ ended runId) :
    ∃ row', t.runs.get? runId = some row' ∧ row'.agent = row.agent ∧ row'.isActive = true := by
  apply Steps.invariant (P := fun u => ∃ row', u.runs.get? runId = some row' ∧
    row'.agent = row.agent ∧ row'.isActive = true) _ h ⟨row, hrow, rfl, hactive⟩
  rintro u m ⟨old, hold, hagent, hopen⟩ ⟨hok, hm⟩
  obtain ⟨new, hnew, hsame, hopen'⟩ := active_kept hok hold hopen (by
    rintro env read how rfl
    exact hout (hmay env runId read how hm))
  exact ⟨new, hnew, hsame.trans hagent, hopen'⟩

theorem hasOtherActive_iff {except : RunId} :
    s.hasOtherActive agent except = true ↔
      ∃ runId row, s.runs.get? runId = some row ∧ row.agent = agent ∧ row.isActive = true ∧
        runId ≠ except := by
  unfold hasOtherActive
  rw [List.any_eq_true]
  constructor
  · rintro ⟨⟨runId, row⟩, hmem, hselect⟩
    simp only [Bool.and_eq_true, decide_eq_true_eq] at hselect
    exact ⟨runId, row, Table.mem_rows_iff.mp hmem, hselect.1.1, hselect.1.2, hselect.2⟩
  · rintro ⟨runId, row, hrow, hagent, hactive, hne⟩
    exact ⟨(runId, row), Table.mem_rows_iff.mpr hrow, by simp [hagent, hactive, hne]⟩

theorem complete_mailRead (hread : MailRead s) (hrow : s.runs.get? runId = some row)
    (h : s.terminate env runId row .complete = .ok s') : MailRead s' := by
  have hok : (Move.finish env runId row .complete).Ok Licence.any s :=
    ⟨row, hrow, rfl, Or.inl trivial⟩
  have hinbox := finish_inbox s env runId row .complete
  have hothers : ∀ agent, agent ≠ row.agent → s.inboxOf agent ≠ [] →
      ((s.close env runId .complete).reportEnd runId row .complete).HasReader agent := by
    intro agent hne hmail
    obtain ⟨other, otherRow, hother, hagent, hactive⟩ := hread agent hmail
    have hfinish : ∀ env' read how,
        Move.finish env runId row .complete ≠ .finish env' other read how := by
      intro env' read how heq
      cases heq
      rw [hrow] at hother
      cases hother
      exact hne hagent.symm
    obtain ⟨new, hnew, hsame, hopen⟩ := active_kept hok hother hactive hfinish
    exact ⟨other, new, hnew, hsame.trans hagent, hopen⟩
  change Store.followUp ((s.close env runId .complete).reportEnd runId row .complete) env runId
    row = .ok s' at h
  have hmail : ∀ agent, Store.inboxOf ((s.close env runId .complete).reportEnd runId row
      .complete) agent = s.inboxOf agent := by
    intro agent
    exact congrArg (List.filter fun row : InboxRow => row.agent = agent) hinbox
  unfold followUp at h
  split at h
  · rename_i hnone
    cases h
    intro agent hleft
    rw [hmail] at hleft
    by_cases hsame : agent = row.agent
    · subst hsame
      rw [hmail, Bool.or_eq_true, List.isEmpty_iff] at hnone
      rcases hnone with hempty | hother
      · exact absurd hempty hleft
      · obtain ⟨other, otherRow, hget, hagent, hactive, _⟩ := hasOtherActive_iff.mp hother
        exact ⟨other, otherRow, hget, hagent, hactive⟩
    · exact hothers agent hsame hleft
  · obtain ⟨⟨t, created⟩, hinsert, h⟩ := bind_ok_iff.mp h
    cases h
    obtain ⟨hserves, hsame, hreader⟩ := insertRun_serves hinsert
    intro agent hleft
    rw [inboxOf, hsame] at hleft
    by_cases hagent : agent = row.agent
    · rwa [hagent]
    · exact hserves.readers agent (hothers agent hagent (by rwa [← hmail]))

theorem inboxOf_shrinks (h : MovesBy Licence.any (EndsOnly ended) s t) (agent : Address)
    (hmail : t.inboxOf agent ≠ []) : s.inboxOf agent ≠ [] := by
  apply Steps.invariant (P := fun u => Store.inboxOf u agent ≠ [] → s.inboxOf agent ≠ []) _ h
    id hmail
  rintro u m hu ⟨_, hkind⟩ hafter
  apply hu
  obtain ⟨row, hrow, hagent⟩ := hasMailFor_iff.mp hafter
  rcases mail_origin hrow with ⟨old, hold, hsame, _⟩ | ⟨delivery, rfl, _⟩
  · exact hasMailFor_iff.mpr ⟨old, hold, hsame.trans hagent⟩
  · exact hkind.elim

theorem stopped_mailRead {left : Address → List InboxRow} (hread : MailRead s)
    (h : MovesBy Licence.any (EndsOnly ended) s t)
    (hleft : ∀ agent, t.inboxOf agent ≠ [] → left agent ≠ [])
    (hcond : ∀ runId row, ended runId → s.runs.get? runId = some row →
      left row.agent = [] ∨ ∃ other otherRow, s.runs.get? other = some otherRow ∧
        otherRow.agent = row.agent ∧ otherRow.isActive = true ∧ ¬ ended other) : MailRead t := by
  have hfinish : ∀ env runId read how, EndsOnly ended (.finish env runId read how) →
      ended runId := fun _ _ _ _ hends => hends
  intro agent hmail
  have hbefore := inboxOf_shrinks h agent hmail
  obtain ⟨runId, row, hrow, rfl, hactive⟩ := hread agent hbefore
  by_cases hended : ended runId
  · rcases hcond runId row hended hrow with hempty | ⟨other, otherRow, hget, hagent, hopen, hout⟩
    · exact absurd hempty (hleft _ hmail)
    · obtain ⟨new, hnew, hsame, hopen'⟩ := active_outlives h hfinish hget hopen hout
      exact ⟨other, new, hnew, hsame.trans hagent, hopen'⟩
  · obtain ⟨new, hnew, hsame, hopen⟩ := active_outlives h hfinish hrow hactive hended
    exact ⟨runId, new, hnew, hsame, hopen⟩

def Descends (s : Store) : RunId → RunId → Prop :=
  Relation.ReflTransGen fun parent child =>
    ∃ row, s.runs.get? child = some row ∧ row.parentRunId = some parent

/-- The state in which a call ends the runs it ends: for the deadline sweep, the
one with expired leases reclaimed and due timers fired. -/
def Op.seen (env : TxEnv) (s : Store) : Op → Store
  | .lease _ _ _ now => (s.reclaim now).wakeTimers env now
  | _ => s

/-- The runs a call itself ends without completing them. -/
def Op.Strikes (env : TxEnv) (s : Store) (op : Op) (runId : RunId) : Prop :=
  match op with
  | .commit held work =>
    runId = held.runId ∧ ∃ row outcome how, s.runs.get? runId = some row ∧
      held.current row = true ∧ work.outcome = some outcome ∧
      effectiveOutcome row outcome = .ending how ∧ how.status ≠ .completed
  | .requestCancel root _ cascade =>
    (runId = root ∨ cascade = true ∧ s.Descends root runId) ∧
      ∃ row, s.runs.get? runId = some row ∧ row.isWaiting = true
  | .lease _ _ _ now =>
    ∃ row, (op.seen env s).runs.get? runId = some row ∧ row.overdue now = true
  | _ => False

/-- The runs a call ends without completing them, with those below them. -/
def Op.Stops (env : TxEnv) (s : Store) (op : Op) (runId : RunId) : Prop :=
  op.Strikes env s runId ∨
    ∃ root, op.Strikes env s root ∧ Below (op.seen env s) root runId

/-- The mail a call leaves in an inbox. -/
def Op.left (env : TxEnv) (s : Store) (op : Op) (agent : Address) : List InboxRow :=
  match op with
  | .commit held work =>
    match s.runs.get? held.runId with
    | some row => (s.handled env row.agent work).inboxOf agent
    | none => s.inboxOf agent
  | _ => s.inboxOf agent

/-- The calls that neither delete runs nor deliver silently, as the runtime
makes them: a run is created with mail of its own agent, and a commit that stops
its run spawns and delivers nothing. -/
def Op.Ordinary (env : TxEnv) (s : Store) : Op → Prop
  | .createRun spec deliveries => ∀ delivery ∈ deliveries, delivery.agent = spec.agent
  | .commit held work => (∃ runId, (Op.commit held work).Strikes env s runId) →
      work.spawns = [] ∧ work.deliveries = []
  | .deliver _ wake => wake = true
  | .erase .. | .prune .. => False
  | _ => True

/-- Each agent that loses a run to a call has no mail left, or keeps another
run. -/
def Relieved (s : Store) (call : Call) : Prop :=
  ∀ runId row, call.op.Stops call.env s runId →
    (call.op.seen call.env s).runs.get? runId = some row →
      call.op.left call.env s row.agent = [] ∨
        ∃ other otherRow, (call.op.seen call.env s).runs.get? other = some otherRow ∧
          otherRow.agent = row.agent ∧ otherRow.isActive = true ∧
          ¬ call.op.Stops call.env s other

theorem stops_closed (env : TxEnv) (s : Store) (op : Op) :
    Closed (op.seen env s) (op.Stops env s) := by
  rintro parent child (hstruck | ⟨root, hstruck, hbelow⟩) hchild
  · exact Or.inr ⟨parent, hstruck, Relation.TransGen.single hchild⟩
  · exact Or.inr ⟨root, hstruck, Relation.TransGen.tail hbelow hchild⟩

private theorem createRun_mailRead {deliveries : List Delivery} (hread : MailRead s)
    (hown : ∀ delivery ∈ deliveries, delivery.agent = spec.agent)
    (h : s.createRun env spec deliveries = .ok (s', runId)) : MailRead s' := by
  obtain ⟨⟨t, created⟩, hinsert, h⟩ := bind_ok_iff.mp h
  obtain ⟨u, hdeliver, h⟩ := bind_ok_iff.mp h
  cases h
  obtain ⟨hserves, _, hreader⟩ := insertRun_serves hinsert
  have hall : ∀ (rest : List Delivery) {t u : Store},
      (∀ delivery ∈ rest, delivery.agent = spec.agent) → t.HasReader spec.agent →
      rest.foldlM (fun s delivery => return (← s.deliver env delivery false).1) t =
        Except.ok (ε := StoreError) u → Serves t u := by
    intro rest
    induction rest with
    | nil =>
      intro t u _ _ h
      cases h
      exact Serves.refl t
    | cons delivery rest ih =>
      intro t u hrest hreader h
      rw [List.foldlM_cons] at h
      obtain ⟨v, hone, h⟩ := bind_ok_iff.mp h
      obtain ⟨⟨w, result⟩, hfirst, hone⟩ := bind_ok_iff.mp hone
      cases hone
      have hfirst' : Serves t w := by
        apply deliver_serves (Or.inr _) hfirst
        rwa [hrest delivery List.mem_cons_self]
      exact hfirst'.trans (ih (fun other hother => hrest other
        (List.mem_cons_of_mem delivery hother)) (hfirst'.readers _ hreader) h)
  exact (hserves.trans (hall deliveries hown hreader hdeliver)).mailRead hread

private theorem sweep_endsOnly (hclosed : Closed s ended) (rows : List (RunId × RunRow)) :
    ∀ {t t' : Store}, Cascade s ended t →
      (∀ row ∈ rows, s.runs.get? row.1 = some row.2 ∧ ended row.1) →
      rows.foldlM (fun s row => s.terminate env row.1 row.2 (.fail deadlineError)) t = .ok t' →
      MovesBy Licence.any (EndsOnly ended) t t' := by
  induction rows with
  | nil =>
    intro t t' _ _ h
    cases h
    exact Steps.refl t
  | cons row rest ih =>
    intro t t' hcascade hread h
    rw [List.foldlM_cons] at h
    obtain ⟨u, hfirst, hrest⟩ := bind_ok_iff.mp h
    obtain ⟨hrow, hin⟩ := hread row List.mem_cons_self
    obtain ⟨now, hnow, hbirth⟩ := hcascade.births row.1 row.2 hrow
    have hstop : MovesBy Licence.any (EndsOnly ended) t u := by
      cases hfirst
      exact endsOnly_stop hclosed hcascade hin hnow hbirth
    apply hstop.trans
    apply ih (hcascade.moves hstop) _ hrest
    exact fun other hother => hread other (List.mem_cons_of_mem row hother)

private theorem lease_mailRead {worker : String} {capacity : Int} {leaseFor now : Time}
    {leases : List Lease} (hread : MailRead s)
    (hrelieved : Relieved s ⟨env, .lease worker capacity leaseFor now⟩)
    (h : s.lease env worker capacity leaseFor now = .ok (s', leases)) : MailRead s' := by
  let op := Op.lease worker capacity leaseFor now
  let seen := (s.reclaim now).wakeTimers env now
  have hqueue : ∀ m : Move, (∃ runId, m = .makePending runId) →
      (∀ env runId read how, m ≠ .finish env runId read how) ∧
        ∀ delivery, m ≠ .insertMail delivery := by
    rintro m ⟨runId, rfl⟩
    exact ⟨by simp, by simp⟩
  have hreclaim : Serves s (s.reclaim now) :=
    Serves.move (L := Licence.any) (m := .reclaim now) trivial (by simp) (by simp)
  have hwoken : Serves (s.reclaim now) seen :=
    Serves.moves (Steps.foldl _ (fun t row _ =>
      (MovesBy.single (.makePending row.1) trivial ⟨row.1, rfl⟩ :
        MovesBy Licence.any (fun m => ∃ runId, m = .makePending runId) t _)) _) hqueue
  have hinbox : seen.inbox = s.inbox :=
    foldl_keeps (fun t : Store => t.inbox) (fun (t : Store) (row : RunId × RunRow) =>
      (rfl : (t.makePending row.1).inbox = t.inbox)) _ (s.reclaim now)
  obtain ⟨t, hswept, h⟩ := bind_ok_iff.mp h
  have hends : MovesBy Licence.any (EndsOnly (op.Stops env s)) seen t := by
    apply sweep_endsOnly (stops_closed env s op) _ (cascade_refl seen _) _ hswept
    intro row hrow
    obtain ⟨hget, hoverdue⟩ := mem_selectRuns.mp hrow
    exact ⟨hget, Or.inl ⟨row.2, hget, hoverdue⟩⟩
  have hmail : ∀ agent, t.inboxOf agent ≠ [] → s.inboxOf agent ≠ [] := by
    intro agent hafter
    have hbefore := inboxOf_shrinks hends agent hafter
    rwa [inboxOf, hinbox] at hbefore
  have hstopped : MailRead t :=
    stopped_mailRead ((hreclaim.trans hwoken).mailRead hread) hends hmail hrelieved
  have hlive : MailRead (t.dropLive now) := Serves.mailRead (Serves.same rfl rfl) hstopped
  by_cases hcapacity : capacity ≤ 0
  · rw [if_pos hcapacity] at h
    cases h
    exact hlive
  · rw [if_neg hcapacity] at h
    injection h with h
    have hclaims : MovesBy Licence.any (fun m => ∃ runId, m = .claim worker (now + leaseFor)
        now runId) (t.dropLive now) (claimRuns env worker (now + leaseFor) now
          (t.dropLive now) ((t.dropLive now).candidates capacity)).1 :=
      claimRuns_moves (fun runId => ⟨runId, rfl⟩) _ (candidates_nodup (t.dropLive now) capacity)
        fun runId => mem_candidates
    rw [h] at hclaims
    apply Serves.mailRead _ hlive
    apply Serves.moves hclaims
    rintro m ⟨runId, rfl⟩
    exact ⟨by simp, by simp⟩

theorem mem_cancelOrder (turns : Nat) :
    ∀ {frontier order : List RunId}, s.cancelOrder env cascade turns frontier = some order →
      ∀ runId ∈ order, ∃ root ∈ frontier,
        runId = root ∨ cascade = true ∧ s.Descends root runId := by
  induction turns with
  | zero =>
    intro frontier order h runId hmem
    cases frontier with
    | nil =>
      cases h
      cases hmem
    | cons current rest => cases h
  | succ turns ih =>
    intro frontier order h runId hmem
    cases frontier with
    | nil =>
      cases h
      cases hmem
    | cons current rest =>
      obtain ⟨more, hmore, rfl⟩ := Option.map_eq_some_iff.mp h
      rcases List.mem_cons.mp hmem with rfl | hlater
      · exact ⟨runId, List.mem_cons_self, Or.inl rfl⟩
      · obtain ⟨root, hroot, hbelow⟩ := ih hmore runId hlater
        rcases List.mem_append.mp hroot with hrest | hchild
        · exact ⟨root, List.mem_cons_of_mem current hrest, hbelow⟩
        · cases cascade with
          | false => cases hchild
          | true =>
            obtain ⟨⟨child, row⟩, hselect, rfl⟩ := List.mem_map.mp hchild
            obtain ⟨hget, hparent⟩ := mem_selectRuns.mp hselect
            have hedge : s.Descends current child :=
              Relation.ReflTransGen.single ⟨row, hget, by simpa using hparent⟩
            refine ⟨current, List.mem_cons_self, Or.inr ⟨rfl, ?_⟩⟩
            rcases hbelow with rfl | ⟨_, hdescends⟩
            · exact hedge
            · exact Relation.ReflTransGen.trans hedge hdescends

private theorem cancelAll_endsOnly (hclosed : Closed s ended) (env : TxEnv) (reason : String)
    (runIds : List RunId) :
    ∀ {t : Store}, Cascade s ended t →
      (∀ runId ∈ runIds, ∀ row, s.runs.get? runId = some row → row.isWaiting = true →
        ended runId) →
      MovesBy Licence.any (EndsOnly ended) t (cancelAll env reason t runIds).1 := by
  induction runIds with
  | nil => exact fun {t} _ _ => Steps.refl t
  | cons runId rest ih =>
    intro t hcascade hin
    have hfirst : MovesBy Licence.any (EndsOnly ended) t
        (cancelOne env t.cascadeTurns t runId reason).1 := by
      apply endsOnly_cancelOne hclosed env _ runId reason hcascade
      intro row hrow hwaiting
      obtain ⟨old, hold, hwas, _⟩ := hcascade.shrinks runId row hrow hwaiting
      exact hin runId List.mem_cons_self old hold hwas
    exact hfirst.trans (ih (hcascade.moves hfirst) fun other hother =>
      hin other (List.mem_cons_of_mem runId hother))

private theorem requestCancel_mailRead {reason : String} {affected : List RunId}
    (hread : MailRead s) (hrelieved : Relieved s ⟨env, .requestCancel runId reason cascade⟩)
    (h : s.requestCancel env runId reason cascade = .ok (s', affected)) : MailRead s' := by
  unfold requestCancel at h
  cases horder : s.cancelOrder env cascade env.turns [runId] with
  | none =>
    rw [horder] at h
    cases h
  | some order =>
    rw [horder] at h
    injection h with h
    have hends := cancelAll_endsOnly
      (stops_closed env s (.requestCancel runId reason cascade)) env reason order.reverse
      (cascade_refl s _) (by
        intro other hother row hrow hwaiting
        obtain ⟨root, hroot, hbelow⟩ :=
          mem_cancelOrder _ horder other (List.mem_reverse.mp hother)
        rw [List.mem_singleton] at hroot
        subst hroot
        exact Or.inl ⟨hbelow, row, hrow, hwaiting⟩)
    rw [h] at hends
    exact stopped_mailRead hread hends (inboxOf_shrinks hends) hrelieved

theorem handled_inbox (env : TxEnv) (agent : Address) (work : Commit) (h : t.inbox = s.inbox) :
    (t.handled env agent work).inbox = (s.handled env agent work).inbox := by
  have hack : ∀ (msgIds : List String) {s t : Store}, t.inbox = s.inbox →
      (t.ack env agent msgIds).inbox = (s.ack env agent msgIds).inbox := by
    intro msgIds
    induction msgIds with
    | nil => exact fun h => h
    | cons msgId rest ih =>
      intro s t h
      apply ih (s := ackOne env agent s msgId) (t := ackOne env agent t msgId)
      simp only [ackOne, h]
  have hnack : ∀ (failures : List Nack) {s t : Store}, t.inbox = s.inbox →
      (failures.foldl (nack env agent) t).inbox = (failures.foldl (nack env agent) s).inbox := by
    intro failures
    induction failures with
    | nil => exact fun h => h
    | cons failure rest ih =>
      intro s t h
      apply ih
      unfold nack
      rw [h]
      split
      · exact h
      · simp only
        split <;> simp only [ackOne]
  exact hnack work.nack (hack work.ack h)

theorem handled_endsOnly (ended : RunId → Prop) (env : TxEnv) (agent : Address) (work : Commit)
    (hstored : (s.runs.get? runId).isSome) :
    MovesBy Licence.any (EndsOnly ended) s
      (handled (appendAll env runId s work.entries).1 env agent work) := by
  have hwrites : MovesBy Licence.any (fun m => m.writes = true) s
      (appendAll env runId s work.entries).1 :=
    appendAll_writes work.entries hstored (Licence.allows_all (fun _ => trivial) env _ _ s)
  have hentries : MovesBy Licence.any (EndsOnly ended) s
      (appendAll env runId s work.entries).1 := by
    apply Steps.mono _ hwrites
    rintro t m ⟨hok, hm⟩
    cases m with
    | write | charge => exact ⟨hok, trivial⟩
    | _ => cases hm
  exact hentries.trans (handled_moves _ env agent work (fun _ _ => trivial) fun _ _ => trivial)

private theorem commit_serves {u : Store} {spawned : List (String × RunHandle × Nat)}
    {delivered : List DeliverResult} (hrow : s.runs.get? lease.runId = some row)
    (hspawn : spawnAll env lease.runId
      (handled (appendAll env lease.runId s work.entries).1 env row.agent work)
      work.spawns = .ok (t, spawned))
    (hdeliver : deliverAll env t work.deliveries = .ok (u, delivered)) :
    Serves s (u.signalAll work.signals) := by
  have hhandled := Serves.quiet
    (handled_endsOnly (fun _ => False) env row.agent work (Option.isSome_of_eq_some hrow))
  have hsignals : Serves u (u.signalAll work.signals) :=
    Serves.quiet (signalAll_moves (L := Licence.any) u work.signals fun _ _ => trivial)
  exact ((hhandled.trans (spawnAll_serves work.spawns hspawn)).trans
    (deliverAll_serves work.deliveries hdeliver)).trans hsignals

private theorem settle_mailRead {outcome : Option Outcome} {status : RunStatus} {resumed : Bool}
    {seqs : List Nat} (hread : MailRead s) (hrow : s.runs.get? runId = some row)
    (hrun : row.status = .running)
    (hstops : ∀ asked how, outcome = some asked → effectiveOutcome row asked = .ending how →
      how.status = .completed)
    (h : s.settle env runId row outcome = .ok (s', status, resumed, seqs)) : MailRead s' := by
  cases outcome with
  | none =>
    cases h
    exact hread
  | some asked =>
    simp only [settle] at h
    cases heff : effectiveOutcome row asked with
    | suspend wake =>
      simp only [heff] at h
      have hslept : Serves s (s.suspend env runId wake).1 :=
        Serves.move (L := Licence.any) (m := .suspend env runId wake)
          ⟨⟨row, hrow, hrun⟩, trivial⟩ (by simp) (by simp)
      split at h
      · rename_i t _ hcase
        rw [hcase] at hslept
        cases h
        exact (hslept.trans (Serves.same (append_runs ..) (append_inbox ..))).mailRead hread
      · rename_i t _ _ _ hcase
        rw [hcase] at hslept
        cases h
        exact hslept.mailRead hread
    | retry error delay =>
      simp only [heff] at h
      cases h
      have hparked : Serves s
          ((s.parkRow runId (env.clock + max delay 0)).clearWake runId) :=
        Serves.move (L := Licence.any) (m := .park runId (env.clock + max delay 0))
          ⟨⟨row, hrow, hrun⟩, trivial⟩ (by simp) (by simp)
      exact (hparked.trans (Serves.same (append_runs ..) (append_inbox ..))).mailRead hread
    | ending how =>
      simp only [heff] at h
      obtain ⟨t, hend, h⟩ := bind_ok_iff.mp h
      cases h
      cases how with
      | complete => exact complete_mailRead hread hrow hend
      | fail error => cases hstops asked (.fail error) rfl heff
      | cancel reason => cases hstops asked (.cancel reason) rfl heff

private theorem commit_mailRead {result : CommitResult} (hread : MailRead s)
    (hordinary : (Op.commit lease work).Ordinary env s)
    (hrelieved : Relieved s ⟨env, .commit lease work⟩)
    (h : s.commit env lease work = .ok (s', result)) : MailRead s' := by
  obtain ⟨row, t, u, spawned, delivered, seqs, hfence, hspawn, hdeliver, hsettle⟩ := commit_ok h
  obtain ⟨hrow, hcurrent⟩ := fencedRun_ok hfence
  have hkept := (commit_before (L := Licence.any) (Licence.allows_all (fun _ => trivial) env _ _ s)
    hfence hspawn hdeliver).2
  have hbefore : MailRead (u.signalAll work.signals) :=
    (commit_serves hrow hspawn hdeliver).mailRead hread
  by_cases hstrikes : (Op.commit lease work).Strikes env s lease.runId
  · obtain ⟨hspawns, hdeliveries⟩ := hordinary ⟨lease.runId, hstrikes⟩
    obtain ⟨_, row', asked, how, hrow', _, hasked, heff, hhow⟩ := hstrikes
    rw [hrow] at hrow'
    cases hrow'
    rw [hspawns] at hspawn
    cases hspawn
    rw [hdeliveries] at hdeliver
    cases hdeliver
    let ended := (Op.commit lease work).Stops env s
    have hmail : MovesBy Licence.any (EndsOnly ended) s
        (handled (appendAll env lease.runId s work.entries).1 env row.agent work) :=
      handled_endsOnly ended env row.agent work (Option.isSome_of_eq_some hrow)
    have hsignals : MovesBy Licence.any (EndsOnly ended)
        (handled (appendAll env lease.runId s work.entries).1 env row.agent work) _ :=
      signalAll_moves _ work.signals fun _ _ => trivial
    have hin : ended lease.runId :=
      Or.inl ⟨rfl, row, asked, how, hrow, hcurrent, hasked, heff, hhow⟩
    have hcascade := (cascade_refl s ended).moves (hmail.trans hsignals)
    have hstop : MovesBy Licence.any (EndsOnly ended)
        (Store.signalAll (handled (appendAll env lease.runId s work.entries).1 env row.agent work)
          work.signals) s' := by
      simp only [hasked, settle, heff] at hsettle
      obtain ⟨v, hend, hsettle⟩ := bind_ok_iff.mp hsettle
      injection hsettle with hsettle
      obtain ⟨rfl, _⟩ := Prod.mk.inj hsettle
      have hclosed : Closed s ended := stops_closed env s (.commit lease work)
      cases how with
      | complete => exact absurd rfl hhow
      | fail error | cancel reason =>
        cases hend
        exact endsOnly_stop hclosed hcascade hin hkept rfl
    apply stopped_mailRead hread ((hmail.trans hsignals).trans hstop) _ hrelieved
    intro agent hafter
    have hleft := inboxOf_shrinks (hsignals.trans hstop) agent hafter
    have hsame := handled_inbox env row.agent work (s := s)
      (t := (appendAll env lease.runId s work.entries).1) (appendAll_keeps (·.inbox)
        (fun t => append_inbox t env lease.runId) work.entries s)
    simp only [Op.left, hrow]
    rwa [inboxOf, hsame] at hleft
  · apply settle_mailRead hbefore hkept (current_running hcurrent) _ hsettle
    intro asked how hasked heff
    by_contra hne
    exact hstrikes ⟨rfl, row, asked, how, hrow, hcurrent, hasked, heff, hne⟩

theorem mailRead_exec {call : Call} (hread : MailRead s) (hordinary : call.op.Ordinary call.env s)
    (hrelieved : Relieved s call) : MailRead (exec call s) := by
  obtain ⟨env, op⟩ := call
  cases hrun : s.perform env op with
  | error e => rwa [exec_error hrun]
  | ok s' =>
    rw [exec_ok hrun]
    have hwrites : ∀ runId entries, MailRead (appendAll env runId s entries).1 := fun _ _ =>
      (Serves.same (appendAll_keeps (·.runs) (fun t => append_runs t env _) _ s)
        (appendAll_keeps (·.inbox) (fun t => append_inbox t env _) _ s)).mailRead hread
    cases op with
    | createRun spec deliveries =>
      obtain ⟨⟨t, runId⟩, hcreate, hrun⟩ := bind_ok_iff.mp hrun
      cases hrun
      exact createRun_mailRead hread hordinary hcreate
    | lease worker capacity leaseFor now =>
      obtain ⟨⟨t, leases⟩, hlease, hrun⟩ := bind_ok_iff.mp hrun
      cases hrun
      exact lease_mailRead hread hrelieved hlease
    | heartbeat lease leaseFor now =>
      cases hrun
      apply (Serves.moves (heartbeat_moves (L := Licence.any) s lease leaseFor now rfl)
        _).mailRead hread
      rintro m rfl
      exact ⟨by simp, by simp⟩
    | commit lease work =>
      obtain ⟨⟨t, result⟩, hcommit, hrun⟩ := bind_ok_iff.mp hrun
      cases hrun
      exact commit_mailRead hread hordinary hrelieved hcommit
    | requestCancel runId reason cascade =>
      obtain ⟨⟨t, affected⟩, hcancel, hrun⟩ := bind_ok_iff.mp hrun
      cases hrun
      exact requestCancel_mailRead hread hrelieved hcancel
    | annotate runId entries =>
      obtain ⟨⟨t, seqs⟩, hannotate, hrun⟩ := bind_ok_iff.mp hrun
      cases hrun
      have hread' := hwrites runId entries
      rwa [(annotate_ok hannotate).2] at hread'
    | appendEphemeral lease entries =>
      obtain ⟨row, hfence, hrun⟩ := bind_ok_iff.mp hrun
      cases hrun
      exact hwrites _ _
    | deliver delivery wake =>
      obtain ⟨⟨t, result⟩, hdeliver, hrun⟩ := bind_ok_iff.mp hrun
      cases hrun
      exact (deliver_serves (Or.inl hordinary) hdeliver).mailRead hread
    | wakeDeliveries deliveries =>
      obtain ⟨⟨t, results⟩, hdeliver, hrun⟩ := bind_ok_iff.mp hrun
      cases hrun
      exact (deliverAll_serves deliveries hdeliver).mailRead hread
    | redrive agent msgId =>
      obtain ⟨⟨t, hit⟩, hredrive, hrun⟩ := bind_ok_iff.mp hrun
      cases hrun
      rcases redrive_ok hredrive with rfl | ⟨letter, result, _, hdeliver⟩
      · exact hread
      · have hforget : Serves s (s.forgetDeadLetter agent msgId) := Serves.same rfl rfl
        exact (hforget.trans (deliver_serves (Or.inl rfl) hdeliver)).mailRead hread
    | signal runId name payload =>
      cases hrun
      exact (Serves.move (L := Licence.any) (m := .signal runId name payload) trivial
        (by simp) (by simp)).mailRead hread
    | consume runId name claimId =>
      cases hrun
      have hmoves : MovesBy Licence.any
          (fun m => ∃ payload, m = .claimSignal runId name claimId payload) s
          (s.consume runId name claimId).1 :=
        consume_moves s runId name claimId fun payload => ⟨payload, rfl⟩
      apply (Serves.moves hmoves _).mailRead hread
      rintro m ⟨payload, rfl⟩
      exact ⟨by simp, by simp⟩
    | accountLimit account budget =>
      cases hrun
      exact (Serves.same rfl rfl).mailRead hread
    | erase | prune => exact hordinary.elim

/-- Mail is never stranded, in every state reached by ordinary calls that
relieve every agent whose runs they stop. -/
theorem mail_is_read {s : Store}
    (h : Steps exec (fun s call => call.op.Ordinary call.env s ∧ Relieved s call) init s) :
    MailRead s :=
  Steps.invariant (P := MailRead) (fun _ _ hread hcall => mailRead_exec hread hcall.1 hcall.2) h
    fun _ hmail => absurd rfl hmail

private def letter (id : String) : Delivery where
  agent := "agent"
  msg := { id, sender := "user" }

private def twoReaders : List Call :=
  [⟨.plain 0, .createRun { agent := "agent", runId := some "r1" } [letter "m1"]⟩,
   ⟨.plain 1, .createRun { agent := "agent", runId := some "r2" } [letter "m2"]⟩]

/-- The first run is cancelled; the second is there to read the mail of both. -/
theorem mail_is_read_cancelled :
    let s := exec ⟨.plain 2, .requestCancel "r1" "stop" false⟩ (execAll twoReaders init)
    ((s.runs.get? "r1").map (·.status) = some .cancelled ∧
      (s.inboxOf "agent").map (·.msg.id) = ["m1", "m2"]) ∧ MailRead s := by
  have hrow : ((execAll twoReaders init).runs.get? "r2").map
      (fun row => (row.agent, row.isActive, row.parentRunId)) = some ("agent", true, none) := by
    decide
  have hagent : ((execAll twoReaders init).runs.rows.all fun row =>
      row.2.agent = "agent") = true := by
    decide
  refine ⟨by decide, mail_is_read ?_⟩
  have hcreated : Steps exec (fun s call => call.op.Ordinary call.env s ∧ Relieved s call) init
      (execAll twoReaders init) := by
    apply Steps.foldl
    intro s call hcall
    refine Steps.single call ?_
    simp only [twoReaders, List.mem_cons, List.not_mem_nil, or_false] at hcall
    rcases hcall with rfl | rfl
    all_goals
      constructor
      · intro delivery hdelivery
        rw [List.mem_singleton.mp hdelivery]
        rfl
      · rintro runId row (hstrikes | ⟨root, hstrikes, _⟩)
        · exact hstrikes.elim
        · exact hstrikes.elim
  refine hcreated.trans (Steps.single _ ⟨trivial, ?_⟩)
  rintro runId row _ hget
  obtain ⟨other, hother, hfacts⟩ := Option.map_eq_some_iff.mp hrow
  obtain ⟨hother', hactive, hparent⟩ : other.agent = "agent" ∧ other.isActive = true ∧
      other.parentRunId = none := by simpa using hfacts
  have hsame : row.agent = "agent" := by
    have hall := List.all_eq_true.mp hagent (runId, row) (Table.mem_rows_iff.mpr hget)
    simpa using hall
  refine Or.inr ⟨"r2", other, hother, hother'.trans hsame.symm, hactive, ?_⟩
  rintro (⟨hroot | hbelow, _⟩ | ⟨root, _, hbelow⟩)
  · exact absurd hroot (by decide)
  · cases hbelow.1
  · obtain ⟨_, _, ⟨child, hchild, hof, _⟩⟩ := Relation.TransGen.tail'_iff.mp hbelow
    change (execAll twoReaders init).runs.get? "r2" = some child at hchild
    rw [hother] at hchild
    cases hchild
    rw [hparent] at hof
    cases hof

private def cancelledUnread : List Call :=
  [⟨.plain 0, .createRun { agent := "agent", runId := some "r1" } [letter "m1"]⟩,
   ⟨.plain 1, .requestCancel "r1" "stop" true⟩]

/-- The agent of a cancelled run has mail and no run. -/
theorem mail_stranded :
    Steps exec (fun s call => call.op.Ordinary call.env s) init (execAll cancelledUnread init) ∧
      ¬ MailRead (execAll cancelledUnread init) := by
  constructor
  · apply Steps.foldl
    intro s call hcall
    refine Steps.single call ?_
    simp only [cancelledUnread, List.mem_cons, List.not_mem_nil, or_false] at hcall
    rcases hcall with rfl | rfl
    · intro delivery hdelivery
      rw [List.mem_singleton.mp hdelivery]
      rfl
    · trivial
  · intro hread
    have hmail : ((execAll cancelledUnread init).inboxOf "agent").length = 1 := by decide
    obtain ⟨runId, row, hrow, hagent, hactive⟩ := hread "agent" (by
      intro hnone
      rw [hnone] at hmail
      cases hmail)
    have hended : ((execAll cancelledUnread init).runs.rows.all fun row => !row.2.isActive) =
        true := by decide
    have hall := List.all_eq_true.mp hended (runId, row) (Table.mem_rows_iff.mpr hrow)
    rw [hactive] at hall
    cases hall

end Substrate.Store
