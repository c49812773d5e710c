import Substrate.Channels.Isolation
import Substrate.Channels.Log
import Substrate.Store.Accounts

/-!
Whom an append wakes. The members to wake are decided from the tables as they are before
the append; each gets a message whose id is made of the channel, the entry's number and
the member's address.
-/

namespace Substrate

open Lib List

/-- A message whose payload names a channel's entry. -/
def Message.Names (msg : Message) (channel : String) (seq : Int) : Prop :=
  ∃ fields, msg.payload = .obj fields ∧ ("channel", .str channel) ∈ fields ∧
    ("seq", .num seq) ∈ fields

namespace Store

def known (s : Store) (agent : Address) (msgId : String) : Bool :=
  s.hasMail agent msgId || (s.processed.get? (agent, msgId)).isSome

/-- The agent has mail that names the entry, and a run that will read it. -/
def Reached (s : Store) (channel : String) (seq : Int) (agent : Address) : Prop :=
  (∃ row ∈ s.inbox, row.agent = agent ∧ row.msg.Names channel seq) ∧ s.HasReader agent

variable {s s' : Store} {env : TxEnv} {delivery : Delivery} {result : DeliverResult}

private theorem hasReader_insert {agent other : Address} {runId : RunId} {row : RunRow}
    (hfree : s.runs.get? runId = none) (hagent : row.agent = agent) (hactive : row.isActive = true) :
    (s.insertRow runId row).HasReader other ↔ other = agent ∨ s.HasReader other := by
  have hget : ∀ runId', (s.insertRow runId row).runs.get? runId' =
      if runId' = runId then some row else s.runs.get? runId' :=
    fun runId' => Table.get?_insert_of_none hfree
  constructor
  · rintro ⟨runId', row', hrow', rfl, hactive'⟩
    rw [hget] at hrow'
    split at hrow'
    · cases hrow'
      exact .inl hagent
    · exact .inr ⟨runId', row', hrow', rfl, hactive'⟩
  · rintro (rfl | ⟨runId', row', hrow', hagent', hactive'⟩)
    · exact ⟨runId, row, by rw [hget, if_pos rfl], hagent, hactive⟩
    · refine ⟨runId', row', ?_, hagent', hactive'⟩
      rw [hget, if_neg, hrow']
      rintro rfl
      rw [hfree] at hrow'
      cases hrow'

theorem deliver_effect (h : s.deliver env delivery true = .ok (s', result)) :
    (s.known delivery.agent delivery.msg.id = true ∧ s' = s) ∨
      (s.known delivery.agent delivery.msg.id = false ∧
        s'.inbox = (s.insertMail delivery).inbox ∧ s'.processed = s.processed ∧
        s'.accounts = s.accounts ∧
        ∀ agent, s'.HasReader agent ↔ agent = delivery.agent ∨ s.HasReader agent) := by
  rcases deliver_cases h with ⟨rfl, hrefused⟩ | ⟨haccepted, hfresh, hinbox, hserves, hwoken, -⟩
  · left
    refine ⟨?_, rfl⟩
    unfold deliver at h
    unfold known
    split at h
    · rename_i hmail
      rw [hmail, Bool.true_or]
    split at h
    · rename_i hdone
      rw [hdone, Bool.or_true]
    simp only [if_true] at h
    unfold wakeAgent at h
    split at h
    · obtain ⟨⟨t, runId⟩, -, hrest⟩ := bind_ok_iff.mp h
      rw [hrefused] at hrest
      cases hrest
    · have htaken : ∀ {t : Store} {woke : Option RunId},
          (Except.ok (t, { accepted := true, wokeRun := woke }) :
            Except StoreError (Store × DeliverResult)) ≠ .ok (s', result) := by
        intro t woke heq
        rw [hrefused] at heq
        have hflag := congrArg DeliverResult.accepted (Prod.mk.inj (Except.ok.inj heq)).2
        cases hflag
      split at h
      · exact absurd h htaken
      · exact absurd h htaken
  · right
    unfold deliver at h
    rw [if_neg (by simp [hfresh])] at h
    split at h
    · cases h
      cases haccepted
    rename_i hdone
    refine ⟨by simpa [known, hfresh] using hdone, hinbox, ?_⟩
    have hown : ∀ agent, agent = delivery.agent ∨ s.HasReader agent → s'.HasReader agent := by
      rintro agent (rfl | hreader)
      · exact hwoken rfl
      · exact hserves.readers agent hreader
    simp only [if_true] at h
    unfold wakeAgent at h
    split at h
    · obtain ⟨⟨t, runId⟩, hinsert, hrest⟩ := bind_ok_iff.mp h
      cases hrest
      obtain ⟨hfree, -, rfl⟩ := insertRun_ok hinsert
      refine ⟨rfl, rfl, fun agent => ?_⟩
      exact hasReader_insert (s := s.insertMail delivery) hfree rfl rfl
    · rename_i runId row hactive
      obtain ⟨hrow, hagent, hopen⟩ := latestActive_spec hactive
      split at h
      · cases h
        refine ⟨rfl, rfl, fun agent => ⟨?_, hown agent⟩⟩
        rintro ⟨runId', row', hrow', rfl, hactive'⟩
        change (s.runs.modify runId RunRow.queued).get? runId' = some row' at hrow'
        rw [Table.get?_modify] at hrow'
        split at hrow'
        · rename_i hsame
          subst hsame
          obtain ⟨old, hold, rfl⟩ := Option.map_eq_some_iff.mp hrow'
          cases hrow.symm.trans hold
          have hsame : row.queued.agent = row.agent := by
            unfold RunRow.queued
            split <;> rfl
          exact .inl (hsame.trans hagent)
        · exact .inr ⟨runId', row', hrow', rfl, hactive'⟩
      · cases h
        refine ⟨rfl, rfl, fun agent => ⟨.inr, hown agent⟩⟩

end Store

namespace Database

open Channels

def wakeId (channel : String) (seq : Int) (address : Address) : String :=
  "chan:" ++ channel ++ ":" ++ toString seq ++ ":" ++ address

variable {channel : String} {seq : Int} {s : Store} {env : TxEnv} {row : ChannelRow}
    {post : Post} {repliedTo : Option Address} {member : Address × MemberRow}
    {address : Address} {c c' : Channels} {byAgent : Bool} {depth : Nat}

theorem wakeId_inj (address address' : Address)
    (h : wakeId channel seq address = wakeId channel seq address') : address = address' :=
  append_left_inj h

theorem wakeMessage_names (channel : String) (seq : Int) (address sender : Address)
    (reason : WakeReason) : (wakeMessage channel seq address sender reason).Names channel seq :=
  ⟨_, rfl, mem_cons_self, mem_cons_of_mem _ mem_cons_self⟩

/-- Whether an append writes its post: it is new, and neither paused nor stale nor too deep. -/
def writes (c : Channels) (channel : String) (post : Post) : Bool :=
  match c.channels.get? channel with
  | none => false
  | some row =>
    (c.findDedup channel post.dedupKey).isNone && !(chains c channel post && row.paused) &&
      !(post.readUpTo.any fun upto =>
        c.entries.rows.any fun entry =>
          entry.1.1 = channel && decide (upto < entry.1.2) &&
            entry.2.sender ≠ post.sender && entry.2.kind = .message) &&
      !(chains c channel post &&
        decide (row.breaker < postDepth c channel post (chains c channel post)))

/-- The members an append wakes, each with its inbox. -/
def wakes (d : Database) (env : TxEnv) (channel : String) (post : Post) :
    List (Address × Address) :=
  match d.channels.channels.get? channel with
  | none => []
  | some row =>
    if writes d.channels channel post then
      (d.channels.othersOf channel post.sender).filterMap fun member =>
        (wakeInto d.store env channel row.tenant post (post.replyTo.bind fun replyTo =>
          (d.channels.entries.get? (channel, replyTo)).map (·.sender)) member).map
            fun inbox => (member.1, inbox)
    else []

/-- The loop over the members so far, when it started from `s`. -/
structure Rounds (s : Store) (channel : String) (seq : Int) (done : List (Address × Address))
    (turn : Database × List Address × List Address) : Prop where
  accounts : turn.1.store.accounts = s.accounts
  processed : turn.1.store.processed = s.processed
  woken : turn.2.1 = done.map Prod.snd
  mail : ∀ agent address, address ∉ done.map Prod.fst →
    turn.1.store.hasMail agent (wakeId channel seq address) =
      s.hasMail agent (wakeId channel seq address)
  reached : ∀ agent, turn.1.store.Reached channel seq agent ↔
    (∃ wake ∈ done, wake.2 = agent ∧ s.known agent (wakeId channel seq wake.1) = false) ∨
      s.Reached channel seq agent

theorem wakeInto_accounts {t : Store} (h : t.accounts = s.accounts) (env : TxEnv)
    (channel : String) (tenant : Tenant) (post : Post) (repliedTo : Option Address)
    (member : Address × MemberRow) :
    wakeInto t env channel tenant post repliedTo member =
      wakeInto s env channel tenant post repliedTo member := by
  unfold wakeInto Store.exhausted
  rw [h]

theorem Rounds.next {done : List (Address × Address)}
    {turn turn' : Database × List Address × List Address} (h : Rounds s channel seq done turn)
    (hnew : member.1 ∉ done.map Prod.fst)
    (hturn : wakeMember env channel row seq post repliedTo turn member = .ok turn') :
    Rounds s channel seq (done ++ ((wakeInto s env channel row.tenant post repliedTo member).map
      fun inbox => (member.1, inbox)).toList) turn' := by
  obtain ⟨-, hcases⟩ := wakeMember_cases hturn
  rw [wakeInto_accounts h.accounts] at hcases
  rcases hcases with ⟨hnone, hstore, hwoken⟩ | ⟨inbox, reason, accepted, hsome, hdeliver, hwoken⟩
  · rw [hnone]
    simp only [Option.map_none, Option.toList_none, append_nil]
    constructor
    · rw [hstore]
      exact h.accounts
    · rw [hstore]
      exact h.processed
    · rw [hwoken]
      exact h.woken
    · rw [hstore]
      exact h.mail
    · rw [hstore]
      exact h.reached
  · rw [hsome]
    simp only [Option.map_some, Option.toList_some]
    have hwoken' : turn'.2.1 = (done ++ [(member.1, inbox)]).map Prod.snd := by
      rw [hwoken, h.woken, map_append]
      rfl
    have hknown : turn.1.store.known inbox (wakeId channel seq member.1) =
        s.known inbox (wakeId channel seq member.1) := by
      unfold Store.known
      rw [h.mail inbox member.1 hnew, h.processed]
    rcases Store.deliver_effect hdeliver with
      ⟨hrefused, hstore⟩ | ⟨hfresh, hinbox, hprocessed, haccounts, hreaders⟩
    · change turn.1.store.known inbox (wakeId channel seq member.1) = true at hrefused
      rw [hknown] at hrefused
      constructor
      · rw [hstore]
        exact h.accounts
      · rw [hstore]
        exact h.processed
      · exact hwoken'
      · intro agent address haddress
        rw [hstore]
        apply h.mail
        intro hmem
        apply haddress
        rw [map_append]
        exact mem_append_left _ hmem
      · intro agent
        rw [hstore, h.reached]
        constructor
        · rintro (⟨wake, hwake, hagent⟩ | hbefore)
          · exact .inl ⟨wake, mem_append_left _ hwake, hagent⟩
          · exact .inr hbefore
        · rintro (⟨wake, hwake, hagent, hfree⟩ | hbefore)
          · rcases mem_append.mp hwake with hold | hlast
            · exact .inl ⟨wake, hold, hagent, hfree⟩
            · cases mem_singleton.mp hlast
              cases hagent
              rw [hrefused] at hfree
              cases hfree
          · exact .inr hbefore
    · change turn.1.store.known inbox (wakeId channel seq member.1) = false at hfresh
      rw [hknown] at hfresh
      simp only at hreaders
      constructor
      · exact haccounts.trans h.accounts
      · exact hprocessed.trans h.processed
      · exact hwoken'
      · intro agent address haddress
        rw [map_append, mem_append, not_or] at haddress
        rw [← h.mail agent address haddress.1]
        unfold Store.hasMail
        rw [hinbox]
        unfold Store.insertMail
        rw [any_append]
        have hother : (wakeMessage channel seq member.1 post.sender reason).id ≠
            wakeId channel seq address := by
          intro hsame
          apply haddress.2
          rw [← wakeId_inj member.1 address hsame]
          exact mem_singleton_self _
        simp [hother]
      · intro agent
        have hreached : turn'.1.store.Reached channel seq agent ↔
            agent = inbox ∨ turn.1.store.Reached channel seq agent := by
          unfold Store.Reached
          rw [hinbox, hreaders]
          constructor
          · rintro ⟨⟨mail, hmail, hagent, hnames⟩, hreader⟩
            rcases mem_append.mp hmail with hold | hlast
            · rcases hreader with hown | hbefore
              · exact .inl hown
              · exact .inr ⟨⟨mail, hold, hagent, hnames⟩, hbefore⟩
            · cases mem_singleton.mp hlast
              exact .inl hagent.symm
          · rintro (rfl | ⟨⟨mail, hmail, hagent, hnames⟩, hreader⟩)
            · refine ⟨⟨_, mem_append_right _ (mem_singleton_self _), rfl, ?_⟩, .inl rfl⟩
              exact wakeMessage_names ..
            · exact ⟨⟨mail, mem_append_left _ hmail, hagent, hnames⟩, .inr hreader⟩
        rw [hreached, h.reached]
        constructor
        · rintro (rfl | ⟨wake, hwake, hagent⟩ | hbefore)
          · exact .inl ⟨(member.1, agent), mem_append_right _ (mem_singleton_self _), rfl, hfresh⟩
          · exact .inl ⟨wake, mem_append_left _ hwake, hagent⟩
          · exact .inr hbefore
        · rintro (⟨wake, hwake, hagent, hfree⟩ | hbefore)
          · rcases mem_append.mp hwake with hold | hlast
            · exact .inr (.inl ⟨wake, hold, hagent, hfree⟩)
            · cases mem_singleton.mp hlast
              exact .inl hagent.symm
          · exact .inr (.inr hbefore)

theorem Rounds.all (members : List (Address × MemberRow)) :
    ∀ {done : List (Address × Address)} {turn turn' : Database × List Address × List Address},
      Rounds s channel seq done turn → (members.map Prod.fst).Nodup →
      (∀ address ∈ members.map Prod.fst, address ∉ done.map Prod.fst) →
      members.foldlM (wakeMember env channel row seq post repliedTo) turn = .ok turn' →
      Rounds s channel seq (done ++ members.filterMap fun member =>
        (wakeInto s env channel row.tenant post repliedTo member).map
          fun inbox => (member.1, inbox)) turn' := by
  induction members with
  | nil =>
    intro done turn turn' hrounds _ _ hloop
    cases hloop
    rw [filterMap_nil, append_nil]
    exact hrounds
  | cons member rest ih =>
    intro done turn turn' hrounds hnodup hfresh hloop
    rw [foldlM_cons] at hloop
    obtain ⟨turn₁, hfirst, hrest⟩ := bind_ok_iff.mp hloop
    rw [map_cons, nodup_cons] at hnodup
    have hnext := hrounds.next (hfresh member.1 mem_cons_self) hfirst
    have hstill : ∀ address ∈ rest.map Prod.fst, address ∉ (done ++
        ((wakeInto s env channel row.tenant post repliedTo member).map
          fun inbox => (member.1, inbox)).toList).map Prod.fst := by
      intro address haddress hmem
      rw [map_append, mem_append] at hmem
      rcases hmem with hold | hlast
      · exact hfresh address (mem_cons_of_mem _ haddress) hold
      · obtain ⟨wake, hwake, rfl⟩ := mem_map.mp hlast
        rw [Option.mem_toList, Option.map_eq_some_iff] at hwake
        obtain ⟨inbox, -, rfl⟩ := hwake
        exact hnodup.1 haddress
    have hall := ih hnext hnodup.2 hstill hrest
    rw [append_assoc] at hall
    rw [filterMap_cons]
    cases hwake : (wakeInto s env channel row.tenant post repliedTo member).map
        fun inbox => (member.1, inbox) with
    | none =>
      rw [hwake] at hall
      exact hall
    | some wake =>
      rw [hwake] at hall
      exact hall

theorem othersOf_nodup (c : Channels) (channel : String) (sender : Address) :
    ((c.othersOf channel sender).map Prod.fst).Nodup := by
  unfold othersOf
  rw [List.map_map]
  have hperm := (perm_insertionSort (fun a b : (String × Address) × MemberRow =>
    a.1.2 ≤ b.1.2) (c.members.rows.filter fun row =>
      row.1.1 = channel && row.1.2 ≠ sender)).map (fun row => row.1.2)
  refine hperm.nodup_iff.mpr ?_
  have hkeys : ((c.members.rows.filter fun row =>
      row.1.1 = channel && row.1.2 ≠ sender).map Prod.fst).Nodup :=
    c.members.nodup.sublist (filter_sublist.map Prod.fst)
  rw [List.Nodup, pairwise_map] at hkeys ⊢
  refine hkeys.imp_of_mem ?_
  intro a b ha hb hne haddress
  apply hne
  have hchannel : ∀ row ∈ c.members.rows.filter fun row =>
      row.1.1 = channel && row.1.2 ≠ sender, row.1.1 = channel := by
    intro row hrow
    have hkept := (mem_filter.mp hrow).2
    rw [Bool.and_eq_true, decide_eq_true_eq] at hkept
    exact hkept.1
  exact Prod.ext ((hchannel a ha).trans (hchannel b hb).symm) haddress

theorem othersOf_sender (c : Channels) {sender : Address} {row : MemberRow}
    (h : (address, row) ∈ c.othersOf channel sender) : address ≠ sender := by
  unfold othersOf at h
  obtain ⟨stored, hstored, heq⟩ := mem_map.mp h
  rw [mem_insertionSort, mem_filter] at hstored
  cases heq
  have hkept := hstored.2
  rw [Bool.and_eq_true, decide_eq_true_eq, decide_eq_true_eq] at hkept
  exact hkept.2

theorem othersOf_modify (c : Channels) (channel : String) (sender : Address)
    (f : MemberRow → MemberRow) :
    othersOf { c with members := c.members.modify (channel, sender) f } channel sender =
      c.othersOf channel sender := by
  have hrows : ((c.members.modify (channel, sender) f).rows.filter fun row =>
      row.1.1 = channel && row.1.2 ≠ sender) =
      c.members.rows.filter fun row => row.1.1 = channel && row.1.2 ≠ sender := by
    unfold Table.modify Table.map
    simp only
    induction c.members.rows with
    | nil => rfl
    | cons row rest ih =>
      rw [map_cons, filter_cons, filter_cons, ih]
      by_cases hkey : row.1 = (channel, sender)
      · simp [hkey]
      · simp only [if_neg hkey]
  unfold othersOf
  rw [hrows]

theorem logPost_others (h : logPost c env channel row post byAgent depth = .ok c') :
    c'.othersOf channel post.sender = c.othersOf channel post.sender := by
  obtain ⟨c₁, hwrite, h⟩ := bind_ok_iff.mp h
  cases h
  have hmembers := (writeEntry_tables hwrite).2
  have hsame : ∀ c₂ : Channels, c₂.members = c.members →
      c₂.othersOf channel post.sender = c.othersOf channel post.sender := by
    intro c₂ heq
    unfold othersOf
    rw [heq]
  unfold engage setMemberRow
  rw [othersOf_modify]
  unfold Channels.advance
  rw [othersOf_modify]
  exact hsame _ hmembers

theorem wakeReason_repliedTo {mode : Mode} {mentions : List String} {repliedTo' : Option Address}
    {engaged : Bool} (h : repliedTo = some address ↔ repliedTo' = some address) :
    wakeReason mode address mentions repliedTo engaged =
      wakeReason mode address mentions repliedTo' engaged := by
  unfold wakeReason
  simp only [h]

theorem wakeInto_logPost (hrow : c.channels.get? channel = some row)
    (h : logPost c env channel row post byAgent depth = .ok c') (s : Store)
    (hother : member.1 ≠ post.sender) :
    wakeInto s env channel row.tenant post (post.replyTo.bind fun replyTo =>
        (c'.entries.get? (channel, replyTo)).map (·.sender)) member =
      wakeInto s env channel row.tenant post (post.replyTo.bind fun replyTo =>
        (c.entries.get? (channel, replyTo)).map (·.sender)) member := by
  have hlog := logPost_log hrow h channel
  rw [if_pos rfl, Log.apply_posted] at hlog
  obtain ⟨c₁, hwrite, -⟩ := bind_ok_iff.mp h
  have hfree : c.entries.get? (channel, row.nextSeq) = none := by
    unfold writeEntry at hwrite
    split at hwrite
    · cases hwrite
    rename_i hnone
    simp only [Bool.or_eq_true, not_or, Bool.not_eq_true, Option.isSome_eq_false_iff,
      Option.isNone_iff_eq_none] at hnone
    exact hnone.1.1
  unfold wakeInto
  rw [wakeReason_repliedTo]
  cases post.replyTo with
  | none => rfl
  | some replyTo =>
    have hentry := congrFun (congrArg Log.entries hlog) replyTo
    rw [Log.entries_write, next_log hrow] at hentry
    change c'.entries.get? (channel, replyTo) = _ at hentry
    simp only [Option.bind_some, hentry]
    split
    · rename_i heq
      subst heq
      rw [hfree]
      simp only [Option.map_some, Option.map_none, Option.some.injEq]
      constructor
      · exact fun hsender => absurd hsender.symm hother
      · intro hnone
        cases hnone
    · rfl

theorem append_writes {d d' : Database} {result : AppendResult}
    (h : d.append env channel post = .ok (d', result)) :
    (writes d.channels channel post = false ∧ result.woken = []) ∨
      (writes d.channels channel post = true ∧ ∃ row byAgent depth,
        d.channels.channels.get? channel = some row ∧
          d.publish env channel row post byAgent depth = .ok (d', result)) := by
  unfold append at h
  unfold writes
  cases hrow : d.channels.channels.get? channel with
  | none =>
    simp only [hrow] at h
    cases h
  | some row =>
    simp only [hrow] at h ⊢
    split at h
    · rename_i hdedup
      cases h
      exact .inl ⟨by simp [hdedup], rfl⟩
    rename_i hdedup
    change (if chains d.channels channel post && row.paused then _ else _) = _ at h
    split at h
    · rename_i hpaused
      cases h
      exact .inl ⟨by rw [hpaused]; simp, rfl⟩
    rename_i hpaused
    split at h
    · rename_i hstale
      cases h
      exact .inl ⟨by rw [hstale]; simp, rfl⟩
    rename_i hstale
    change (if chains d.channels channel post && decide (row.breaker <
      (postDepth d.channels channel post (chains d.channels channel post) : Int)) then _
        else _) = _ at h
    split at h
    · rename_i htrip
      obtain ⟨c, -, h⟩ := bind_ok_iff.mp h
      cases h
      exact .inl ⟨by rw [htrip]; simp, rfl⟩
    · rename_i htrip
      rw [Bool.not_eq_true] at hpaused hstale htrip
      refine .inr ⟨?_, row, _, _, rfl, h⟩
      rw [hdedup, hpaused, hstale, htrip]
      rfl

/-- Every member an append reports as woken has mail about the entry and a run to read it,
exactly when for each of them some message into its inbox has an id that is neither pending
nor acknowledged, or it was reached before the append. -/
theorem woken_iff {d d' : Database} {env : TxEnv} {channel : String} {post : Post}
    {result : AppendResult} (h : d.append env channel post = .ok (d', result)) :
    (∀ agent ∈ result.woken, d'.store.Reached channel (d.channels.nextOf channel) agent) ↔
      ∀ agent ∈ (wakes d env channel post).map Prod.snd,
        (∃ wake ∈ wakes d env channel post, wake.2 = agent ∧
          d.store.known agent (wakeId channel (d.channels.nextOf channel) wake.1) = false) ∨
        d.store.Reached channel (d.channels.nextOf channel) agent := by
  rcases append_writes h with ⟨hnone, hwoken⟩ | ⟨hwrites, row, byAgent, depth, hrow, hpublish⟩
  · have hwakes : wakes d env channel post = [] := by
      unfold wakes
      rw [hnone]
      split <;> rfl
    rw [hwoken, hwakes]
    constructor
    · intro _ agent hagent
      cases hagent
    · intro _ agent hagent
      cases hagent
  · have hnext : d.channels.nextOf channel = row.nextSeq := next_log hrow
    obtain ⟨c, hlog, hpublish⟩ := bind_ok_iff.mp hpublish
    obtain ⟨⟨d₁, woken, unannounced⟩, hloop, hpublish⟩ := bind_ok_iff.mp hpublish
    obtain ⟨⟨c₁, latest⟩, -, hpublish⟩ := bind_ok_iff.mp hpublish
    cases hpublish
    simp only at hloop ⊢
    rw [hnext]
    have hstart : Rounds d.store channel row.nextSeq []
        (({ d with channels := c } : Database), [], []) := by
      refine ⟨rfl, rfl, rfl, fun _ _ _ => rfl, fun agent => ⟨.inr, ?_⟩⟩
      rintro (⟨wake, hwake, -⟩ | hbefore)
      · cases hwake
      · exact hbefore
    have hend := hstart.all _ (othersOf_nodup c channel post.sender) (fun _ _ hmem => by cases hmem)
      hloop
    have hlist : wakes d env channel post = [] ++ (c.othersOf channel post.sender).filterMap
        fun member => (wakeInto d.store env channel row.tenant post
          (post.replyTo.bind fun replyTo => (c.entries.get? (channel, replyTo)).map (·.sender))
            member).map fun inbox => (member.1, inbox) := by
      unfold wakes
      simp only [hrow, hwrites, if_true, nil_append]
      rw [logPost_others hlog]
      apply filterMap_congr
      rintro ⟨address, memberRow⟩ hmember
      rw [wakeInto_logPost hrow hlog d.store (othersOf_sender d.channels hmember)]
    rw [← hlist] at hend
    have hlistwoken : woken = (wakes d env channel post).map Prod.snd := hend.woken
    rw [hlistwoken]
    constructor
    · exact fun hall agent hagent => (hend.reached agent).mp (hall agent hagent)
    · exact fun hall agent hagent => (hend.reached agent).mpr (hall agent hagent)

private def hello : Post := { sender := "user/u", text := "hello" }

private def open' : TxEnv × Op :=
  (.plain 0, .channel (.openChannel "c" "default" [{ agent := "agent/a" }] 40 0))

private def answeredOnce : Database := exec (.plain 2, .store (.commit (firstLease "run-0")
      { ack := ["chan:c:0:agent/a"], outcome := some (.ending .complete) }))
    (exec (.plain 1, .store (.lease "w" 1 99 1))
      (exec (.plain 0, .channel (.append "c" hello)) (exec open' {})))

private def reopened : Database := exec open' (exec (.plain 3, .channel (.delete "c")) answeredOnce)

private theorem reopened_reachable : Calls {} reopened := by
  have hasked : Calls {} (exec (.plain 0, .channel (.append "c" hello)) (exec open' {})) :=
    (Steps.single open' trivial).next _ trivial
  exact (((hasked.next _ trivial).next _ trivial).next _ trivial).next _ trivial

/-- A member of a new channel is reached. -/
theorem woken_iff_opened : ∃ d' result,
    append (exec open' {}) (.plain 0) "c" hello = .ok (d', result) ∧ result.woken = ["agent/a"] ∧
      ∀ agent ∈ result.woken, d'.store.Reached "c" 0 agent := by
  refine ⟨_, _, rfl, by decide, ?_⟩
  refine (@woken_iff (exec open' {}) _ (.plain 0) "c" hello _ rfl).mpr ?_
  intro agent hagent
  left
  refine ⟨("agent/a", "agent/a"), by decide, ?_, ?_⟩
  · have hlist : (wakes (exec open' {}) (.plain 0) "c" hello).map Prod.snd = ["agent/a"] := by decide
    rw [hlist, mem_singleton] at hagent
    exact hagent.symm
  · have hlist : (wakes (exec open' {}) (.plain 0) "c" hello).map Prod.snd = ["agent/a"] := by decide
    rw [hlist, mem_singleton] at hagent
    rw [hagent]
    decide

/-- In the channel that was opened again the same member is reported and has neither mail nor
a run. -/
theorem woken_unreached : ¬ ∀ d : Database, Calls {} d →
    ∀ (env : TxEnv) (channel : String) (post : Post) (d' : Database) (result : AppendResult),
      d.append env channel post = .ok (d', result) → ∀ agent ∈ result.woken,
        d'.store.Reached channel (d.channels.nextOf channel) agent := by
  intro h
  obtain ⟨d', result, happend, hwoken, hempty⟩ : ∃ d' result,
      reopened.append (.plain 4) "c" hello = .ok (d', result) ∧ result.woken = ["agent/a"] ∧
        d'.store.inbox.length = 0 := ⟨_, _, rfl, by decide, by decide⟩
  obtain ⟨⟨row, hrow, -⟩, -⟩ := h reopened reopened_reachable (.plain 4) "c" hello d' result happend
    "agent/a" (by rw [hwoken]; exact mem_singleton_self _)
  rw [length_eq_zero_iff] at hempty
  rw [hempty] at hrow
  cases hrow

end Database

end Substrate
