import Substrate.Channels.Log

/-!
The breaker. A post that answers somebody is one deeper than what it answers, and a
channel pauses rather than hold one deeper than its breaker. The entries a person's
absence leaves are followed here as a list of answers: each chained entry with the entry
it answers.
-/

namespace Substrate

open Lib Channels List

namespace Channels

def answered (c : Channels) (channel : String) (causeSeq : Option Int) : Option Int :=
  match causeSeq with
  | some seq => if (c.entries.get? (channel, seq)).isSome then some seq else none
  | none => (c.latestMessage channel).map (·.seq)

theorem latestMessage_entry {c : Channels} {channel : String} {entry : ChannelEntry}
    (h : c.latestMessage channel = some entry) :
    c.entries.get? (channel, entry.seq) = some entry.toEntryRow := by
  unfold latestMessage entriesOf at h
  obtain ⟨row, hrow, rfl⟩ := mem_map.mp (mem_of_getLast? h)
  rw [mem_insertionSort, mem_filter] at hrow
  obtain ⟨hmem, hkept⟩ := hrow
  rw [Bool.and_eq_true, decide_eq_true_eq] at hkept
  obtain ⟨⟨name, seq⟩, entry⟩ := row
  cases hkept.1
  exact Table.mem_rows_iff.mp hmem

theorem answered_depth (c : Channels) (channel : String) (causeSeq : Option Int) :
    (c.answered channel causeSeq = none ∧ c.causeDepth channel causeSeq = 0) ∨
      ∃ seq entry, c.answered channel causeSeq = some seq ∧
        c.entries.get? (channel, seq) = some entry ∧
          c.causeDepth channel causeSeq = entry.depth := by
  unfold answered causeDepth
  cases causeSeq with
  | some seq =>
    cases hentry : c.entries.get? (channel, seq) with
    | none => exact .inl (by simp [hentry])
    | some entry => exact .inr ⟨seq, entry, by simp [hentry], hentry, by simp [hentry]⟩
  | none =>
    cases hlatest : c.latestMessage channel with
    | none => exact .inl ⟨rfl, rfl⟩
    | some entry =>
      exact .inr ⟨entry.seq, entry.toEntryRow, rfl, latestMessage_entry hlatest, rfl⟩

end Channels

/-- A channel's conversation: the database, and the chained entries written to the channel,
each with the entry it answers. -/
structure Talk where
  db : Database
  answers : List (Int × Option Int) := []

namespace Talk

open Database

/-- The chained entry a call writes, if it writes one. -/
def said (channel : String) (call : TxEnv × Op) (d : Database) : List (Int × Option Int) :=
  match call.2 with
  | .channel (.append name post) =>
    if name = channel ∧ chains d.channels channel post = true ∧
        (d.channels.findDedup channel post.dedupKey).isNone then
      match d.append call.1 channel post with
      | .ok (_, result) =>
        result.seq.toList.map fun seq => (seq, d.channels.answered channel post.causeSeq)
      | .error _ => []
    else []
  | _ => []

def step (channel : String) (call : TxEnv × Op) (w : Talk) : Talk where
  db := exec call w.db
  answers := if ((exec call w.db).channels.channels.get? channel).isSome then
    w.answers ++ said channel call w.db else []

/-- The breaker is opened at `b` and not configured otherwise. -/
def Fixed (channel : String) (b : Int) (_ : Talk) (call : TxEnv × Op) : Prop :=
  (∀ breaker engage, call.2 = .channel (.configure channel (some breaker) engage) → breaker = b) ∧
    ∀ tenant members breaker engage,
      call.2 = .channel (.openChannel channel tenant members breaker engage) → breaker = b

abbrev Runs (channel : String) (b : Int) : Talk → Talk → Prop :=
  Steps (step channel) (Fixed channel b)

end Talk

namespace Log

/-- A chained entry is one deeper than what it answers, and within the breaker. -/
def Answers (b : Int) (l : Log) (said : Int × Option Int) : Prop :=
  ∃ entry, l.entries said.1 = some entry ∧ (entry.depth : Int) ≤ b ∧
    match said.2 with
    | none => entry.depth = 1
    | some cause => cause < said.1 ∧
        ∃ answered, l.entries cause = some answered ∧ entry.depth = answered.depth + 1

/-- The channel's breaker, if it is there, is `b`. -/
def BreaksAt (b : Int) (l : Log) : Prop := ∀ row, l.row = some row → row.breaker = b

def Paused (l : Log) : Prop := ∃ row, l.row = some row ∧ row.paused = true

variable {b : Int} {l l' : Log}

theorem fixed_depth {entry entry' : EntryRow} (h : entry'.fixed = entry.fixed) :
    entry'.depth = entry.depth := by
  have hdepth := congrArg EntryRow.depth h
  exact hdepth

theorem Answers.kept {said : Int × Option Int} (h : l.Answers b said) (hkept : Kept l l') :
    l'.Answers b said := by
  obtain ⟨seq, cause⟩ := said
  obtain ⟨entry, hentry, hbound, hdepth⟩ := h
  obtain ⟨entry', hentry', hfixed⟩ := hkept seq entry hentry
  have hsame := fixed_depth hfixed
  refine ⟨entry', hentry', by rw [hsame]; exact hbound, ?_⟩
  cases cause with
  | none => exact hsame.trans hdepth
  | some cause =>
    obtain ⟨hbefore, answered, hanswered, hdeeper⟩ := hdepth
    obtain ⟨answered', hanswered', hfixed'⟩ := hkept cause answered hanswered
    refine ⟨hbefore, answered', hanswered', ?_⟩
    rw [hsame, fixed_depth hfixed']
    exact hdeeper

variable {f : ChannelRow → ChannelRow} {mutation : Mutation}

theorem BreaksAt.write (h : l.BreaksAt b) (entry : EntryRow)
    (hf : ∀ row, (f row).breaker = row.breaker) : (l.write entry f).BreaksAt b := by
  intro row hrow
  obtain ⟨old, hold, rfl⟩ := Option.map_eq_some_iff.mp hrow
  rw [hf]
  exact h old hold

theorem BreaksAt.apply (h : l.BreaksAt b)
    (hopened : ∀ row, mutation = .opened row → row.breaker = b)
    (hconfigured : ∀ breaker engage, mutation = .configured (some breaker) engage → breaker = b) :
    (l.apply mutation).BreaksAt b := by
  cases mutation with
  | opened row =>
    intro found hfound
    cases hfound
    exact hopened row rfl
  | configured breaker engage =>
    intro row hrow
    obtain ⟨old, hold, rfl⟩ := Option.map_eq_some_iff.mp hrow
    cases breaker with
    | none => exact h old hold
    | some breaker => exact hconfigured breaker engage rfl
  | posted entry byAgent =>
    rw [apply_posted]
    exact h.write entry fun _ => rfl
  | noticed entry pauses =>
    rw [apply_noticed]
    exact h.write entry fun _ => rfl
  | edited seq marker | erased seq marker =>
    exact BreaksAt.write (l := l.rewrite _) h marker fun _ => rfl
  | reacted seq marker => exact BreaksAt.write (l := l.react ..) h marker fun _ => rfl
  | dropped =>
    intro row hrow
    cases hrow

theorem Paused.write (h : l.Paused) (entry : EntryRow)
    (hf : ∀ row, row.paused = true → (f row).paused = true) : (l.write entry f).Paused := by
  obtain ⟨row, hrow, hpaused⟩ := h
  refine ⟨f { row with nextSeq := l.next + 1 }, ?_, hf _ hpaused⟩
  unfold Log.write
  rw [hrow]
  rfl

theorem Paused.apply (h : l.Paused) (hok : mutation.Ok l) (hdrop : mutation ≠ .dropped)
    (hperson : ∀ entry byAgent, mutation = .posted entry byAgent → byAgent = true) :
    (l.apply mutation).Paused := by
  cases mutation with
  | opened row =>
    obtain ⟨found, hfound, -⟩ := h
    rw [hok.1] at hfound
    cases hfound
  | configured breaker engage =>
    obtain ⟨row, hrow, hpaused⟩ := h
    refine ⟨{ row with
      breaker := breaker.getD row.breaker, engage := engage.getD row.engage }, ?_, hpaused⟩
    unfold Log.apply
    simp only [hrow, Option.map_some]
  | posted entry byAgent =>
    rw [apply_posted]
    apply h.write
    intro row hrow
    simp only [hperson entry byAgent rfl, hrow, Bool.and_self]
  | noticed entry pauses =>
    rw [apply_noticed]
    apply h.write
    intro row hrow
    simp only [hrow, Bool.or_true]
  | edited seq marker | erased seq marker =>
    exact Paused.write (l := l.rewrite _) h marker fun _ => id
  | reacted seq marker => exact Paused.write (l := l.react ..) h marker fun _ => id
  | dropped => exact absurd rfl hdrop

end Log

namespace Talk

open Database

variable {channel : String} {b : Int}

structure Sound (channel : String) (b : Int) (w : Talk) : Prop where
  whole : (w.db.channels.log channel).Whole
  breaker : (w.db.channels.log channel).BreaksAt b
  answers : ∀ said ∈ w.answers, (w.db.channels.log channel).Answers b said

variable {d d' : Database} {call : TxEnv × Op} {w : Talk} {env : TxEnv} {post : Post}
    {result : AppendResult}

theorem breaksAt_exec (hfixed : Fixed channel b w call) (h : (d.channels.log channel).BreaksAt b) :
    ((exec call d).channels.log channel).BreaksAt b := by
  refine Steps.invariant (fun l mutation hl hguard => hl.apply ?_ ?_)
    (exec_mutations call d channel) h
  · rintro row rfl
    obtain ⟨tenant, members, hop⟩ := hguard.2
    exact hfixed.2 tenant members row.breaker row.engage hop
  · rintro breaker engage rfl
    exact hfixed.1 breaker engage hguard.2

theorem kept_notices : ∀ (notices : List EntryRow) (l : Log), l.Whole → l.row.isSome →
      (∀ marker ∈ notices, Mutation.Fresh marker ∧ marker.kind = .system) →
      Log.Kept l ((notices.map (Mutation.noticed · false)).foldl (fun l mutation =>
        l.apply mutation) l)
  | [], l, _, _, _ => Log.Kept.refl l
  | marker :: rest, l, hwhole, hrow, hnotices => by
      have hok : (Mutation.noticed marker false).Ok l := ⟨hrow, hnotices marker mem_cons_self⟩
      have hnext : (l.apply (.noticed marker false)).row.isSome = true := by
        change (l.row.map _).isSome = true
        rw [Option.isSome_map]
        exact hrow
      have hnotice : Log.Kept l (l.apply (.noticed marker false)) := by
        apply Log.kept_apply hwhole
        intro hdrop
        cases hdrop
      exact hnotice.trans (kept_notices rest _ (hwhole.apply hok) hnext
        fun other hother => hnotices other (mem_cons_of_mem _ hother))

theorem published_answers {row : ChannelRow} (hwhole : (d.channels.log channel).Whole)
    (hrow : d.channels.channels.get? channel = some row)
    (hdepth : (postDepth d.channels channel post true : Int) ≤ row.breaker)
    (h : d.publish env channel row post (!d.channels.isPerson channel post.sender)
      (postDepth d.channels channel post true) = .ok (d', result)) :
    result.seq = some row.nextSeq ∧ (d'.channels.log channel).Answers row.breaker
      (row.nextSeq, d.channels.answered channel post.causeSeq) := by
  obtain ⟨hseq, notices, -, hnotices, hlog⟩ := publish_cases hrow h
  refine ⟨hseq, ?_⟩
  have hpublished := hlog channel
  rw [if_pos rfl] at hpublished
  generalize hentry : Post.entry post env (d.channels.newEntryId env)
    (postDepth d.channels channel post true) = entry at hpublished
  have hentrydepth : entry.depth = d.channels.causeDepth channel post.causeSeq + 1 := by
    rw [← hentry]
    rfl
  have hthere : (d.channels.log channel).row.isSome = true := by
    change (d.channels.channels.get? channel).isSome = true
    rw [hrow]
    rfl
  have hfresh : Mutation.Fresh entry := by
    rw [← hentry]
    exact ⟨rfl, rfl⟩
  have hposted : Log.Kept (d.channels.log channel) ((d.channels.log channel).apply
      (.posted entry (!d.channels.isPerson channel post.sender))) := by
    apply Log.kept_apply hwhole
    intro hdrop
    cases hdrop
  have hwhole' : ((d.channels.log channel).apply
      (.posted entry (!d.channels.isPerson channel post.sender))).Whole :=
    hwhole.apply ⟨hthere, hfresh⟩
  have hnoticed := kept_notices notices _ hwhole' (by
      change (Option.map _ (d.channels.channels.get? channel)).isSome = true
      rw [Option.isSome_map]
      exact hthere) fun marker hmarker => ⟨(hnotices marker hmarker).1, (hnotices marker hmarker).2.1⟩
  rw [hpublished]
  apply Log.Answers.kept ?_ hnoticed
  have hwritten : ((d.channels.log channel).apply (.posted entry
      (!d.channels.isPerson channel post.sender))).entries row.nextSeq = some entry := by
    rw [Log.apply_posted, Log.entries_write, next_log hrow, if_pos rfl]
  have hdeep : postDepth d.channels channel post true =
      d.channels.causeDepth channel post.causeSeq + 1 := rfl
  refine ⟨entry, hwritten, by rw [hentrydepth, ← hdeep]; exact hdepth, ?_⟩
  rcases answered_depth d.channels channel post.causeSeq with
    ⟨hnone, hzero⟩ | ⟨seq, cause, hsome, hcause, hcount⟩
  · rw [hnone]
    simp only
    rw [hentrydepth, hzero]
  · rw [hsome]
    have hbefore : seq < row.nextSeq := by
      rw [← next_log hrow]
      apply ((hwhole.numbered seq).mp ?_).2
      change (d.channels.entries.get? (channel, seq)).isSome = true
      rw [hcause]
      rfl
    obtain ⟨cause', hcause', hfixed⟩ := hposted seq cause hcause
    refine ⟨hbefore, cause', hcause', ?_⟩
    rw [hentrydepth, hcount, Log.fixed_depth hfixed]

theorem said_answers (hsound : Sound channel b w) {answer : Int × Option Int}
    (h : answer ∈ said channel call w.db) :
    ((exec call w.db).channels.log channel).Answers b answer := by
  obtain ⟨env, op⟩ := call
  unfold said at h
  simp only at h
  split at h
  · rename_i name post
    split at h
    · rename_i hchained
      obtain ⟨rfl, hchains, hdedup⟩ := hchained
      cases happend : w.db.append env name post with
      | error error =>
        rw [happend] at h
        cases h
      | ok done =>
        obtain ⟨d', result⟩ := done
        rw [happend] at h
        have hexec : exec (env, .channel (.append name post)) w.db = d' := by
          unfold exec perform performChannel
          simp only [happend]
          rfl
        rw [hexec]
        rw [Option.isNone_iff_eq_none] at hdedup
        obtain ⟨seq, hseq, rfl⟩ := mem_map.mp h
        rw [Option.mem_toList] at hseq
        obtain ⟨row, hrow, hcases⟩ := append_cases happend
        rcases hcases with ⟨-, -, hnone⟩ | ⟨-, -, -, -, -, -, hresult⟩ | ⟨-, hwithin, hpublish⟩
        · rw [(hnone hdedup).1] at hseq
          cases hseq
        · rw [hresult] at hseq
          cases hseq
        · rw [hchains] at hpublish
          obtain ⟨hnumber, hanswers⟩ :=
            published_answers hsound.whole hrow (hwithin hchains).2 hpublish
          rw [hnumber] at hseq
          cases hseq
          rw [← hsound.breaker row hrow]
          exact hanswers
    · cases h
  · cases h

theorem sound_step (h : Sound channel b w) (hfixed : Fixed channel b w call) :
    Sound channel b (step channel call w) where
  whole := exec_whole h.whole
  breaker := breaksAt_exec hfixed h.breaker
  answers := by
    intro answer hanswer
    unfold step at hanswer ⊢
    simp only at hanswer ⊢
    split at hanswer
    · rename_i hthere
      rcases mem_append.mp hanswer with hold | hnew
      · exact (h.answers answer hold).kept (exec_kept h.whole hthere)
      · exact said_answers h hnew
    · cases hanswer

private def opening : TxEnv × Op := (.plain 0, .channel (.openChannel "c" "default" [] 1 0))

private def speaking : TxEnv × Op :=
  (.plain 0, .channel (.append "c" { sender := "agent/a", text := "hello" }))

private def spoken : Talk := step "c" speaking (step "c" opening { db := {} })

end Talk

end Substrate
