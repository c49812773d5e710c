import Mathlib.Logic.Function.Basic
import Substrate.Channels.Traffic

/-!
A channel by itself: its row, its entries and its reactions, apart from the tables that
hold them with every other channel's. A call changes a channel by mutations, each of which
writes one entry under the channel's next number or rewrites entries where they are.
-/

namespace Substrate

open Lib List Function

structure Log where
  row : Option ChannelRow := none
  entries : Int → Option EntryRow := fun _ => none
  reactions : Int → Address → Option ReactionRow := fun _ _ => none

/-- What a call does to a channel. A marker is the entry that records it. -/
inductive Mutation where
  | opened (row : ChannelRow)
  | configured (breaker : Option Int) (engage : Option Time)
  | posted (entry : EntryRow) (byAgent : Bool)
  | noticed (entry : EntryRow) (pauses : Bool)
  | edited (seq : Int) (marker : EntryRow)
  | erased (seq : Int) (marker : EntryRow)
  | reacted (seq : Int) (marker : EntryRow)
  | dropped

namespace Channels

def log (c : Channels) (channel : String) : Log where
  row := c.channels.get? channel
  entries seq := c.entries.get? (channel, seq)
  reactions seq participant := c.reactions.get? (channel, seq, participant)

end Channels

namespace Log

def next (l : Log) : Int :=
  match l.row with
  | some row => row.nextSeq
  | none => 0

def write (l : Log) (entry : EntryRow) (f : ChannelRow → ChannelRow) : Log :=
  { l with
    row := l.row.map fun row => f { row with nextSeq := l.next + 1 }
    entries := update l.entries l.next (some entry) }

def rewrite (l : Log) (f : Int → EntryRow → EntryRow) : Log :=
  { l with entries := fun seq => (l.entries seq).map (f seq) }

def react (l : Log) (seq : Int) (participant : Address) (reaction : Option ReactionRow) : Log :=
  { l with
    reactions := fun seq' participant' =>
      if seq' = seq ∧ participant' = participant then reaction else l.reactions seq' participant' }

def erasing (seq : Int) (at' : Time) (key : Int) (entry : EntryRow) : EntryRow :=
  let entry := if key = seq then Database.blankEntry at' entry else entry
  if entry.kind = .edit ∧ entry.replyTo = some seq then { entry with text := "", data := [] }
  else entry

def apply (mutation : Mutation) (l : Log) : Log :=
  match mutation with
  | .opened row => { l with row := some row }
  | .configured breaker engage =>
    { l with
      row := l.row.map fun row =>
        { row with breaker := breaker.getD row.breaker, engage := engage.getD row.engage } }
  | .posted entry byAgent => l.write entry fun row => { row with paused := byAgent && row.paused }
  | .noticed entry pauses => l.write entry fun row => { row with paused := pauses || row.paused }
  | .edited seq marker =>
    (l.rewrite fun key entry =>
      if key = seq then Database.editEntry marker.text marker.at' entry else entry).write marker id
  | .erased seq marker => (l.rewrite (erasing seq marker.at')).write marker id
  | .reacted seq marker =>
    (l.react seq marker.sender (if marker.text = "" then none
      else some { emoji := marker.text, markerSeq := l.next })).write marker id
  | .dropped => {}

/-- Contiguous numbers, reactions to messages only, and nothing kept of a channel that
is not there. -/
structure Whole (l : Log) : Prop where
  numbered : ∀ seq, (l.entries seq).isSome ↔ 0 ≤ seq ∧ seq < l.next
  reacted : ∀ seq participant, (l.reactions seq participant).isSome → (l.entries seq).isSome
  nonneg : 0 ≤ l.next

end Log

namespace Mutation

def Fresh (entry : EntryRow) : Prop := entry.editedAt = none ∧ entry.deletedAt = none

/-- The marker records a change of `seq`. -/
def Marks (seq : Int) (kind : EntryKind) (marker : EntryRow) : Prop :=
  marker.kind = kind ∧ marker.replyTo = some seq

/-- When a mutation may be done. -/
def Ok (l : Log) : Mutation → Prop
  | .opened row => l.row = none ∧ row.nextSeq = 0
  | .configured .. => True
  | .posted entry _ => l.row.isSome ∧ Fresh entry
  | .noticed entry _ => l.row.isSome ∧ Fresh entry ∧ entry.kind = .system
  | .edited seq marker =>
    l.row.isSome ∧ Fresh marker ∧ Marks seq .edit marker ∧
      ∃ entry, l.entries seq = some entry ∧ entry.kind = .message ∧ entry.deletedAt = none
  | .erased seq marker =>
    l.row.isSome ∧ Fresh marker ∧ Marks seq .tombstone marker ∧ marker.text = "" ∧
      ∃ entry, l.entries seq = some entry ∧ entry.kind = .message ∧ entry.deletedAt = none
  | .reacted seq marker =>
    l.row.isSome ∧ Fresh marker ∧ Marks seq .reaction marker ∧
      ∃ entry, l.entries seq = some entry ∧ entry.kind = .message
  | .dropped => True

/-- The mutations a call may do to a channel of `c`. -/
def Of (c : Channels) (op : Database.Op) (channel : String) : Mutation → Prop
  | .posted entry byAgent => ∃ post : Post, op = .channel (.append channel post) ∧
      entry.kind = post.kind ∧ entry.replyTo = post.replyTo ∧
        byAgent = !c.isPerson channel post.sender
  | .configured breaker engage => op = .channel (.configure channel breaker engage)
  | .opened row => ∃ tenant members,
      op = .channel (.openChannel channel tenant members row.breaker row.engage)
  | .dropped => op = .channel (.delete channel) ∨
      ∃ tenant channels, op = .store (.erase tenant none none channels)
  | _ => True

end Mutation

namespace Channels

def markerEntry (c : Channels) (env : TxEnv) (sender : Address) (kind : EntryKind) (text : String)
    (replyTo : Option Int) (data : JsonObject) : EntryRow :=
  { id := c.newEntryId env, sender, kind, text, replyTo, at' := env.clock, data }

variable {c c' : Channels} {channel : String} {row : ChannelRow}

theorem next_log (hrow : c.channels.get? channel = some row) :
    (c.log channel).next = row.nextSeq := by
  unfold Log.next log
  rw [hrow]

theorem written_log {entry : EntryRow} {f : ChannelRow → ChannelRow}
    (hrow : c.channels.get? channel = some row)
    (hwrite : c.writeEntry channel row.nextSeq entry = .ok c') (other : String) :
    ({ c' with
      channels := c'.channels.modify channel
        fun row' => f ({ row' with nextSeq := row.nextSeq + 1 }) } : Channels).log other =
      if other = channel then (c.log channel).write entry f else c.log other := by
  have hnext := next_log hrow
  unfold writeEntry at hwrite
  split at hwrite
  · cases hwrite
  rename_i hfree
  injection hwrite with hwrite
  subst hwrite
  simp only [Bool.or_eq_true, not_or, Bool.not_eq_true, Option.isSome_eq_false_iff,
    Option.isNone_iff_eq_none] at hfree
  have hget : ∀ key, (c.entries.insert (channel, row.nextSeq) entry).get? key =
      if key = (channel, row.nextSeq) then some entry else c.entries.get? key :=
    fun key => Table.get?_insert_of_none hfree.1.1
  by_cases hother : other = channel
  · subst hother
    rw [if_pos rfl]
    unfold Log.write log
    congr 1
    · change (c.channels.modify other _).get? other = _
      rw [Table.get?_modify_self, hrow, Option.map_some, Option.map_some]
      unfold Log.next
      simp only
    · funext seq
      rw [hget]
      unfold Log.next
      simp only [hrow, Prod.mk.injEq, true_and, update_apply]
  · rw [if_neg hother]
    unfold log
    congr 1
    · exact Table.get?_modify_of_ne hother
    · funext seq
      rw [hget, if_neg]
      intro heq
      exact hother (Prod.mk.inj heq).1

theorem writeMarker_log {env : TxEnv} {sender : Address} {kind : EntryKind} {text : String}
    {replyTo : Option Int} {data : JsonObject} (hrow : c.channels.get? channel = some row)
    (h : c.writeMarker env channel row.nextSeq sender kind text replyTo data = .ok c')
    (other : String) :
    c'.log other = if other = channel then
      (c.log channel).write (c.markerEntry env sender kind text replyTo data) id
        else c.log other := by
  obtain ⟨c₁, hwrite, h⟩ := bind_ok_iff.mp h
  cases h
  exact written_log (f := id) hrow hwrite other

end Channels

namespace Database

open Channels

variable {c c' : Channels} {env : TxEnv} {channel : String} {row : ChannelRow} {post : Post}
    {byAgent : Bool} {depth : Nat} {seq : Int} {sender : Address} {result : Option Int}
    {repliedTo : Option Address} {d d' : Database}

theorem logPost_log (hrow : c.channels.get? channel = some row)
    (h : logPost c env channel row post byAgent depth = .ok c') (other : String) :
    c'.log other = if other = channel then
      (c.log channel).apply (.posted (Post.entry post env (c.newEntryId env) depth) byAgent)
        else c.log other := by
  obtain ⟨c₁, hwrite, h⟩ := bind_ok_iff.mp h
  cases h
  exact written_log (f := fun row => { row with paused := byAgent && row.paused }) hrow hwrite other

theorem pause_log (hrow : c.channels.get? channel = some row)
    (h : pause c env channel row depth = .ok c') (other : String) :
    c'.log other = if other = channel then
      (c.log channel).apply
        (.noticed (c.markerEntry env systemSender .system (pausedText depth) none []) true)
        else c.log other := by
  obtain ⟨c₁, hmarker, h⟩ := bind_ok_iff.mp h
  cases h
  have hlog := writeMarker_log hrow hmarker other
  by_cases hother : other = channel
  · subst hother
    rw [if_pos rfl] at hlog ⊢
    change ({ c₁.log other with row := (c₁.channels.modify other _).get? other } : Log) = _
    have hrow₁ : c₁.channels.get? other = (c₁.log other).row := rfl
    rw [Table.get?_modify_self, hrow₁, hlog]
    unfold Log.apply Log.write
    simp only [Option.map_map]
    rfl
  · rw [if_neg hother] at hlog ⊢
    rw [← hlog]
    change ({ c₁.log other with row := (c₁.channels.modify channel _).get? other } : Log) = _
    rw [Table.get?_modify_of_ne hother]
    rfl

theorem ownMessage_eq {entry : EntryRow} (h : ownMessage c channel seq sender = some (row, entry)) :
    c.channels.get? channel = some row ∧ c.entries.get? (channel, seq) = some entry ∧
      entry.kind = .message ∧ entry.deletedAt = none := by
  unfold ownMessage at h
  split at h
  · rename_i hrow hentry
    split at h
    · cases h
    rename_i hown
    cases h
    simp only [ne_eq, Bool.or_eq_true, decide_eq_true_eq, not_or, not_not, Bool.not_eq_true,
      Option.isSome_eq_false_iff, Option.isNone_iff_eq_none] at hown
    exact ⟨hrow, hentry, hown.1.1, hown.2⟩
  · cases h

theorem rewritten_log (c : Channels) (channel : String) {f : String × Int → EntryRow → EntryRow}
    (hf : ∀ other seq entry, other ≠ channel → f (other, seq) entry = entry) (other : String) :
    ({ c with entries := c.entries.map f } : Channels).log other =
      if other = channel then (c.log channel).rewrite fun seq => f (channel, seq)
        else c.log other := by
  unfold log Log.rewrite
  by_cases hother : other = channel
  · subst hother
    rw [if_pos rfl]
    congr 1
    funext seq
    exact Table.get?_map ..
  · rw [if_neg hother]
    congr 1
    funext seq
    rw [Table.get?_map]
    cases c.entries.get? (other, seq) with
    | none => rfl
    | some entry => exact congrArg some (hf other seq entry hother)

theorem setEntry_log (c : Channels) (channel : String) (seq : Int) (f : EntryRow → EntryRow)
    (other : String) :
    (setEntry c channel seq f).log other =
      if other = channel then
        (c.log channel).rewrite fun key entry => if key = seq then f entry else entry
          else c.log other := by
  have hothers : ∀ other seq' entry, other ≠ channel →
      (if (other, seq') = (channel, seq) then f entry else entry) = entry := by
    intro other' seq' entry hother
    rw [if_neg]
    intro heq
    exact hother (Prod.mk.inj heq).1
  have hlog := rewritten_log c channel
    (f := fun key entry => if key = (channel, seq) then f entry else entry) hothers other
  simp only [Prod.mk.injEq, true_and] at hlog
  exact hlog

theorem erase_log (c : Channels) (channel : String) (seq : Int) (at' : Time) (other : String) :
    (blankEdits (setEntry c channel seq (blankEntry at')) channel seq).log other =
      if other = channel then (c.log channel).rewrite (Log.erasing seq at') else c.log other := by
  have hset := setEntry_log c channel seq (blankEntry at')
  have hblank : (blankEdits (setEntry c channel seq (blankEntry at')) channel seq).log other = _ :=
    rewritten_log (setEntry c channel seq (blankEntry at')) channel (f := fun key entry =>
      if key.1 = channel && entry.kind = EntryKind.edit && entry.replyTo = some seq then
        { entry with text := "", data := [] }
      else entry) (by
        intro other' seq' entry hother
        rw [if_neg]
        simp [hother]) other
  rw [hblank, hset, hset]
  by_cases hother : other = channel
  · simp only [hother, if_true]
    unfold Log.rewrite
    congr 1
    funext key
    rw [Option.map_map]
    cases (c.log channel).entries key with
    | none => rfl
    | some entry =>
      unfold Log.erasing
      simp only [Option.map_some, comp_apply, decide_true, Bool.true_and,
        Bool.and_eq_true, decide_eq_true_eq]
  · simp only [hother, if_false]

theorem edit_cases {text : String} (h : edit c env channel seq sender text = .ok (c', result)) :
    (ownMessage c channel seq sender = none ∧ c' = c ∧ result = none) ∨
      ∃ row entry marker, ownMessage c channel seq sender = some (row, entry) ∧
        marker = (setEntry c channel seq (editEntry text env.clock)).markerEntry env sender .edit
          text (some seq) [("previous", .str entry.text)] ∧ result = some row.nextSeq ∧
        ∀ other, c'.log other =
          if other = channel then (c.log channel).apply (.edited seq marker) else c.log other := by
  unfold edit at h
  cases hown : ownMessage c channel seq sender with
  | none =>
    simp only [hown] at h
    cases h
    exact .inl ⟨rfl, rfl, rfl⟩
  | some found =>
    obtain ⟨row, entry⟩ := found
    simp only [hown] at h
    obtain ⟨c₁, hmarker, h⟩ := bind_ok_iff.mp h
    cases h
    refine .inr ⟨row, entry, _, rfl, rfl, rfl, ?_⟩
    intro other
    have hrow : (setEntry c channel seq (editEntry text env.clock)).channels.get? channel =
      some row := (ownMessage_eq hown).1
    rw [writeMarker_log hrow hmarker other, setEntry_log, setEntry_log]
    by_cases hother : other = channel
    · simp only [hother, if_true]
      rfl
    · simp only [hother, if_false]

theorem tombstone_cases (h : tombstone c env channel seq sender = .ok (c', result)) :
    (ownMessage c channel seq sender = none ∧ c' = c ∧ result = none) ∨
      ∃ row entry marker, ownMessage c channel seq sender = some (row, entry) ∧
        marker = (blankEdits (setEntry c channel seq (blankEntry env.clock)) channel
          seq).markerEntry env sender .tombstone "" (some seq) [] ∧ result = some row.nextSeq ∧
        ∀ other, c'.log other =
          if other = channel then (c.log channel).apply (.erased seq marker) else c.log other := by
  unfold tombstone at h
  cases hown : ownMessage c channel seq sender with
  | none =>
    simp only [hown] at h
    cases h
    exact .inl ⟨rfl, rfl, rfl⟩
  | some found =>
    obtain ⟨row, entry⟩ := found
    simp only [hown] at h
    obtain ⟨c₁, hmarker, h⟩ := bind_ok_iff.mp h
    cases h
    refine .inr ⟨row, entry, _, rfl, rfl, rfl, ?_⟩
    intro other
    have hrow : (blankEdits (setEntry c channel seq (blankEntry env.clock)) channel
      seq).channels.get? channel = some row := (ownMessage_eq hown).1
    rw [writeMarker_log hrow hmarker other, erase_log, erase_log]
    by_cases hother : other = channel
    · simp only [hother, if_true]
      rfl
    · simp only [hother, if_false]

theorem reactions_log (c : Channels) (channel : String) (seq : Int) (participant : Address)
    (emoji : String) (markerSeq : Int) (other : String) :
    (if emoji = "" then
        { c with reactions := c.reactions.erase (channel, seq, participant) }
      else
        { c with
          reactions := c.reactions.upsert (channel, seq, participant) { emoji, markerSeq }
            fun _ => { emoji, markerSeq } } : Channels).log other =
      if other = channel then
        (c.log channel).react seq participant (if emoji = "" then none else some { emoji, markerSeq })
      else c.log other := by
  unfold log Log.react
  by_cases hother : other = channel
  · subst hother
    rw [if_pos rfl]
    split
    · congr 1
      funext seq' participant'
      change (c.reactions.erase _).get? _ = _
      rw [Table.get?_erase]
      simp only [Prod.mk.injEq, true_and]
    · congr 1
      funext seq' participant'
      change ((c.reactions.insert _ _).modify _ _).get? _ = _
      rw [Table.get?_modify, Table.get?_insert]
      simp only [Prod.mk.injEq, true_and]
      split
      · rfl
      · rfl
  · rw [if_neg hother]
    split
    · congr 1
      funext seq' participant'
      change (c.reactions.erase _).get? _ = _
      rw [Table.get?_erase, if_neg]
      intro heq
      exact hother (Prod.mk.inj heq).1
    · congr 1
      funext seq' participant'
      have hne : (other, seq', participant') ≠ (channel, seq, participant) := fun heq =>
        hother (Prod.mk.inj heq).1
      change ((c.reactions.insert _ _).modify _ _).get? _ = _
      rw [Table.get?_modify_of_ne hne, Table.get?_insert, if_neg hne]

theorem react_cases {participant : Address} {emoji : String}
    (h : react c env channel seq participant emoji = .ok (c', result)) :
    c' = c ∨ ∃ row entry marker, c.channels.get? channel = some row ∧
        c.entries.get? (channel, seq) = some entry ∧ entry.kind = .message ∧
        Mutation.Marks seq .reaction marker ∧ Mutation.Fresh marker ∧ marker.depth = 0 ∧
        ∀ other, c'.log other =
          if other = channel then (c.log channel).apply (.reacted seq marker) else c.log other := by
  unfold react at h
  split at h
  · rename_i row entry hrow hentry
    split at h
    · cases h
      exact .inl rfl
    rename_i hkind
    simp only at h
    split at h
    · cases h
      exact .inl rfl
    obtain ⟨c₁, hmarker, h⟩ := bind_ok_iff.mp h
    cases h
    have hreactions := reactions_log c channel seq participant emoji row.nextSeq
    generalize hset : (if emoji = "" then
        { c with reactions := c.reactions.erase (channel, seq, participant) }
      else
        { c with
          reactions := c.reactions.upsert (channel, seq, participant)
            { emoji, markerSeq := row.nextSeq } fun _ => { emoji, markerSeq := row.nextSeq } } :
      Channels) = c₂ at hmarker hreactions
    refine .inr ⟨row, entry, c₂.markerEntry env participant .reaction emoji (some seq) [], hrow,
      hentry, not_not.mp hkind, ⟨rfl, rfl⟩, ⟨rfl, rfl⟩, rfl, ?_⟩
    have hrow₂ : c₂.channels.get? channel = some row := by
      rw [← hset]
      split
      · exact hrow
      · exact hrow
    intro other
    rw [writeMarker_log hrow₂ hmarker other, hreactions, hreactions]
    by_cases hother : other = channel
    · simp only [hother, if_true]
      unfold Log.apply
      simp only [next_log hrow]
      rfl
    · simp only [hother, if_false]
  · cases h
    exact .inl rfl

/-- Why an entry wakes a member, if it does and the member has an inbox: the inbox. -/
def wakeInto (s : Store) (env : TxEnv) (channel : String) (tenant : Tenant) (post : Post)
    (repliedTo : Option Address) (member : Address × MemberRow) : Option Address :=
  if (wakeReason member.2.mode member.1 post.mentions repliedTo
        (decide (env.clock < member.2.engagedUntil.getD 0))).isSome &&
      (s.exhausted (wakeAccounts channel member.1 tenant) false).isNone then
    member.2.inbox
  else none

theorem wakeMember_cases {turn turn' : Database × List Address × List Address}
    {member : Address × MemberRow}
    (h : wakeMember env channel row seq post repliedTo turn member = .ok turn') :
    (∃ members, turn'.1.channels = { turn.1.channels with members }) ∧
      ((wakeInto turn.1.store env channel row.tenant post repliedTo member = none ∧
          turn'.1.store = turn.1.store ∧ turn'.2.1 = turn.2.1) ∨
        ∃ inbox reason accepted,
          wakeInto turn.1.store env channel row.tenant post repliedTo member = some inbox ∧
          turn.1.store.deliver env
            { agent := inbox, msg := wakeMessage channel seq member.1 post.sender reason
              tenant := row.tenant, accounts := wakeAccounts channel member.1 row.tenant } true =
            .ok (turn'.1.store, accepted) ∧ turn'.2.1 = turn.2.1 ++ [inbox]) := by
  obtain ⟨d, woken, unannounced⟩ := turn
  obtain ⟨address, memberRow⟩ := member
  unfold wakeMember at h
  unfold wakeInto
  simp only at h ⊢
  cases hinbox : memberRow.inbox with
  | none =>
    simp only [hinbox] at h
    cases h
    exact ⟨⟨_, rfl⟩, .inl ⟨ite_self .., rfl, rfl⟩⟩
  | some inbox =>
    simp only [hinbox] at h
    split at h
    · rename_i hreason
      cases h
      exact ⟨⟨_, rfl⟩, .inl ⟨by simp [hreason], rfl, rfl⟩⟩
    rename_i reason hreason
    obtain ⟨members, hdirect⟩ : ∃ members, (if reason = .direct then
        d.channels.engage channel address (env.clock + row.engage) else d.channels) =
          { d.channels with members } := by
      split
      · exact ⟨_, rfl⟩
      · exact ⟨_, rfl⟩
    rw [hdirect] at h
    split at h
    · rename_i hspent
      cases h
      refine ⟨⟨members, rfl⟩, .inl ⟨?_, rfl, rfl⟩⟩
      rw [if_neg]
      simp [Option.ne_none_iff_isSome.mpr hspent]
    rename_i hfunded
    split at h
    · cases h
    rename_i s accepted hdeliver
    cases h
    rw [Bool.not_eq_true, Option.isSome_eq_false_iff] at hfunded
    refine ⟨?_, .inr ⟨inbox, reason, accepted, by simp [hreason, hfunded], hdeliver, rfl⟩⟩
    simp only
    split
    · exact ⟨_, rfl⟩
    · exact ⟨members, rfl⟩

theorem wakeMembers_members (members : List (Address × MemberRow)) :
    ∀ {turn turn' : Database × List Address × List Address},
      members.foldlM (wakeMember env channel row seq post repliedTo) turn = .ok turn' →
      ∃ members, turn'.1.channels = { turn.1.channels with members } := by
  induction members with
  | nil =>
    intro turn turn' h
    cases h
    exact ⟨_, rfl⟩
  | cons member rest ih =>
    intro turn turn' h
    rw [foldlM_cons] at h
    obtain ⟨turn₁, hfirst, hrest⟩ := bind_ok_iff.mp h
    obtain ⟨changed, hturn⟩ := (wakeMember_cases hfirst).1
    obtain ⟨final, hfinal⟩ := ih hrest
    exact ⟨final, by rw [hfinal, hturn]⟩

theorem noticeMembers_members (channel : String) (addresses : List Address) :
    ∀ c : Channels, ∃ members,
      addresses.foldl (fun c address => c.setNoticed channel address true) c =
        { c with members } := by
  induction addresses with
  | nil => exact fun c => ⟨_, rfl⟩
  | cons address rest ih =>
    intro c
    obtain ⟨members, hrest⟩ := ih (c.setNoticed channel address true)
    exact ⟨members, by rw [foldl_cons, hrest]; rfl⟩

theorem announce_cases {latest : Int} {unannounced : List Address}
    (hrow : c.channels.get? channel = some row) (hnext : row.nextSeq = seq + 1)
    (h : announce c env channel seq unannounced = .ok (c', latest)) :
    (c' = c ∧ latest = seq) ∨ ∃ marker : EntryRow, Mutation.Fresh marker ∧ marker.kind = .system ∧
      marker.depth = 0 ∧ latest = seq + 1 ∧ ∀ other, c'.log other =
        if other = channel then (c.log channel).apply (.noticed marker false) else c.log other := by
  unfold announce at h
  split at h
  · cases h
    exact .inl ⟨rfl, rfl⟩
  · obtain ⟨c₁, hmarker, h⟩ := bind_ok_iff.mp h
    cases h
    obtain ⟨members, hmembers⟩ := noticeMembers_members channel unannounced c
    rw [hmembers, ← hnext] at hmarker
    refine .inr ⟨({ c with members } : Channels).markerEntry env systemSender .system
      (exhaustedText unannounced) none [("budget_exhausted", .arr (unannounced.map .str))],
      ⟨rfl, rfl⟩, rfl, rfl, rfl, fun other => ?_⟩
    have hlog := writeMarker_log (c := { c with members }) hrow hmarker other
    have hid : (fun row : ChannelRow => { row with paused := false || row.paused }) = id := rfl
    change _ = if other = channel then (c.log channel).write _
      (fun row => { row with paused := false || row.paused }) else _
    rw [hlog, hid]
    rfl

theorem publish_cases {result : AppendResult} (hrow : d.channels.channels.get? channel = some row)
    (h : d.publish env channel row post byAgent depth = .ok (d', result)) :
    result.seq = some row.nextSeq ∧ ∃ notices : List EntryRow, notices.length ≤ 1 ∧
        (∀ marker ∈ notices, Mutation.Fresh marker ∧ marker.kind = .system ∧ marker.depth = 0) ∧
        ∀ other, d'.channels.log other = if other = channel then
            (notices.map (Mutation.noticed · false)).foldl (fun l mutation => l.apply mutation)
              ((d.channels.log channel).apply (.posted (Post.entry post env
                (d.channels.newEntryId env) depth) byAgent))
          else d.channels.log other := by
  obtain ⟨c, hlog, h⟩ := bind_ok_iff.mp h
  obtain ⟨⟨d₁, woken, unannounced⟩, hwake, h⟩ := bind_ok_iff.mp h
  obtain ⟨⟨c₁, latest⟩, hannounce, h⟩ := bind_ok_iff.mp h
  cases h
  obtain ⟨members, hmembers⟩ := wakeMembers_members _ hwake
  have hposted := logPost_log hrow hlog
  have hsame : ∀ other, d₁.channels.log other = c.log other := by
    intro other
    simp only at hmembers
    rw [hmembers]
    rfl
  have hnumber := hposted channel
  rw [if_pos rfl] at hnumber
  obtain ⟨row', hrow', hnext⟩ : ∃ row', c.channels.get? channel = some row' ∧
      row'.nextSeq = row.nextSeq + 1 := by
    have hget := congrArg Log.row hnumber
    change c.channels.get? channel = (d.channels.channels.get? channel).map _ at hget
    rw [hrow, Option.map_some, next_log hrow] at hget
    exact ⟨_, hget, rfl⟩
  refine ⟨rfl, ?_⟩
  simp only at hmembers
  have hrow₁ : d₁.channels.channels.get? channel = some row' := by
    rw [hmembers]
    exact hrow'
  rcases announce_cases hrow₁ hnext hannounce with ⟨rfl, -⟩ | ⟨marker, hfresh, hkind, hdepth, -, hmarker⟩
  · refine ⟨[], Nat.zero_le _, fun _ hnone => (not_mem_nil hnone).elim, fun other => ?_⟩
    rw [hsame, hposted]
    rfl
  · refine ⟨[marker], Nat.le_refl _, ?_, fun other => ?_⟩
    · intro other hother
      rw [mem_singleton] at hother
      subst hother
      exact ⟨hfresh, hkind, hdepth⟩
    · rw [hmarker, hsame, hsame, hposted, hposted]
      by_cases hother : other = channel
      · simp only [hother, if_true]
        rfl
      · simp only [hother, if_false]

def chains (c : Channels) (channel : String) (post : Post) : Bool :=
  !c.isPerson channel post.sender && !post.fresh

theorem append_cases {result : AppendResult} (h : d.append env channel post = .ok (d', result)) :
    ∃ row, d.channels.channels.get? channel = some row ∧ ((d' = d ∧ result.woken = [] ∧
          (d.channels.findDedup channel post.dedupKey = none → result.seq = none ∧
            (result.stale = true ∨ chains d.channels channel post = true ∧ row.paused = true))) ∨
        (d.channels.findDedup channel post.dedupKey = none ∧ chains d.channels channel post = true ∧
          row.paused = false ∧ row.breaker < postDepth d.channels channel post true ∧
          pause d.channels env channel row (postDepth d.channels channel post true) =
            .ok d'.channels ∧ d'.store = d.store ∧
          result = { paused := true, latest := row.nextSeq }) ∨
        (d.channels.findDedup channel post.dedupKey = none ∧
          (chains d.channels channel post = true → row.paused = false ∧
            (postDepth d.channels channel post true : Int) ≤ row.breaker) ∧
          d.publish env channel row post (!d.channels.isPerson channel post.sender)
            (postDepth d.channels channel post (chains d.channels channel post)) =
              .ok (d', result))) := by
  unfold append at h
  cases hrow : d.channels.channels.get? channel with
  | none =>
    simp only [hrow] at h
    cases h
  | some row =>
    simp only [hrow] at h
    refine ⟨row, rfl, ?_⟩
    split at h
    · rename_i hdedup
      cases h
      refine .inl ⟨rfl, rfl, fun hnone => ?_⟩
      rw [hdedup] at hnone
      cases hnone
    rename_i hdedup
    change (if chains d.channels channel post && row.paused then _ else _) = _ at h
    split at h
    · rename_i hpaused
      cases h
      exact .inl ⟨rfl, rfl, fun _ => ⟨rfl, .inr (by simpa using hpaused)⟩⟩
    rename_i hpaused
    split at h
    · cases h
      exact .inl ⟨rfl, rfl, fun _ => ⟨rfl, .inl rfl⟩⟩
    change (if chains d.channels channel post && decide (row.breaker <
      (postDepth d.channels channel post (chains d.channels channel post) : Int)) then _
        else _) = _ at h
    rw [Bool.and_eq_true, not_and, Bool.not_eq_true] at hpaused
    split at h
    · rename_i htrip
      rw [Bool.and_eq_true, decide_eq_true_eq] at htrip
      obtain ⟨c, hpause, h⟩ := bind_ok_iff.mp h
      cases h
      obtain ⟨hchains, hdepth⟩ := htrip
      rw [hchains] at hdepth
      refine .inr (.inl ⟨hdedup, hchains, hpaused hchains, hdepth, ?_, rfl, rfl⟩)
      rw [← hchains]
      exact hpause
    · rename_i htrip
      rw [Bool.and_eq_true, decide_eq_true_eq, not_and] at htrip
      refine .inr (.inr ⟨hdedup, fun hchains => ⟨hpaused hchains, ?_⟩, h⟩)
      have hdepth := htrip hchains
      rw [hchains] at hdepth
      exact Int.not_lt.mp hdepth

theorem dropChannel_log (c : Channels) (name other : String) :
    (dropChannel c name).log other = if other = name then {} else c.log other := by
  unfold log dropChannel
  by_cases hother : other = name
  · subst hother
    rw [if_pos rfl]
    congr 1
    · simp [Table.get?_erase]
    · funext seq
      rw [Table.get?_filter, Option.filter_eq_none_iff]
      simp
    · funext seq participant
      rw [Table.get?_filter, Option.filter_eq_none_iff]
      simp
  · rw [if_neg hother]
    congr 1
    · simp [Table.get?_erase, hother]
    · funext seq
      rw [Table.get?_filter]
      cases c.entries.get? (other, seq) <;> simp [hother]
    · funext seq participant
      rw [Table.get?_filter]
      cases c.reactions.get? (other, seq, participant) <;> simp [hother]

theorem dropChannels_log (names : List String) (c : Channels) (other : String) :
    (names.foldl dropChannel c).log other = if other ∈ names then {} else c.log other := by
  induction names generalizing c with
  | nil => rfl
  | cons name rest ih =>
    rw [foldl_cons, ih, dropChannel_log]
    by_cases hother : other = name
    · simp [hother]
    · simp [hother]

theorem openChannel_log (c : Channels) (channel : String) (tenant : Tenant)
    (members : List Member) (breaker : Int) (engage : Time) (other : String) :
    (c.openChannel channel tenant members breaker engage).log other =
      if other = channel ∧ c.channels.get? channel = none then
        (c.log channel).apply (.opened { tenant, breaker, engage }) else c.log other := by
  have hmembers : ∀ c : Channels,
      (members.foldl (fun c member => c.setMember channel member) c).log other = c.log other :=
    foldl_keeps (fun c : Channels => c.log other)
      (fun c member => (rfl : (c.setMember channel member).log other = c.log other)) members
  unfold openChannel
  rw [hmembers]
  change ({ c.log other with
    row := (c.channels.insert channel { tenant, breaker, engage }).get? other } : Log) = _
  rw [Table.get?_insert]
  by_cases hother : other = channel
  · subst hother
    rw [if_pos rfl]
    cases hrow : c.channels.get? other with
    | none =>
      rw [if_pos ⟨rfl, rfl⟩]
      rfl
    | some row =>
      rw [if_neg (by simp)]
      change ({ c.log other with row := some row } : Log) = _
      rw [← hrow]
      rfl
  · rw [if_neg hother, if_neg fun h => hother h.1]
    rfl

section Mutations

variable {op : Op} {channel name : String} {c c' : Channels}

abbrev Mutations (c : Channels) (op : Op) (channel : String) : Log → Log → Prop :=
  Steps Log.apply fun l mutation => mutation.Ok l ∧ mutation.Of c op channel

private theorem mutation_steps (mutation : Mutation)
    (hlog : ∀ other, c'.log other = if other = name then (c.log name).apply mutation else c.log other)
    (hok : mutation.Ok (c.log name)) (hof : name = channel → mutation.Of c op channel) :
    Mutations c op channel (c.log channel) (c'.log channel) := by
  rw [hlog]
  by_cases hname : channel = name
  · subst hname
    rw [if_pos rfl]
    exact Steps.single mutation ⟨hok, hof rfl⟩
  · rw [if_neg hname]
    exact Steps.refl _

private theorem notices_mutations {pauses : Bool} :
    ∀ (notices : List EntryRow) (l : Log), l.row.isSome →
      (∀ marker ∈ notices, Mutation.Fresh marker ∧ marker.kind = .system) →
      Mutations c op channel l
        ((notices.map (Mutation.noticed · pauses)).foldl (fun l mutation => l.apply mutation) l)
  | [], l, _, _ => Steps.refl l
  | marker :: rest, l, hrow, hnotices => by
      have hok : (Mutation.noticed marker pauses).Ok l ∧
          (Mutation.noticed marker pauses).Of c op channel :=
        ⟨⟨hrow, hnotices marker mem_cons_self⟩, trivial⟩
      refine (Steps.single (Mutation.noticed marker pauses) hok).trans (notices_mutations rest _ ?_ ?_)
      · change (l.row.map _).isSome = true
        rw [Option.isSome_map]
        exact hrow
      · exact fun other hother => hnotices other (mem_cons_of_mem _ hother)

variable {d d' : Database} {env : TxEnv}

theorem append_mutations {post : Post} {result : AppendResult} (channel : String)
    (h : d.append env name post = .ok (d', result)) :
    Mutations d.channels (.channel (.append name post)) channel (d.channels.log channel)
      (d'.channels.log channel) := by
  obtain ⟨row, hrow, hcases⟩ := append_cases h
  have hrowlog : (d.channels.log name).row.isSome = true := by
    change (d.channels.channels.get? name).isSome = true
    rw [hrow]
    rfl
  rcases hcases with ⟨rfl, -⟩ | ⟨-, -, -, -, hpause, -, -⟩ | ⟨-, -, hpublish⟩
  · exact Steps.refl _
  · exact mutation_steps _ (pause_log hrow hpause) ⟨hrowlog, ⟨rfl, rfl⟩, rfl⟩ fun _ => trivial
  · obtain ⟨-, notices, -, hnotices, hlog⟩ := publish_cases hrow hpublish
    rw [hlog]
    by_cases hname : channel = name
    · subst hname
      rw [if_pos rfl]
      refine (Steps.single (Mutation.posted (Post.entry post env (d.channels.newEntryId env)
        (postDepth d.channels channel post (chains d.channels channel post)))
          (!d.channels.isPerson channel post.sender))
        ⟨⟨hrowlog, rfl, rfl⟩, post, rfl, rfl, rfl, rfl⟩).trans (notices_mutations notices _ ?_ ?_)
      · change (Option.map _ (d.channels.channels.get? channel)).isSome = true
        rw [Option.isSome_map]
        exact hrowlog
      · exact fun marker hmarker => ⟨(hnotices marker hmarker).1, (hnotices marker hmarker).2.1⟩
    · rw [if_neg hname]
      exact Steps.refl _

/-- What a method does to a channel is a run of the mutations it may do. -/
theorem performChannel_mutations {op : ChannelOp} (channel : String)
    (h : d.performChannel env op = .ok d') :
    Mutations d.channels (.channel op) channel (d.channels.log channel)
      (d'.channels.log channel) := by
  have hisSome : ∀ {name : String} {row : ChannelRow}, d.channels.channels.get? name = some row →
      (d.channels.log name).row.isSome = true := by
    intro name row hrow
    change (d.channels.channels.get? name).isSome = true
    rw [hrow]
    rfl
  cases op with
  | openChannel name tenant members breaker engage =>
    cases h
    change Mutations _ _ channel _ ((d.channels.openChannel ..).log channel)
    rw [openChannel_log]
    split
    · rename_i hopens
      obtain ⟨rfl, hnone⟩ := hopens
      exact Steps.single _ ⟨⟨hnone, rfl⟩, tenant, members, rfl⟩
    · exact Steps.refl _
  | configure name breaker engage =>
    cases h
    refine mutation_steps (.configured breaker engage) (fun other => ?_) trivial
      fun hname => hname ▸ rfl
    change ({ d.channels.log other with
      row := (d.channels.channels.modify name _).get? other } : Log) = _
    rw [Table.get?_modify]
    by_cases hother : other = name
    · subst hother
      simp only [if_true]
      rfl
    · simp only [hother, if_false]
      rfl
  | setMember | removeMember | markRead | markDelivered =>
    cases h
    exact Steps.refl _
  | append name post =>
    obtain ⟨⟨d₁, result⟩, happend, h⟩ := bind_ok_iff.mp h
    cases h
    exact append_mutations channel happend
  | edit name seq sender text =>
    obtain ⟨⟨c, result⟩, hedit, h⟩ := bind_ok_iff.mp h
    cases h
    rcases edit_cases hedit with ⟨-, rfl, -⟩ | ⟨row, entry, marker, hown, rfl, -, hlog⟩
    · exact Steps.refl _
    · obtain ⟨hrow, hentry, hkind, hlive⟩ := ownMessage_eq hown
      exact mutation_steps _ hlog ⟨hisSome hrow, ⟨rfl, rfl⟩, ⟨rfl, rfl⟩, entry, hentry, hkind, hlive⟩
        fun _ => trivial
  | tombstone name seq sender =>
    obtain ⟨⟨c, result⟩, htombstone, h⟩ := bind_ok_iff.mp h
    cases h
    rcases tombstone_cases htombstone with ⟨-, rfl, -⟩ | ⟨row, entry, marker, hown, rfl, -, hlog⟩
    · exact Steps.refl _
    · obtain ⟨hrow, hentry, hkind, hlive⟩ := ownMessage_eq hown
      exact mutation_steps _ hlog
        ⟨hisSome hrow, ⟨rfl, rfl⟩, ⟨rfl, rfl⟩, rfl, entry, hentry, hkind, hlive⟩ fun _ => trivial
  | react name seq participant emoji =>
    obtain ⟨⟨c, result⟩, hreact, h⟩ := bind_ok_iff.mp h
    cases h
    rcases react_cases hreact with
      rfl | ⟨row, entry, marker, hrow, hentry, hkind, hmarks, hfresh, -, hlog⟩
    · exact Steps.refl _
    · exact mutation_steps _ hlog ⟨hisSome hrow, hfresh, hmarks, entry, hentry, hkind⟩ fun _ => trivial
  | delete name =>
    cases h
    exact mutation_steps .dropped (dropChannel_log d.channels name) trivial
      fun hname => .inl (hname ▸ rfl)

theorem exec_mutations (call : TxEnv × Op) (d : Database) (channel : String) :
    Mutations d.channels call.2 channel (d.channels.log channel)
      ((exec call d).channels.log channel) := by
  obtain ⟨env, op⟩ := call
  unfold exec
  cases hrun : d.perform env op with
  | error error => exact Steps.refl _
  | ok d' =>
    cases op with
    | channel op => exact performChannel_mutations channel hrun
    | store op =>
      cases op with
      | erase tenant threadId agent channels =>
        cases hrun
        simp only [erase]
        split
        · rename_i hwhole
          rw [dropChannels_log]
          split
          · rw [Bool.and_eq_true, Option.isNone_iff_eq_none, Option.isNone_iff_eq_none]
              at hwhole
            obtain ⟨rfl, rfl⟩ := hwhole
            exact Steps.single Mutation.dropped ⟨trivial, .inr ⟨tenant, channels, rfl⟩⟩
          · exact Steps.refl _
        · exact Steps.refl _
      | _ =>
        unfold perform at hrun
        simp only at hrun
        split at hrun
        · cases hrun
          exact Steps.refl _
        · cases hrun

theorem exec_stays {call : TxEnv × Op} {channel : String}
    (hthere : ((exec call d).channels.channels.get? channel).isSome) :
    Steps Log.apply (fun l mutation => mutation.Ok l ∧ mutation.Of d.channels call.2 channel ∧
        mutation ≠ .dropped)
      (d.channels.log channel) ((exec call d).channels.log channel) := by
  by_cases hdrop : Mutation.dropped.Of d.channels call.2 channel
  · obtain ⟨env, op⟩ := call
    rcases hdrop with hdelete | ⟨tenant, channels, herase⟩
    · simp only at hdelete
      subst hdelete
      have hgone : (dropChannel d.channels channel).log channel = {} := by
        rw [dropChannel_log, if_pos rfl]
      have hrow : (dropChannel d.channels channel).channels.get? channel = none :=
        congrArg Log.row hgone
      change ((dropChannel d.channels channel).channels.get? channel).isSome = true at hthere
      rw [hrow] at hthere
      cases hthere
    · simp only at herase
      subst herase
      have hlog := dropChannels_log (channelsOf d.channels tenant) d.channels channel
      change ((List.foldl dropChannel d.channels _).log channel).row.isSome = true at hthere
      change Steps _ _ _ ((List.foldl dropChannel d.channels _).log channel)
      split at hlog
      · rw [hlog] at hthere
        cases hthere
      · rw [hlog]
        exact Steps.refl _
  · refine Steps.mono ?_ (exec_mutations call d channel)
    rintro l mutation ⟨hok, hof⟩
    refine ⟨hok, hof, ?_⟩
    rintro rfl
    exact hdrop hof

end Mutations

end Database

def EntryRow.fixed (entry : EntryRow) : EntryRow :=
  { entry with text := "", mentions := [], data := [], editedAt := none, deletedAt := none }

namespace Log

variable {l l' : Log}

theorem next_of_row {row : ChannelRow} (hrow : l.row = some row) : l.next = row.nextSeq := by
  unfold next
  rw [hrow]

theorem next_write (entry : EntryRow) {f : ChannelRow → ChannelRow} (hrow : l.row.isSome)
    (hf : ∀ row, (f row).nextSeq = row.nextSeq) : (l.write entry f).next = l.next + 1 := by
  obtain ⟨row, hrow⟩ := Option.isSome_iff_exists.mp hrow
  have hwritten : (l.write entry f).row = some (f { row with nextSeq := l.next + 1 }) := by
    unfold write
    rw [hrow]
    rfl
  rw [next_of_row hwritten, hf]

theorem entries_write (entry : EntryRow) (f : ChannelRow → ChannelRow) (seq : Int) :
    (l.write entry f).entries seq = if seq = l.next then some entry else l.entries seq :=
  update_apply ..

theorem entries_rewrite (f : Int → EntryRow → EntryRow) (seq : Int) :
    (l.rewrite f).entries seq = (l.entries seq).map (f seq) := rfl

theorem apply_posted (entry : EntryRow) (byAgent : Bool) : l.apply (.posted entry byAgent) =
    l.write entry fun row => { row with paused := byAgent && row.paused } := rfl

theorem apply_noticed (entry : EntryRow) (pauses : Bool) : l.apply (.noticed entry pauses) =
    l.write entry fun row => { row with paused := pauses || row.paused } := rfl

namespace Whole

theorem free (h : l.Whole) : l.entries l.next = none := by
  rw [← Option.not_isSome_iff_eq_none, h.numbered]
  omega

theorem empty : ({} : Log).Whole where
  numbered := by
    intro seq
    constructor
    · intro h
      cases h
    · intro h
      have hnext : ({} : Log).next = 0 := rfl
      omega
  reacted := by
    intro seq participant h
    cases h
  nonneg := Int.le_refl 0

theorem write (h : l.Whole) (hrow : l.row.isSome) (entry : EntryRow)
    {f : ChannelRow → ChannelRow} (hf : ∀ row, (f row).nextSeq = row.nextSeq) :
    (l.write entry f).Whole := by
  have hnext := next_write entry hrow hf
  have hnonneg := h.nonneg
  constructor
  · intro seq
    rw [entries_write, hnext]
    by_cases hseq : seq = l.next
    · rw [if_pos hseq]
      simp only [Option.isSome_some, true_iff]
      omega
    · rw [if_neg hseq, h.numbered]
      omega
  · intro seq participant hreaction
    rw [entries_write]
    split
    · rfl
    · exact h.reacted seq participant hreaction
  · rw [hnext]
    omega

theorem rewrite (h : l.Whole) (f : Int → EntryRow → EntryRow) : (l.rewrite f).Whole where
  numbered := by
    intro seq
    rw [entries_rewrite, Option.isSome_map]
    exact h.numbered seq
  reacted := by
    intro seq participant hreaction
    rw [entries_rewrite, Option.isSome_map]
    exact h.reacted seq participant hreaction
  nonneg := h.nonneg

theorem react (h : l.Whole) {seq : Int} (hentry : (l.entries seq).isSome) (participant : Address)
    (reaction : Option ReactionRow) : (l.react seq participant reaction).Whole where
  numbered := h.numbered
  reacted := by
    intro seq' participant' hreaction
    unfold Log.react at hreaction
    simp only at hreaction
    split at hreaction
    · rename_i hkey
      rw [hkey.1]
      exact hentry
    · exact h.reacted seq' participant' hreaction
  nonneg := h.nonneg

theorem row (h : l.Whole) {row : Option ChannelRow}
    (hnext : ({ l with row } : Log).next = l.next) : ({ l with row } : Log).Whole where
  numbered := by
    intro seq
    rw [hnext]
    exact h.numbered seq
  reacted := h.reacted
  nonneg := by
    rw [hnext]
    exact h.nonneg

theorem apply (h : l.Whole) {mutation : Mutation} (hok : mutation.Ok l) : (l.apply mutation).Whole := by
  cases mutation with
  | opened row =>
    apply h.row
    unfold next
    rw [hok.1]
    exact hok.2
  | configured breaker engage =>
    apply h.row
    unfold next
    cases l.row <;> rfl
  | posted entry byAgent =>
    rw [apply_posted]
    exact h.write hok.1 entry fun _ => rfl
  | noticed entry pauses =>
    rw [apply_noticed]
    exact h.write hok.1 entry fun _ => rfl
  | edited seq marker | erased seq marker => exact (h.rewrite _).write hok.1 marker fun _ => rfl
  | reacted seq marker =>
    obtain ⟨hrow, -, -, entry, hentry, -⟩ := hok
    have hthere : (l.entries seq).isSome = true := by
      rw [hentry]
      rfl
    exact (h.react hthere marker.sender _).write hrow marker fun _ => rfl
  | dropped => exact empty

end Whole

/-- Of every entry that was there, what no mutation changes is the same. -/
def Kept (l l' : Log) : Prop := ∀ seq entry, l.entries seq = some entry →
    ∃ entry', l'.entries seq = some entry' ∧ entry'.fixed = entry.fixed

namespace Kept

theorem refl (l : Log) : Kept l l := fun _ entry h => ⟨entry, h, rfl⟩

theorem trans {l'' : Log} (h : Kept l l') (h' : Kept l' l'') : Kept l l'' := by
  intro seq entry hentry
  obtain ⟨entry', hentry', hfixed⟩ := h seq entry hentry
  obtain ⟨entry'', hentry'', hfixed'⟩ := h' seq entry' hentry'
  exact ⟨entry'', hentry'', hfixed'.trans hfixed⟩

theorem write (h : l.Whole) (entry : EntryRow) {f : ChannelRow → ChannelRow} :
    Kept l (l.write entry f) := by
  intro seq old hold
  refine ⟨old, ?_, rfl⟩
  rw [entries_write, if_neg, hold]
  intro hseq
  rw [hseq, h.free] at hold
  cases hold

theorem rewrite {f : Int → EntryRow → EntryRow} (hf : ∀ seq entry, (f seq entry).fixed = entry.fixed) :
    Kept l (l.rewrite f) := by
  intro seq entry hentry
  exact ⟨f seq entry, by rw [entries_rewrite, hentry]; rfl, hf seq entry⟩

end Kept

theorem erasing_fixed (seq : Int) (at' : Time) (key : Int) (entry : EntryRow) :
    (erasing seq at' key entry).fixed = entry.fixed := by
  unfold erasing
  by_cases hkey : key = seq
  · rw [if_pos hkey]
    simp only
    split <;> rfl
  · rw [if_neg hkey]
    simp only
    split <;> rfl

theorem erasing_kind (seq : Int) (at' : Time) (key : Int) (entry : EntryRow) :
    (erasing seq at' key entry).kind = entry.kind := by
  have hfixed := congrArg EntryRow.kind (erasing_fixed seq at' key entry)
  exact hfixed

theorem erasing_replyTo (seq : Int) (at' : Time) (key : Int) (entry : EntryRow) :
    (erasing seq at' key entry).replyTo = entry.replyTo := by
  have hfixed := congrArg EntryRow.replyTo (erasing_fixed seq at' key entry)
  exact hfixed

theorem erasing_message {seq : Int} {at' : Time} {entry : EntryRow} (hkind : entry.kind = .message) :
    erasing seq at' seq entry = Database.blankEntry at' entry := by
  unfold erasing
  simp [Database.blankEntry, hkind]

theorem kept_apply (h : l.Whole) {mutation : Mutation} (hdrop : mutation ≠ .dropped) :
    Kept l (l.apply mutation) := by
  cases mutation with
  | opened | configured => exact Kept.refl l
  | posted entry byAgent =>
    rw [apply_posted]
    exact Kept.write h entry
  | noticed entry pauses =>
    rw [apply_noticed]
    exact Kept.write h entry
  | edited seq marker =>
    refine (Kept.rewrite fun key entry => ?_).trans (Kept.write (h.rewrite _) marker)
    split <;> rfl
  | erased seq marker =>
    refine (Kept.rewrite fun key entry => ?_).trans (Kept.write (h.rewrite _) marker)
    exact erasing_fixed seq marker.at' key entry
  | reacted seq marker =>
    intro seq' entry hentry
    exact Kept.write (l := l) (f := id) h marker seq' entry hentry
  | dropped => exact absurd rfl hdrop

end Log

namespace Database

variable {call : TxEnv × Op} {d : Database} {channel : String}

theorem exec_whole (hwhole : (d.channels.log channel).Whole) :
    ((exec call d).channels.log channel).Whole :=
  Steps.invariant (fun _ _ hl hguard => hl.apply hguard.1) (exec_mutations call d channel) hwhole

theorem whole_calls {d' : Database} (h : Calls d d')
    (hwhole : ∀ channel, (d.channels.log channel).Whole) (channel : String) :
    (d'.channels.log channel).Whole := by
  refine Steps.invariant (P := fun d => ∀ channel, (d.channels.log channel).Whole) ?_ h hwhole
    channel
  exact fun d call hd _ channel => exec_whole (hd channel)

theorem whole_reachable (h : Calls {} d) (channel : String) : (d.channels.log channel).Whole :=
  whole_calls h (fun _ => Log.Whole.empty) channel

theorem exec_kept (hwhole : (d.channels.log channel).Whole)
    (hthere : ((exec call d).channels.channels.get? channel).isSome) :
    Log.Kept (d.channels.log channel) ((exec call d).channels.log channel) := by
  refine Steps.related (P := Log.Whole) Log.Kept.refl (fun _ _ _ => Log.Kept.trans)
    (fun l mutation hl hguard => hl.apply hguard.1) ?_ (exec_stays hthere) hwhole
  exact fun l mutation hl hguard => Log.kept_apply hl hguard.2.2

/-- As long as a channel is not deleted its entries are numbered without a gap, and each keeps
its number and everything that no edit and no withdrawal changes. -/
theorem log_append_only {d' : Database} (h : Calls {} d) (hlater : Steps exec
    (fun d call => ((exec call d).channels.channels.get? channel).isSome) d d') :
    (d'.channels.log channel).Whole ∧
      Log.Kept (d.channels.log channel) (d'.channels.log channel) := by
  have hwhole := whole_reachable h channel
  have hstep : ∀ (d : Database) call, (d.channels.log channel).Whole →
      ((exec call d).channels.channels.get? channel).isSome →
        ((exec call d).channels.log channel).Whole := fun _ _ hd _ => exec_whole hd
  refine ⟨Steps.invariant hstep hlater hwhole, ?_⟩
  exact Steps.related
    (R := fun d d' : Database => Log.Kept (d.channels.log channel) (d'.channels.log channel))
    (fun _ => Log.Kept.refl _) (fun _ _ _ => Log.Kept.trans) hstep
    (fun _ _ hd hthere => exec_kept hd hthere) hlater hwhole

theorem post_kept :
    let opened := exec (.plain 0, .channel (.openChannel "c" "default" [] 40 0)) {}
    let posted := exec (.plain 0, .channel (.append "c" { sender := "user/u", text := "hi" })) opened
    (posted.channels.log "c").Whole ∧
      Log.Kept (opened.channels.log "c") (posted.channels.log "c") :=
  log_append_only (Steps.single _ trivial) (Steps.single _ (by decide))

end Database

end Substrate
