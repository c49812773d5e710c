import Mathlib.Data.Fintype.EquivFin
import Substrate.Channels.Operations
import Substrate.Lib.Transition

/-!
What writing to a channel does to its log. Entries are numbered by the channel's
own counter, so a write adds entries past every one that is there, and no write
removes one or changes its kind. A reader's cursor moves only when the reader
itself reads or posts.
-/

namespace Substrate

open Lib

namespace Channels

def nextOf (c : Channels) (channel : String) : Int :=
  match c.channels.get? channel with
  | some row => row.nextSeq
  | none => 0

/-- Entries are numbered below the channel's counter. -/
def Numbered (c : Channels) : Prop :=
  ∀ channel seq entry, c.entries.get? (channel, seq) = some entry → seq < c.nextOf channel

/-- The log of a channel is longer: what was there is kept with its kind, and
what is new has a number the counter has passed since. -/
structure Extends (channel : String) (c c' : Channels) : Prop where
  next : c.nextOf channel ≤ c'.nextOf channel
  kept : ∀ seq entry, c.entries.get? (channel, seq) = some entry →
    ∃ entry', c'.entries.get? (channel, seq) = some entry' ∧ entry'.kind = entry.kind
  fresh : ∀ seq entry', c'.entries.get? (channel, seq) = some entry' →
    c.entries.get? (channel, seq) = none → c.nextOf channel ≤ seq ∧ seq < c'.nextOf channel

def cursor? (c : Channels) (channel : String) (agent : Address) : Option Int :=
  (c.members.get? (channel, agent)).map (·.cursor)

theorem cursorOf_eq (c : Channels) (channel : String) (agent : Address) :
    c.cursorOf channel agent = (c.cursor? channel agent).getD (-1) := by
  unfold cursorOf cursor?
  cases c.members.get? (channel, agent) <;> rfl

structure Quiet (c c' : Channels) : Prop where
  channels : c'.channels = c.channels
  entries : c'.entries = c.entries
  cursors : ∀ channel agent, c'.cursor? channel agent = c.cursor? channel agent

namespace Extends

variable {channel : String} {c c' c'' : Channels}

theorem refl (channel : String) (c : Channels) : Extends channel c c where
  next := Int.le_refl _
  kept := fun _ entry h => ⟨entry, h, rfl⟩
  fresh := by
    intro seq entry' hsome hnone
    rw [hnone] at hsome
    cases hsome

theorem trans (h : Extends channel c c') (h' : Extends channel c' c'') :
    Extends channel c c'' where
  next := Int.le_trans h.next h'.next
  kept := by
    intro seq entry hentry
    obtain ⟨entry', hentry', hkind⟩ := h.kept seq entry hentry
    obtain ⟨entry'', hentry'', hkind'⟩ := h'.kept seq entry' hentry'
    exact ⟨entry'', hentry'', hkind'.trans hkind⟩
  fresh := by
    intro seq entry'' hsome hnone
    have hnext := h.next
    have hnext' := h'.next
    cases hmid : c'.entries.get? (channel, seq) with
    | none =>
      obtain ⟨hlow, hhigh⟩ := h'.fresh seq entry'' hsome hmid
      exact ⟨by omega, hhigh⟩
    | some entry' =>
      obtain ⟨hlow, hhigh⟩ := h.fresh seq entry' hmid hnone
      exact ⟨hlow, by omega⟩

theorem same (hchannels : c'.channels = c.channels) (hentries : c'.entries = c.entries) :
    Extends channel c c' := by
  have hnext : c'.nextOf channel = c.nextOf channel := by
    unfold nextOf
    rw [hchannels]
  constructor
  · rw [hnext]
  · intro seq entry h
    exact ⟨entry, by rw [hentries]; exact h, rfl⟩
  · intro seq entry' hsome hnone
    rw [hentries, hnone] at hsome
    cases hsome

variable {f : ChannelRow → ChannelRow}

theorem rows (name : String) (hf : ∀ row, (f row).nextSeq = row.nextSeq) (c : Channels) :
    Extends channel c { c with channels := c.channels.modify name f } := by
  have hnext : ({ c with channels := c.channels.modify name f } : Channels).nextOf channel =
      c.nextOf channel := by
    unfold nextOf
    simp only [Table.get?_modify]
    cases c.channels.get? channel with
    | none => simp
    | some row =>
      by_cases hname : channel = name
      · simp only [hname, if_true, Option.map_some, hf]
      · simp only [hname, if_false, Option.map_some]
  constructor
  · rw [hnext]
  · exact fun seq entry h => ⟨entry, h, rfl⟩
  · intro seq entry' hsome hnone
    change c.entries.get? (channel, seq) = some entry' at hsome
    rw [hnone] at hsome
    cases hsome

theorem rewritten {f : String × Int → EntryRow → EntryRow}
    (hf : ∀ key entry, (f key entry).kind = entry.kind) (c : Channels) :
    Extends channel c { c with entries := c.entries.map f } where
  next := Int.le_refl _
  kept := by
    intro seq entry h
    refine ⟨f (channel, seq) entry, ?_, hf _ _⟩
    change (c.entries.map f).get? (channel, seq) = _
    rw [Table.get?_map, h]
    rfl
  fresh := by
    intro seq entry' hsome hnone
    change (c.entries.map f).get? (channel, seq) = some entry' at hsome
    rw [Table.get?_map, hnone] at hsome
    cases hsome

theorem written {name : String} {row : ChannelRow} {entry : EntryRow}
    (hrow : c.channels.get? name = some row)
    (hwrite : c.writeEntry name row.nextSeq entry = .ok c')
    (hf : ∀ row', (f row').nextSeq = row.nextSeq + 1) :
    Extends channel c { c' with channels := c'.channels.modify name f } := by
  unfold writeEntry at hwrite
  split at hwrite
  · cases hwrite
  rename_i hfree
  injection hwrite with hwrite
  subst hwrite
  simp only [Bool.or_eq_true, not_or, Bool.not_eq_true, Option.isSome_eq_false_iff,
    Option.isNone_iff_eq_none] at hfree
  have hnone : c.entries.get? (name, row.nextSeq) = none := hfree.1.1
  have hget : ∀ key, (c.entries.insert (name, row.nextSeq) entry).get? key =
      if key = (name, row.nextSeq) then some entry else c.entries.get? key :=
    fun key => Table.get?_insert_of_none hnone
  have hnext : ∀ other, ({ c with
      entries := c.entries.insert (name, row.nextSeq) entry
      channels := c.channels.modify name f } : Channels).nextOf other =
        if other = name then row.nextSeq + 1 else c.nextOf other := by
    intro other
    unfold nextOf
    simp only [Table.get?_modify]
    by_cases hname : other = name
    · subst hname
      simp only [hrow, if_true, Option.map_some, hf]
    · simp only [hname, if_false]
  have hold : c.nextOf name = row.nextSeq := by
    unfold nextOf
    rw [hrow]
  constructor
  · rw [hnext]
    by_cases hname : channel = name
    · rw [if_pos hname, hname, hold]
      omega
    · rw [if_neg hname]
  · intro seq old hentry
    refine ⟨old, ?_, rfl⟩
    change (c.entries.insert (name, row.nextSeq) entry).get? (channel, seq) = _
    rw [hget, if_neg, hentry]
    intro heq
    rw [heq, hnone] at hentry
    cases hentry
  · intro seq new hsome hmissing
    change (c.entries.insert (name, row.nextSeq) entry).get? (channel, seq) = _ at hsome
    rw [hget, hmissing] at hsome
    split at hsome
    · rename_i hkey
      obtain ⟨rfl, rfl⟩ := Prod.mk.inj hkey
      rw [hnext, if_pos rfl, hold]
      exact ⟨Int.le_refl _, by omega⟩
    · cases hsome

end Extends

theorem Numbered.longer {c c' : Channels} (h : Numbered c)
    (hextends : ∀ channel, Extends channel c c') : Numbered c' := by
  intro channel seq entry' hentry'
  cases hentry : c.entries.get? (channel, seq) with
  | none => exact ((hextends channel).fresh seq entry' hentry' hentry).2
  | some entry =>
    have hold := h channel seq entry hentry
    have hnext := (hextends channel).next
    omega

namespace Quiet

variable {c c' c'' : Channels}

theorem refl (c : Channels) : Quiet c c := ⟨rfl, rfl, fun _ _ => rfl⟩

theorem trans (h : Quiet c c') (h' : Quiet c' c'') : Quiet c c'' where
  channels := h'.channels.trans h.channels
  entries := h'.entries.trans h.entries
  cursors := fun channel agent => (h'.cursors channel agent).trans (h.cursors channel agent)

theorem ite {p : Prop} [Decidable p] (h : Quiet c c') : Quiet c (if p then c' else c) := by
  split
  · exact h
  · exact refl c

theorem setMemberRow (c : Channels) (channel : String) (agent : Address)
    {f : MemberRow → MemberRow} (hf : ∀ row, (f row).cursor = row.cursor) :
    Quiet c (c.setMemberRow channel agent f) where
  channels := rfl
  entries := rfl
  cursors := by
    intro channel' agent'
    unfold cursor? Channels.setMemberRow
    simp only [Table.get?_modify]
    by_cases hkey : (channel', agent') = (channel, agent)
    · rw [if_pos hkey, Option.map_map]
      exact congrArg (Option.map · _) (funext hf)
    · rw [if_neg hkey]

theorem longer (h : Quiet c c') (channel : String) : Extends channel c c' :=
  Extends.same h.channels h.entries

end Quiet

/-- What happens to a channel without its reader: logs get longer, and the
reader's cursor stays. -/
structure Traffic (me : Address) (c c' : Channels) : Prop where
  log : ∀ channel, Extends channel c c'
  cursor : ∀ channel, c'.cursor? channel me = c.cursor? channel me

namespace Traffic

variable {me : Address} {c c' c'' : Channels}

theorem refl (me : Address) (c : Channels) : Traffic me c c :=
  ⟨fun channel => Extends.refl channel c, fun _ => rfl⟩

theorem trans (h : Traffic me c c') (h' : Traffic me c' c'') : Traffic me c c'' :=
  ⟨fun channel => (h.log channel).trans (h'.log channel),
    fun channel => (h'.cursor channel).trans (h.cursor channel)⟩

theorem quiet (h : Quiet c c') : Traffic me c c' := ⟨h.longer, fun channel => h.cursors channel me⟩

theorem others (hmembers : ∀ channel, c'.members.get? (channel, me) = c.members.get? (channel, me))
    (hchannels : c'.channels = c.channels) (hentries : c'.entries = c.entries) :
    Traffic me c c' :=
  ⟨fun _ => Extends.same hchannels hentries, fun channel => by unfold cursor?; rw [hmembers]⟩

theorem longer (hlog : ∀ channel, Extends channel c c') (hmembers : c'.members = c.members) :
    Traffic me c c' :=
  ⟨hlog, fun channel => by unfold cursor?; rw [hmembers]⟩

end Traffic

variable {c c' : Channels} {channel : String} {me : Address}

theorem writeEntry_tables {seq : Int} {entry : EntryRow}
    (h : c.writeEntry channel seq entry = .ok c') :
    c'.channels = c.channels ∧ c'.members = c.members := by
  unfold writeEntry at h
  split at h
  · cases h
  · cases h
    exact ⟨rfl, rfl⟩

theorem writeMarker_traffic {env : TxEnv} {row : ChannelRow} {sender : Address} {kind : EntryKind}
    {text : String} {replyTo : Option Int} {data : JsonObject}
    (h : c.writeMarker env channel row.nextSeq sender kind text replyTo data = .ok c')
    (hrow : c.channels.get? channel = some row) : Traffic me c c' := by
  obtain ⟨c₁, hwrite, h⟩ := bind_ok_iff.mp h
  cases h
  apply Traffic.longer
  · exact fun other => Extends.written hrow hwrite fun _ => rfl
  · exact (writeEntry_tables hwrite).2

theorem advance_traffic {agent : Address} (hother : agent ≠ me) (c : Channels) (channel : String)
    (upto : Int) : Traffic me c (c.advance channel agent upto) := by
  apply Traffic.others
  · intro channel'
    change (c.members.modify (channel, agent) _).get? (channel', me) = _
    apply Table.get?_modify_of_ne
    intro hkey
    exact hother (Prod.mk.inj hkey).2.symm
  · rfl
  · rfl

theorem setMember_traffic {member : Member} (hother : member.agent ≠ me) (c : Channels)
    (channel : String) : Traffic me c (c.setMember channel member) := by
  apply Traffic.others
  · intro channel'
    have hkey : (channel', me) ≠ (channel, member.agent) :=
      fun hkey => hother (Prod.mk.inj hkey).2.symm
    change ((c.members.insert (channel, member.agent) _).modify _ _).get? (channel', me) = _
    rw [Table.get?_modify_of_ne hkey, Table.get?_insert, if_neg hkey]
  · rfl
  · rfl

theorem engage_quiet (c : Channels) (channel : String) (agent : Address) (until' : Time) :
    Quiet c (c.engage channel agent until') :=
  Quiet.setMemberRow c channel agent fun _ => rfl

theorem setNoticed_quiet (c : Channels) (channel : String) (agent : Address) (noticed : Bool) :
    Quiet c (c.setNoticed channel agent noticed) :=
  Quiet.setMemberRow c channel agent fun _ => rfl

end Channels

namespace Database

open Channels

variable {env : TxEnv} {channel : String} {row : ChannelRow} {seq : Int} {post : Post}
    {repliedTo : Option Address} {me sender : Address} {c c' : Channels} {byAgent : Bool}
    {depth : Nat} {d d' : Database} {result : AppendResult} {marker : Option Int}

theorem wakeMember_quiet {turn turn' : Database × List Address × List Address}
    {member : Address × MemberRow}
    (h : wakeMember env channel row seq post repliedTo turn member = .ok turn') :
    Quiet turn.1.channels turn'.1.channels := by
  obtain ⟨d, woken, unannounced⟩ := turn
  obtain ⟨address, memberRow⟩ := member
  unfold wakeMember at h
  simp only at h
  cases hinbox : memberRow.inbox with
  | none =>
    simp only [hinbox] at h
    cases h
    exact Quiet.refl _
  | some inbox =>
    simp only [hinbox] at h
    split at h
    · cases h
      exact Quiet.refl _
    rename_i reason _
    have hdirect : Quiet d.channels (if reason = .direct then
        d.channels.engage channel address (env.clock + row.engage) else d.channels) := by
      exact Quiet.ite (engage_quiet ..)
    split at h
    · cases h
      exact hdirect
    split at h
    · cases h
    cases h
    exact hdirect.trans (Quiet.ite (setNoticed_quiet ..))

theorem wakeMembers_quiet (members : List (Address × MemberRow)) :
    ∀ {turn turn' : Database × List Address × List Address},
      members.foldlM (wakeMember env channel row seq post repliedTo) turn = .ok turn' →
      Quiet turn.1.channels turn'.1.channels := by
  induction members with
  | nil =>
    intro turn turn' h
    cases h
    exact Quiet.refl _
  | cons member rest ih =>
    intro turn turn' h
    rw [List.foldlM_cons] at h
    obtain ⟨turn₁, hfirst, hrest⟩ := bind_ok_iff.mp h
    exact (wakeMember_quiet hfirst).trans (ih hrest)

theorem noticeMembers_quiet (channel : String) (addresses : List Address) : ∀ c : Channels,
      Quiet c (addresses.foldl (fun c address => c.setNoticed channel address true) c) := by
  induction addresses with
  | nil => exact Quiet.refl
  | cons address rest ih => exact fun c => (setNoticed_quiet c channel address true).trans (ih _)

theorem logPost_traffic (hother : post.sender ≠ me) (hrow : c.channels.get? channel = some row)
    (h : logPost c env channel row post byAgent depth = .ok c') :
    Traffic me c c' ∧
      ∃ row', c'.channels.get? channel = some row' ∧ row'.nextSeq = row.nextSeq + 1 := by
  obtain ⟨c₁, hwrite, h⟩ := bind_ok_iff.mp h
  cases h
  have hwritten : Traffic me c (c₁.count channel row.nextSeq byAgent) := by
    apply Traffic.longer
    · exact fun _ => Extends.written hrow hwrite fun _ => rfl
    · exact (writeEntry_tables hwrite).2
  constructor
  · exact (hwritten.trans (advance_traffic hother _ channel row.nextSeq)).trans
      (Traffic.quiet (engage_quiet ..))
  · refine ⟨{ row with nextSeq := row.nextSeq + 1, paused := byAgent && row.paused }, ?_, rfl⟩
    change (c₁.channels.modify channel _).get? channel = _
    rw [Table.get?_modify_self, (writeEntry_tables hwrite).1, hrow]
    rfl

theorem announce_traffic {latest : Int} {unannounced : List Address}
    (hrow : c.channels.get? channel = some row) (hnext : row.nextSeq = seq + 1)
    (h : announce c env channel seq unannounced = .ok (c', latest)) : Traffic me c c' := by
  unfold announce at h
  split at h
  · cases h
    exact Traffic.refl me _
  · obtain ⟨c₁, hmarker, h⟩ := bind_ok_iff.mp h
    cases h
    have hnotice := noticeMembers_quiet channel unannounced c
    refine (Traffic.quiet hnotice).trans ?_
    rw [← hnext] at hmarker
    apply writeMarker_traffic hmarker
    rw [hnotice.channels]
    exact hrow

theorem publish_traffic (hother : post.sender ≠ me)
    (hrow : d.channels.channels.get? channel = some row)
    (h : d.publish env channel row post byAgent depth = .ok (d', result)) :
    Traffic me d.channels d'.channels := by
  obtain ⟨c, hlog, h⟩ := bind_ok_iff.mp h
  obtain ⟨⟨d₁, woken, unannounced⟩, hwake, h⟩ := bind_ok_iff.mp h
  obtain ⟨⟨c₁, latest⟩, hannounce, h⟩ := bind_ok_iff.mp h
  cases h
  obtain ⟨hlogged, row', hrow', hnext⟩ := logPost_traffic hother hrow hlog
  have hquiet : Quiet c d₁.channels := wakeMembers_quiet _ hwake
  refine (hlogged.trans (Traffic.quiet hquiet)).trans (announce_traffic ?_ hnext hannounce)
  rw [hquiet.channels]
  exact hrow'

theorem pause_traffic (hrow : c.channels.get? channel = some row)
    (h : pause c env channel row depth = .ok c') : Traffic me c c' := by
  obtain ⟨c₁, hmarker, h⟩ := bind_ok_iff.mp h
  cases h
  refine (writeMarker_traffic hmarker hrow).trans (Traffic.longer ?_ rfl)
  intro other
  exact Extends.rows (f := fun row => { row with paused := true }) channel (fun _ => rfl) c₁

theorem append_traffic (hother : post.sender ≠ me)
    (h : d.append env channel post = .ok (d', result)) : Traffic me d.channels d'.channels := by
  unfold append at h
  cases hrow : d.channels.channels.get? channel with
  | none =>
    simp only [hrow] at h
    cases h
  | some row =>
    simp only [hrow] at h
    split at h
    · cases h
      exact Traffic.refl me _
    split at h
    · cases h
      exact Traffic.refl me _
    split at h
    · cases h
      exact Traffic.refl me _
    split at h
    · obtain ⟨c, hpause, h⟩ := bind_ok_iff.mp h
      cases h
      exact pause_traffic hrow hpause
    · exact publish_traffic hother hrow h

theorem ownMessage_row {entry : EntryRow}
    (h : ownMessage c channel seq sender = some (row, entry)) :
    c.channels.get? channel = some row := by
  unfold ownMessage at h
  split at h
  · rename_i hrow _
    split at h
    · cases h
    · cases h
      exact hrow
  · cases h

theorem setEntry_traffic (c : Channels) (channel : String) (seq : Int) {f : EntryRow → EntryRow}
    (hf : ∀ entry, (f entry).kind = entry.kind) : Traffic me c (setEntry c channel seq f) := by
  have hlog : ∀ other, Extends other c (setEntry c channel seq f) := by
    intro other
    refine Extends.rewritten (f := fun key entry =>
      if key = (channel, seq) then f entry else entry) ?_ c
    intro key entry
    split
    · exact hf entry
    · rfl
  exact Traffic.longer hlog rfl

theorem edit_traffic {text : String} (h : edit c env channel seq sender text = .ok (c', marker)) :
    Traffic me c c' := by
  unfold edit at h
  split at h
  · cases h
    exact Traffic.refl me _
  · rename_i row entry hown
    obtain ⟨c₁, hmarker, h⟩ := bind_ok_iff.mp h
    cases h
    have hrow : c.channels.get? channel = some row := ownMessage_row hown
    have hset : Traffic me c (setEntry c channel seq (editEntry text env.clock)) :=
      setEntry_traffic c channel seq fun _ => rfl
    exact hset.trans (writeMarker_traffic hmarker hrow)

theorem blankEdits_traffic (c : Channels) (channel : String) (seq : Int) :
    Traffic me c (blankEdits c channel seq) := by
  have hlog : ∀ other, Extends other c (blankEdits c channel seq) := by
    intro other
    refine Extends.rewritten (f := fun key entry =>
      if key.1 = channel && entry.kind = EntryKind.edit && entry.replyTo = some seq then
        { entry with text := "", data := [] }
      else entry) ?_ c
    intro key entry
    split <;> rfl
  exact Traffic.longer hlog rfl

theorem tombstone_traffic (h : tombstone c env channel seq sender = .ok (c', marker)) :
    Traffic me c c' := by
  unfold tombstone at h
  split at h
  · cases h
    exact Traffic.refl me _
  · rename_i row entry hown
    obtain ⟨c₁, hmarker, h⟩ := bind_ok_iff.mp h
    cases h
    have hrow : c.channels.get? channel = some row := ownMessage_row hown
    have hset : Traffic me c (setEntry c channel seq (blankEntry env.clock)) :=
      setEntry_traffic c channel seq fun _ => rfl
    exact (hset.trans (blankEdits_traffic ..)).trans (writeMarker_traffic hmarker hrow)

theorem react_traffic {participant : Address} {emoji : String}
    (h : react c env channel seq participant emoji = .ok (c', marker)) : Traffic me c c' := by
  unfold react at h
  split at h
  · rename_i row target hrow _
    split at h
    · cases h
      exact Traffic.refl me _
    simp only at h
    split at h
    · cases h
      exact Traffic.refl me _
    obtain ⟨c₁, hmarker, h⟩ := bind_ok_iff.mp h
    cases h
    split at hmarker
    · refine Traffic.trans ?_ (writeMarker_traffic hmarker hrow)
      exact Traffic.longer (fun _ => Extends.same rfl rfl) rfl
    · refine Traffic.trans ?_ (writeMarker_traffic hmarker hrow)
      exact Traffic.longer (fun _ => Extends.same rfl rfl) rfl
  · cases h
    exact Traffic.refl me _

end Database

/-- The channel methods in which a party neither reads, posts, joins nor leaves,
and which delete nothing. -/
def ChannelOp.spares (me : Address) : ChannelOp → Prop
  | .openChannel _ _ members _ _ => ∀ member ∈ members, member.agent ≠ me
  | .setMember _ member => member.agent ≠ me
  | .removeMember _ agent | .markRead _ agent _ => agent ≠ me
  | .append _ post => post.sender ≠ me
  | .configure .. | .markDelivered .. | .edit .. | .tombstone .. | .react .. => True
  | .delete _ => False

namespace Database

open Channels

theorem openChannel_rows (c : Channels) (channel : String) (row : ChannelRow)
    (hnext : row.nextSeq = 0) (other : String) :
    Extends other c { c with channels := c.channels.insert channel row } := by
  have hsame : ({ c with channels := c.channels.insert channel row } : Channels).nextOf other =
      c.nextOf other := by
    unfold nextOf
    simp only [Table.get?_insert]
    by_cases hname : other = channel
    · subst hname
      cases c.channels.get? other <;> simp [hnext]
    · simp only [hname, if_false]
  constructor
  · rw [hsame]
  · exact fun seq entry h => ⟨entry, h, rfl⟩
  · intro seq entry' hsome hnone
    change c.entries.get? (other, seq) = some entry' at hsome
    rw [hnone] at hsome
    cases hsome

variable {d : Database}

/-- A call of another party only adds to the logs and leaves one's own cursor. -/
theorem performChannel_traffic {me : Address} {d' : Database} {env : TxEnv} {op : ChannelOp}
    (hspares : op.spares me) (h : d.performChannel env op = .ok d') :
    Traffic me d.channels d'.channels := by
  cases op with
  | openChannel channel tenant members breaker engage =>
    cases h
    have hopened : Traffic me d.channels { d.channels with
        channels := d.channels.channels.insert channel { tenant, breaker, engage } } :=
      Traffic.longer (openChannel_rows d.channels channel _ rfl) rfl
    have hmembers : ∀ (items : List Member) (c : Channels), (∀ member ∈ items, member.agent ≠ me) →
        Traffic me c (items.foldl (fun c member => c.setMember channel member) c) := by
      intro items
      induction items with
      | nil => exact fun c _ => Traffic.refl me c
      | cons member rest ih =>
        intro c hitems
        exact (setMember_traffic (hitems member List.mem_cons_self) c channel).trans
          (ih _ fun other hother => hitems other (List.mem_cons_of_mem member hother))
    exact hopened.trans (hmembers members _ hspares)
  | configure channel breaker engage =>
    cases h
    exact Traffic.longer (fun _ => Extends.rows (f := fun row =>
      { row with breaker := breaker.getD row.breaker, engage := engage.getD row.engage })
        channel (fun _ => rfl) d.channels) rfl
  | setMember channel member =>
    cases h
    exact setMember_traffic hspares d.channels channel
  | removeMember channel agent =>
    cases h
    apply Traffic.others
    · intro channel'
      change (d.channels.members.erase (channel, agent)).get? (channel', me) = _
      rw [Table.get?_erase, if_neg]
      intro hkey
      exact hspares (Prod.mk.inj hkey).2.symm
    · rfl
    · rfl
  | markRead channel agent upto =>
    cases h
    exact advance_traffic hspares d.channels channel upto
  | markDelivered channel participant upto =>
    cases h
    apply Traffic.quiet
    refine Quiet.setMemberRow d.channels channel participant fun row => ?_
    split <;> rfl
  | append channel post =>
    obtain ⟨⟨d₁, result⟩, happend, h⟩ := bind_ok_iff.mp h
    cases h
    exact append_traffic hspares happend
  | edit channel seq sender text =>
    obtain ⟨⟨c, marker⟩, hedit, h⟩ := bind_ok_iff.mp h
    cases h
    exact edit_traffic hedit
  | tombstone channel seq sender =>
    obtain ⟨⟨c, marker⟩, htombstone, h⟩ := bind_ok_iff.mp h
    cases h
    exact tombstone_traffic htombstone
  | react channel seq participant emoji =>
    obtain ⟨⟨c, marker⟩, hreact, h⟩ := bind_ok_iff.mp h
    cases h
    exact react_traffic hreact
  | delete channel => cases hspares

theorem numbered_dropChannel {c : Channels} (h : Numbered c) (channel : String) :
    Numbered (dropChannel c channel) := by
  intro other seq entry hentry
  change (c.entries.filter _).get? (other, seq) = some entry at hentry
  rw [Table.get?_filter, Option.filter_eq_some_iff] at hentry
  have hother : other ≠ channel := by simpa using hentry.2
  have hnext : (dropChannel c channel).nextOf other = c.nextOf other := by
    unfold nextOf dropChannel
    simp only [Table.get?_erase, hother, if_false]
  rw [hnext]
  exact h other seq entry hentry.1

theorem numbered_exec (h : Numbered d.channels) (call : TxEnv × Op) :
    Numbered (exec call d).channels := by
  obtain ⟨env, op⟩ := call
  unfold exec
  cases hrun : d.perform env op with
  | error error => exact h
  | ok d' =>
    cases op with
    | store op =>
      cases op with
      | erase tenant threadId agent channels =>
        cases hrun
        simp only [erase]
        split
        · have hfold : ∀ (names : List String) (c : Channels), Numbered c →
              Numbered (names.foldl dropChannel c) := by
            intro names
            induction names with
            | nil => exact fun c hc => hc
            | cons name rest ih => exact fun c hc => ih _ (numbered_dropChannel hc name)
          exact hfold _ _ h
        · exact h
      | _ =>
        unfold perform at hrun
        simp only at hrun
        split at hrun
        · cases hrun
          exact h
        · cases hrun
    | channel op =>
      have hpass : ∀ me, op.spares me → Numbered d'.channels := fun me hspares =>
        h.longer (performChannel_traffic hspares hrun).log
      have hfresh : ∀ names : List Address, ∃ me, me ∉ names :=
        fun names => (Infinite.exists_notMem_finset names.toFinset).imp fun me hme => by
          simpa using hme
      cases op with
      | delete channel =>
        cases hrun
        exact numbered_dropChannel h channel
      | openChannel channel tenant members breaker engage =>
        obtain ⟨me, hme⟩ := hfresh (members.map (·.agent))
        apply hpass me
        intro member hmember heq
        exact hme (List.mem_map.mpr ⟨member, hmember, heq⟩)
      | setMember channel member =>
        obtain ⟨me, hme⟩ := hfresh [member.agent]
        exact hpass me fun heq => hme (by simp [heq])
      | removeMember channel agent | markRead channel agent upto =>
        obtain ⟨me, hme⟩ := hfresh [agent]
        exact hpass me fun heq => hme (by simp [heq])
      | append channel post =>
        obtain ⟨me, hme⟩ := hfresh [post.sender]
        exact hpass me fun heq => hme (by simp [heq])
      | configure | markDelivered | edit | tombstone | react => exact hpass "" trivial

abbrev Calls : Database → Database → Prop := Steps exec fun _ _ => True

theorem numbered_reachable (h : Calls {} d) : Numbered d.channels := by
  refine Steps.invariant (P := fun d => Numbered d.channels)
    (fun d call hd _ => numbered_exec hd call) h ?_
  intro channel seq entry hentry
  cases hentry

end Database

end Substrate
