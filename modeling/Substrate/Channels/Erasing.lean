import Substrate.Channels.Log

/-!
Deleting a message. A deletion blanks the message and what its edits kept of it,
and refuses every later edit. It does not guard the log against a caller that
appends an entry of kind `edit` itself: `erased_stays` says what holds of a
deleted message for as long as nobody does.
-/

namespace Substrate

open Lib Channels Option

namespace Log

structure Erased (l : Log) (seq : Int) : Prop where
  message : ∃ entry, l.entries seq = some entry ∧ entry.kind = .message ∧
    entry.deletedAt.isSome ∧ entry.text = "" ∧ entry.data = [] ∧ entry.mentions = []
  edits : ∀ key marker, l.entries key = some marker → Mutation.Marks seq .edit marker →
    marker.text = "" ∧ marker.data = []

def Spares (seq : Int) : Mutation → Prop
  | .posted entry _ => ¬ Mutation.Marks seq .edit entry
  | _ => True

variable {l : Log} {seq : Int}

theorem erasing_edit {at' : Time} {key : Int} {entry : EntryRow} (hmarks : Mutation.Marks seq .edit entry)
    : (erasing seq at' key entry).text = "" ∧ (erasing seq at' key entry).data = [] := by
  obtain ⟨hkind, hreply⟩ := hmarks
  unfold erasing
  by_cases hkey : key = seq
  · simp [hkey, Database.blankEntry, hkind, hreply]
  · simp [hkey, hkind, hreply]

namespace Erased

theorem write (h : l.Erased seq) (hwhole : l.Whole) {entry : EntryRow} (f : ChannelRow → ChannelRow)
    (hspares : ¬ Mutation.Marks seq .edit entry) : (l.write entry f).Erased seq := by
  obtain ⟨message, hmessage, hrest⟩ := h.message
  constructor
  · refine ⟨message, ?_, hrest⟩
    rw [entries_write, if_neg, hmessage]
    intro hseq
    rw [hseq, hwhole.free] at hmessage
    cases hmessage
  · intro key marker hmarker hmarks
    rw [entries_write] at hmarker
    split at hmarker
    · cases hmarker
      exact absurd hmarks hspares
    · exact h.edits key marker hmarker hmarks

theorem edit (h : l.Erased seq) {other : Int} {text : String} {at' : Time}
    (hother : ∃ entry, l.entries other = some entry ∧ entry.kind = .message ∧
      entry.deletedAt = none) :
    (l.rewrite fun key entry =>
      if key = other then Database.editEntry text at' entry else entry).Erased seq := by
  obtain ⟨target, htarget, hkind, hlive⟩ := hother
  obtain ⟨message, hmessage, hmkind, hdeleted, hrest⟩ := h.message
  constructor
  · refine ⟨message, ?_, hmkind, hdeleted, hrest⟩
    rw [entries_rewrite, hmessage, map_some, if_neg]
    intro hseq
    subst hseq
    cases hmessage.symm.trans htarget
    rw [hlive] at hdeleted
    cases hdeleted
  · intro key marker hmarker hmarks
    rw [entries_rewrite, map_eq_some_iff] at hmarker
    obtain ⟨entry, hentry, rfl⟩ := hmarker
    by_cases hkey : key = other
    · subst hkey
      rw [if_pos rfl] at hmarks
      cases hentry.symm.trans htarget
      cases hkind.symm.trans hmarks.1
    · rw [if_neg hkey] at hmarks ⊢
      exact h.edits key entry hentry hmarks

theorem erase (h : l.Erased seq) (other : Int) (at' : Time) :
    (l.rewrite (erasing other at')).Erased seq := by
  obtain ⟨message, hmessage, hkind, hdeleted, htext, hdata, hmentions⟩ := h.message
  constructor
  · refine ⟨erasing other at' seq message, by rw [entries_rewrite, hmessage]; rfl, ?_⟩
    rw [erasing_kind]
    unfold erasing
    split <;> simp [Database.blankEntry, hkind, hdeleted, htext, hdata, hmentions]
  · intro key marker hmarker hmarks
    rw [entries_rewrite, map_eq_some_iff] at hmarker
    obtain ⟨entry, hentry, rfl⟩ := hmarker
    have hmarked : Mutation.Marks seq .edit entry := by
      refine ⟨?_, ?_⟩
      · rw [← erasing_kind other at' key entry]
        exact hmarks.1
      · rw [← erasing_replyTo other at' key entry]
        exact hmarks.2
    obtain ⟨htext, hdata⟩ := h.edits key entry hentry hmarked
    unfold erasing
    simp only
    split <;> split <;> simp [Database.blankEntry, htext, hdata]

theorem apply (h : l.Erased seq) (hwhole : l.Whole) {mutation : Mutation} (hok : mutation.Ok l)
    (hspares : Spares seq mutation) (hdrop : mutation ≠ .dropped) : (l.apply mutation).Erased seq := by
  have hunlike : ∀ {kind : EntryKind} {other : Int} {marker : EntryRow}, kind ≠ .edit →
      Mutation.Marks other kind marker → ¬ Mutation.Marks seq .edit marker := by
    intro kind other marker hne hmarks hedit
    exact hne (hmarks.1.symm.trans hedit.1)
  cases mutation with
  | opened | configured => exact ⟨h.message, h.edits⟩
  | posted entry byAgent =>
    rw [apply_posted]
    exact h.write hwhole _ hspares
  | noticed entry pauses =>
    rw [apply_noticed]
    apply h.write hwhole
    intro hmarks
    have hsystem : entry.kind = .system := hok.2.2
    rw [hmarks.1] at hsystem
    cases hsystem
  | edited other marker =>
    obtain ⟨-, -, hmarks, hother⟩ := hok
    apply (h.edit hother).write (hwhole.rewrite _)
    intro hedit
    obtain ⟨target, htarget, hkind, hlive⟩ := hother
    obtain ⟨message, hmessage, -, hdeleted, -⟩ := h.message
    have hseq : seq = other := Option.some.inj (hedit.2.symm.trans hmarks.2)
    subst hseq
    cases hmessage.symm.trans htarget
    rw [hlive] at hdeleted
    cases hdeleted
  | erased other marker =>
    exact (h.erase other marker.at').write (hwhole.rewrite _) id (hunlike (by decide) hok.2.2.1)
  | reacted other marker =>
    have hreact : (l.react other marker.sender (if marker.text = "" then none
        else some { emoji := marker.text, markerSeq := l.next })).Erased seq :=
      ⟨h.message, h.edits⟩
    obtain ⟨hrow, -, hmarks, entry, hentry, -⟩ := hok
    have hthere : (l.entries other).isSome = true := by
      rw [hentry]
      rfl
    exact hreact.write (hwhole.react hthere _ _) id (hunlike (by decide) hmarks)
  | dropped => exact absurd rfl hdrop

end Erased

theorem erased_apply (hwhole : l.Whole) {marker : EntryRow} (hok : (Mutation.erased seq marker).Ok l) :
    (l.apply (.erased seq marker)).Erased seq := by
  obtain ⟨-, -, hmarks, -, entry, hentry, hkind, -⟩ := hok
  have herased : (l.rewrite (erasing seq marker.at')).Erased seq := by
    constructor
    · refine ⟨Database.blankEntry marker.at' entry, ?_, hkind, rfl, rfl, rfl, rfl⟩
      rw [entries_rewrite, hentry, map_some, erasing_message hkind]
    · intro key edit hedit hedits
      rw [entries_rewrite, map_eq_some_iff] at hedit
      obtain ⟨old, hold, rfl⟩ := hedit
      apply erasing_edit
      refine ⟨?_, ?_⟩
      · rw [← erasing_kind seq marker.at' key old]
        exact hedits.1
      · rw [← erasing_replyTo seq marker.at' key old]
        exact hedits.2
  apply herased.write (hwhole.rewrite _)
  intro hedit
  have hkinds := hmarks.1.symm.trans hedit.1
  cases hkinds

end Log

namespace Database

/-- The channel is still there after the call, and the call appends no entry of kind `edit`
about the message. -/
def Leaves (channel : String) (seq : Int) (d : Database) (call : TxEnv × Op) : Prop :=
  ((exec call d).channels.channels.get? channel).isSome ∧
    ∀ post : Post, call.2 = .channel (.append channel post) →
      ¬ (post.kind = .edit ∧ post.replyTo = some seq)

theorem ownMessage_erased {c : Channels} {channel : String} {seq : Int}
    (h : (c.log channel).Erased seq) (sender : Address) : ownMessage c channel seq sender = none := by
  obtain ⟨message, hmessage, -, hdeleted, -⟩ := h.message
  cases hown : ownMessage c channel seq sender with
  | none => rfl
  | some found =>
    obtain ⟨-, hentry, -, hlive⟩ := ownMessage_eq hown
    cases hmessage.symm.trans hentry
    rw [hlive] at hdeleted
    cases hdeleted

theorem erased_exec {d : Database} {call : TxEnv × Op} {channel : String} {seq : Int}
    (hwhole : (d.channels.log channel).Whole) (h : (d.channels.log channel).Erased seq)
    (hleaves : Leaves channel seq d call) : ((exec call d).channels.log channel).Erased seq := by
  have hboth : ((exec call d).channels.log channel).Whole ∧
      ((exec call d).channels.log channel).Erased seq := by
    refine Steps.invariant (P := fun l : Log => l.Whole ∧ l.Erased seq) ?_ (exec_stays hleaves.1)
      ⟨hwhole, h⟩
    rintro l mutation ⟨hl, herased⟩ ⟨hok, hof, hdrop⟩
    refine ⟨hl.apply hok, herased.apply hl hok ?_ hdrop⟩
    cases mutation with
    | posted entry byAgent =>
      obtain ⟨post, hpost, hkind, hreply, -⟩ := hof
      intro hmarks
      exact hleaves.2 post hpost ⟨hkind.symm.trans hmarks.1, hreply.symm.trans hmarks.2⟩
    | _ => trivial
  exact hboth.2

/-- Once a message is deleted, nothing it said is in the log and no edit or deletion of it
succeeds, while the channel is there and no caller appends an edit entry of its own. -/
theorem erased_stays {d d' : Database} (h : Calls {} d) {env : TxEnv} {channel : String}
    {seq marker : Int} {sender : Address} {c : Channels}
    (htombstone : tombstone d.channels env channel seq sender = .ok (c, some marker))
    (hlater : Steps exec (Leaves channel seq) { d with channels := c } d') :
    (d'.channels.log channel).Erased seq ∧ ∀ env' sender',
      (∀ text, edit d'.channels env' channel seq sender' text = .ok (d'.channels, none)) ∧
        tombstone d'.channels env' channel seq sender' = .ok (d'.channels, none) := by
  have hcalls : Calls {} { d with channels := c } := by
    have hexec : exec (env, .channel (.tombstone channel seq sender)) d =
        { d with channels := c } := by
      unfold exec perform performChannel
      simp only [htombstone]
      rfl
    rw [← hexec]
    exact Steps.next h _ trivial
  have hfirst : (c.log channel).Erased seq := by
    rcases tombstone_cases htombstone with ⟨-, -, hnone⟩ | ⟨row, entry, m, hown, rfl, -, hlog⟩
    · cases hnone
    · obtain ⟨hrow, hentry, hkind, hlive⟩ := ownMessage_eq hown
      rw [hlog, if_pos rfl]
      have hthere : (d.channels.log channel).row.isSome = true := by
        change (d.channels.channels.get? channel).isSome = true
        rw [hrow]
        rfl
      exact Log.erased_apply (whole_reachable h channel)
        ⟨hthere, ⟨rfl, rfl⟩, ⟨rfl, rfl⟩, rfl, entry, hentry, hkind, hlive⟩
  have hboth : Calls {} d' ∧ (d'.channels.log channel).Erased seq := by
    refine Steps.invariant
      (P := fun d => Calls {} d ∧ (d.channels.log channel).Erased seq) ?_ hlater ⟨hcalls, hfirst⟩
    rintro d call ⟨hd, herased⟩ hleaves
    exact ⟨Steps.next hd call trivial, erased_exec (whole_reachable hd channel) herased hleaves⟩
  refine ⟨hboth.2, fun env' sender' => ⟨fun text => ?_, ?_⟩⟩
  · unfold edit
    rw [ownMessage_erased hboth.2]
  · unfold tombstone
    rw [ownMessage_erased hboth.2]

private def edited : Database := exec (.plain 1, .channel (.edit "c" 0 "user/u" "new"))
    (exec (.plain 0, .channel (.append "c" { sender := "user/u", text := "old" }))
      (exec (.plain 0, .channel (.openChannel "c" "default" [] 40 0)) {}))

private theorem edited_reachable : Calls {} edited :=
  ((Steps.single _ trivial).trans (Steps.single _ trivial)).trans (Steps.single _ trivial)

private def takenBack : Database := exec (.plain 2, .channel (.tombstone "c" 0 "user/u")) edited

private theorem takenBack_tombstone :
    tombstone edited.channels (.plain 2) "c" 0 "user/u" = .ok (takenBack.channels, some 2) := rfl

/-- Somebody reacts to what is left of a message. -/
theorem erased_stays_reacted :
    ((exec (.plain 3, .channel (.react "c" 0 "user/v" "+1")) takenBack).channels.log "c").Erased 0 ∧
      ∀ env' sender',
        (∀ text, edit (exec (.plain 3, .channel (.react "c" 0 "user/v" "+1")) takenBack).channels
          env' "c" 0 sender' text =
            .ok ((exec (.plain 3, .channel (.react "c" 0 "user/v" "+1")) takenBack).channels, none)) ∧
        tombstone (exec (.plain 3, .channel (.react "c" 0 "user/v" "+1")) takenBack).channels
          env' "c" 0 sender' =
            .ok ((exec (.plain 3, .channel (.react "c" 0 "user/v" "+1")) takenBack).channels,
              none) := by
  refine erased_stays edited_reachable takenBack_tombstone (Steps.single _ ⟨by decide, ?_⟩)
  intro post hpost
  cases hpost

/-- A caller writes an edit of the deleted message by itself. -/
theorem erased_returns : ¬ ∀ d : Database, Calls {} d →
    ∀ (env : TxEnv) (channel : String) (seq marker : Int) (sender : Address) (c : Channels),
      tombstone d.channels env channel seq sender = .ok (c, some marker) →
      ∀ d', Steps exec (fun d call => ((exec call d).channels.channels.get? channel).isSome)
        { d with channels := c } d' → (d'.channels.log channel).Erased seq := by
  intro h
  have hkept := h edited edited_reachable (.plain 2) "c" 0 2 "user/u" takenBack.channels
    takenBack_tombstone (exec (.plain 3, .channel (.append "c"
      { sender := "user/v", text := "old", kind := .edit, replyTo := some 0 })) takenBack)
    (Steps.single _ (by decide))
  have hmarks : ∃ marker, ((exec (.plain 3, .channel (.append "c"
      { sender := "user/v", text := "old", kind := .edit, replyTo := some 0 }))
        takenBack).channels.log "c").entries 3 = some marker ∧ Mutation.Marks 0 .edit marker ∧
          marker.text = "old" := ⟨_, rfl, ⟨rfl, rfl⟩, rfl⟩
  obtain ⟨marker, hmarker, hedit, htext⟩ := hmarks
  have hempty := (hkept.edits 3 marker hmarker hedit).1
  rw [htext] at hempty
  exact absurd hempty (by decide)

end Database

end Substrate
