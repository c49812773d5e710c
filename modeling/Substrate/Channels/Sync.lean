import Substrate.Channels.Log
import Substrate.Channels.Reading
import Substrate.Lib.Replay

/-!
Reading a channel from where one left off. Edits, deletions and reactions change rows
where they are and are logged as entries of their own, so a reader that was left behind
takes in the markers it has not seen and needs nothing else. `sync_exact` compares that
with reading everything again.
-/

namespace Substrate

open Lib Channels List

structure Shown where
  fixed : EntryRow
  text : String
  mentions : List String
  data : JsonObject
  edited : Bool
  deleted : Bool

def EntryRow.shown (entry : EntryRow) : Shown where
  fixed := entry.fixed
  text := entry.text
  mentions := entry.mentions
  data := entry.data
  edited := entry.editedAt.isSome
  deleted := entry.deletedAt.isSome

abbrev Reactions : Type := Int → Address → Option String

namespace Shown

abbrev kind (entry : Shown) : EntryKind := entry.fixed.kind

abbrev replyTo (entry : Shown) : Option Int := entry.fixed.replyTo

def reword (target : Int) (text : String) (seq : Int) (entry : Shown) : Shown :=
  if seq = target ∧ entry.kind = .message then { entry with text, edited := true } else entry

def blank (target seq : Int) (entry : Shown) : Shown :=
  if seq = target ∧ entry.kind = .message then
    { entry with text := "", data := [], mentions := [], deleted := true }
  else entry

def forget (target seq : Int) (entry : Shown) : Shown :=
  let entry := blank target seq entry
  if entry.kind = .edit ∧ entry.replyTo = some target then { entry with text := "", data := [] }
  else entry

def rewrites (marker : Shown) (seq : Int) (entry : Shown) : Shown :=
  match marker.kind, marker.replyTo with
  | .edit, some target => reword target marker.text seq entry
  | .tombstone, some target => forget target seq entry
  | _, _ => entry

/-- What an entry makes of the reactions. -/
def reacts (marker : Shown) (reactions : Reactions) : Reactions :=
  match marker.kind, marker.replyTo with
  | .reaction, some target => fun seq participant =>
    if seq = target ∧ participant = marker.fixed.sender then
      if marker.text = "" then none else some marker.text
    else reactions seq participant
  | _, _ => reactions

theorem reword_fixed (target : Int) (text : String) (seq : Int) (entry : Shown) :
    (reword target text seq entry).fixed = entry.fixed := by
  unfold reword
  split <;> rfl

theorem blank_fixed (target seq : Int) (entry : Shown) :
    (blank target seq entry).fixed = entry.fixed := by
  unfold blank
  split <;> rfl

theorem forget_fixed (target seq : Int) (entry : Shown) :
    (forget target seq entry).fixed = entry.fixed := by
  unfold forget
  simp only
  split
  · exact blank_fixed target seq entry
  · exact blank_fixed target seq entry

theorem rewrites_fixed (marker : Shown) (seq : Int) (entry : Shown) :
    (rewrites marker seq entry).fixed = entry.fixed := by
  unfold rewrites
  split
  · exact reword_fixed ..
  · exact forget_fixed ..
  · rfl

theorem reword_twice (target : Int) (text text' : String) (seq : Int) (entry : Shown) :
    reword target text seq (reword target text' seq entry) = reword target text seq entry := by
  grind [reword]

theorem forget_twice (target seq : Int) (entry : Shown) :
    forget target seq (forget target seq entry) = forget target seq entry := by
  grind [forget, blank]

variable {target target' seq : Int} {marker entry : Shown}

theorem reword_comm (hne : target ≠ target') (text text' : String) (seq : Int) (entry : Shown) :
    reword target text seq (reword target' text' seq entry) =
      reword target' text' seq (reword target text seq entry) := by
  grind [reword]

theorem forget_comm (target target' seq : Int) (entry : Shown) :
    forget target seq (forget target' seq entry) = forget target' seq (forget target seq entry) := by
  grind [forget, blank]

theorem forget_reword_comm (hne : target ≠ target') (text : String) (seq : Int) (entry : Shown) :
    forget target seq (reword target' text seq entry) =
      reword target' text seq (forget target seq entry) := by
  grind [forget, blank, reword]

theorem forget_reword (target : Int) (text text' : String) (seq : Int) (entry : Shown) :
    forget target seq (reword target text seq (forget target seq entry)) =
      forget target seq (reword target text' seq entry) := by
  grind [forget, blank, reword]

theorem reword_forget (target : Int) (text : String) (seq : Int) (entry : Shown) :
    reword target text seq (forget target seq (reword target text seq entry)) =
      reword target text seq (forget target seq entry) := by
  grind [forget, blank, reword]

theorem rewrites_edit (hkind : marker.kind = .edit) (hreply : marker.replyTo = some target) :
    rewrites marker = reword target marker.text := by
  funext seq entry
  unfold rewrites
  rw [hkind, hreply]

theorem rewrites_tombstone (hkind : marker.kind = .tombstone)
    (hreply : marker.replyTo = some target) : rewrites marker = forget target := by
  funext seq entry
  unfold rewrites
  rw [hkind, hreply]

theorem rewrites_else (hedit : marker.kind = .edit → marker.replyTo = none)
    (htombstone : marker.kind = .tombstone → marker.replyTo = none) :
    rewrites marker = fun _ entry => entry := by
  funext seq entry
  unfold rewrites
  split
  · rename_i hkind hreply
    rw [hedit hkind] at hreply
    cases hreply
  · rename_i hkind hreply
    rw [htombstone hkind] at hreply
    cases hreply
  · rfl

theorem rewrites_cases (marker : Shown) :
    (∃ target, marker.kind = .edit ∧ marker.replyTo = some target) ∨
      (∃ target, marker.kind = .tombstone ∧ marker.replyTo = some target) ∨
        ∀ other : Shown, other.fixed = marker.fixed → rewrites other = fun _ entry => entry := by
  cases hreply : marker.replyTo with
  | none =>
    refine .inr (.inr fun other hother => ?_)
    have hnone : other.replyTo = none := by rw [replyTo, hother]; exact hreply
    exact rewrites_else (fun _ => hnone) fun _ => hnone
  | some target =>
    by_cases hedit : marker.kind = .edit
    · exact .inl ⟨target, hedit, rfl⟩
    by_cases htombstone : marker.kind = .tombstone
    · exact .inr (.inl ⟨target, htombstone, rfl⟩)
    refine .inr (.inr fun other hother => ?_)
    have hkind : other.kind = marker.kind := by rw [kind, hother]
    rw [← hkind] at hedit htombstone
    exact rewrites_else (fun h => absurd h hedit) fun h => absurd h htombstone

theorem rewrites_twice (marker : Shown) (seq : Int) (entry : Shown) :
    rewrites marker seq (rewrites marker seq entry) = rewrites marker seq entry := by
  rcases rewrites_cases marker with ⟨target, hkind, hreply⟩ | ⟨target, hkind, hreply⟩ | hnone
  · rw [rewrites_edit hkind hreply]
    exact reword_twice ..
  · rw [rewrites_tombstone hkind hreply]
    exact forget_twice ..
  · rw [hnone marker rfl]

theorem reword_edit {text : String} (hkind : entry.kind = .edit) :
    reword target text seq entry = entry := by
  unfold reword
  rw [if_neg]
  rintro ⟨-, hmessage⟩
  rw [hkind] at hmessage
  cases hmessage

theorem forget_edit (hkind : entry.kind = .edit) (hreply : entry.replyTo = some target')
    (hne : target ≠ target') : forget target seq entry = entry := by
  grind [forget, blank]

theorem rewrites_hides (marker entry : Shown) (seq seq' : Int) (other : Shown) :
    rewrites marker seq (rewrites (rewrites marker seq' entry) seq (rewrites marker seq other)) =
      rewrites marker seq (rewrites entry seq other) := by
  have hfixed : (rewrites marker seq' entry).fixed = entry.fixed := rewrites_fixed ..
  have hkind' : (rewrites marker seq' entry).kind = entry.kind := by rw [kind, hfixed]
  have hreply' : (rewrites marker seq' entry).replyTo = entry.replyTo := by rw [replyTo, hfixed]
  rcases rewrites_cases entry with ⟨target, hkind, hreply⟩ | ⟨target, hkind, hreply⟩ | hnone
  · rw [rewrites_edit hkind hreply, rewrites_edit (hkind'.trans hkind) (hreply'.trans hreply)]
    rcases rewrites_cases marker with ⟨about, hmkind, hmreply⟩ | ⟨about, hmkind, hmreply⟩ | hmnone
    · rw [rewrites_edit hmkind hmreply, reword_edit hkind]
      by_cases habout : about = target
      · subst habout
        rw [reword_twice, reword_twice, reword_twice]
      · rw [reword_comm habout, reword_twice, reword_comm habout]
    · rw [rewrites_tombstone hmkind hmreply]
      by_cases habout : about = target
      · subst habout
        exact forget_reword ..
      · rw [forget_edit hkind hreply habout, forget_reword_comm habout, forget_twice,
          forget_reword_comm habout]
    · rw [hmnone marker rfl]
  · rw [rewrites_tombstone hkind hreply,
      rewrites_tombstone (hkind'.trans hkind) (hreply'.trans hreply)]
    rcases rewrites_cases marker with ⟨about, hmkind, hmreply⟩ | ⟨about, hmkind, hmreply⟩ | hmnone
    · rw [rewrites_edit hmkind hmreply]
      by_cases habout : about = target
      · subst habout
        exact reword_forget ..
      · rw [forget_reword_comm fun h => habout h.symm, reword_twice]
    · rw [rewrites_tombstone hmkind hmreply, forget_comm target about, forget_twice]
    · rw [hmnone marker rfl]
  · rw [hnone entry rfl, hnone _ hfixed, rewrites_twice]

theorem reacts_apply (marker : Shown) (reactions : Reactions) (seq : Int) (participant : Address) :
    reacts marker reactions seq participant =
      if marker.kind = .reaction ∧ marker.replyTo = some seq ∧
          participant = marker.fixed.sender then
        if marker.text = "" then none else some marker.text
      else reactions seq participant := by
  by_cases hkind : marker.kind = .reaction
  · cases hreply : marker.replyTo with
    | none =>
      simp only [reacts, hkind, hreply]
      rfl
    | some target =>
      simp only [reacts, hkind, hreply, Option.some.injEq, true_and, eq_comm]
  · rw [if_neg fun h => hkind h.1]
    unfold reacts
    cases hmarker : marker.kind with
    | reaction => exact absurd hmarker hkind
    | _ => rfl

theorem reacts_twice (marker : Shown) (reactions : Reactions) :
    reacts marker (reacts marker reactions) = reacts marker reactions := by
  funext seq participant
  rw [reacts_apply, reacts_apply]
  split <;> rfl

theorem reacts_rewrites (marker entry : Shown) (seq : Int) :
    reacts (rewrites marker seq entry) = reacts entry := by
  by_cases hkind : entry.kind = .reaction
  · have hsame : rewrites marker seq entry = entry := by
      grind [rewrites, reword, forget, blank]
    rw [hsame]
  · funext reactions
    have hfixed : (rewrites marker seq entry).fixed = entry.fixed := rewrites_fixed ..
    have hother : ∀ other : Shown, other.kind ≠ .reaction → reacts other reactions = reactions := by
      intro other hne
      funext seq participant
      rw [reacts_apply, if_neg fun h => hne h.1]
    rw [hother entry hkind, hother]
    rw [kind, hfixed]
    exact hkind

theorem reacts_hides (marker entry : Shown) (reactions : Reactions) :
    reacts marker (reacts entry (reacts marker reactions)) =
      reacts marker (reacts entry reactions) := by
  funext seq participant
  rw [reacts_apply marker, reacts_apply marker (reacts entry reactions)]
  split
  · rfl
  · rename_i hother
    rw [reacts_apply entry, reacts_apply entry, reacts_apply marker, if_neg hother]

end Shown

/-- How a reader follows a channel. -/
def following : Rules Int Shown Reactions where
  rewrite := Shown.rewrites
  side := Shown.reacts
  rewrite_twice := Shown.rewrites_twice
  rewrite_hides := fun marker entry seq seq' other => Shown.rewrites_hides marker entry seq seq' other
  side_twice := Shown.reacts_twice
  side_hides := by
    intro marker entry seq reactions
    rw [Shown.reacts_rewrites]
    exact Shown.reacts_hides marker entry reactions

namespace Log

def view (l : Log) : View Int Shown Reactions where
  entries seq := (l.entries seq).map EntryRow.shown
  side seq participant := (l.reactions seq participant).map (·.emoji)

def after (l : Log) (s : Int) : List (Int × Shown) :=
  (List.range l.next.toNat).filterMap fun n : Nat =>
    if s < (n : Int) then (l.view.entries n).map fun entry => ((n : Int), entry) else none

def upto (s : Int) (v : View Int Shown Reactions) : View Int Shown Reactions where
  entries seq := if seq ≤ s then v.entries seq else none
  side seq participant := if seq ≤ s then v.side seq participant else none

/-- One entry is written, and the others are what it makes of them. -/
structure Marked (l l' : Log) (marker : EntryRow) : Prop where
  next : l'.next = l.next + 1
  entries : ∀ seq, l'.view.entries seq = if seq = l.next then some marker.shown
    else (l.view.entries seq).map (marker.shown.rewrites seq)
  itself : marker.shown.rewrites l.next marker.shown = marker.shown
  side : l'.view.side = marker.shown.reacts l.view.side

variable {l l' : Log} {s : Int}

theorem after_next (hnext : 0 ≤ l.next) (hlong : l'.next = l.next + 1) (hs : s < l.next) :
    l'.after s = ((List.range l.next.toNat).filterMap fun n : Nat =>
        if s < (n : Int) then (l'.view.entries n).map fun entry => ((n : Int), entry) else none) ++
      ((l'.view.entries l.next).map fun entry => (l.next, entry)).toList := by
  have hsucc : l'.next.toNat = l.next.toNat + 1 := by omega
  have hlast : (l.next.toNat : Int) = l.next := by omega
  unfold after
  rw [hsucc, range_succ, filterMap_append]
  congr 1
  rw [filterMap_cons, hlast, if_pos hs]
  cases l'.view.entries l.next <;> rfl

namespace Marked

variable {marker : EntryRow}

theorem after (h : Marked l l' marker) (hnext : 0 ≤ l.next) (hs : s < l.next) :
    l'.after s = ((l.after s).map fun entry =>
      (entry.1, marker.shown.rewrites entry.1 entry.2)) ++ [(l.next, marker.shown)] := by
  rw [after_next hnext h.next hs, h.entries l.next, if_pos rfl]
  congr 1
  unfold Log.after
  rw [map_filterMap]
  apply filterMap_congr
  intro n hn
  rw [mem_range] at hn
  have hother : (n : Int) ≠ l.next := by omega
  split
  · rw [h.entries, if_neg hother]
    cases l.view.entries (n : Int) <;> rfl
  · rfl

theorem view (h : Marked l l' marker) : l'.view = l.view.take following l.next marker.shown := by
  have hentries : l'.view.entries = (l.view.take following l.next marker.shown).entries := by
    funext seq
    rw [h.entries]
    unfold View.take
    simp only
    by_cases hseq : seq = l.next
    · subst hseq
      simp only [if_true, Option.map_some]
      exact congrArg some h.itself.symm
    · simp only [if_neg hseq]
      rfl
  have hside : l'.view.side = (l.view.take following l.next marker.shown).side := h.side
  cases hview : l'.view
  rw [hview] at hentries hside
  simp only at hentries hside
  rw [hentries, hside]

theorem catchUp (h : Marked l l' marker) (hnext : 0 ≤ l.next) (hs : s < l.next)
    {held held' : View Int Shown Reactions} (hagree : held.Agree following marker.shown held')
    (hsync : held.catchUp following (l.after s) = l.view) :
    held'.catchUp following (l'.after s) = l'.view := by
  rw [h.after hnext hs]
  have hmarked := View.catchUp_marked hagree (l.after s) l.next
  change held'.catchUp following (((l.after s).map fun entry =>
    (entry.1, following.rewrite marker.shown entry.1 entry.2)) ++ [(l.next, marker.shown)]) = _
  rw [hmarked, hsync, h.view]

theorem agree (h : Marked l l' marker) (hs : s < l.next) :
    (upto s l.view).Agree following marker.shown (upto s l'.view) := by
  constructor
  · intro seq
    unfold upto
    simp only
    split
    · rename_i hseq
      have hother : seq ≠ l.next := by omega
      rw [h.entries, if_neg hother]
      cases l.view.entries seq with
      | none => rfl
      | some entry => exact congrArg some (Shown.rewrites_twice marker.shown seq entry).symm
    · rfl
  · funext seq participant
    change marker.shown.reacts _ seq participant = marker.shown.reacts _ seq participant
    rw [Shown.reacts_apply, Shown.reacts_apply]
    split
    · rfl
    · rename_i hother
      unfold upto
      simp only [h.side]
      rw [Shown.reacts_apply, if_neg hother]

end Marked

/-- Whoever read the log up to some position, as it is now, can catch up with it. -/
def Replays (l : Log) : Prop := ∀ s, (upto s l.view).catchUp following (l.after s) = l.view

theorem catchUp_end (h : l.Whole) (hs : l.next ≤ s + 1) :
    (upto s l.view).catchUp following (l.after s) = l.view := by
  have hnone : l.after s = [] := by
    unfold after
    rw [filterMap_eq_nil_iff]
    intro n hn
    rw [mem_range] at hn
    rw [if_neg]
    omega
  have hthere : ∀ seq, ¬ seq ≤ s → l.entries seq = none := by
    intro seq hseq
    rw [← Option.not_isSome_iff_eq_none, h.numbered]
    omega
  rw [hnone]
  change upto s l.view = l.view
  unfold upto
  cases hview : l.view with
  | mk entries side =>
    congr 1
    · funext seq
      split
      · rfl
      · rename_i hseq
        have hentries : entries seq = (l.entries seq).map EntryRow.shown := by
          have := congrArg View.entries hview
          exact (congrFun this seq).symm
        rw [hentries, hthere seq hseq]
        rfl
    · funext seq participant
      split
      · rfl
      · rename_i hseq
        have hside : side seq participant = (l.reactions seq participant).map (·.emoji) := by
          have := congrArg View.side hview
          exact (congrFun (congrFun this seq) participant).symm
        have hreaction : l.reactions seq participant = none := by
          rw [← Option.not_isSome_iff_eq_none]
          intro hsome
          have hentry := h.reacted seq participant hsome
          rw [hthere seq hseq] at hentry
          cases hentry
        rw [hside, hreaction]
        rfl

theorem replays_empty : ({} : Log).Replays := by
  intro s
  change upto s ({} : Log).view = ({} : Log).view
  unfold upto view
  congr 1
  · funext seq
    split <;> rfl
  · funext seq participant
    split <;> rfl

variable {marker : EntryRow} {f : ChannelRow → ChannelRow} {seq : Int}

theorem Marked.replays (h : Marked l l' marker) (hwhole : l.Whole) (hwhole' : l'.Whole)
    (hreplays : l.Replays) : l'.Replays := by
  intro s
  rcases Int.lt_or_le s l.next with hs | hs
  · exact h.catchUp hwhole.nonneg hs (h.agree hs) (hreplays s)
  · apply catchUp_end hwhole'
    rw [h.next]
    omega

structure Alike (l l' : Log) : Prop where
  view : l'.view = l.view
  next : l'.next = l.next

theorem Alike.after (h : Alike l l') (s : Int) : l'.after s = l.after s := by
  unfold Log.after
  rw [h.view, h.next]

theorem marked_write (l l₁ : Log) (hrow : l₁.row.isSome) (hnext : l₁.next = l.next)
    (hentries : ∀ seq, l₁.view.entries seq = (l.view.entries seq).map (marker.shown.rewrites seq))
    (hside : l₁.view.side = marker.shown.reacts l.view.side)
    (hself : marker.shown.rewrites l.next marker.shown = marker.shown)
    (hf : ∀ row, (f row).nextSeq = row.nextSeq) :
    Marked l (l₁.write marker f) marker where
  next := by rw [next_write marker hrow hf, hnext]
  entries := by
    intro seq
    change ((l₁.write marker f).entries seq).map EntryRow.shown = _
    rw [entries_write, hnext]
    split
    · rfl
    · exact hentries seq
  itself := hself
  side := hside

theorem marked_plain {entry : EntryRow} (hrow : l.row.isSome) (hplain : entry.kind.isSpoken)
    (hf : ∀ row, (f row).nextSeq = row.nextSeq) : Marked l (l.write entry f) entry := by
  have hkind : entry.shown.kind = entry.kind := rfl
  have hrewrites : entry.shown.rewrites = fun _ other => other := by
    apply Shown.rewrites_else
    · intro hedit
      rw [← hkind, hedit] at hplain
      cases hplain
    · intro htombstone
      rw [← hkind, htombstone] at hplain
      cases hplain
  apply marked_write l l hrow rfl
  · intro seq
    rw [hrewrites]
    exact (Option.map_id' ..).symm
  · funext seq participant
    rw [Shown.reacts_apply, if_neg]
    rintro ⟨hreaction, -⟩
    rw [← hkind, hreaction] at hplain
    cases hplain
  · rw [hrewrites]
  · exact hf

theorem reacts_unless {marker : Shown} (hkind : marker.kind ≠ .reaction) (reactions : Reactions) :
    marker.reacts reactions = reactions := by
  funext seq participant
  rw [Shown.reacts_apply, if_neg fun h => hkind h.1]

theorem marked_rewrite {g : Int → EntryRow → EntryRow} (hrow : l.row.isSome)
    (hkind : marker.kind ≠ .reaction)
    (hg : ∀ seq entry, l.entries seq = some entry →
      (g seq entry).shown = marker.shown.rewrites seq entry.shown)
    (hself : marker.shown.rewrites l.next marker.shown = marker.shown) :
    Marked l ((l.rewrite g).write marker id) marker := by
  apply marked_write l (l.rewrite g) hrow rfl
  · intro seq
    change ((l.entries seq).map (g seq)).map EntryRow.shown =
      ((l.entries seq).map EntryRow.shown).map _
    cases hentry : l.entries seq with
    | none => rfl
    | some entry => exact congrArg some (hg seq entry hentry)
  · exact (reacts_unless hkind _).symm
  · exact hself
  · exact fun _ => rfl

theorem marked_edit (hok : (Mutation.edited seq marker).Ok l) :
    Marked l (l.apply (.edited seq marker)) marker := by
  obtain ⟨hrow, -, ⟨hkind, hreply⟩, entry, hentry, hmessage, -⟩ := hok
  have hrewrites : marker.shown.rewrites = Shown.reword seq marker.text :=
    Shown.rewrites_edit hkind hreply
  apply marked_rewrite hrow
  · rw [hkind]
    decide
  · intro key other hother
    rw [hrewrites]
    unfold Shown.reword
    by_cases hkey : key = seq
    · subst hkey
      cases hentry.symm.trans hother
      rw [if_pos rfl, if_pos ⟨rfl, hmessage⟩]
      rfl
    · rw [if_neg hkey, if_neg fun h => hkey h.1]
  · rw [hrewrites]
    exact Shown.reword_edit hkind

theorem marked_erase (hok : (Mutation.erased seq marker).Ok l) :
    Marked l (l.apply (.erased seq marker)) marker := by
  obtain ⟨hrow, -, ⟨hkind, hreply⟩, -, entry, hentry, hmessage, -⟩ := hok
  have hrewrites : marker.shown.rewrites = Shown.forget seq := Shown.rewrites_tombstone hkind hreply
  apply marked_rewrite hrow
  · rw [hkind]
    decide
  · intro key other hother
    rw [hrewrites]
    have hshown : ∀ entry : EntryRow, entry.shown.kind = entry.kind ∧
        entry.shown.replyTo = entry.replyTo := fun _ => ⟨rfl, rfl⟩
    by_cases hkey : key = seq
    · subst hkey
      cases hentry.symm.trans hother
      rw [erasing_message hmessage]
      have hblank : Shown.blank key key entry.shown =
          (Database.blankEntry marker.at' entry).shown := by
        unfold Shown.blank
        rw [if_pos ⟨rfl, hmessage⟩]
        rfl
      unfold Shown.forget
      simp only [hblank, (hshown _).1]
      rw [if_neg]
      rintro ⟨hedit, -⟩
      cases hmessage.symm.trans hedit
    · have hblank : Shown.blank seq key other.shown = other.shown := by
        unfold Shown.blank
        rw [if_neg fun h => hkey h.1]
      unfold Shown.forget erasing
      simp only [hblank, (hshown other).1, (hshown other).2, if_neg hkey]
      split <;> rfl
  · rw [hrewrites]
    have hself : marker.shown.kind = .tombstone := hkind
    grind [Shown.forget, Shown.blank]

theorem marked_react (hok : (Mutation.reacted seq marker).Ok l) :
    Marked l (l.apply (.reacted seq marker)) marker := by
  obtain ⟨hrow, -, ⟨hkind, hreply⟩, -⟩ := hok
  have hshown : marker.shown.kind = .reaction := hkind
  have hrewrites : marker.shown.rewrites = fun _ other => other := by
    apply Shown.rewrites_else
    · intro hedit
      cases hshown.symm.trans hedit
    · intro htombstone
      cases hshown.symm.trans htombstone
  apply marked_write l (l.react seq marker.sender (if marker.text = "" then none
    else some { emoji := marker.text, markerSeq := l.next })) hrow rfl
  · intro key
    rw [hrewrites]
    exact (Option.map_id' ..).symm
  · funext key participant
    have hreplied : marker.shown.replyTo = some seq := hreply
    rw [Shown.reacts_apply, hshown, hreplied]
    change (if key = seq ∧ participant = marker.sender then _ else _ : Option ReactionRow).map _ = _
    simp only [Option.some.injEq, true_and, eq_comm (a := seq)]
    change _ = if key = seq ∧ participant = marker.sender then
      if marker.text = "" then none else some marker.text else _
    split
    · split
      · rfl
      · rfl
    · rfl
  · rw [hrewrites]
  · exact fun _ => rfl

theorem apply_marked {mutation : Mutation} (hok : mutation.Ok l) (hdrop : mutation ≠ .dropped)
    (hplain : ∀ entry byAgent, mutation = .posted entry byAgent → entry.kind.isSpoken) :
    (∃ marker, Marked l (l.apply mutation) marker) ∨ Alike l (l.apply mutation) := by
  cases mutation with
  | opened row =>
    right
    have hnext : l.next = 0 := by
      unfold next
      rw [hok.1]
    exact ⟨rfl, hok.2.trans hnext.symm⟩
  | configured breaker engage =>
    right
    refine ⟨rfl, ?_⟩
    unfold next apply
    cases l.row <;> rfl
  | posted entry byAgent =>
    rw [apply_posted]
    exact .inl ⟨entry, marked_plain hok.1 (hplain entry byAgent rfl) fun _ => rfl⟩
  | noticed entry pauses =>
    rw [apply_noticed]
    have hspoken : entry.kind.isSpoken = true := by
      rw [hok.2.2]
      rfl
    exact .inl ⟨entry, marked_plain hok.1 hspoken fun _ => rfl⟩
  | edited seq marker => exact .inl ⟨marker, marked_edit hok⟩
  | erased seq marker => exact .inl ⟨marker, marked_erase hok⟩
  | reacted seq marker => exact .inl ⟨marker, marked_react hok⟩
  | dropped => exact absurd rfl hdrop

end Log

namespace Channels

def shown (entries : List ChannelEntry) : List (Int × Shown) :=
  entries.map fun entry => (entry.seq, entry.toEntryRow.shown)

theorem entriesOf_nodup (c : Channels) (channel : String) (p : Int → EntryRow → Bool) :
    ((c.entriesOf channel p).map (·.seq)).Nodup := by
  unfold entriesOf
  rw [List.map_map]
  have hperm := (perm_insertionSort (fun a b : (String × Int) × EntryRow => a.1.2 ≤ b.1.2)
    (c.entries.rows.filter fun row => row.1.1 = channel && p row.1.2 row.2)).map
      (fun row => row.1.2)
  refine hperm.nodup_iff.mpr ?_
  have hkeys : ((c.entries.rows.filter fun row =>
      row.1.1 = channel && p row.1.2 row.2).map Prod.fst).Nodup :=
    c.entries.nodup.sublist (filter_sublist.map Prod.fst)
  rw [List.Nodup, pairwise_map] at hkeys ⊢
  refine hkeys.imp_of_mem ?_
  intro a b ha hb hne hseq
  apply hne
  have hchannel : ∀ row ∈ c.entries.rows.filter fun row =>
      row.1.1 = channel && p row.1.2 row.2, row.1.1 = channel := by
    intro row hrow
    have hkept := (mem_filter.mp hrow).2
    rw [Bool.and_eq_true, decide_eq_true_eq] at hkept
    exact hkept.1
  exact Prod.ext ((hchannel a ha).trans (hchannel b hb).symm) hseq

theorem shown_entriesOf {c : Channels} {channel : String} (h : (c.log channel).Whole) (s : Int) :
    shown (c.entriesOf channel fun seq _ => decide (s < seq)) = (c.log channel).after s := by
  have hsorted : (shown (c.entriesOf channel fun seq _ => decide (s < seq))).Pairwise
      fun a b => a.1 < b.1 := by
    have hnodup := entriesOf_nodup c channel fun seq _ => decide (s < seq)
    unfold shown
    rw [List.Nodup, pairwise_map] at hnodup
    rw [pairwise_map]
    refine ((entriesOf_sorted c channel _).and hnodup).imp ?_
    rintro a b ⟨hle, hne⟩
    exact Int.lt_iff_le_and_ne.mpr ⟨hle, hne⟩
  have hafter : ((c.log channel).after s).Pairwise fun a b => a.1 < b.1 := by
    unfold Log.after
    rw [pairwise_filterMap]
    refine pairwise_lt_range.imp ?_
    intro n n' hlt a ha b hb
    have hfst : ∀ {n : Nat} {a : Int × Shown}, a ∈ (if s < (n : Int) then
        ((c.log channel).view.entries n).map fun entry => ((n : Int), entry) else none) →
          a.1 = n := by
      intro n a ha
      split at ha
      · obtain ⟨entry, -, rfl⟩ := Option.map_eq_some_iff.mp ha
        rfl
      · cases ha
    rw [hfst ha, hfst hb]
    omega
  have hirrefl : Std.Irrefl fun a b : Int × Shown => a.1 < b.1 := ⟨fun a => Int.lt_irrefl a.1⟩
  have hasymm : Std.Asymm fun a b : Int × Shown => a.1 < b.1 :=
    ⟨fun a b hab hba => absurd hab (Int.lt_asymm hba)⟩
  refine List.Pairwise.eq_of_mem_iff hsorted hafter ?_
  rintro ⟨seq, entry⟩
  constructor
  · intro hmem
    obtain ⟨e, he, heq⟩ := mem_map.mp hmem
    obtain ⟨-, hget, hs⟩ := mem_entriesOf.mp he
    obtain ⟨rfl, rfl⟩ := Prod.mk.inj heq
    have hrange : 0 ≤ e.seq ∧ e.seq < (c.log channel).next := by
      apply (h.numbered e.seq).mp
      change (c.entries.get? (channel, e.seq)).isSome = true
      rw [hget]
      rfl
    have hcast : (e.seq.toNat : Int) = e.seq := by omega
    refine mem_filterMap.mpr ⟨e.seq.toNat, mem_range.mpr (by omega), ?_⟩
    rw [hcast, if_pos (of_decide_eq_true hs)]
    change ((c.entries.get? (channel, e.seq)).map EntryRow.shown).map _ = _
    rw [hget]
    rfl
  · intro hmem
    obtain ⟨n, -, hn⟩ := mem_filterMap.mp hmem
    split at hn
    · rename_i hs
      obtain ⟨shownEntry, hshown, heq⟩ := Option.map_eq_some_iff.mp hn
      obtain ⟨rfl, rfl⟩ := Prod.mk.inj heq
      obtain ⟨row, hrow, rfl⟩ := Option.map_eq_some_iff.mp hshown
      refine mem_map.mpr ⟨{ row with channel, seq := n }, ?_, rfl⟩
      exact mem_entriesOf.mpr ⟨rfl, hrow, decide_eq_true hs⟩
    · cases hn

end Channels

namespace Database

/-- The call appends no entry under the kind of a marker. -/
def Plainly (channel : String) (_ : Database) (call : TxEnv × Op) : Prop :=
  ∀ post : Post, call.2 = .channel (.append channel post) → post.kind.isSpoken

/-- The same, and the channel is still there afterwards. -/
def Onward (channel : String) (d : Database) (call : TxEnv × Op) : Prop :=
  Plainly channel d call ∧ ((exec call d).channels.channels.get? channel).isSome

variable {channel : String} {d : Database}

theorem posted_spoken {call : TxEnv × Op} (hplain : Plainly channel d call) {mutation : Mutation}
    (hof : mutation.Of d.channels call.2 channel) :
    ∀ entry byAgent, mutation = .posted entry byAgent → entry.kind.isSpoken := by
  rintro entry byAgent rfl
  obtain ⟨post, hpost, hkind, -, -⟩ := hof
  rw [hkind]
  exact hplain post hpost

theorem replays_calls (h : Steps exec (Plainly channel) {} d) :
    (d.channels.log channel).Whole ∧ (d.channels.log channel).Replays := by
  refine Steps.invariant (P := fun d =>
    (d.channels.log channel).Whole ∧ (d.channels.log channel).Replays) ?_ h ?_
  · intro d call hd hplain
    refine Steps.invariant (P := fun l : Log => l.Whole ∧ l.Replays) ?_
      (exec_mutations call d channel) hd
    rintro l mutation ⟨hwhole, hreplays⟩ ⟨hok, hof⟩
    have hwhole' := hwhole.apply hok
    refine ⟨hwhole', ?_⟩
    by_cases hdrop : mutation = .dropped
    · subst hdrop
      exact Log.replays_empty
    · rcases Log.apply_marked hok hdrop (posted_spoken hplain hof) with ⟨marker, hmarked⟩ | halike
      · exact hmarked.replays hwhole hwhole' hreplays
      · intro s
        rw [halike.after, halike.view]
        exact hreplays s
  · exact ⟨Log.Whole.empty, Log.replays_empty⟩

/-- A reader that held the entries up to `s` as they were at some time takes in the entries
after `s` as they read now, and has what a full read shows. Numbers run from 0 without a gap,
and no entry is removed or changes what is fixed of it. -/
theorem sync_exact {channel : String} {d₀ d : Database} (h : Steps exec (Plainly channel) {} d₀)
    (hlater : Steps exec (Onward channel) d₀ d) {s : Int} (hs : s < d₀.channels.nextOf channel)
    {limit : Nat}
    (hlimit : (d.channels.entriesOf channel fun seq _ => decide (s < seq)).length ≤ limit) :
    (Log.upto s (d₀.channels.log channel).view).catchUp following
        (shown (d.channels.read channel s limit)) = (d.channels.log channel).view ∧
      (∀ seq, (d.channels.entries.get? (channel, seq)).isSome ↔
        0 ≤ seq ∧ seq < d.channels.nextOf channel) ∧
      Log.Kept (d₀.channels.log channel) (d.channels.log channel) := by
  obtain ⟨hwhole₀, hreplays₀⟩ := replays_calls h
  have hinit : (d₀.channels.log channel).Whole ∧ s < (d₀.channels.log channel).next ∧
      (Log.upto s (d₀.channels.log channel).view).catchUp following
        ((d₀.channels.log channel).after s) = (d₀.channels.log channel).view ∧
      Log.Kept (d₀.channels.log channel) (d₀.channels.log channel) :=
    ⟨hwhole₀, hs, hreplays₀ s, Log.Kept.refl _⟩
  have hend : (d.channels.log channel).Whole ∧ s < (d.channels.log channel).next ∧
      (Log.upto s (d₀.channels.log channel).view).catchUp following
        ((d.channels.log channel).after s) = (d.channels.log channel).view ∧
      Log.Kept (d₀.channels.log channel) (d.channels.log channel) := by
    refine Steps.invariant (P := fun d => (d.channels.log channel).Whole ∧
      s < (d.channels.log channel).next ∧ (Log.upto s (d₀.channels.log channel).view).catchUp
        following ((d.channels.log channel).after s) = (d.channels.log channel).view ∧
      Log.Kept (d₀.channels.log channel) (d.channels.log channel)) ?_ hlater hinit
    intro d call hd hguard
    refine Steps.invariant (P := fun l : Log => l.Whole ∧ s < l.next ∧
      (Log.upto s (d₀.channels.log channel).view).catchUp following (l.after s) = l.view ∧
      Log.Kept (d₀.channels.log channel) l) ?_ (exec_stays hguard.2) hd
    rintro l mutation ⟨hwhole, hbelow, hsync, hkept⟩ ⟨hok, hof, hdrop⟩
    refine ⟨hwhole.apply hok, ?_, ?_, hkept.trans (Log.kept_apply hwhole hdrop)⟩
    · rcases Log.apply_marked hok hdrop (posted_spoken hguard.1 hof) with ⟨marker, hmarked⟩ | halike
      · rw [hmarked.next]
        omega
      · rw [halike.next]
        exact hbelow
    · rcases Log.apply_marked hok hdrop (posted_spoken hguard.1 hof) with ⟨marker, hmarked⟩ | halike
      · exact hmarked.catchUp hwhole.nonneg hbelow (View.Agree.refl following _ _) hsync
      · rw [halike.after, halike.view]
        exact hsync
  obtain ⟨hwhole, -, hsync, hkept⟩ := hend
  refine ⟨?_, hwhole.numbered, hkept⟩
  have hread : d.channels.read channel s limit =
      d.channels.entriesOf channel fun seq _ => decide (s < seq) := take_of_length_le hlimit
  rw [hread, shown_entriesOf hwhole]
  exact hsync

private def reworded : Database := exec (.plain 1, .channel (.edit "c" 0 "user/u" "new"))
    (exec (.plain 0, .channel (.append "c" { sender := "user/u", text := "old" }))
      (exec (.plain 0, .channel (.openChannel "c" "default" [] 40 0)) {}))

private theorem reworded_plainly : Steps exec (Plainly "c") {} reworded := by
  have hopened : Steps exec (Plainly "c") {}
      (exec (.plain 0, .channel (.openChannel "c" "default" [] 40 0)) {}) := by
    refine Steps.single _ fun post hpost => ?_
    cases hpost
  refine (Steps.next hopened _ ?_).next _ ?_
  · intro post hpost
    cases hpost
    rfl
  · intro post hpost
    cases hpost

private def withdrawn : Database := exec (.plain 2, .channel (.tombstone "c" 0 "user/u")) reworded

private theorem withdrawn_onward : Steps exec (Onward "c") reworded withdrawn := by
  refine Steps.single _ ⟨fun post hpost => ?_, by decide⟩
  cases hpost

/-- A reader that had read the edit hears of the deletion. -/
theorem sync_exact_withdrawn : (Log.upto 1 (reworded.channels.log "c").view).catchUp following
        (shown (withdrawn.channels.read "c" 1 10)) = (withdrawn.channels.log "c").view ∧
      (∀ seq, (withdrawn.channels.entries.get? ("c", seq)).isSome ↔
        0 ≤ seq ∧ seq < withdrawn.channels.nextOf "c") ∧
      Log.Kept (reworded.channels.log "c") (withdrawn.channels.log "c") :=
  sync_exact reworded_plainly withdrawn_onward (by decide) (by decide)

def takeOne (v : View Int Shown Reactions) (entry : Int × Shown) : View Int Shown Reactions where
  entries seq := (if seq = entry.1 then some entry.2 else v.entries seq).map fun other =>
    match entry.2.kind, entry.2.replyTo with
    | .tombstone, some target => Shown.blank target seq other
    | _, _ => entry.2.rewrites seq other
  side := entry.2.reacts v.side

/-- A reader that blanks one message keeps the text an edit marker had, and one that follows
markers is misled by an entry a caller appends as a marker. -/
theorem sync_differs :
    (¬ ∀ (channel : String) (d₀ d : Database), Steps exec (Plainly channel) {} d₀ →
      Steps exec (Onward channel) d₀ d → ∀ s < d₀.channels.nextOf channel,
        (shown (d.channels.entriesOf channel fun seq _ => decide (s < seq))).foldl takeOne
          (Log.upto s (d₀.channels.log channel).view) = (d.channels.log channel).view) ∧
    ¬ ∀ (channel : String) (d₀ d : Database), Calls {} d₀ →
      Steps exec (fun d call => ((exec call d).channels.channels.get? channel).isSome) d₀ d →
      ∀ s < d₀.channels.nextOf channel,
        (Log.upto s (d₀.channels.log channel).view).catchUp following
          (shown (d.channels.entriesOf channel fun seq _ => decide (s < seq))) =
            (d.channels.log channel).view := by
  constructor
  · intro h
    have hview := h "c" reworded withdrawn reworded_plainly withdrawn_onward 1 (by decide)
    have htext := congrArg (fun v : View Int Shown Reactions =>
      (v.entries 1).map (·.text)) hview
    exact absurd htext (by decide)
  · intro h
    have hcalls : Calls {} reworded := Steps.mono (fun _ _ _ => trivial) reworded_plainly
    have hview := h "c" reworded (exec (.plain 2, .channel (.append "c"
      { sender := "user/v", text := "false", kind := .edit, replyTo := some 0 })) reworded)
      hcalls (Steps.single _ (by decide)) 1 (by decide)
    have htext := congrArg (fun v : View Int Shown Reactions =>
      (v.entries 0).map (·.text)) hview
    exact absurd htext (by decide)

end Database

end Substrate
