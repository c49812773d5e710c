import Substrate.Lib.Rehearsal
import Substrate.Workspace.Tables

/-!
Heads under concurrent calls. A commit holds the head it has moved until it ends, so that
of two commits from one parent the second sees the first.
-/

namespace Substrate.Workspace

open Lib List Option

variable {Content : Type}

abbrev OpenCall (Content : Type) :=
  Open (Tables Content) Read (Write Content) (Image Content) Key Failure (Option (Snapshot Content))

abbrev Calls (ι Content : Type) :=
  Sessions ι (Tables Content) Read (Write Content) (Image Content) Key Failure
    (Option (Snapshot Content)) (Request Content)

abbrev CallMove (ι Content : Type) :=
  Move ι (Tables Content) Read (Write Content) Failure (Option (Snapshot Content)) (Request Content)

def Stored (t : Tables Content) (session id : String) : Prop :=
  ∃ row, t.snapshots.get? id = some row ∧ row.sessionId = session

/-- Every head names a stored snapshot of its session, and every row has its own. -/
structure Sound (t : Tables Content) : Prop where
  heads : ∀ branch id, t.heads.get? branch = some id → Stored t branch.1 id
  rows : ∀ id row, t.snapshots.get? id = some row →
    id ≠ "" ∧ row.snapshot.id = id ∧ row.snapshot.sessionId = row.sessionId

/-- Where a call stands, and what it has found or written that holds still. -/
inductive Stage (t : Tables Content) : Request Content →
    Transaction Content (Option (Snapshot Content)) → List (Image Content) → Nat → Prop where
  | fresh (what : Request Content) : Stage t what what.transaction [] 0
  | failed (what : Request Content) (e : Failure) (made : Nat) : Stage t what (.raise e) []
      (made + 1)
  | moved {session branch : String} {snapshot : Snapshot Content} {expected : Option String}
      (hsession : snapshot.sessionId = session) (hparent : snapshot.parentSnapshotId = expected)
      (hhead : t.heads.get? (session, branch) = expected) :
      Stage t (.commitSnapshot session branch snapshot expected)
        (.write (.putSnapshot snapshot) fun _ => .ret (some snapshot))
        [.head (session, branch) (some snapshot.id)] 1
  | lost {session branch : String} {snapshot : Snapshot Content} {expected : Option String} :
      Stage t (.commitSnapshot session branch snapshot expected)
        (.read (.head (session, branch)) fun t =>
          .raise (.conflict session branch expected (t.heads.get? (session, branch)))) [] 1
  | stored {session branch : String} {snapshot : Snapshot Content} {expected : Option String}
      (hsession : snapshot.sessionId = session) (hparent : snapshot.parentSnapshotId = expected)
      (hhead : t.heads.get? (session, branch) = expected) (hid : snapshot.id ≠ "")
      (hnew : t.snapshots.get? snapshot.id = none) :
      Stage t (.commitSnapshot session branch snapshot expected) (.ret (some snapshot))
        [.head (session, branch) (some snapshot.id),
          .snapshot snapshot.id (some (rowOf snapshot none))] 2
  | sought {session source new : String} :
      Stage t (.forkBranchSnapshot session source new)
        (.read (.head (session, source)) fun t =>
          forkAt session new (t.heads.get? (session, source))) [] 1
  | nothing {session source new : String} :
      Stage t (.forkBranchSnapshot session source new) (.ret none) [] 2
  | found {session source new id : String} (hstored : Stored t session id) :
      Stage t (.forkBranchSnapshot session source new) (forkAt session new (some id)) [] 2
  | pointed {session source new id : String} (hstored : Stored t session id)
      (hnone : t.heads.get? (session, new) = none) :
      Stage t (.forkBranchSnapshot session source new) (readSnapshot id)
        [.head (session, new) (some id)] 3
  | forked {session source new id : String} {snapshot : Snapshot Content}
      (hstored : Stored t session id) (hnone : t.heads.get? (session, new) = none) :
      Stage t (.forkBranchSnapshot session source new) (.ret (some snapshot))
        [.head (session, new) (some id)] 4
  | checked {session branch id : String} :
      Stage t (.setBranchSnapshotHead session branch id)
        (.read (.snapshot id) fun t =>
          setAt session branch id ((t.snapshots.get? id).map Row.snapshot)) [] 1
  | present {session branch id : String} {snapshot : Snapshot Content}
      (hstored : Stored t session id) :
      Stage t (.setBranchSnapshotHead session branch id) (setAt session branch id (some snapshot))
        [] 2
  | headed {session branch id : String} {snapshot : Snapshot Content}
      (hstored : Stored t session id) (hnone : t.heads.get? (session, branch) = none) :
      Stage t (.setBranchSnapshotHead session branch id) (.ret (some snapshot))
        [.head (session, branch) (some id)] 3
  | swept {session : String} {images : List (Image Content)}
      (hall : ∀ image ∈ images, ∃ branch : Branch, branch.1 = session ∧ image = .head branch none)
      (hcover : ∀ branch : Branch, branch.1 = session → t.heads.get? branch ≠ none →
        .head branch ∈ images.map Image.key) :
      Stage t (.deleteSession session)
        (.write (.deleteSnapshots session) fun _ => .ret none) images 1
  | erased {session : String} {images : List (Image Content)}
      (hdrops : ∀ image ∈ images, image.Drops)
      (hheads : ∀ branch, .head branch ∈ images.map Image.key → branch.1 = session)
      (hsnapshots : ∀ id, .snapshot id ∈ images.map Image.key → Stored t session id)
      (hcover : ∀ branch id, branch.1 = session → t.heads.get? branch = some id →
        .head branch ∈ images.map Image.key ∨ .snapshot id ∉ images.map Image.key) :
      Stage t (.deleteSession session) (.ret none) images 2

/-- The condition on a statement: a commit puts its snapshot under an id that is not in
use, and a head is set to a snapshot of its own session. -/
def Ready (t : Tables Content) (what : Request Content) (o : OpenCall Content) : Prop :=
  match what with
  | .commitSnapshot _ _ snapshot _ =>
    o.images ≠ [] → snapshot.id ≠ "" ∧ t.snapshots.get? snapshot.id = none
  | .setBranchSnapshotHead session _ id =>
    o.made = 1 → ∀ row, t.snapshots.get? id = some row → row.sessionId = session
  | _ => True

theorem commitSnapshot_eq (session branch : String) (snapshot : Snapshot Content)
    (expected : Option String) :
    (∃ e, commitSnapshot session branch snapshot expected = .raise e) ∨
      snapshot.sessionId = session ∧ snapshot.branchId = branch ∧
        snapshot.parentSnapshotId = expected ∧ commitSnapshot session branch snapshot expected =
            .write (swap (session, branch) snapshot.id expected)
              (swapped session branch snapshot expected) := by
  unfold commitSnapshot
  split
  · exact .inl ⟨_, rfl⟩
  · rename_i hsession
    split
    · exact .inl ⟨_, rfl⟩
    · rename_i hbranch
      split
      · exact .inl ⟨_, rfl⟩
      · rename_i hparent
        exact .inr ⟨not_not.mp hsession, not_not.mp hbranch, not_not.mp hparent, rfl⟩

theorem swap_exec (t : Tables Content) (branch : Branch) (id : String) (expected : Option String) :
    (t.heads.get? branch = expected ∧
        (swap branch id expected).exec t = .ok [.head branch (some id)]) ∨
      (t.heads.get? branch ≠ expected ∧ (swap branch id expected).exec t = .ok []) := by
  cases expected with
  | none =>
    simp only [swap, Write.exec]
    by_cases hhead : t.heads.get? branch = none
    · exact .inl ⟨hhead, by rw [if_pos hhead]⟩
    · exact .inr ⟨hhead, by rw [if_neg hhead]⟩
  | some expected =>
    simp only [swap, Write.exec]
    by_cases hhead : t.heads.get? branch = some expected
    · exact .inl ⟨hhead, by rw [if_pos hhead]⟩
    · exact .inr ⟨hhead, by rw [if_neg hhead]⟩

theorem swept_covers (t : Tables Content) (session : String) :
    let images := (t.heads.rows.filter fun row => row.1.1 = session).map
      fun row => (Image.head row.1 none : Image Content)
    (∀ image ∈ images, ∃ branch : Branch, branch.1 = session ∧ image = .head branch none) ∧
      ∀ branch : Branch, branch.1 = session → t.heads.get? branch ≠ none →
        .head branch ∈ images.map Image.key := by
  constructor
  · intro image himage
    obtain ⟨row, hrow, rfl⟩ := mem_map.mp himage
    have hsession := (mem_filter.mp hrow).2
    exact ⟨row.1, by simpa using hsession, rfl⟩
  · intro branch hsession hsome
    obtain ⟨id, hid⟩ := ne_none_iff_exists'.mp hsome
    have hrow : (branch, id) ∈ t.heads.rows.filter fun row => row.1.1 = session :=
      mem_filter.mpr ⟨Table.mem_rows_iff.mpr hid, by simpa using hsession⟩
    exact mem_map.mpr ⟨_, mem_map.mpr ⟨_, hrow, rfl⟩, rfl⟩

theorem stored_of_read {t : Tables Content} {session id : String} {snapshot : Snapshot Content}
    (hread : (t.snapshots.get? id).map Row.snapshot = some snapshot)
    (hsession : ∀ row, t.snapshots.get? id = some row → row.sessionId = session) :
    Stored t session id := by
  obtain ⟨row, hget, _⟩ := map_eq_some_iff.mp hread
  exact ⟨row, hget, hsession row hget⟩

section

variable {t : Tables Content} {what : Request Content}

theorem Stage.begin (reads : List Read) (held : List Key) :
    Stage t what (database.advance ⟨what.transaction, [], reads, held, 0⟩ t).rest
      (database.advance ⟨what.transaction, [], reads, held, 0⟩ t).images
      (database.advance ⟨what.transaction, [], reads, held, 0⟩ t).made := by
  cases what with
  | commitSnapshot session branch snapshot expected =>
    simp only [Request.transaction]
    rcases commitSnapshot_eq session branch snapshot expected with ⟨e, heq⟩ | ⟨hsession, _, hparent, heq⟩
    · have hfresh := Stage.fresh (t := t) (.commitSnapshot session branch snapshot expected)
      simp only [Request.transaction, heq] at hfresh
      rw [heq]
      exact hfresh
    · rw [heq]
      rcases swap_exec t (session, branch) snapshot.id expected with
        ⟨hhead, hexec⟩ | ⟨hhead, hexec⟩
      · simp only [Engine.advance, Engine.view, putAll_nil]
        rw [show database.exec (swap (session, branch) snapshot.id expected) t = _ from hexec]
        exact .moved hsession hparent hhead
      · simp only [Engine.advance, Engine.view, putAll_nil]
        rw [show database.exec (swap (session, branch) snapshot.id expected) t = _ from hexec]
        exact .lost
  | forkBranchSnapshot session source new =>
    simp only [Request.transaction, forkBranchSnapshot, head, Tx.select, bind, Tx.bind,
      Engine.advance, Engine.view, putAll_nil]
    cases t.heads.get? (session, new) with
    | some id => exact .failed _ _ 0
    | none => exact .sought
  | setBranchSnapshotHead session branch id =>
    simp only [Request.transaction, setBranchSnapshotHead, readSnapshot, head, Tx.select, bind,
      Tx.bind, Engine.advance, Engine.view, putAll_nil]
    cases t.heads.get? (session, branch) with
    | some id' => exact .failed _ _ 0
    | none => exact .checked
  | deleteSession session =>
    obtain ⟨hall, hcover⟩ := swept_covers t session
    exact .swept hall hcover

variable {session : String} {made : Nat}

theorem firstHead_advance {branch id : String}
    {next : Transaction Content (Option (Snapshot Content))}
    (hhead : t.heads.get? (session, branch) = none →
      Stage t what next [.head (session, branch) (some id)] (made + 1)) (reads : List Read)
    (held : List Key) : let o : OpenCall Content :=
      ⟨firstHead (session, branch) id >>= fun _ => next, [], reads, held, made⟩
    Stage t what (database.advance o t).rest (database.advance o t).images
      (database.advance o t).made := by
  have hrest : (firstHead (session, branch) id >>= fun _ => next) =
      Tx.write (.insertHead (session, branch) id) fun created =>
        (if created = 0 then .raise (.taken session branch) else pure ()) >>= fun _ => next := rfl
  rw [hrest]
  simp only [Engine.advance, Engine.view, putAll_nil]
  rcases swap_exec t (session, branch) id none with ⟨hnone, hexec⟩ | ⟨_, hexec⟩
  · rw [show database.exec (.insertHead (session, branch) id) t = _ from hexec]
    exact hhead hnone
  · rw [show database.exec (.insertHead (session, branch) id) t = _ from hexec]
    exact .failed what _ made

theorem mem_deleted {u : Tables Content} {image : Image Content}
    (h : image ∈ (u.snapshots.rows.filter fun row => row.2.sessionId = session).map
      fun row => (Image.snapshot row.1 none : Image Content)) :
    ∃ id, image = .snapshot id none ∧ Stored u session id := by
  obtain ⟨⟨id, row⟩, hrow, rfl⟩ := mem_map.mp h
  obtain ⟨hmem, hsession⟩ := mem_filter.mp hrow
  exact ⟨id, rfl, row, Table.mem_rows_iff.mp hmem, by simpa using hsession⟩

theorem Stage.advance {o : OpenCall Content} (h : Stage t what o.rest o.images o.made)
    (hsound : Sound t) (hready : Ready t what o) :
    Stage t what (database.advance o t).rest (database.advance o t).images
      (database.advance o t).made := by
  obtain ⟨rest, images, reads, held, made⟩ := o
  cases h with
  | fresh => exact Stage.begin reads held
  | failed _ e made => exact .failed _ e made
  | moved hsession hparent hhead =>
    obtain ⟨hid, hnew⟩ := hready (cons_ne_nil _ _)
    have hrow := Stage.stored hsession hparent hhead hid hnew
    rw [← hnew] at hrow
    exact hrow
  | lost => exact .failed _ _ 1
  | stored hsession hparent hhead hid hnew => exact .stored hsession hparent hhead hid hnew
  | @sought session source new =>
    change Stage t _ (forkAt session new (t.heads.get? (session, source))) [] 2
    cases hsource : t.heads.get? (session, source) with
    | none => exact .nothing
    | some id => exact .found (hsound.heads _ id hsource)
  | nothing => exact .nothing
  | found hstored =>
    exact firstHead_advance (fun hnone => .pointed hstored hnone) reads held
  | @pointed session source new id hstored hnone =>
    obtain ⟨row, hrow, hsession⟩ := hstored
    change Stage t _ (.ret ((t.snapshots.get? id).map Row.snapshot)) _ 4
    rw [hrow]
    exact .forked ⟨row, hrow, hsession⟩ hnone
  | forked hstored hnone => exact .forked hstored hnone
  | @checked session branch id =>
    change Stage t _ (setAt session branch id ((t.snapshots.get? id).map Row.snapshot)) [] 2
    cases hread : (t.snapshots.get? id).map Row.snapshot with
    | none => exact .failed _ _ 1
    | some snapshot => exact .present (stored_of_read hread (hready rfl))
  | present hstored => exact firstHead_advance (fun hnone => .headed hstored hnone) reads held
  | headed hstored hnone => exact .headed hstored hnone
  | @swept session images hall hcover =>
    have hold : ∀ id, .snapshot id ∉ images.map Image.key := by
      intro id hmem
      obtain ⟨image, himage, hkey⟩ := mem_map.mp hmem
      obtain ⟨branch, _, rfl⟩ := hall image himage
      cases hkey
    have hnew : ∀ image ∈ ((database.putAll images t).snapshots.rows.filter
        fun row => row.2.sessionId = session).map
          fun row => (Image.snapshot row.1 none : Image Content),
        ∃ id, image = .snapshot id none ∧ Stored t session id := by
      intro image himage
      obtain ⟨id, rfl, row, hget, hsession⟩ := mem_deleted himage
      rw [snapshots_of_not_mem (hold id)] at hget
      exact ⟨id, rfl, row, hget, hsession⟩
    apply Stage.erased
    · intro image himage
      rcases mem_append.mp himage with himage | himage
      · obtain ⟨branch, _, rfl⟩ := hall image himage
        rfl
      · obtain ⟨id, rfl, _⟩ := hnew image himage
        rfl
    · intro branch hmem
      obtain ⟨image, himage, hkey⟩ := mem_map.mp hmem
      rcases mem_append.mp himage with himage | himage
      · obtain ⟨branch', hsession, rfl⟩ := hall image himage
        cases hkey
        exact hsession
      · obtain ⟨id, rfl, _⟩ := hnew image himage
        cases hkey
    · intro id hmem
      obtain ⟨image, himage, hkey⟩ := mem_map.mp hmem
      rcases mem_append.mp himage with himage | himage
      · obtain ⟨branch, _, rfl⟩ := hall image himage
        cases hkey
      · obtain ⟨id', rfl, hstored⟩ := hnew image himage
        cases hkey
        exact hstored
    · intro branch id hsession hget
      have hmem := hcover branch hsession (by rw [hget]; exact some_ne_none id)
      obtain ⟨image, himage, hkey⟩ := mem_map.mp hmem
      exact .inl (mem_map.mpr ⟨image, mem_append_left _ himage, hkey⟩)
  | erased hdrops hheads hsnapshots hcover => exact .erased hdrops hheads hsnapshots hcover

def Leads : Transaction Content (Option (Snapshot Content)) → Prop
  | .raise _ => False
  | .ret none => False
  | _ => True

/-- A call `what` that is open cannot bear that the other commits: a session that is being
deleted gets a head, or the snapshot a head is to name is deleted. -/
def Crosses (what : Request Content) (o : OpenCall Content) (what' : Request Content)
    (o' : OpenCall Content) : Prop :=
  match what, what' with
  | .deleteSession session, .commitSnapshot session' _ _ none => session = session' ∧ o.made = 1
  | .deleteSession session, .forkBranchSnapshot session' _ _
  | .deleteSession session, .setBranchSnapshotHead session' _ _ =>
    session = session' ∧ o.made ≠ 0 ∧ o'.images ≠ []
  | .forkBranchSnapshot session _ _, .deleteSession session'
  | .setBranchSnapshotHead session _ _, .deleteSession session' =>
    session = session' ∧ 2 ≤ o.made ∧ Leads o.rest
  | _, _ => False

inductive Commits (t : Tables Content) : Request Content → List (Image Content) → Prop where
  | nothing (what : Request Content) : Commits t what []
  | snapshot {session branch : String} {snapshot : Snapshot Content} {expected : Option String}
      (hsession : snapshot.sessionId = session) (hparent : snapshot.parentSnapshotId = expected)
      (hhead : t.heads.get? (session, branch) = expected) (hid : snapshot.id ≠ "")
      (hnew : t.snapshots.get? snapshot.id = none) :
      Commits t (.commitSnapshot session branch snapshot expected)
        [.head (session, branch) (some snapshot.id),
          .snapshot snapshot.id (some (rowOf snapshot none))]
  | forked {session source new id : String} (hstored : Stored t session id)
      (hnone : t.heads.get? (session, new) = none) :
      Commits t (.forkBranchSnapshot session source new) [.head (session, new) (some id)]
  | headed {session branch id : String} (hstored : Stored t session id)
      (hnone : t.heads.get? (session, branch) = none) :
      Commits t (.setBranchSnapshotHead session branch id) [.head (session, branch) (some id)]
  | erased {session : String} {images : List (Image Content)}
      (hdrops : ∀ image ∈ images, image.Drops)
      (hheads : ∀ branch, .head branch ∈ images.map Image.key → branch.1 = session)
      (hsnapshots : ∀ id, .snapshot id ∈ images.map Image.key → Stored t session id)
      (hcover : ∀ branch id, branch.1 = session → t.heads.get? branch = some id →
        .head branch ∈ images.map Image.key ∨ .snapshot id ∉ images.map Image.key) :
      Commits t (.deleteSession session) images

theorem Stage.commits {images : List (Image Content)} {r : Option (Snapshot Content)}
    (h : Stage t what (.ret r) images made) : Commits t what images := by
  generalize hrest : (Tx.ret r : Transaction Content (Option (Snapshot Content))) = rest at h
  cases h with
  | fresh | failed _ e made => exact .nothing what
  | moved hsession hparent hhead | pointed hstored hnone | swept hall hcover => cases hrest
  | lost | sought | nothing | found hstored | checked | present hstored => exact .nothing _
  | stored hsession hparent hhead hid hnew => exact .snapshot hsession hparent hhead hid hnew
  | forked hstored hnone => exact .forked hstored hnone
  | headed hstored hnone => exact .headed hstored hnone
  | erased hdrops hheads hsnapshots hcover => exact .erased hdrops hheads hsnapshots hcover

section

variable {images : List (Image Content)}

variable {id session : String} {row : Row Content}

theorem Commits.snapshots (h : Commits t what images) (hget : t.snapshots.get? id = some row) :
    (database.putAll images t).snapshots.get? id = some row ∨ what = .deleteSession row.sessionId ∧
        (database.putAll images t).snapshots.get? id = none := by
  cases h with
  | nothing | forked hstored hnone | headed hstored hnone => exact .inl hget
  | @snapshot session branch snapshot expected hsession hparent hhead hid hnew =>
    left
    have hne : id ≠ snapshot.id := by
      rintro rfl
      rw [hnew] at hget
      cases hget
    simp [Image.put, hne, hget]
  | erased hdrops hheads hsnapshots hcover =>
    by_cases hmem : .snapshot id ∈ images.map Image.key
    · right
      obtain ⟨row', hget', hsession⟩ := hsnapshots id hmem
      rw [hget] at hget'
      cases hget'
      exact ⟨by rw [hsession], snapshots_dropped hdrops hmem t⟩
    · left
      rw [snapshots_of_not_mem hmem]
      exact hget

theorem Commits.stored (h : Commits t what images) (hstored : Stored t session id)
    (hne : what ≠ .deleteSession session) : Stored (database.putAll images t) session id := by
  obtain ⟨row, hget, rfl⟩ := hstored
  rcases h.snapshots hget with hkept | ⟨hwhat, _⟩
  · exact ⟨row, hkept, rfl⟩
  · exact absurd hwhat hne

inductive Gives (t : Tables Content) (branch : Branch) (id : String) : Request Content → Prop where
  | commit {snapshot : Snapshot Content} (hsession : snapshot.sessionId = branch.1)
      (hparent : snapshot.parentSnapshotId = t.heads.get? branch) (hid : snapshot.id = id) :
      Gives t branch id (.commitSnapshot branch.1 branch.2 snapshot (t.heads.get? branch))
  | fork {source : String} (hstored : Stored t branch.1 id) (hnone : t.heads.get? branch = none) :
      Gives t branch id (.forkBranchSnapshot branch.1 source branch.2)
  | set (hstored : Stored t branch.1 id) (hnone : t.heads.get? branch = none) :
      Gives t branch id (.setBranchSnapshotHead branch.1 branch.2 id)

theorem Commits.heads (h : Commits t what images) {branch : Branch}
    (hget : (database.putAll images t).heads.get? branch = some id) :
    t.heads.get? branch = some id ∧ (.head branch ∉ images.map Image.key) ∨
      Gives t branch id what ∧ .head branch ∈ images.map Image.key := by
  cases h with
  | nothing => exact .inl ⟨hget, not_mem_nil⟩
  | @snapshot session name snapshot expected hsession hparent hhead hid hnew =>
    by_cases hbranch : branch = (session, name)
    · right
      subst hbranch
      have hsame : snapshot.id = id := by simpa [Image.put] using hget
      subst hhead
      exact ⟨.commit hsession hparent hsame, mem_cons_self⟩
    · left
      refine ⟨by simpa [Image.put, hbranch] using hget, ?_⟩
      simp [Image.key, hbranch]
  | @forked session source new id' hstored hnone =>
    by_cases hbranch : branch = (session, new)
    · right
      subst hbranch
      have hsame : id' = id := by simpa [Image.put] using hget
      subst hsame
      exact ⟨.fork hstored hnone, mem_cons_self⟩
    · left
      refine ⟨by simpa [Image.put, hbranch] using hget, ?_⟩
      simp [Image.key, hbranch]
  | @headed session name id' hstored hnone =>
    by_cases hbranch : branch = (session, name)
    · right
      subst hbranch
      have hsame : id' = id := by simpa [Image.put] using hget
      subst hsame
      exact ⟨.set hstored hnone, mem_cons_self⟩
    · left
      refine ⟨by simpa [Image.put, hbranch] using hget, ?_⟩
      simp [Image.key, hbranch]
  | erased hdrops hheads hsnapshots hcover =>
    left
    by_cases hmem : .head branch ∈ images.map Image.key
    · rw [heads_dropped hdrops hmem] at hget
      cases hget
    · rw [heads_of_not_mem hmem] at hget
      exact ⟨hget, hmem⟩

theorem Commits.rows (h : Commits t what images)
    (hget : (database.putAll images t).snapshots.get? id = some row) :
    t.snapshots.get? id = some row ∨
      ∃ session branch snapshot expected, what = .commitSnapshot session branch snapshot expected ∧
        id = snapshot.id ∧ id ≠ "" ∧ row = rowOf snapshot none := by
  cases h with
  | nothing | forked hstored hnone | headed hstored hnone => exact .inl hget
  | @snapshot session branch snapshot expected hsession hparent hhead hid hnew =>
    by_cases hsame : id = snapshot.id
    · right
      subst hsame
      have hrow : rowOf snapshot none = row := by simpa [Image.put] using hget
      exact ⟨session, branch, snapshot, expected, rfl, rfl, hid, hrow.symm⟩
    · left
      simpa [Image.put, hsame] using hget
  | erased hdrops hheads hsnapshots hcover =>
    left
    by_cases hmem : .snapshot id ∈ images.map Image.key
    · rw [snapshots_dropped hdrops hmem] at hget
      cases hget
    · rwa [snapshots_of_not_mem hmem] at hget

theorem Commits.sound (h : Commits t what images) (hsound : Sound t) :
    Sound (database.putAll images t) := by
  constructor
  · intro branch id hget
    rcases h.heads hget with ⟨hold, hfree⟩ | ⟨hgives, hmem⟩
    · obtain ⟨row, hrow, hsession⟩ := hsound.heads branch id hold
      rcases h.snapshots hrow with hkept | ⟨rfl, hgone⟩
      · exact ⟨row, hkept, hsession⟩
      · cases h with
        | nothing =>
          rw [putAll_nil, hrow] at hgone
          cases hgone
        | erased hdrops hheads hsnapshots hcover =>
          rcases hcover branch id hsession.symm hold with hmem | hkept
          · exact absurd hmem hfree
          · rw [snapshots_of_not_mem hkept, hrow] at hgone
            cases hgone
    · cases h with
      | nothing => cases hmem
      | @snapshot session name snapshot expected hsession hparent hhead hid hnew =>
        cases hgives with
        | commit _ _ hsame =>
          refine ⟨rowOf snapshot none, ?_, hsession⟩
          simp [Image.put, hsame]
      | forked _ _ =>
        cases hgives with
        | fork hstored hnone => exact hstored
      | headed _ _ =>
        cases hgives with
        | set hstored hnone => exact hstored
      | erased hdrops hheads hsnapshots hcover => cases hgives
  · intro id row hget
    rcases h.rows hget with hold | ⟨session, branch, snapshot, expected, _, rfl, hid, rfl⟩
    · exact hsound.rows id row hold
    · exact ⟨hid, rfl, rfl⟩

theorem Commits.puts {branch : String} {snapshot : Snapshot Content} {expected : Option String}
    {key : Key} (h : Commits t (.commitSnapshot session branch snapshot expected) images)
    (hmem : key ∈ images.map Image.key) : .snapshot snapshot.id ∈ images.map Image.key := by
  cases h with
  | nothing => cases hmem
  | snapshot hsession hparent hhead hid hnew => exact mem_cons_of_mem _ mem_cons_self

end

theorem Stage.beside {what' : Request Content} {o o' : OpenCall Content}
    (h : Stage t what o.rest o.images o.made) (h' : Commits t what' o'.images)
    (hapart : ∀ key ∈ o.images.map Image.key, key ∉ o'.images.map Image.key)
    (hcross : ¬ Crosses what o what' o') :
    Stage (database.view o' t) what o.rest o.images o.made := by
  obtain ⟨rest, images, reads, held, made⟩ := o
  have hheads : ∀ branch, .head branch ∈ images.map Image.key →
      (database.view o' t).heads.get? branch = t.heads.get? branch :=
    fun branch hmem => heads_of_not_mem (hapart _ hmem) t
  have hrows : ∀ id, .snapshot id ∈ images.map Image.key →
      (database.view o' t).snapshots.get? id = t.snapshots.get? id :=
    fun id hmem => snapshots_of_not_mem (hapart _ hmem) t
  cases h with
  | fresh => exact .fresh what
  | failed _ e made => exact .failed what e made
  | moved hsession hparent hhead =>
    exact .moved hsession hparent ((hheads _ mem_cons_self).trans hhead)
  | lost => exact .lost
  | stored hsession hparent hhead hid hnew =>
    exact .stored hsession hparent ((hheads _ mem_cons_self).trans hhead) hid
      ((hrows _ (mem_cons_of_mem _ mem_cons_self)).trans hnew)
  | sought => exact .sought
  | nothing => exact .nothing
  | found hstored =>
    refine .found (h'.stored hstored ?_)
    rintro rfl
    exact hcross ⟨rfl, le_refl 2, trivial⟩
  | pointed hstored hnone =>
    refine .pointed (h'.stored hstored ?_) ((hheads _ mem_cons_self).trans hnone)
    rintro rfl
    exact hcross ⟨rfl, (by decide : 2 ≤ 3), trivial⟩
  | forked hstored hnone =>
    refine .forked (h'.stored hstored ?_) ((hheads _ mem_cons_self).trans hnone)
    rintro rfl
    exact hcross ⟨rfl, (by decide : 2 ≤ 4), trivial⟩
  | checked => exact .checked
  | present hstored =>
    refine .present (h'.stored hstored ?_)
    rintro rfl
    exact hcross ⟨rfl, le_refl 2, trivial⟩
  | headed hstored hnone =>
    refine .headed (h'.stored hstored ?_) ((hheads _ mem_cons_self).trans hnone)
    rintro rfl
    exact hcross ⟨rfl, (by decide : 2 ≤ 3), trivial⟩
  | @swept session images hall hcover =>
    refine .swept hall ?_
    intro branch hsession hsome
    obtain ⟨id, hget⟩ := ne_none_iff_exists'.mp hsome
    rcases h'.heads hget with ⟨hold, _⟩ | ⟨hgives, hmem⟩
    · exact hcover branch hsession (by rw [hold]; exact some_ne_none id)
    · cases hgives with
      | commit _ _ _ =>
        cases hhead : t.heads.get? branch with
        | none =>
          rw [hhead] at hcross
          exact absurd ⟨hsession.symm, rfl⟩ hcross
        | some old => exact hcover branch hsession (by rw [hhead]; exact some_ne_none _)
      | fork _ _ | set _ _ =>
        refine absurd ⟨hsession.symm, Nat.one_ne_zero, ?_⟩ hcross
        rintro hnil
        rw [hnil] at hmem
        cases hmem
  | @erased session images hdrops hheads' hsnapshots hcover =>
    refine .erased hdrops hheads' ?_ ?_
    · intro id hmem
      obtain ⟨row, hget, hsession⟩ := hsnapshots id hmem
      exact ⟨row, (hrows id hmem).trans hget, hsession⟩
    · intro branch id hsession hget
      rcases h'.heads hget with ⟨hold, _⟩ | ⟨hgives, hmem⟩
      · exact hcover branch id hsession hold
      · cases hgives with
        | commit _ _ hid =>
          right
          intro hours
          apply hapart _ hours
          rw [← hid]
          exact h'.puts hmem
        | fork _ _ | set _ _ =>
          refine absurd ⟨hsession.symm, two_ne_zero, ?_⟩ hcross
          rintro hnil
          rw [hnil] at hmem
          cases hmem

end

/-- A head that a commit changes is moved on from the parent of the new snapshot, or it is
the first of its branch, or its session is deleted. -/
def Chained (t t' : Tables Content) (what : Request Content) (branch : Branch) : Prop :=
  t'.heads.get? branch = t.heads.get? branch ∨
    match what with
    | .commitSnapshot session name snapshot expected =>
      branch = (session, name) ∧ t.heads.get? branch = expected ∧
        snapshot.parentSnapshotId = expected ∧ t'.heads.get? branch = some snapshot.id ∧
          (t'.snapshots.get? snapshot.id).map Row.snapshot = some snapshot
    | .forkBranchSnapshot session _ name | .setBranchSnapshotHead session name _ =>
      branch = (session, name) ∧ t.heads.get? branch = none
    | .deleteSession session => branch.1 = session ∧ t'.heads.get? branch = none

/-- No snapshot is changed, and only the deletion of its session takes one away. -/
def Kept (t t' : Tables Content) (what : Request Content) : Prop :=
  ∀ id row, t.snapshots.get? id = some row → t'.snapshots.get? id = some row ∨
      what = .deleteSession row.sessionId ∧ t'.snapshots.get? id = none

section

variable {t : Tables Content} {what : Request Content} {images : List (Image Content)}

theorem Commits.chained (h : Commits t what images) (branch : Branch) :
    Chained t (database.putAll images t) what branch := by
  by_cases hmem : .head branch ∈ images.map Image.key
  · right
    cases h with
    | nothing => cases hmem
    | @snapshot session name snapshot expected hsession hparent hhead hid hnew =>
      have hbranch : branch = (session, name) := by simpa [Image.key] using hmem
      subst hbranch
      exact ⟨rfl, hhead, hparent, by simp [Image.put], by simp [Image.put, rowOf]⟩
    | forked hstored hnone | headed hstored hnone =>
      have hbranch := by simpa [Image.key] using hmem
      exact ⟨hbranch, by rw [hbranch, hnone]⟩
    | erased hdrops hheads hsnapshots hcover =>
      exact ⟨hheads branch hmem, heads_dropped hdrops hmem t⟩
  · left
    exact heads_of_not_mem hmem t

/-- A commit succeeds exactly if, at its compare-and-swap, the head is the expected
parent. From then on the head stays until the commit ends. -/
structure Decided (t : Tables Content) (session branch : String) (snapshot : Snapshot Content)
    (expected : Option String) (o : OpenCall Content) : Prop where
  swaps : o.made = 0 → snapshot.sessionId = session → snapshot.branchId = branch →
    snapshot.parentSnapshotId = expected →
      ((database.advance o t).images ≠ [] ↔ t.heads.get? (session, branch) = expected)
  wins : o.images ≠ [] → t.heads.get? (session, branch) = expected ∧
    ∀ u e, (database.advance o u).rest ≠ .raise e
  loses : o.images = [] → (∀ r, o.rest ≠ .ret r) ∧
    (o.made ≠ 0 → ∀ u, ∃ e, (database.advance o u).rest = .raise e)
  ends : ∀ r, o.rest = .ret r →
    r = some snapshot ∧ t.heads.get? (session, branch) = expected

variable {session branch : String} {snapshot : Snapshot Content} {expected : Option String}

theorem swaps_iff (hsession : snapshot.sessionId = session) (hbranch : snapshot.branchId = branch)
    (hparent : snapshot.parentSnapshotId = expected) (reads : List Read) (held : List Key) :
    let o : OpenCall Content :=
      ⟨commitSnapshot session branch snapshot expected, [], reads, held, 0⟩
    (database.advance o t).images ≠ [] ↔ t.heads.get? (session, branch) = expected := by
  have heq : commitSnapshot session branch snapshot expected =
      .write (swap (session, branch) snapshot.id expected)
        (swapped session branch snapshot expected) := by
    unfold commitSnapshot
    rw [if_neg (not_not.mpr hsession), if_neg (not_not.mpr hbranch), if_neg (not_not.mpr hparent)]
    rfl
  simp only [heq, Engine.advance, Engine.view, putAll_nil]
  rcases swap_exec t (session, branch) snapshot.id expected with
    ⟨hhead, hexec⟩ | ⟨hhead, hexec⟩
  · rw [show database.exec (swap (session, branch) snapshot.id expected) t = _ from hexec]
    simp [hhead]
  · rw [show database.exec (swap (session, branch) snapshot.id expected) t = _ from hexec]
    simp [hhead]

theorem Stage.decided {o : OpenCall Content}
    (h : Stage t (.commitSnapshot session branch snapshot expected) o.rest o.images o.made) :
    Decided t session branch snapshot expected o := by
  obtain ⟨rest, images, reads, held, made⟩ := o
  cases h with
  | fresh =>
    have hends : ∀ r, commitSnapshot session branch snapshot expected ≠ .ret r := by
      intro r
      rcases commitSnapshot_eq session branch snapshot expected with ⟨e, heq⟩ | ⟨_, _, _, heq⟩
      · rw [heq]
        exact fun hret => nomatch hret
      · rw [heq]
        exact fun hret => nomatch hret
    constructor
    · exact fun _ hsession hbranch hparent => swaps_iff hsession hbranch hparent reads held
    · exact fun hne => absurd rfl hne
    · exact fun _ => ⟨hends, fun hmade => absurd rfl hmade⟩
    · exact fun r hret => absurd hret (hends r)
  | failed _ e made =>
    constructor
    · intro hmade
      cases hmade
    · exact fun hne => absurd rfl hne
    · exact fun _ => ⟨fun r hret => (nomatch hret), fun _ u => ⟨e, rfl⟩⟩
    · exact fun r hret => nomatch hret
  | moved hsession hparent hhead =>
    constructor
    · intro hmade
      cases hmade
    · exact fun _ => ⟨hhead, fun u e hraise => nomatch hraise⟩
    · intro hnil
      cases hnil
    · exact fun r hret => nomatch hret
  | lost =>
    constructor
    · intro hmade
      cases hmade
    · exact fun hne => absurd rfl hne
    · exact fun _ => ⟨fun r hret => (nomatch hret), fun _ u => ⟨_, rfl⟩⟩
    · exact fun r hret => nomatch hret
  | stored hsession hparent hhead hid hnew =>
    constructor
    · intro hmade
      cases hmade
    · exact fun _ => ⟨hhead, fun u e hraise => nomatch hraise⟩
    · intro hnil
      cases hnil
    · intro r hret
      cases hret
      exact ⟨rfl, hhead⟩

theorem Sound.committable (h : Sound t) {id : String}
    (hget : t.heads.get? (session, branch) = some id) :
    ∃ snapshot, database.run (getBranchSnapshotHead session branch) t = .ok (some snapshot, t) ∧
      snapshot.id = id ∧
      ∀ next : Snapshot Content, next.sessionId = session → next.branchId = branch →
        next.parentSnapshotId = some snapshot.id →
          ∃ t', database.run (commitSnapshot session branch next (some snapshot.id)) t =
            .ok (some next, t') := by
  obtain ⟨row, hrow, _⟩ := h.heads _ id hget
  obtain ⟨hne, hid, _⟩ := h.rows id row hrow
  refine ⟨row.snapshot, ?_, hid, ?_⟩
  · have hread : database.run (readSnapshot id) t = .ok (some row.snapshot, t) := by
      simp only [readSnapshot, Engine.run_select, hrow, map_some]
    unfold getBranchSnapshotHead
    rw [Engine.run_bind]
    simp only [head, Engine.run_select, hget, if_neg hne]
    exact hread
  · intro next hsession hbranch hparent
    rw [hid] at hparent ⊢
    rcases commitSnapshot_eq session branch next (some id) with ⟨e, heq⟩ | ⟨_, _, _, heq⟩
    · simp [commitSnapshot, hsession, hbranch, hparent] at heq
      cases heq
    · rw [heq]
      simp only [Engine.run]
      rcases swap_exec t (session, branch) next.id (some id) with ⟨_, hexec⟩ | ⟨hmoved, _⟩
      · rw [show database.exec (swap (session, branch) next.id (some id)) t = _ from hexec]
        exact ⟨_, rfl⟩
      · exact absurd hget hmoved

end

section

variable {ι : Type} [DecidableEq ι]

/-- The condition on a step: a statement is ready, and what is committed is nothing that
another call cannot bear. -/
def Meets (s : Calls ι Content) : CallMove ι Content → Prop
  | .advance i => ∀ what o, s.opened i = some (what, o) → Ready s.db what o
  | .commit i => ∀ j what o what' o', j ≠ i → s.opened j = some (what, o) →
      s.opened i = some (what', o') → ¬ Crosses what o what' o'
  | _ => True

/-- The runs of calls from an empty database, with a condition on their steps. -/
def Runs (met : Calls ι Content → CallMove ι Content → Prop) (s : Calls ι Content) : Prop :=
  Steps database.move (fun s m => database.CanMove s m ∧ Engine.Opens Request.transaction m ∧ met s m)
    ⟨⟨.empty, .empty⟩, fun _ => none⟩ s

structure Inv (s : Calls ι Content) : Prop where
  sound : Sound s.db
  holding : database.Holding s
  exclusive : Engine.Exclusive s
  stages : ∀ i what o, s.opened i = some (what, o) → Stage s.db what o.rest o.images o.made

theorem Inv.move {s : Calls ι Content} {m : CallMove ι Content} (h : Inv s)
    (hcan : database.CanMove s m) (hopens : Engine.Opens Request.transaction m) (hmeets : Meets s m) :
    Inv (database.move m s) := by
  refine ⟨?_, database.holding_move m h.holding, database.exclusive_move h.exclusive hcan, ?_⟩
  · cases m with
    | start i what t | rollback i => exact h.sound
    | advance i =>
      obtain ⟨what, o, hi, _⟩ := hcan
      simp only [Engine.move, hi]
      exact h.sound
    | commit i =>
      obtain ⟨what, o, a, hi, hret⟩ := hcan
      have hstage := h.stages i what o hi
      rw [hret] at hstage
      simp only [Engine.move, hi]
      exact hstage.commits.sound h.sound
  · apply database.each_move (fun what o t => Stage t what o.rest o.images o.made) h.stages
    · rintro i what x rfl
      rw [show x = what.transaction from hopens]
      exact .fresh what
    · rintro i what o rfl hi
      exact (h.stages i what o hi).advance h.sound (hmeets what o hi)
    · rintro i j what what' o o' rfl hij hi hj
      obtain ⟨what'', o'', a, hj', hret⟩ := hcan
      rw [hj] at hj'
      cases hj'
      have hstage := h.stages j what' o' hj
      rw [hret] at hstage
      refine (h.stages i what o hi).beside hstage.commits ?_ (hmeets i what o what' o' hij hi hj)
      have hheld : o.held = o.images.map Image.key := h.holding i what o hi
      have hheld' : o'.held = o'.images.map Image.key := h.holding j what' o' hj
      rw [← hheld, ← hheld']
      exact h.exclusive i j what what' o o' hij hi hj

theorem inv_run {s : Calls ι Content} (h : Runs Meets s) : Inv s := by
  apply Steps.invariant (P := Inv) _ h
  · constructor
    · constructor
      · intro branch id hget
        simp at hget
      · intro id row hget
        simp at hget
    · exact fun _ _ _ hi => by cases hi
    · exact fun _ _ _ _ _ _ _ hi => by cases hi
    · exact fun _ _ _ hi => by cases hi
  · exact fun s m hinv hguard => hinv.move hguard.1 hguard.2.1 hguard.2.2

/-- In a run whose steps meet the condition, at each moment every head names a stored
snapshot of its session and can be committed to, what is committed moves heads from parent
to child and changes no snapshot, and a commit succeeds exactly from the head. -/
theorem heads_sound {s : Calls ι Content} (h : Runs Meets s) :
    (∀ branch id, s.db.heads.get? branch = some id → Stored s.db branch.1 id) ∧
      (∀ i what o r, s.opened i = some (what, o) → o.rest = .ret r →
        (∀ branch, Chained s.db (database.move (.commit i) s).db what branch) ∧
          Kept s.db (database.move (.commit i) s).db what) ∧
      (∀ i session branch snapshot expected o,
        s.opened i = some (.commitSnapshot session branch snapshot expected, o) →
          Decided s.db session branch snapshot expected o) ∧
      ∀ session branch id, s.db.heads.get? (session, branch) = some id →
        ∃ snapshot, database.run (getBranchSnapshotHead session branch) s.db =
            .ok (some snapshot, s.db) ∧ snapshot.id = id ∧
          ∀ next : Snapshot Content, next.sessionId = session → next.branchId = branch →
            next.parentSnapshotId = some snapshot.id →
              ∃ t, database.run (commitSnapshot session branch next (some snapshot.id)) s.db =
                .ok (some next, t) := by
  have hinv := inv_run h
  refine ⟨hinv.sound.heads, ?_, ?_, fun session branch id => hinv.sound.committable⟩
  · intro i what o r hi hret
    have hstage := hinv.stages i what o hi
    rw [hret] at hstage
    simp only [Engine.move, hi]
    exact ⟨hstage.commits.chained, fun id row => hstage.commits.snapshots⟩
  · intro i session branch snapshot expected o hi
    exact (hinv.stages i _ o hi).decided

end

namespace Rehearsal

def first : Snapshot Unit := ⟨"a", "s", "main", none, "now", ()⟩

def alone (i : Bool) (what : Request Unit) (statements : Nat) : List (Turn (Request Unit)) :=
  .start i what :: List.replicate statements (.advance i) ++ [.commit i]

/-- A statement that is ready, or a commit beside no other call. -/
def calm (s : Calls Bool Unit) : Turn (Request Unit) → Bool
  | .start _ _ => true
  | .commit i => (s.opened !i).isNone
  | .advance i =>
    match s.opened i with
    | some (.commitSnapshot _ _ snapshot _, _) =>
      snapshot.id ≠ "" ∧ s.db.snapshots.get? snapshot.id = none
    | some (.setBranchSnapshotHead session _ id, _) =>
      (s.db.snapshots.get? id).all fun row => row.sessionId = session
    | _ => true

end Rehearsal

theorem meets_of_calm (s : Calls Bool Unit) (turn : Turn (Request Unit))
    (h : Rehearsal.calm s turn = true) : Meets s (turn.move Request.transaction) := by
  cases turn with
  | start i what => trivial
  | commit i =>
    intro j what o what' o' hji hj
    have hother : j = !i := by
      cases i <;> cases j <;> first | rfl | exact absurd rfl hji
    simp only [Rehearsal.calm, ← hother, hj] at h
    cases h
  | advance i =>
    intro what o hi
    simp only [Rehearsal.calm, hi] at h
    cases what with
    | commitSnapshot session branch snapshot expected =>
      intro _
      simpa using h
    | setBranchSnapshotHead session branch id =>
      intro _ row hrow
      simpa [hrow] using h
    | forkBranchSnapshot session source new | deleteSession session => trivial

theorem heads_sound_forked :
    ∃ s : Calls Bool Unit, Runs Meets s ∧ s.db.heads.get? ("s", "dev") = some "a" ∧
      Stored s.db "s" "a" := by
  have hplay : ∃ s : Calls Bool Unit, database.rehearse Request.transaction Rehearsal.calm
      (Rehearsal.alone true (.commitSnapshot "s" "main" Rehearsal.first none) 2 ++
        Rehearsal.alone false (.forkBranchSnapshot "s" "main" "dev") 4)
          ⟨⟨.empty, .empty⟩, fun _ => none⟩ = some s ∧
      s.db.heads.get? ("s", "dev") = some "a" := ⟨_, rfl, rfl⟩
  obtain ⟨s, hplay, hhead⟩ := hplay
  have hruns : Runs Meets s := database.steps_of_rehearse Request.transaction meets_of_calm hplay
  exact ⟨s, hruns, hhead, (heads_sound hruns).1 _ _ hhead⟩

/-- A head can be set to a snapshot of another session, and it stays when that one is
deleted. -/
theorem head_left_dangling : ∃ s : Calls Bool Unit, Runs (fun _ _ => True) s ∧
      s.db.heads.get? ("t", "main") = some "a" ∧ s.db.snapshots.get? "a" = none := by
  have hplay : ∃ s : Calls Bool Unit, database.rehearse Request.transaction (fun _ _ => true)
      (Rehearsal.alone true (.commitSnapshot "s" "main" Rehearsal.first none) 2 ++
        Rehearsal.alone true (.setBranchSnapshotHead "t" "main" "a") 3 ++
          Rehearsal.alone true (.deleteSession "s") 2) ⟨⟨.empty, .empty⟩, fun _ => none⟩ = some s ∧
      s.db.heads.get? ("t", "main") = some "a" ∧ s.db.snapshots.get? "a" = none :=
    ⟨_, rfl, rfl, rfl⟩
  obtain ⟨s, hplay, hhead, hgone⟩ := hplay
  exact ⟨s, database.steps_of_rehearse Request.transaction (fun _ _ _ => trivial) hplay, hhead,
    hgone⟩

end Substrate.Workspace
