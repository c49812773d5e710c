import Substrate.Workspace.Fork
import Substrate.Workspace.Heads

/-!
A fork starts from the files of its point: exactly when the file pointer that the last
step sets is that of the nearest snapshot above the new branch's head. Turns that finish
meanwhile only add to what can be read.
-/

namespace Substrate.Workspace

open Lib Threads Option

variable {Message Content : Type}

/-- The snapshot recorded on the nearest node at or above this one, or none. -/
inductive Nearest (t : Threads.Tables Message) : Option String → Option String → Prop
  | top : Nearest t none none
  | here {id snapshot : String} {node : MessageNode Message} (hread : t.readNode id = some node)
      (hrecord : node.workspaceSnapshotId = some snapshot) : Nearest t (some id) (some snapshot)
  | above {id : String} {node : MessageNode Message} {found : Option String}
      (hread : t.readNode id = some node) (hplain : node.workspaceSnapshotId = none)
      (hparent : Nearest t node.parentId found) : Nearest t (some id) found

namespace Nearest

variable {t t' : Threads.Tables Message} {id found found' : Option String}

theorem unique (h : Nearest t id found) (h' : Nearest t id found') : found = found' := by
  induction h with
  | top =>
    cases h'
    rfl
  | here hread hrecord =>
    cases h' with
    | here hread' hrecord' =>
      rw [hread] at hread'
      cases hread'
      rw [← hrecord, hrecord']
    | above hread' hplain' =>
      rw [hread] at hread'
      cases hread'
      rw [hrecord] at hplain'
      cases hplain'
  | above hread hplain _ ih =>
    cases h' with
    | here hread' hrecord' =>
      rw [hread] at hread'
      cases hread'
      rw [hplain] at hrecord'
      cases hrecord'
    | above hread' _ hparent' =>
      rw [hread] at hread'
      cases hread'
      exact ih hparent'

theorem stays (hkeep : ∀ id node, t.readNode id = some node → t'.readNode id = some node)
    (h : Nearest t id found) : Nearest t' id found := by
  induction h with
  | top => exact .top
  | here hread hrecord => exact .here (hkeep _ _ hread) hrecord
  | above hread hplain _ ih => exact .above (hkeep _ _ hread) hplain ih

theorem recorded {snapshot : String} (h : Nearest t id found) (hfound : found = some snapshot) :
    ∃ nodeId node, t.readNode nodeId = some node ∧ node.workspaceSnapshotId = some snapshot := by
  induction h with
  | top => cases hfound
  | here hread hrecord =>
    cases hfound
    exact ⟨_, _, hread, hrecord⟩
  | above _ _ _ ih => exact ih hfound

end Nearest

theorem nearest_of_resolve {t : Threads.Tables Message} (hcoherent : Coherent t)
    {session : String} : ∀ {fuel : Nat} {id found : Option String},
      (∀ nodeId, id = some nodeId → t.Holds session nodeId) →
      resolveSnapshotId t fuel id = some found → Nearest t id found := by
  intro fuel
  induction fuel with
  | zero =>
    intro id found hheld h
    cases id with
    | none =>
      cases h
      exact .top
    | some nodeId => cases h
  | succ fuel ih =>
    intro id found hheld h
    cases id with
    | none =>
      cases h
      exact .top
    | some nodeId =>
      obtain ⟨node, hread, hsession⟩ := hheld nodeId rfl
      simp only [resolveSnapshotId, hread] at h
      cases hrecord : node.workspaceSnapshotId with
      | some snapshot =>
        rw [hrecord] at h
        cases h
        exact .here hread hrecord
      | none =>
        rw [hrecord] at h
        refine .above hread hrecord (ih ?_ h)
        intro parentId hparent
        obtain ⟨n, hrooted⟩ := hcoherent.rooted nodeId node hread
        have hup : t.parentIn node.sessionId nodeId = some (some parentId) :=
          Tables.parentIn_eq_some.mpr ⟨node, hread, rfl, hparent⟩
        cases hrooted with
        | root hroot =>
          rw [hup] at hroot
          cases hroot
        | child hchild habove =>
          rw [hup] at hchild
          cases hchild
          have hsome : ∃ p, t.parentIn node.sessionId parentId = some p := by
            cases habove with
            | root h | child h _ => exact ⟨_, h⟩
          obtain ⟨p, hp⟩ := hsome
          obtain ⟨parent, hread', hsession', _⟩ := Tables.parentIn_eq_some.mp hp
          exact ⟨parent, hread', hsession'.trans hsession⟩

theorem resolve_ends {t : Threads.Tables Message} {session nodeId : String} {n : Nat}
    (h : Rooted (t.parentIn session) n nodeId) :
    ∃ found, ∀ fuel, n < fuel → resolveSnapshotId t fuel (some nodeId) = some found := by
  induction h with
  | @root id hup =>
    obtain ⟨node, hread, _, hparent⟩ := Tables.parentIn_eq_some.mp hup
    refine ⟨node.workspaceSnapshotId, ?_⟩
    intro fuel hfuel
    obtain ⟨fuel, rfl⟩ := Nat.exists_eq_add_of_lt hfuel
    cases hrecord : node.workspaceSnapshotId <;> simp [resolveSnapshotId, hread, hrecord, hparent]
  | @child n id parentId hup _ ih =>
    obtain ⟨node, hread, _, hparent⟩ := Tables.parentIn_eq_some.mp hup
    obtain ⟨found, hfound⟩ := ih
    refine ⟨node.workspaceSnapshotId.or found, ?_⟩
    intro fuel hfuel
    cases fuel with
    | zero => omega
    | succ fuel =>
      cases hrecord : node.workspaceSnapshotId with
      | some snapshot => simp [resolveSnapshotId, hread, hrecord]
      | none => simp [resolveSnapshotId, hread, hrecord, hparent, hfound fuel (by omega)]

theorem commit_ok {session branch : String} {snapshot : Snapshot Content}
    {expected : Option String} {files files' : Workspace.Tables Content}
    {reply : Option (Snapshot Content)}
    (h : database.run (commitSnapshot session branch snapshot expected) files =
      .ok (reply, files')) :
    (∀ key, files'.heads.get? key =
        if key = (session, branch) then some snapshot.id else files.heads.get? key) ∧
      ∀ id, files'.snapshots.get? id =
        if id = snapshot.id then some (rowOf snapshot (files.snapshots.get? snapshot.id))
        else files.snapshots.get? id := by
  rcases commitSnapshot_eq session branch snapshot expected with ⟨e, heq⟩ | ⟨_, _, _, heq⟩
  · rw [heq] at h
    cases h
  · rw [heq, Engine.run] at h
    rcases swap_exec files (session, branch) snapshot.id expected with ⟨_, hexec⟩ | ⟨_, hexec⟩
    · have hexec' : (@database Content).exec (swap (session, branch) snapshot.id expected) files =
          .ok [.head (session, branch) (some snapshot.id)] := hexec
      rw [hexec'] at h
      cases h
      simp [Image.put, Engine.putAll, database]
    · have hexec' : (@database Content).exec
          (swap (session, branch) snapshot.id expected) files = .ok [] := hexec
      rw [hexec'] at h
      cases h

variable {session branch source id : String} {files : Workspace.Tables Content}

theorem setBranch_taken {head : String} (h : files.heads.get? (session, branch) = some head) :
    filesAfter (setBranchSnapshotHead session branch id) files = files := by
  simp [filesAfter, setBranchSnapshotHead, Workspace.head, Engine.run_bind, h]

theorem forkBranch_taken {head : String} (h : files.heads.get? (session, branch) = some head) :
    filesAfter (forkBranchSnapshot session source branch) files = files := by
  simp [filesAfter, forkBranchSnapshot, Workspace.head, Engine.run_bind, h]

theorem setBranch_free (h : files.heads.get? (session, branch) = none)
    (hrow : files.snapshots.get? id ≠ none) :
    (filesAfter (setBranchSnapshotHead session branch id) files).heads.get? (session, branch) =
      some id := by
  obtain ⟨row, hrow⟩ := ne_none_iff_exists'.mp hrow
  simp [filesAfter, setBranchSnapshotHead, Workspace.head, readSnapshot, setAt, firstHead,
    Engine.run_bind, Engine.run_execute, h, hrow, database, Write.exec, Engine.putAll, Image.put]

theorem forkBranch_free (h : files.heads.get? (session, branch) = none) :
    (filesAfter (forkBranchSnapshot session source branch) files).heads.get? (session, branch) =
      files.heads.get? (session, source) := by
  cases hsource : files.heads.get? (session, source) with
  | none =>
    simp [filesAfter, forkBranchSnapshot, Workspace.head, forkAt, Engine.run_bind, h, hsource]
  | some head =>
    simp [filesAfter, forkBranchSnapshot, Workspace.head, readSnapshot, forkAt, firstHead,
      Engine.run_bind, Engine.run_execute, h, hsource, database, Write.exec, Engine.putAll,
      Image.put]

/-- The threads are coherent, and every snapshot that a node records is there. -/
structure World.Recorded (w : World Message Content) : Prop where
  coherent : Coherent w.threads
  rows : ∀ id node snapshot, w.threads.readNode id = some node →
    node.workspaceSnapshotId = some snapshot → w.files.snapshots.get? snapshot ≠ none

/-- Nodes, branches and snapshots of the first world are there in the second. -/
structure World.Grows (w w' : World Message Content) : Prop where
  nodes : ∀ id node, w.threads.readNode id = some node → w'.threads.readNode id = some node
  branches : ∀ session branch, w.threads.readBranch session branch ≠ none →
    w'.threads.readBranch session branch ≠ none
  snapshots : ∀ id, w.files.snapshots.get? id ≠ none → w'.files.snapshots.get? id ≠ none

theorem World.Grows.refl (w : World Message Content) : w.Grows w :=
  ⟨fun _ _ h => h, fun _ _ h => h, fun _ h => h⟩

theorem World.Grows.trans {w₁ w₂ w₃ : World Message Content} (h : w₁.Grows w₂)
    (h' : w₂.Grows w₃) : w₁.Grows w₃ where
  nodes id node hread := h'.nodes id node (h.nodes id node hread)
  branches session branch hread := h'.branches session branch (h.branches session branch hread)
  snapshots id hrow := h'.snapshots id (h.snapshots id hrow)

variable [DecidableEq Message]

structure Appended (t t' : Threads.Tables Message) (node : MessageNode Message)
    (branchId : String) : Prop where
  there : t'.readNode node.id = some node
  others : ∀ id found, t.readNode id = some found → t'.readNode id = some found
  fewer : ∀ id found, t'.readNode id = some found → found = node ∨ t.readNode id = some found
  head : ∃ branch, t'.readBranch node.sessionId branchId = some branch ∧
    branch.headMessageId = some node.id
  parent : node.parentId = (t.readBranch node.sessionId branchId).bind Threads.Branch.headMessageId
  branches : ∀ session branch, (session, branch) ≠ (node.sessionId, branchId) →
    t'.readBranch session branch = t.readBranch session branch
  coherent : Coherent t'

theorem appended {t t' : Threads.Tables Message} {node : MessageNode Message}
    {branchId createdAt : String} (hcoherent : Coherent t) (hnew : t.readNode node.id = none)
    (h : appendAndAdvance (fun _ => t) t node branchId none none createdAt = .ok t') :
    Appended t t' node branchId := by
  have hall : Coherent t' := by
    have hexec : exec (fun _ => t) t (.appendAndAdvance node branchId none none createdAt) =
        .ok t' := h
    refine exec_coherent (fun _ => hcoherent) hcoherent ?_ ?_ hexec
    · trivial
    · intro _ _ _ hholds
      exact hholds
  have hparent : node.parentId =
      (t.readBranch node.sessionId branchId).bind Threads.Branch.headMessageId := by
    obtain ⟨_, hextends, _⟩ := bind_ok_iff.mp h
    unfold checkExtends at hextends
    split at hextends
    · next heq =>
      rw [heq]
      cases t.readBranch node.sessionId branchId <;> rfl
    · cases hextends
  obtain ⟨grown, happend, hbranch⟩ := appendAndAdvance_ok h
  have hgrown : grown = t.insertNode node := by
    rcases appendNode_ok happend with ⟨_, hold | hold⟩ | ⟨heq, _⟩
    · obtain ⟨found, hread, _⟩ := hold
      rw [hnew] at hread
      cases hread
    · obtain ⟨found, hread, _⟩ := hold
      rw [hnew] at hread
      cases hread
    · exact heq
  subst hgrown
  have hnodes : ∀ id, (t.insertNode node).readNode id =
      if id = node.id then some node else t.readNode id := Tables.readNode_insertNode hnew
  have hself : (t.insertNode node).readNode node.id = some node := by rw [hnodes, if_pos rfl]
  have hkept : ∀ id found, t.readNode id = some found →
      (t.insertNode node).readNode id = some found :=
    fun _ _ hread => Tables.readNode_insertNode_of_some hnew hread
  have hfewer : ∀ id found, (t.insertNode node).readNode id = some found →
      found = node ∨ t.readNode id = some found := by
    intro id found hread
    rw [hnodes] at hread
    split at hread
    · cases hread
      exact .inl rfl
    · exact .inr hread
  rcases hbranch with ⟨read, hread, hadvance⟩ | ⟨_, hnone, rfl⟩
  · obtain ⟨row, hrow, _, rfl⟩ := swapBranch_ok hadvance
    obtain ⟨hsession, hid⟩ := hcoherent.branchKeys _ _ _ hread
    rw [hsession, hid] at hrow ⊢
    refine ⟨hself, hkept, hfewer, ?_, hparent, ?_, ?_⟩
    · have hthere : (t.insertNode node).readBranch node.sessionId branchId = some row := hrow
      have hafter := (t.insertNode node).readBranch_updateBranch node.sessionId branchId
        (fun row => { row with headMessageId := some node.id, name := read.name })
        node.sessionId branchId
      rw [if_pos rfl, hthere] at hafter
      exact ⟨_, hafter, rfl⟩
    · intro session branch hne
      rw [Tables.readBranch_updateBranch, if_neg hne]
      rfl
    · rw [hsession, hid] at hall
      exact hall
  · refine ⟨hself, hkept, hfewer, ?_, hparent, ?_, hall⟩
    · have hfree : (t.insertNode node).readBranch node.sessionId branchId = none := hnone
      exact ⟨_, Tables.readBranch_inserted hfree, rfl⟩
    · intro session branch hne
      have hfree : (t.insertNode node).readBranch node.sessionId branchId = none := hnone
      rw [Tables.readBranch_insertBranch hfree, if_neg hne]
      rfl

omit [DecidableEq Message] in
theorem Appended.keeps_branches {t t' : Threads.Tables Message} {node : MessageNode Message}
    {branchId : String} (h : Appended t t' node branchId) {session branch : String}
    (hbranch : t.readBranch session branch ≠ none) : t'.readBranch session branch ≠ none := by
  by_cases hkey : (session, branch) = (node.sessionId, branchId)
  · obtain ⟨rfl, rfl⟩ := Prod.mk.injEq .. ▸ hkey
    obtain ⟨found, hfound, _⟩ := h.head
    simp [hfound]
  · rw [h.branches session branch hkey]
    exact hbranch

theorem World.Recorded.finishes {w w' : World Message Content} (h : w.Recorded)
    (hstep : Finishes w w') : w'.Recorded ∧ w.Grows w' := by
  cases hstep with
  | said hnew hplain happend =>
    have hstep := appended h.coherent hnew happend
    refine ⟨⟨hstep.coherent, ?_⟩, hstep.others, fun _ _ => hstep.keeps_branches, fun _ hrow => hrow⟩
    intro id node snapshot hread hrecord
    rcases hstep.fewer id node hread with rfl | hread
    · rw [hplain] at hrecord
      cases hrecord
    · exact h.rows id node snapshot hread hrecord
  | @committed t node branchId createdAt snapshot expected files reply hnew hrecord happend
      hcommit =>
      have hstep := appended h.coherent hnew happend
      obtain ⟨_, hsnapshots⟩ := commit_ok hcommit
      have hrows : ∀ id, w.files.snapshots.get? id ≠ none → files.snapshots.get? id ≠ none := by
        intro id hrow
        rw [hsnapshots]
        split
        · simp
        · exact hrow
      refine ⟨⟨hstep.coherent, ?_⟩, hstep.others, fun _ _ => hstep.keeps_branches, hrows⟩
      intro id node snapshot hread hrecord'
      rcases hstep.fewer id node hread with rfl | hread
      · rw [hrecord] at hrecord'
        cases hrecord'
        rw [hsnapshots, if_pos rfl]
        simp
      · exact hrows snapshot (h.rows id node snapshot hread hrecord')

theorem World.Recorded.turns {w w' : World Message Content} (h : w.Recorded)
    (hturns : Turns w w') : w'.Recorded ∧ w.Grows w' := by
  induction hturns with
  | refl => exact ⟨h, World.Grows.refl w⟩
  | tail _ hstep ih =>
    obtain ⟨hrecorded, hgrows⟩ := ih
    obtain ⟨hrecorded', hgrows'⟩ := hrecorded.finishes hstep
    exact ⟨hrecorded', hgrows.trans hgrows'⟩

/-- The branch is there, and as long as it has no file pointer, this is the snapshot of
its head. -/
def Pending (session branch : String) (found : Option String) (w : World Message Content) : Prop :=
  ∃ row, w.threads.readBranch session branch = some row ∧
    (w.files.heads.get? (session, branch) = none → Nearest w.threads row.headMessageId found)

omit [DecidableEq Message] in
theorem Nearest.appended {t t' : Threads.Tables Message} {node : MessageNode Message}
    {found : Option String} (hread : t'.readNode node.id = some node)
    (hplain : node.workspaceSnapshotId = none) (hparent : Nearest t node.parentId found)
    (hkeep : ∀ id node, t.readNode id = some node → t'.readNode id = some node) :
    Nearest t' (some node.id) found :=
  .above hread hplain (hparent.stays hkeep)

theorem Pending.finishes {session branch : String} {found : Option String}
    {w w' : World Message Content} (hrecorded : w.Recorded) (h : Pending session branch found w)
    (hstep : Finishes w w') : Pending session branch found w' := by
  obtain ⟨row, hrow, hnearest⟩ := h
  cases hstep with
  | @said t node branchId createdAt hnew hplain happend =>
    have hstep := appended hrecorded.coherent hnew happend
    by_cases hkey : (session, branch) = (node.sessionId, branchId)
    · obtain ⟨rfl, rfl⟩ := Prod.mk.injEq .. ▸ hkey
      obtain ⟨row', hrow', hhead⟩ := hstep.head
      refine ⟨row', hrow', ?_⟩
      intro hfree
      have hparent := hstep.parent
      rw [hrow, bind_some] at hparent
      rw [hhead]
      exact .appended hstep.there hplain (hparent ▸ hnearest hfree) hstep.others
    · refine ⟨row, ?_, fun hfree => (hnearest hfree).stays hstep.others⟩
      rw [← hrow]
      exact hstep.branches session branch hkey
  | @committed t node branchId createdAt snapshot expected files reply hnew hrecord happend
      hcommit =>
      have hstep := appended hrecorded.coherent hnew happend
      obtain ⟨hheads, _⟩ := commit_ok hcommit
      by_cases hkey : (session, branch) = (node.sessionId, branchId)
      · obtain ⟨rfl, rfl⟩ := Prod.mk.injEq .. ▸ hkey
        obtain ⟨row', hrow', _⟩ := hstep.head
        refine ⟨row', hrow', ?_⟩
        intro hfree
        rw [hheads, if_pos rfl] at hfree
        cases hfree
      · refine ⟨row, ?_, ?_⟩
        · rw [← hrow]
          exact hstep.branches session branch hkey
        · intro hfree
          rw [hheads, if_neg hkey] at hfree
          exact (hnearest hfree).stays hstep.others

theorem Pending.turns {session branch : String} {found : Option String}
    {w w' : World Message Content} (hrecorded : w.Recorded) (h : Pending session branch found w)
    (hturns : Turns w w') : Pending session branch found w' := by
  induction hturns with
  | refl => exact h
  | tail hbefore hstep ih => exact ih.finishes (hrecorded.turns hbefore).1 hstep

section

variable {between : Nat → World Message Content → World Message Content} {request : ForkRequest}
  {w : World Message Content}

omit [DecidableEq Message] in
theorem World.Recorded.of_nodes (h : w.Recorded) {t : Threads.Tables Message}
    (hcoherent : Coherent t) (hnodes : ∀ id, t.readNode id = w.threads.readNode id) :
    World.Recorded { w with threads := t } := by
  refine ⟨hcoherent, ?_⟩
  intro id node snapshot hread hrecord
  rw [hnodes] at hread
  exact h.rows id node snapshot hread hrecord

theorem forkMessages_ok (hw : w.Recorded) (hbetween : ∀ k w, Turns w (between k w))
    {made : Made Message Content} (h : forkMessages between request w = .ok made) :
    made.world.Recorded ∧
      ∃ row, made.world.threads.readBranch request.session request.new = some row ∧
        (∀ id, row.headMessageId = some id → made.world.threads.Holds request.session id) ∧
        ∀ id, made.target = some id → row.headMessageId = some id := by
  unfold forkMessages at h
  set w₀ := between 0 w with hw₀
  have h₀ : w₀.Recorded := (hw.turns (hbetween 0 w)).1
  set e : World Message Content := { w₀ with
    threads := ensureBranch w₀.threads request.session request.source none request.ensuredAt }
    with he
  have hensured : e.Recorded := by
    refine h₀.of_nodes ?_ fun _ => rfl
    have hexec : exec (fun _ => w₀.threads) w₀.threads
        (.ensureBranch request.session request.source none request.ensuredAt) =
        .ok (ensureBranch w₀.threads request.session request.source none request.ensuredAt) := rfl
    refine exec_coherent (fun _ => h₀.coherent) h₀.coherent ?_ ?_ hexec
    · trivial
    · intro _ _ _ hholds
      exact hholds
  have h₁ : (between 1 e).Recorded := (hensured.turns (hbetween 1 e)).1
  have h₂ : (between 2 (between 1 e)).Recorded := (h₁.turns (hbetween 2 _)).1
  have h₃ : (between 3 (between 2 (between 1 e))).Recorded := (h₂.turns (hbetween 3 _)).1
  obtain ⟨t, hfork, hmade⟩ := bind_ok_iff.mp h
  cases hmade
  have hcoherent : Coherent t := by
    have hexec : exec (fun _ => _) _
        (.forkBranch request.session request.source request.new _ request.forkedAt) = .ok t := hfork
    refine exec_coherent (fun _ => h₃.coherent) h₃.coherent ?_ ?_ hexec
    · trivial
    · intro _ _ _ hholds
      exact hholds
  obtain ⟨source, _, _, hnew, rfl⟩ := forkBranch_ok hfork
  refine ⟨h₃.of_nodes hcoherent fun _ => rfl, _, Tables.readBranch_inserted hnew, ?_, ?_⟩
  · intro id hhead
    exact hcoherent.heads _ _ _ id (Tables.readBranch_inserted hnew) hhead
  · intro id htarget
    simp only at htarget
    simp [htarget]

omit [DecidableEq Message] in
theorem nearest_exists {t : Threads.Tables Message} (hcoherent : Coherent t) {session : String}
    {head : Option String} (hheld : ∀ id, head = some id → t.Holds session id) :
    ∃ found, Nearest t head found := by
  cases head with
  | none => exact ⟨none, .top⟩
  | some id =>
    obtain ⟨node, hread, _⟩ := hheld id rfl
    obtain ⟨n, hrooted⟩ := hcoherent.rooted id node hread
    obtain ⟨found, hfound⟩ := resolve_ends hrooted
    exact ⟨found, nearest_of_resolve hcoherent hheld (hfound (n + 1) (by omega))⟩

/-- The file pointer of the new branch is the snapshot of its head. -/
def FromItsPoint (request : ForkRequest) (w : World Message Content) : Prop :=
  ∃ row, w.threads.readBranch request.session request.new = some row ∧
    Nearest w.threads row.headMessageId (w.files.heads.get? (request.session, request.new))

/-- What the last step has to meet. A file pointer that is there already is the right one.
If there is none, an older point has a snapshot at or above it, or else the source's own
pointer, which has moved with the turns on the source, is still the one of the point. -/
def Settles (request : ForkRequest) (trace : Trace Message Content) : Prop :=
  ∃ row, trace.met.threads.readBranch request.session request.new = some row ∧
    match trace.met.files.heads.get? (request.session, request.new) with
    | some head => Nearest trace.met.threads row.headMessageId (some head)
    | none =>
      (older trace.made.target trace.made.sourceHead ∧
        ∃ snapshot, Nearest trace.met.threads row.headMessageId (some snapshot)) ∨
      Nearest trace.met.threads row.headMessageId
        (trace.met.files.heads.get? (request.session, request.source))

omit [DecidableEq Message] in
theorem fromSnapshot_eq {made : Made Message Content} {t : Threads.Tables Message}
    {head found fromSnapshotId : Option String} {fuel : Nat} (hcoherent : Coherent t)
    (htarget : ∀ id, made.target = some id → head = some id)
    (hheld : ∀ id, head = some id → t.Holds request.session id) (hfound : Nearest t head found)
    (h : fromSnapshot fuel t made = some fromSnapshotId) :
    fromSnapshotId = if older made.target made.sourceHead then found else none := by
  unfold fromSnapshot at h
  split at h
  · next holder =>
    rw [if_pos holder]
    cases hpoint : made.target with
    | none => simp [older, hpoint] at holder
    | some id =>
      rw [hpoint, ← htarget id hpoint] at h
      exact (nearest_of_resolve hcoherent hheld h).unique hfound
  · next hnewer =>
    cases h
    rw [if_neg hnewer]

theorem forkEndpoint_ok (hw : w.Recorded) (hbetween : ∀ k w, Turns w (between k w)) {fuel : Nat}
    {trace : Trace Message Content} (h : forkEndpoint fuel between request w = some trace) :
    ∃ found fromSnapshotId before, Pending request.session request.new found trace.met ∧
      fromSnapshotId = (if older trace.made.target trace.made.sourceHead then found else none) ∧
      (∀ id, fromSnapshotId = some id → before.snapshots.get? id ≠ none ∧
        trace.met.files.snapshots.get? id ≠ none) ∧
      trace.left =
        ⟨trace.met.threads, forkFiles request fromSnapshotId before trace.met.files⟩ := by
  unfold forkEndpoint at h
  split at h
  · cases h
  · next made hmade =>
    obtain ⟨hrecorded, row, hrow, hheld, htarget⟩ := forkMessages_ok hw hbetween hmade
    obtain ⟨hrecorded₄, hgrows₄⟩ := hrecorded.turns (hbetween 4 _)
    obtain ⟨_, hgrows₅⟩ := hrecorded₄.turns (hbetween 5 _)
    obtain ⟨found, hfound⟩ := nearest_exists hrecorded.coherent hheld
    have hpending : Pending request.session request.new found made.world :=
      ⟨row, hrow, fun _ => hfound⟩
    have hmet := (hpending.turns hrecorded (hbetween 4 _)).turns hrecorded₄ (hbetween 5 _)
    obtain ⟨fromSnapshotId, hfrom, htrace⟩ := map_eq_some_iff.mp h
    subst htrace
    have hheld₄ : ∀ id, row.headMessageId = some id →
        (between 4 made.world).threads.Holds request.session id := by
      intro id hhead
      obtain ⟨node, hread, hsession⟩ := hheld id hhead
      exact ⟨node, hgrows₄.nodes id node hread, hsession⟩
    have hsame := fromSnapshot_eq hrecorded₄.coherent htarget hheld₄
      (hfound.stays hgrows₄.nodes) hfrom
    refine ⟨found, fromSnapshotId, _, hmet, hsame, ?_, rfl⟩
    intro id hid
    have hhas : found = some id := by
      rw [hid] at hsame
      split at hsame
      · exact hsame.symm
      · cases hsame
    obtain ⟨nodeId, node, hread, hrecord⟩ := hfound.recorded hhas
    have hbefore := hrecorded₄.rows nodeId node id (hgrows₄.nodes nodeId node hread) hrecord
    exact ⟨hbefore, hgrows₅.snapshots id hbefore⟩

theorem forkFiles_heads (request : ForkRequest) {fromSnapshotId : Option String}
    {before files : Workspace.Tables Content}
    (hrows : ∀ id, fromSnapshotId = some id → before.snapshots.get? id ≠ none ∧
      files.snapshots.get? id ≠ none) :
    (forkFiles request fromSnapshotId before files).heads.get? (request.session, request.new) =
      match files.heads.get? (request.session, request.new) with
      | some head => some head
      | none => fromSnapshotId.or (files.heads.get? (request.session, request.source)) := by
  unfold forkFiles
  cases fromSnapshotId with
  | none =>
    cases hfree : files.heads.get? (request.session, request.new) with
    | none => simp [forkBranch_free hfree]
    | some head => simp [forkBranch_taken hfree, hfree]
  | some id =>
    obtain ⟨hbefore, hrow⟩ := hrows id rfl
    have hfound : (before.snapshots.get? id).isNone = false :=
      isNone_eq_false_iff.mpr (isSome_iff_ne_none.mpr hbefore)
    simp only [hfound, Bool.false_eq_true, if_false]
    cases hfree : files.heads.get? (request.session, request.new) with
    | none => simp [setBranch_free hfree hrow]
    | some head => simp [setBranch_taken hfree, hfree]

/-- **A fork starts from the files of its point exactly when its last step meets what it
has to.** -/
theorem fork_files (hw : w.Recorded) (hbetween : ∀ k w, Turns w (between k w)) {fuel : Nat}
    {trace : Trace Message Content} (h : forkEndpoint fuel between request w = some trace) :
    FromItsPoint request trace.left ↔ Settles request trace := by
  obtain ⟨found, fromSnapshotId, before, ⟨row, hrow, hnearest⟩, hfrom, hrows, hleft⟩ :=
    forkEndpoint_ok hw hbetween h
  simp only [FromItsPoint, Settles, hleft, hrow, Option.some.injEq, exists_eq_left',
    forkFiles_heads request hrows]
  cases hfree : trace.met.files.heads.get? (request.session, request.new) with
  | some head => exact Iff.rfl
  | none =>
    have hhead := hnearest hfree
    cases holder : older trace.made.target trace.made.sourceHead with
    | false =>
      rw [holder] at hfrom
      simp [hfrom]
    | true =>
      rw [holder, if_pos rfl] at hfrom
      subst hfrom
      cases fromSnapshotId with
      | some id =>
        have hleft : ∃ snapshot, Nearest trace.met.threads row.headMessageId (some snapshot) :=
          ⟨id, hhead⟩
        simp [hhead, hleft]
      | none =>
        have hnone : ¬ ∃ snapshot, Nearest trace.met.threads row.headMessageId (some snapshot) := by
          rintro ⟨snapshot, hsome⟩
          cases hhead.unique hsome
        simp [hnone]

end

def World.empty : World Unit Unit := ⟨Threads.Tables.empty, ⟨.empty, .empty⟩⟩

theorem World.empty_recorded : World.empty.Recorded := by
  refine ⟨Coherent.empty, ?_⟩
  intro id node snapshot hread
  simp [World.empty, Threads.Tables.empty, Threads.Tables.readNode] at hread

namespace Rehearsal

def hello : MessageNode Unit := ⟨"m", none, "s", "r", (), none, "now"⟩

def done : MessageNode Unit := ⟨"n", some "m", "s", "r", (), some "a", "now"⟩

def appending (t : Threads.Tables Unit) (node : MessageNode Unit) : Threads.Tables Unit :=
  (appendAndAdvance (fun _ => t) t node "main" none none "now").toOption.getD t

def greeted : World Unit Unit := { World.empty with threads := appending World.empty.threads hello }

def worked : World Unit Unit :=
  ⟨appending greeted.threads done, filesAfter (commitSnapshot "s" "main" first none) greeted.files⟩

theorem worked_turns : Turns World.empty worked := by
  have hsaid : Finishes World.empty greeted :=
    @Finishes.said Unit Unit _ World.empty (appending World.empty.threads hello) hello "main" "now"
      rfl rfl rfl
  have hcommitted : Finishes greeted worked :=
    @Finishes.committed Unit Unit _ greeted (appending greeted.threads done) done "main" "now" first
      none _ (some first) rfl rfl rfl rfl
  exact .tail (.single hsaid) hcommitted

def fork (point : String) : ForkRequest := ⟨"s", "main", "b", some point, "now", "now"⟩

end Rehearsal

theorem fork_files_at_head :
    ∃ trace, forkEndpoint 1 (fun _ w => w) (Rehearsal.fork "n") Rehearsal.worked = some trace ∧
      FromItsPoint (Rehearsal.fork "n") trace.left := by
  have hw := (World.empty_recorded.turns Rehearsal.worked_turns).1
  have hturns : ∀ (_ : Nat) (w : World Unit Unit), Turns w w := fun _ _ => .refl
  obtain ⟨trace, htrace, hmet⟩ : ∃ trace,
      forkEndpoint 1 (fun _ w => w) (Rehearsal.fork "n") Rehearsal.worked = some trace ∧
        Settles (Rehearsal.fork "n") trace :=
    ⟨_, rfl, _, rfl, .inr (.here rfl rfl)⟩
  exact ⟨trace, htrace, (fork_files hw hturns htrace).mpr hmet⟩

/-- A fork from before the first snapshot gets the files that were committed after it. -/
theorem files_from_the_future : ∃ w : World Unit Unit, Turns World.empty w ∧
      ∃ trace, forkEndpoint 2 (fun _ w => w) (Rehearsal.fork "m") w = some trace ∧
        ¬ FromItsPoint (Rehearsal.fork "m") trace.left := by
  obtain ⟨trace, htrace, hread, hhead, hfiles⟩ : ∃ trace,
      forkEndpoint 2 (fun _ w => w) (Rehearsal.fork "m") Rehearsal.worked = some trace ∧
        trace.left.threads.readNode "m" = some Rehearsal.hello ∧
        (trace.left.threads.readBranch "s" "b").map Threads.Branch.headMessageId = some (some "m") ∧
        trace.left.files.heads.get? ("s", "b") = some "a" := ⟨_, rfl, rfl, rfl, rfl⟩
  refine ⟨Rehearsal.worked, Rehearsal.worked_turns, trace, htrace, ?_⟩
  rintro ⟨row, hrow, hnearest⟩
  have hrow' : trace.left.threads.readBranch "s" "b" = some row := hrow
  have hnearest' : Nearest trace.left.threads row.headMessageId
      (trace.left.files.heads.get? ("s", "b")) := hnearest
  rw [hrow', map_some, Option.some.injEq] at hhead
  rw [hhead, hfiles] at hnearest'
  have hnone : Nearest trace.left.threads (some "m") none := .above hread rfl .top
  cases hnone.unique hnearest'

end Substrate.Workspace
