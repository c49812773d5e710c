import Substrate.Threads.Walkable
import Substrate.Workspace.Tables

/-!
Forking a branch (`routes/branches.py`, `workspace/branching.py`). The message pointer and
the file pointer are forked one after the other, and each step finds the world as the
turns that finished before it have left it.
-/

namespace Substrate.Workspace

open Lib Threads

variable {Message Content : Type}

structure World (Message Content : Type) where
  threads : Threads.Tables Message
  files : Workspace.Tables Content

structure ForkRequest where
  session : String
  source : String
  new : String
  forkFrom : Option String
  ensuredAt : String
  forkedAt : String

/-- `resolve_workspace_snapshot_id`, for as many steps as there is fuel. -/
def resolveSnapshotId (t : Threads.Tables Message) : Nat → Option String → Option (Option String)
  | _, none => some none
  | 0, some _ => none
  | fuel + 1, some nodeId =>
    match t.readNode nodeId with
    | none => some none
    | some node =>
      match node.workspaceSnapshotId with
      | some snapshot => some (some snapshot)
      | none => resolveSnapshotId t fuel node.parentId

/-- The files after a call, which a `ValueError` leaves as they were. -/
def filesAfter (call : Transaction Content (Option (Snapshot Content)))
    (files : Workspace.Tables Content) : Workspace.Tables Content :=
  match database.run call files with
  | .ok (_, files') => files'
  | .error _ => files

/-- `fork_branch`, whose first step may read what was there before. -/
def forkFiles (request : ForkRequest) (fromSnapshotId : Option String)
    (before files : Workspace.Tables Content) : Workspace.Tables Content :=
  match fromSnapshotId with
  | some id =>
    if (before.snapshots.get? id).isNone then files
    else filesAfter (setBranchSnapshotHead request.session request.new id) files
  | none => filesAfter (forkBranchSnapshot request.session request.source request.new) files

/-- The node to fork from: one that is not found in the session gives way to the head of
the source, as first read. An empty id is not looked up. -/
def targetOf (request : ForkRequest) (t : Threads.Tables Message) (sourceHead : Option String) :
    Option String :=
  match request.forkFrom with
  | none => none
  | some id =>
    if id = "" then some id
    else if (t.readNode id).any fun node => node.sessionId = request.session then some id
    else sourceHead

def older (target sourceHead : Option String) : Bool :=
  target.any (fun id => id ≠ "") ∧ target ≠ sourceHead

/-- What the fork of the messages leaves: the head of the source as first read, the node
it was forked from, and the world. -/
structure Made (Message Content : Type) where
  sourceHead : Option String
  target : Option String
  world : World Message Content

/-- The steps of `fork_branch_endpoint` up to the fork of the messages. `between k` is
what happens before step `k`. -/
def forkMessages (between : Nat → World Message Content → World Message Content)
    (request : ForkRequest) (w : World Message Content) :
    Except ThreadError (Made Message Content) := do
  let w := between 0 w
  let w := { w with
    threads := ensureBranch w.threads request.session request.source none request.ensuredAt }
  let w := between 1 w
  let sourceHead := (w.threads.readBranch request.session request.source).bind
    Threads.Branch.headMessageId
  let w := between 2 w
  let target := targetOf request w.threads sourceHead
  let w := between 3 w
  let threads ← forkBranch (fun _ => w.threads) w.threads request.session request.source
    request.new target request.forkedAt
  .ok ⟨sourceHead, target, { w with threads }⟩

/-- A fork that was made, and the world that its last step met and left. -/
structure Trace (Message Content : Type) where
  made : Made Message Content
  met : World Message Content
  left : World Message Content

def fromSnapshot (fuel : Nat) (t : Threads.Tables Message) (made : Made Message Content) :
    Option (Option String) :=
  if older made.target made.sourceHead then resolveSnapshotId t fuel made.target else some none

/-- `fork_branch_endpoint`. There is no trace if the fork of the messages is refused, or
the fuel runs out. -/
def forkEndpoint (fuel : Nat) (between : Nat → World Message Content → World Message Content)
    (request : ForkRequest) (w : World Message Content) : Option (Trace Message Content) :=
  match forkMessages between request w with
  | .error _ => none
  | .ok made =>
    let before := between 4 made.world
    (fromSnapshot fuel before.threads made).map fun fromSnapshotId =>
      let w := between 5 before
      ⟨made, w, { w with files := forkFiles request fromSnapshotId before.files w.files }⟩

/-- A turn that finishes appends messages to its branch. If it committed a snapshot, the
last of them records its id. -/
inductive Finishes [DecidableEq Message] : World Message Content → World Message Content → Prop
  | said {w : World Message Content} {t : Threads.Tables Message}
      {node : MessageNode Message} {branchId createdAt : String}
      (hnew : w.threads.readNode node.id = none) (hplain : node.workspaceSnapshotId = none)
      (happend : appendAndAdvance (fun _ => w.threads) w.threads node branchId none none createdAt =
        .ok t) : Finishes w { w with threads := t }
  | committed {w : World Message Content} {t : Threads.Tables Message}
      {node : MessageNode Message} {branchId createdAt : String} {snapshot : Snapshot Content}
      {expected : Option String} {files : Workspace.Tables Content}
      {reply : Option (Snapshot Content)}
      (hnew : w.threads.readNode node.id = none)
      (hrecord : node.workspaceSnapshotId = some snapshot.id)
      (happend : appendAndAdvance (fun _ => w.threads) w.threads node branchId none none createdAt =
        .ok t)
      (hcommit : database.run (commitSnapshot node.sessionId branchId snapshot expected) w.files =
        .ok (reply, files)) : Finishes w ⟨t, files⟩

abbrev Turns [DecidableEq Message] : World Message Content → World Message Content → Prop :=
  Relation.ReflTransGen Finishes

end Substrate.Workspace
