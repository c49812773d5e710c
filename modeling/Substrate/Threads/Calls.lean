import Substrate.Threads.Operations

/-!
The port of the thread store: its operations with what they return, and its readers.
Calls come one at a time, so every read of one finds the tables it was made on.
-/

namespace Substrate.Threads

open Lib

variable {Message : Type}

/-- The calls of the port. An expected head is not given, given as no head, or given as
a node. -/
inductive Call (Message : Type) where
  | appendNode (node : MessageNode Message)
  | getNode (nodeId : String)
  | getBranch (sessionId branchId : String)
  | listBranches (sessionId : String)
  | ensureBranch (sessionId branchId : String) (headMessageId : Option String)
      (createdAt : String)
  | forkBranch (sessionId sourceBranchId newBranchId : String)
      (forkFromMessageId : Option String) (createdAt : String)
  | renameBranch (sessionId branchId newName : String)
  | setBranchHead (sessionId branchId newHeadId : String)
      (expectedHeadId : Option (Option String)) (expectedVersion : Option Int)
  | appendAndAdvance (node : MessageNode Message) (branchId : String)
      (expectedHeadId : Option (Option String)) (expectedVersion : Option Int)
      (createdAt : String)
  | saveCheckpoint (checkpoint : HistoryCheckpoint)
  | getCheckpoint (checkpointId : String)
  | listCheckpoints (sessionId : String)
  | deleteBranch (sessionId branchId : String)
  | deleteSession (sessionId : String)

inductive Reply (Message : Type) where
  | done
  | node (node : Option (MessageNode Message))
  | branch (branch : Option Branch)
  | branches (branches : List Branch)
  | checkpoint (checkpoint : Option HistoryCheckpoint)
  | checkpoints (checkpoints : List HistoryCheckpoint)
  | failed (error : ThreadError)

/-- `ORDER BY created_at, id`. -/
def earlier (createdAt id createdAt' id' : String) : Bool :=
  createdAt < createdAt' ∨ (createdAt = createdAt' ∧ id ≤ id')

namespace Tables

def listBranches (t : Tables Message) (sessionId : String) : List Branch :=
  ((t.branches.rows.filter fun row => row.1.1 = sessionId).map Prod.snd).mergeSort
    fun a b => earlier a.createdAt a.id b.createdAt b.id

def listCheckpoints (t : Tables Message) (sessionId : String) : List HistoryCheckpoint :=
  ((t.checkpoints.rows.map Prod.snd).filter fun row => row.sessionId = sessionId).mergeSort
    fun a b => earlier a.createdAt a.id b.createdAt b.id

end Tables

def settled (t : Tables Message) (reply : Tables Message → Reply Message)
    (result : Except ThreadError (Tables Message)) : Reply Message × Tables Message :=
  match result with
  | .ok t' => (reply t', t')
  | .error e => (.failed e, t)

def Tables.branchReply (sessionId branchId : String) (t : Tables Message) : Reply Message :=
  .branch (t.readBranch sessionId branchId)

def perform [DecidableEq Message] (call : Call Message) (t : Tables Message) :
    Reply Message × Tables Message :=
  let seen : Nat → Tables Message := fun _ => t
  match call with
  | .appendNode node => settled t (fun _ => .done) (appendNode seen t node)
  | .getNode nodeId => (.node (t.readNode nodeId), t)
  | .getBranch sessionId branchId => (.branch (t.readBranch sessionId branchId), t)
  | .listBranches sessionId => (.branches (t.listBranches sessionId), t)
  | .ensureBranch sessionId branchId head createdAt =>
    settled t (Tables.branchReply sessionId branchId)
      (.ok (ensureBranch t sessionId branchId head createdAt))
  | .forkBranch sessionId sourceId newId forkFrom createdAt =>
    settled t (Tables.branchReply sessionId newId)
      (forkBranch seen t sessionId sourceId newId forkFrom createdAt)
  | .renameBranch sessionId branchId newName =>
    settled t (Tables.branchReply sessionId branchId)
      (renameBranch seen t sessionId branchId newName)
  | .setBranchHead sessionId branchId newHeadId expectedHeadId expectedVersion =>
    settled t (Tables.branchReply sessionId branchId)
      (setBranchHead seen t sessionId branchId newHeadId expectedHeadId expectedVersion)
  | .appendAndAdvance node branchId expectedHeadId expectedVersion createdAt =>
    settled t (Tables.branchReply node.sessionId branchId)
      (appendAndAdvance seen t node branchId expectedHeadId expectedVersion createdAt)
  | .saveCheckpoint checkpoint => settled t (fun _ => .done) (saveCheckpoint seen t checkpoint)
  | .getCheckpoint checkpointId => (.checkpoint (t.checkpoints.get? checkpointId), t)
  | .listCheckpoints sessionId => (.checkpoints (t.listCheckpoints sessionId), t)
  | .deleteBranch sessionId branchId =>
    settled t (fun _ => .done) (deleteBranch t sessionId branchId)
  | .deleteSession sessionId => settled t (fun _ => .done) (.ok (deleteSession t sessionId))

end Substrate.Threads
