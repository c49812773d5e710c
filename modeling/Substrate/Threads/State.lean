import Substrate.Lib.Table
import Substrate.Types

/-!
Threads: the conversation DAG, kept in three tables of the store's database
(`stores/thread_tables.py`). A session's history is made of immutable nodes, each naming
its parent; a branch is a movable pointer to a node, and a checkpoint summarises what lies
behind one.
-/

namespace Substrate.Threads

open Lib

structure MessageNode (Message : Type) where
  id : String
  parentId : Option String
  sessionId : String
  runId : String
  payload : Message
  workspaceSnapshotId : Option String
  createdAt : String
  deriving DecidableEq, Repr

structure Branch where
  id : String
  sessionId : String
  name : Option String
  headMessageId : Option String
  forkedFromMessageId : Option String
  version : Int
  createdAt : String
  deriving DecidableEq, Repr

structure HistoryCheckpoint where
  id : String
  sessionId : String
  anchorMessageId : String
  summary : String
  state : JsonObject
  parentCheckpointId : Option String
  createdAt : String

/-- What `Threads` and the history resolver raise. -/
inductive ThreadError where
  | branchAlreadyExists (message : String)
  | branchNotFound (message : String)
  | dagIntegrity (message : String)
  | branchHeadConflict (message sessionId branchId : String) (expected actual : Json)
  | valueError (message : String)

structure Tables (Message : Type) where
  nodes : Table String (MessageNode Message)
  branches : Table (String × String) Branch
  checkpoints : Table String HistoryCheckpoint

variable {Message : Type}

namespace Tables

def empty : Tables Message := ⟨.empty, .empty, .empty⟩

def readNode (t : Tables Message) (nodeId : String) : Option (MessageNode Message) :=
  t.nodes.get? nodeId

def readBranch (t : Tables Message) (sessionId branchId : String) : Option Branch :=
  t.branches.get? (sessionId, branchId)

/-- The insert of `_append_node`, which leaves a row already there. -/
def insertNode (t : Tables Message) (node : MessageNode Message) : Tables Message :=
  { t with nodes := t.nodes.insert node.id node }

/-- `_insert_branch`, which leaves a row already there. -/
def insertBranch (t : Tables Message) (branch : Branch) : Tables Message :=
  { t with branches := t.branches.insert (branch.sessionId, branch.id) branch }

def updateBranch (t : Tables Message) (sessionId branchId : String) (f : Branch → Branch) :
    Tables Message :=
  { t with
    branches := t.branches.modify (sessionId, branchId) fun branch =>
      { f branch with version := branch.version + 1 } }

/-- The upsert of `save_checkpoint`. -/
def upsertCheckpoint (t : Tables Message) (checkpoint : HistoryCheckpoint) : Tables Message :=
  { t with
    checkpoints := t.checkpoints.upsert checkpoint.id checkpoint fun _ => checkpoint }

/-- The rows of the sessions that satisfy `gone` are deleted. -/
def deleteSessions (t : Tables Message) (gone : String → Bool) : Tables Message where
  checkpoints := t.checkpoints.filter fun _ checkpoint => ¬ gone checkpoint.sessionId
  branches := t.branches.filter fun key _ => ¬ gone key.1
  nodes := t.nodes.filter fun _ node => ¬ gone node.sessionId

/-- The node is in the table, and in that session. -/
def Holds (t : Tables Message) (sessionId nodeId : String) : Prop :=
  ∃ node, t.readNode nodeId = some node ∧ node.sessionId = sessionId

instance (t : Tables Message) (sessionId nodeId : String) : Decidable (t.Holds sessionId nodeId) :=
  decidable_of_iff ((t.readNode nodeId).any fun node => node.sessionId = sessionId) <| by
    unfold Holds
    cases t.readNode nodeId <;> simp

end Tables

/-- `name` is a directory: the test of the column for `name` itself or what lies
below it. -/
def under (column name : String) : Bool :=
  let stripped := (name.toList.reverse.dropWhile (· = '/')).reverse
  let stem := if stripped.isEmpty then name.toList else stripped
  decide (column.toList = stem ∨ column.toList.take (stem.length + 1) = stem ++ ['/'])

end Substrate.Threads
