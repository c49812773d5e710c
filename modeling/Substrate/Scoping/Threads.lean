import Substrate.Scoping.Names
import Substrate.Threads.Calls

/-!
A handle of the thread store that is bound to a tenant (`_ScopedThreadStore`). Sessions
are named under the tenant on the way in and without it on the way out. Nodes and
checkpoints have ids of their own, which are not renamed: what such an id is looked up
for is refused if it is not the tenant's.
-/

namespace Substrate.Scoping

open Threads

variable {Message : Type}

namespace Scope

variable (scope : Scope)

def nodeIn (node : MessageNode Message) : MessageNode Message :=
  { node with sessionId := scope.add node.sessionId }

def nodeOut (node : MessageNode Message) : MessageNode Message :=
  { node with sessionId := scope.strip node.sessionId }

def branchOut (branch : Branch) : Branch :=
  { branch with sessionId := scope.strip branch.sessionId }

def checkpointIn (checkpoint : HistoryCheckpoint) : HistoryCheckpoint :=
  { checkpoint with sessionId := scope.add checkpoint.sessionId }

def checkpointOut (checkpoint : HistoryCheckpoint) : HistoryCheckpoint :=
  { checkpoint with sessionId := scope.strip checkpoint.sessionId }

/-- A reply with every session's name out. An error is passed on as it is. -/
def replyOut : Threads.Reply Message → Threads.Reply Message
  | .done => .done
  | .node node => .node (node.map scope.nodeOut)
  | .branch branch => .branch (branch.map scope.branchOut)
  | .branches branches => .branches (branches.map scope.branchOut)
  | .checkpoint checkpoint => .checkpoint (checkpoint.map scope.checkpointOut)
  | .checkpoints checkpoints => .checkpoints (checkpoints.map scope.checkpointOut)
  | .failed e => .failed e

/-- `_mine`: the node, if it is one of the tenant's. -/
def mine (t : Tables Message) (nodeId : String) : Option (MessageNode Message) :=
  (t.readNode nodeId).filter fun node => scope.owns node.sessionId

/-- What the handle passes on of an expected head: it drops the one that says there is
none, as it drops one that is not given. -/
def passed (expectedHeadId : Option (Option String)) : Option (Option String) :=
  match expectedHeadId with
  | some (some head) => some (some head)
  | _ => none

def notOfScope (head : String) : ThreadError :=
  .valueError s!"head '{head}' is not a node of this scope"

variable [DecidableEq Message]

def forward (call : Call Message) (t : Tables Message) : Threads.Reply Message × Tables Message :=
  let result := perform call t
  (scope.replyOut result.1, result.2)

/-- The methods of the handle. -/
def threads (call : Call Message) (t : Tables Message) : Threads.Reply Message × Tables Message :=
  match call with
  | .appendNode node => scope.forward (.appendNode (scope.nodeIn node)) t
  | .getNode nodeId => (.node ((scope.mine t nodeId).map scope.nodeOut), t)
  | .getBranch sessionId branchId => scope.forward (.getBranch (scope.add sessionId) branchId) t
  | .listBranches sessionId => scope.forward (.listBranches (scope.add sessionId)) t
  | .ensureBranch sessionId branchId head createdAt =>
    match head with
    | some id =>
      if scope.mine t id = none then (.failed (notOfScope id), t)
      else scope.forward (.ensureBranch (scope.add sessionId) branchId (some id) createdAt) t
    | none => scope.forward (.ensureBranch (scope.add sessionId) branchId none createdAt) t
  | .forkBranch sessionId sourceId newId forkFrom createdAt =>
    scope.forward (.forkBranch (scope.add sessionId) sourceId newId forkFrom createdAt) t
  | .renameBranch sessionId branchId newName =>
    scope.forward (.renameBranch (scope.add sessionId) branchId newName) t
  | .setBranchHead sessionId branchId newHeadId expectedHeadId expectedVersion =>
    if scope.mine t newHeadId = none then (.failed (notOfScope newHeadId), t)
    else
      scope.forward (.setBranchHead (scope.add sessionId) branchId newHeadId
        (passed expectedHeadId) expectedVersion) t
  | .appendAndAdvance node branchId expectedHeadId expectedVersion createdAt =>
    scope.forward (.appendAndAdvance (scope.nodeIn node) branchId (passed expectedHeadId)
      expectedVersion createdAt) t
  | .saveCheckpoint checkpoint =>
    if scope.mine t checkpoint.anchorMessageId = none then
      (.failed (.valueError "a checkpoint must anchor on a node of its own scope"), t)
    else scope.forward (.saveCheckpoint (scope.checkpointIn checkpoint)) t
  | .getCheckpoint checkpointId =>
    (.checkpoint (((t.checkpoints.get? checkpointId).filter fun checkpoint =>
      scope.owns checkpoint.sessionId).map scope.checkpointOut), t)
  | .listCheckpoints sessionId => scope.forward (.listCheckpoints (scope.add sessionId)) t
  | .deleteBranch sessionId branchId =>
    scope.forward (.deleteBranch (scope.add sessionId) branchId) t
  | .deleteSession sessionId => scope.forward (.deleteSession (scope.add sessionId)) t

end Scope

end Substrate.Scoping
