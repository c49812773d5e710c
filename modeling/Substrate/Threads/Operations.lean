import Substrate.Threads.State

/-!
The operations of `Threads`. Each is one transaction. On a database that does not
serialise its writers a transaction's reads may find older tables than its writes do, so
an operation takes the tables each of its reads finds (`seen 0`, `seen 1`, …) beside those
its writes are made to (`now`).
-/

namespace Substrate.Threads

variable {Message : Type}

def shown : Option String → String
  | none => "None"
  | some text => text

/-- A node whose id is taken is the node under it, or an error. -/
def sameNode [DecidableEq Message] (now : Tables Message) (existing node : MessageNode Message) :
    Except ThreadError (Tables Message) :=
  if existing.parentId = node.parentId ∧ existing.sessionId = node.sessionId ∧
      existing.runId = node.runId ∧ existing.payload = node.payload then
    .ok now
  else
    .error (.dagIntegrity s!"Node '{node.id}' already exists with different contents")

/-- The parent of a new node exists, in the node's session, and is not the node. -/
def checkParent (t : Tables Message) (node : MessageNode Message) : Except ThreadError Unit :=
  match node.parentId with
  | none => .ok ()
  | some parentId =>
    if parentId = node.id then
      .error (.dagIntegrity s!"Node '{node.id}' cannot have itself as parent")
    else
      match t.readNode parentId with
      | none => .error (.dagIntegrity s!"Parent node '{parentId}' does not exist")
      | some parent =>
        if parent.sessionId = node.sessionId then .ok ()
        else
          .error (.dagIntegrity
            s!"Parent node belongs to session '{parent.sessionId}', expected '{node.sessionId}'")

/-- `_append_node`. An insert that another writer got in front of starts over, and
then finds that writer's row; the rounds before the last leave nothing behind. -/
def appendNode [DecidableEq Message] (seen : Nat → Tables Message) (now : Tables Message)
    (node : MessageNode Message) : Except ThreadError (Tables Message) :=
  match (seen 0).readNode node.id with
  | some existing => sameNode now existing node
  | none => do
      checkParent (seen 1) node
      match now.readNode node.id with
      | some existing => sameNode now existing node
      | none => .ok (now.insertNode node)

/-- `_check_expectations`. The outer option of the expected head is `_UNSET`. -/
def checkExpectations (branch : Branch) (sessionId branchId : String)
    (expectedHeadId : Option (Option String)) (expectedVersion : Option Int) (onAdvance : Bool) :
    Except ThreadError Unit := do
  let suffix := if onAdvance then " on advance" else ""
  match expectedHeadId with
  | none => .ok ()
  | some expected =>
    if branch.headMessageId = expected then .ok ()
    else
      let wanted := shown expected
      let actual := shown branch.headMessageId
      .error (.branchHeadConflict
        s!"Branch head conflict{suffix}: expected '{wanted}', actual '{actual}'"
        sessionId branchId (.ofText? expected) (.ofText? branch.headMessageId))
  match expectedVersion with
  | none => .ok ()
  | some expected =>
    if branch.version = expected then .ok ()
    else
      .error (.branchHeadConflict
        s!"Branch version conflict{suffix}: expected {expected}, actual {branch.version}"
        sessionId branchId (.num expected) (.num branch.version))

/-- An update `WHERE version = ?` of a branch that was read before: the
compare-and-swap. -/
def swapBranch (now : Tables Message) (branch : Branch) (f : Branch → Branch) :
    Except ThreadError (Tables Message) :=
  if (now.readBranch branch.sessionId branch.id).any (fun row => row.version = branch.version) then
    .ok (now.updateBranch branch.sessionId branch.id f)
  else
    .error (.branchHeadConflict s!"Branch '{branch.id}' was changed concurrently"
      branch.sessionId branch.id (.num branch.version) (.str "changed"))

def advance (now : Tables Message) (branch : Branch) (headId : String) :
    Except ThreadError (Tables Message) :=
  swapBranch now branch fun row => { row with headMessageId := some headId, name := branch.name }

def ensureBranch (now : Tables Message) (sessionId branchId : String)
    (headMessageId : Option String) (createdAt : String) : Tables Message :=
  now.insertBranch
    { id := branchId, sessionId, name := none, headMessageId, forkedFromMessageId := none,
      version := 0, createdAt }

/-- The ids of the recursive query of `fork_branch`, from a node up. -/
def ancestry (t : Tables Message) : Nat → String → List String
  | 0, _ => []
  | fuel + 1, nodeId =>
    match t.readNode nodeId with
    | none => []
    | some node =>
      nodeId :: match node.parentId with
        | none => []
        | some parentId => ancestry t fuel parentId

/-- Where a fork starts: the head of the branch it is made from, or an ancestor of
it. -/
def forkTarget (seen : Nat → Tables Message) (sessionId sourceBranchId : String) (source : Branch)
    (forkFromMessageId : Option String) : Except ThreadError (Option String) :=
  match source.headMessageId, forkFromMessageId with
  | none, none => .ok none
  | none, some forkFrom =>
    .error (.dagIntegrity s!"Cannot fork from node '{forkFrom}' on empty branch '{sourceBranchId}'")
  | some head, none => .ok (some head)
  | some head, some forkFrom =>
    match (seen 2).readNode forkFrom with
    | none => .error (.dagIntegrity s!"Fork node '{forkFrom}' does not exist")
    | some target =>
      if target.sessionId ≠ sessionId then
        .error (.dagIntegrity
          s!"Fork node belongs to session '{target.sessionId}', expected '{sessionId}'")
      else if forkFrom ∈ ancestry (seen 3) (seen 3).nodes.rows.length head then
        .ok (some forkFrom)
      else
        .error (.dagIntegrity
          s!"Node '{forkFrom}' is not an ancestor of source branch head '{head}'")

def forkBranch (seen : Nat → Tables Message) (now : Tables Message)
    (sessionId sourceBranchId newBranchId : String) (forkFromMessageId : Option String)
    (createdAt : String) : Except ThreadError (Tables Message) :=
  let taken := .error (.branchAlreadyExists
    s!"Branch '{newBranchId}' already exists in session '{sessionId}'")
  match (seen 0).readBranch sessionId newBranchId with
  | some _ => taken
  | none =>
    match (seen 1).readBranch sessionId sourceBranchId with
    | none =>
      .error (.branchNotFound
        s!"Source branch '{sourceBranchId}' not found in session '{sessionId}'")
    | some source => do
        let targetId ← forkTarget seen sessionId sourceBranchId source forkFromMessageId
        match now.readBranch sessionId newBranchId with
        | some _ => taken
        | none =>
          .ok (now.insertBranch
            { id := newBranchId, sessionId, name := none, headMessageId := targetId,
              forkedFromMessageId := targetId, version := 0, createdAt })

def requireBranch (t : Tables Message) (sessionId branchId : String) : Except ThreadError Branch :=
  match t.readBranch sessionId branchId with
  | none => .error (.branchNotFound s!"Branch '{branchId}' not found in session '{sessionId}'")
  | some branch => .ok branch

def renameBranch (seen : Nat → Tables Message) (now : Tables Message)
    (sessionId branchId newName : String) : Except ThreadError (Tables Message) := do
  let branch ← requireBranch (seen 0) sessionId branchId
  swapBranch now branch fun row => { row with name := some newName }

def setBranchHead (seen : Nat → Tables Message) (now : Tables Message)
    (sessionId branchId newHeadId : String) (expectedHeadId : Option (Option String))
    (expectedVersion : Option Int) : Except ThreadError (Tables Message) := do
  let branch ← requireBranch (seen 0) sessionId branchId
  checkExpectations branch sessionId branchId expectedHeadId expectedVersion false
  match (seen 1).readNode newHeadId with
  | none => .error (.dagIntegrity s!"New head node '{newHeadId}' does not exist")
  | some head =>
    if head.sessionId = sessionId then advance now branch newHeadId
    else
      .error (.dagIntegrity
        s!"New head node belongs to session '{head.sessionId}', expected '{sessionId}'")

/-- The node extends the head: advancing past a node that is not its parent would
orphan what the head pointed at. -/
def checkExtends (branch : Branch) (branchId : String) (node : MessageNode Message) :
    Except ThreadError Unit :=
  if node.parentId = branch.headMessageId then .ok ()
  else
    let parent := shown node.parentId
    let current := shown branch.headMessageId
    .error (.branchHeadConflict
      s!"Cannot advance branch '{branchId}': node parent '{parent}' does not match current head '{current}'"
      node.sessionId branchId (.ofText? branch.headMessageId) (.ofText? node.parentId))

def appendAndAdvance [DecidableEq Message] (seen : Nat → Tables Message) (now : Tables Message)
    (node : MessageNode Message) (branchId : String) (expectedHeadId : Option (Option String))
    (expectedVersion : Option Int) (createdAt : String) :
    Except ThreadError (Tables Message) := do
  let existing := (seen 0).readBranch node.sessionId branchId
  let branch := existing.getD
    { id := branchId, sessionId := node.sessionId, name := none, headMessageId := none,
      forkedFromMessageId := none, version := 0, createdAt }
  checkExtends branch branchId node
  checkExpectations branch node.sessionId branchId expectedHeadId expectedVersion true
  let appended ← appendNode (fun n => seen (n + 1)) now node
  match existing with
  | some branch => advance appended branch node.id
  | none =>
    match now.readBranch node.sessionId branchId with
    | some _ =>
      .error (.branchHeadConflict s!"Branch '{branchId}' was created concurrently"
        node.sessionId branchId .null (.str "created"))
    | none =>
      .ok (appended.insertBranch { branch with headMessageId := some node.id, version := 1 })

def saveCheckpoint (seen : Nat → Tables Message) (now : Tables Message)
    (checkpoint : HistoryCheckpoint) : Except ThreadError (Tables Message) :=
  match (seen 0).readNode checkpoint.anchorMessageId with
  | none =>
    .error (.dagIntegrity s!"Checkpoint anchor node '{checkpoint.anchorMessageId}' does not exist")
  | some anchor =>
    if anchor.sessionId = checkpoint.sessionId then .ok (now.upsertCheckpoint checkpoint)
    else
      .error (.dagIntegrity
        s!"Checkpoint anchor belongs to session '{anchor.sessionId}', expected '{checkpoint.sessionId}'")

def deleteBranch (now : Tables Message) (sessionId branchId : String) :
    Except ThreadError (Tables Message) :=
  if branchId = "main" then .error (.valueError "cannot delete the main branch")
  else .ok { now with branches := now.branches.erase (sessionId, branchId) }

def deleteSession (now : Tables Message) (sessionId : String) : Tables Message :=
  now.deleteSessions fun session => session = sessionId

def eraseUnder (now : Tables Message) (name : String) : Tables Message :=
  now.deleteSessions fun session => under session name

inductive Op (Message : Type) where
  | appendNode (node : MessageNode Message)
  | ensureBranch (sessionId branchId : String) (headMessageId : Option String)
      (createdAt : String)
  | forkBranch (sessionId sourceBranchId newBranchId : String)
      (forkFromMessageId : Option String) (createdAt : String)
  | renameBranch (sessionId branchId newName : String)
  | setBranchHead (sessionId branchId newHeadId : String)
      (expectedHeadId : Option (Option String)) (expectedVersion : Option Int)
  | appendAndAdvance (node : MessageNode Message) (branchId : String)
      (expectedHeadId : Option (Option String)) (expectedVersion : Option Int)
      (createdAt : String)
  | saveCheckpoint (checkpoint : HistoryCheckpoint)
  | deleteBranch (sessionId branchId : String)
  | deleteSession (sessionId : String)
  | eraseUnder (name : String)

def exec [DecidableEq Message] (seen : Nat → Tables Message) (now : Tables Message) :
    Op Message → Except ThreadError (Tables Message)
  | .appendNode node => appendNode seen now node
  | .ensureBranch sessionId branchId head createdAt =>
    .ok (ensureBranch now sessionId branchId head createdAt)
  | .forkBranch sessionId sourceId newId forkFrom createdAt =>
    forkBranch seen now sessionId sourceId newId forkFrom createdAt
  | .renameBranch sessionId branchId newName => renameBranch seen now sessionId branchId newName
  | .setBranchHead sessionId branchId newHeadId expectedHeadId expectedVersion =>
    setBranchHead seen now sessionId branchId newHeadId expectedHeadId expectedVersion
  | .appendAndAdvance node branchId expectedHeadId expectedVersion createdAt =>
    appendAndAdvance seen now node branchId expectedHeadId expectedVersion createdAt
  | .saveCheckpoint checkpoint => saveCheckpoint seen now checkpoint
  | .deleteBranch sessionId branchId => deleteBranch now sessionId branchId
  | .deleteSession sessionId => .ok (deleteSession now sessionId)
  | .eraseUnder name => .ok (eraseUnder now name)

end Substrate.Threads
