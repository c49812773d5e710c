import Substrate.Lib.Transition
import Substrate.Threads.Coherence
import Substrate.Threads.Operations

/-!
Thread history is walkable. The tables stay coherent as long as every id a row
points at names a node of the row's session when the row is written. All the
operations look for that node first but one, `ensureBranch`, and on a database
that does not serialise its writers a node they found may be deleted before they
write.
-/

namespace Substrate.Threads

open Lib Option

variable {Message : Type} {seen : Nat → Tables Message} {now t : Tables Message}

variable {node : MessageNode Message} {branch : Branch}
    {sessionId branchId sourceId createdAt : String} {forkFrom : Option String}
    {expectedHeadId : Option (Option String)} {expectedVersion : Option Int}

theorem sameNode_ok [DecidableEq Message] {existing : MessageNode Message}
    (h : sameNode now existing node = .ok t) : t = now ∧ existing.sessionId = node.sessionId := by
  unfold sameNode at h
  split at h
  · next hsame =>
      cases h
      exact ⟨rfl, hsame.2.1⟩
  · cases h

theorem checkParent_ok (h : checkParent t node = .ok ()) :
    ∀ p, node.parentId = some p → t.Holds node.sessionId p := by
  intro p hp
  unfold checkParent at h
  rw [hp] at h
  simp only at h
  split at h
  · cases h
  · split at h
    · cases h
    · next parent hparent =>
        split at h
        · next hsession => exact ⟨parent, hparent, hsession⟩
        · cases h

theorem appendNode_ok [DecidableEq Message] (h : appendNode seen now node = .ok t) :
    (t = now ∧ ((seen 0).Holds node.sessionId node.id ∨ now.Holds node.sessionId node.id)) ∨
      (t = now.insertNode node ∧ now.readNode node.id = none ∧ (seen 0).readNode node.id = none ∧
        ∀ p, node.parentId = some p → (seen 1).Holds node.sessionId p) := by
  unfold appendNode at h
  split at h
  · next existing hexisting =>
      obtain ⟨rfl, hsession⟩ := sameNode_ok h
      exact .inl ⟨rfl, .inl ⟨existing, hexisting, hsession⟩⟩
  · next habsent =>
      obtain ⟨_, hparent, hinsert⟩ := bind_ok_iff.mp h
      split at hinsert
      · next existing hexisting =>
          obtain ⟨rfl, hsession⟩ := sameNode_ok hinsert
          exact .inl ⟨rfl, .inr ⟨existing, hexisting, hsession⟩⟩
      · next hnew =>
          cases hinsert
          exact .inr ⟨rfl, hnew, habsent, checkParent_ok hparent⟩

theorem appendNode_branches [DecidableEq Message] (h : appendNode seen now node = .ok t) :
    t.branches = now.branches := by
  rcases appendNode_ok h with ⟨rfl, _⟩ | ⟨rfl, _⟩
  · rfl
  · rfl

theorem swapBranch_ok {f : Branch → Branch} (h : swapBranch now branch f = .ok t) :
    ∃ row, now.readBranch branch.sessionId branch.id = some row ∧ row.version = branch.version ∧
      t = now.updateBranch branch.sessionId branch.id f := by
  unfold swapBranch at h
  split at h
  · next hany =>
      cases h
      cases hrow : now.readBranch branch.sessionId branch.id with
      | none => simp [hrow] at hany
      | some row => exact ⟨row, rfl, by simpa [hrow] using hany, rfl⟩
  · cases h

theorem requireBranch_ok (h : requireBranch t sessionId branchId = .ok branch) :
    t.readBranch sessionId branchId = some branch := by
  unfold requireBranch at h
  split at h
  · cases h
  · next hread =>
      cases h
      exact hread

theorem forkTarget_ok {source : Branch} {target : Option String}
    (h : forkTarget seen sessionId sourceId source forkFrom = .ok target) :
    target = forkFrom.or source.headMessageId ∧
      ∀ head, forkFrom = some head → (seen 2).Holds sessionId head := by
  unfold forkTarget at h
  split at h
  · next hhead =>
      cases h
      exact ⟨hhead.symm, by simp⟩
  · cases h
  · next hhead =>
      cases h
      exact ⟨hhead.symm, by simp⟩
  · next from' _ =>
      split at h
      · cases h
      · next node hnode =>
          split at h
          · cases h
          · next hsession =>
              split at h
              · cases h
                refine ⟨rfl, fun head hhead => ?_⟩
                cases hhead
                exact ⟨node, hnode, not_not.mp hsession⟩
              · cases h

theorem forkBranch_ok {newId : String}
    (h : forkBranch seen now sessionId sourceId newId forkFrom createdAt = .ok t) :
    ∃ source, (seen 1).readBranch sessionId sourceId = some source ∧
      (∀ head, forkFrom = some head → (seen 2).Holds sessionId head) ∧
      now.readBranch sessionId newId = none ∧
      t = now.insertBranch
        { id := newId, sessionId, name := none, headMessageId := forkFrom.or source.headMessageId,
          forkedFromMessageId := forkFrom.or source.headMessageId, version := 0, createdAt } := by
  unfold forkBranch at h
  simp only at h
  split at h
  · cases h
  · split at h
    · cases h
    · next source hsource =>
        obtain ⟨target, htarget, hinsert⟩ := bind_ok_iff.mp h
        obtain ⟨rfl, hnamed⟩ := forkTarget_ok htarget
        split at hinsert
        · cases hinsert
        · next hnew =>
            cases hinsert
            exact ⟨source, hsource, hnamed, hnew, rfl⟩

theorem renameBranch_ok {newName : String}
    (h : renameBranch seen now sessionId branchId newName = .ok t) :
    ∃ read, (seen 0).readBranch sessionId branchId = some read ∧
      swapBranch now read (fun row => { row with name := some newName }) = .ok t := by
  obtain ⟨read, hread, hswap⟩ := bind_ok_iff.mp h
  exact ⟨read, requireBranch_ok hread, hswap⟩

theorem setBranchHead_ok {newHeadId : String}
    (h : setBranchHead seen now sessionId branchId newHeadId expectedHeadId expectedVersion =
      .ok t) :
    ∃ read, (seen 0).readBranch sessionId branchId = some read ∧
      (seen 1).Holds sessionId newHeadId ∧ advance now read newHeadId = .ok t := by
  obtain ⟨read, hread, h⟩ := bind_ok_iff.mp h
  obtain ⟨_, _, h⟩ := bind_ok_iff.mp h
  split at h
  · cases h
  · next head hhead =>
      split at h
      · next hsession => exact ⟨read, requireBranch_ok hread, ⟨head, hhead, hsession⟩, h⟩
      · cases h

theorem appendAndAdvance_ok [DecidableEq Message]
    (h : appendAndAdvance seen now node branchId expectedHeadId expectedVersion createdAt = .ok t) :
    ∃ appended, appendNode (fun n => seen (n + 1)) now node = .ok appended ∧
      ((∃ read, (seen 0).readBranch node.sessionId branchId = some read ∧
          advance appended read node.id = .ok t) ∨
        ((seen 0).readBranch node.sessionId branchId = none ∧
          now.readBranch node.sessionId branchId = none ∧
          t = appended.insertBranch
            { id := branchId, sessionId := node.sessionId, name := none,
              headMessageId := some node.id, forkedFromMessageId := none, version := 1,
              createdAt })) := by
  obtain ⟨_, _, h⟩ := bind_ok_iff.mp h
  obtain ⟨_, _, h⟩ := bind_ok_iff.mp h
  obtain ⟨appended, happended, h⟩ := bind_ok_iff.mp h
  refine ⟨appended, happended, ?_⟩
  split at h
  · next read hread => exact .inl ⟨read, hread, h⟩
  · next habsent =>
      split at h
      · cases h
      · next hnew =>
          cases h
          rw [habsent]
          exact .inr ⟨rfl, hnew, rfl⟩

theorem saveCheckpoint_ok {checkpoint : HistoryCheckpoint}
    (h : saveCheckpoint seen now checkpoint = .ok t) :
    (seen 0).Holds checkpoint.sessionId checkpoint.anchorMessageId ∧
      t = now.upsertCheckpoint checkpoint := by
  unfold saveCheckpoint at h
  split at h
  · cases h
  · next anchor hanchor =>
      split at h
      · next hsession =>
          cases h
          exact ⟨⟨anchor, hanchor, hsession⟩, rfl⟩
      · cases h

theorem deleteBranch_ok (h : deleteBranch now sessionId branchId = .ok t) :
    t = { now with branches := now.branches.erase (sessionId, branchId) } := by
  unfold deleteBranch at h
  split at h
  · cases h
  · cases h
    rfl

namespace Op

def advances : Op Message → Option (String × String)
  | .renameBranch sessionId branchId _ => some (sessionId, branchId)
  | .setBranchHead sessionId branchId _ _ _ => some (sessionId, branchId)
  | .appendAndAdvance node branchId _ _ _ => some (node.sessionId, branchId)
  | _ => none

def creates : Op Message → Option ((String × String) × Int)
  | .ensureBranch sessionId branchId _ _ => some ((sessionId, branchId), 0)
  | .forkBranch sessionId _ newBranchId _ _ => some ((sessionId, newBranchId), 0)
  | .appendAndAdvance node branchId _ _ _ => some ((node.sessionId, branchId), 1)
  | _ => none

/-- The nodes a row written by the operation points at, each with its session, as
far as the operation looks for them first. -/
def names (seen : Nat → Tables Message) : Op Message → List (String × String)
  | .appendNode node =>
    match (seen 0).readNode node.id with
    | some _ => []
    | none => node.parentId.toList.map fun parentId => (node.sessionId, parentId)
  | .appendAndAdvance node _ _ _ _ =>
    match (seen 1).readNode node.id with
    | some _ => [(node.sessionId, node.id)]
    | none => node.parentId.toList.map fun parentId => (node.sessionId, parentId)
  | .forkBranch sessionId sourceBranchId _ forkFrom _ =>
    (forkFrom.or (((seen 1).readBranch sessionId sourceBranchId).bind (·.headMessageId))).toList.map
      fun head => (sessionId, head)
  | .setBranchHead sessionId _ newHeadId _ _ => [(sessionId, newHeadId)]
  | .saveCheckpoint checkpoint => [(checkpoint.sessionId, checkpoint.anchorMessageId)]
  | _ => []

end Op

inductive Turn (op : Op Message) (seen : Nat → Tables Message) (key : String × String) :
    Option Branch → Option Branch → Prop
  | same (row : Option Branch) : Turn op seen key row row
  | gone (row : Option Branch) : Turn op seen key row none
  | made {branch : Branch} (hop : op.creates = some (key, branch.version)) :
      Turn op seen key none (some branch)
  | swapped {read row row' : Branch} (hop : op.advances = some key)
      (hread : (seen 0).branches.get? key = some read) (hversion : row.version = read.version)
      (hnext : row'.version = row.version + 1) : Turn op seen key (some row) (some row')

section Turns

variable {op : Op Message} {key : String × String}

theorem turn_insertBranch {branch : Branch}
    (hop : op.creates = some ((branch.sessionId, branch.id), branch.version))
    (hnew : now.readBranch branch.sessionId branch.id = none) (key : String × String) :
    Turn op seen key (now.branches.get? key) ((now.insertBranch branch).branches.get? key) := by
  have hget : (now.insertBranch branch).branches.get? key =
      if key = (branch.sessionId, branch.id) then some branch else now.branches.get? key :=
    Table.get?_insert_of_none hnew
  rw [hget]
  split
  · next heq =>
      subst heq
      have hnone : now.branches.get? (branch.sessionId, branch.id) = none := hnew
      rw [hnone]
      exact .made hop
  · exact .same _

theorem turn_ensureBranch {sessionId branchId : String} {head : Option String}
    {createdAt : String} (key : String × String) :
    Turn (.ensureBranch sessionId branchId head createdAt) seen key (now.branches.get? key)
      ((ensureBranch now sessionId branchId head createdAt).branches.get? key) := by
  cases hnew : now.readBranch sessionId branchId with
  | none => exact turn_insertBranch rfl hnew key
  | some row =>
    have hsome : now.branches.get? (sessionId, branchId) = some row := hnew
    unfold ensureBranch Tables.insertBranch
    rw [Table.get?_insert, hsome]
    split
    · next heq =>
        rw [heq, hsome]
        exact .same _
    · exact .same _

theorem turn_deleteSessions (gone : String → Bool) (key : String × String) :
    Turn op seen key (now.branches.get? key) ((now.deleteSessions gone).branches.get? key) := by
  have hget : (now.deleteSessions gone).branches.get? key =
      (now.branches.get? key).filter fun _ => ¬ gone key.1 := Table.get?_filter ..
  rw [hget]
  cases now.branches.get? key with
  | none => exact .same _
  | some row =>
    rw [filter_some]
    split
    · exact .same _
    · exact .gone _

theorem turn_swapBranch {read : Branch} {f : Branch → Branch}
    (hop : op.advances = some (read.sessionId, read.id))
    (hread : (seen 0).readBranch read.sessionId read.id = some read)
    (h : swapBranch now read f = .ok t) (key : String × String) :
    Turn op seen key (now.branches.get? key) (t.branches.get? key) := by
  obtain ⟨row, hrow, hversion, rfl⟩ := swapBranch_ok h
  have hget := now.readBranch_updateBranch read.sessionId read.id f key.1 key.2
  rw [show (now.updateBranch read.sessionId read.id f).branches.get? key =
    (now.updateBranch read.sessionId read.id f).readBranch key.1 key.2 from rfl, hget]
  split
  · next heq =>
      have hkey : key = (read.sessionId, read.id) := heq
      subst hkey
      have hsome : now.branches.get? (read.sessionId, read.id) = some row := hrow
      rw [hrow, hsome]
      exact .swapped hop hread hversion rfl
  · exact .same _

theorem exec_turn [DecidableEq Message] (hseen : ∀ n, Coherent (seen n))
    (h : exec seen now op = .ok t) (key : String × String) :
    Turn op seen key (now.branches.get? key) (t.branches.get? key) := by
  cases op with
  | appendNode node =>
    rcases appendNode_ok h with ⟨rfl, _⟩ | ⟨rfl, _⟩
    · exact .same _
    · exact .same _
  | ensureBranch sessionId branchId head createdAt =>
    cases h
    exact turn_ensureBranch key
  | forkBranch sessionId sourceId newId forkFrom createdAt =>
    obtain ⟨source, _, _, hnew, rfl⟩ := forkBranch_ok h
    exact turn_insertBranch rfl hnew key
  | renameBranch sessionId branchId newName =>
    obtain ⟨read, hread, hswap⟩ := renameBranch_ok h
    obtain ⟨rfl, rfl⟩ := (hseen 0).branchKeys _ _ read hread
    exact turn_swapBranch rfl hread hswap key
  | setBranchHead sessionId branchId newHeadId expectedHeadId expectedVersion =>
    obtain ⟨read, hread, _, hswap⟩ := setBranchHead_ok h
    obtain ⟨rfl, rfl⟩ := (hseen 0).branchKeys _ _ read hread
    exact turn_swapBranch rfl hread hswap key
  | appendAndAdvance node branchId expectedHeadId expectedVersion createdAt =>
    obtain ⟨appended, happended, h⟩ := appendAndAdvance_ok h
    have hsame := appendNode_branches happended
    rw [← hsame]
    rcases h with ⟨read, hread, hswap⟩ | ⟨_, hnew, rfl⟩
    · obtain ⟨hsession, rfl⟩ := (hseen 0).branchKeys _ _ read hread
      rw [← hsession] at hread
      exact turn_swapBranch (by rw [hsession]; rfl) hread hswap key
    · have habsent : appended.readBranch node.sessionId branchId = none := by
        unfold Tables.readBranch
        rw [hsame]
        exact hnew
      exact turn_insertBranch rfl habsent key
  | saveCheckpoint checkpoint =>
    obtain ⟨_, rfl⟩ := saveCheckpoint_ok h
    exact .same _
  | deleteBranch sessionId branchId =>
    rw [deleteBranch_ok h, Table.get?_erase]
    split
    · exact .gone _
    · exact .same _
  | deleteSession sessionId | eraseUnder name =>
    cases h
    exact turn_deleteSessions _ key

theorem exec_advances [DecidableEq Message] (hseen : ∀ n, Coherent (seen n))
    (h : exec seen now op = .ok t) (hop : op.advances = some key) :
    (∃ read row row', (seen 0).branches.get? key = some read ∧
        now.branches.get? key = some row ∧ t.branches.get? key = some row' ∧
        row.version = read.version ∧ row'.version = row.version + 1) ∨
      ((seen 0).branches.get? key = none ∧ now.branches.get? key = none ∧
        ∃ row', t.branches.get? key = some row' ∧ row'.version = 1) := by
  have hswapped : ∀ {base : Tables Message} {read : Branch} {f : Branch → Branch},
      (seen 0).readBranch key.1 key.2 = some read → swapBranch base read f = .ok t →
      base.branches = now.branches →
      ∃ read row row', (seen 0).branches.get? key = some read ∧
        now.branches.get? key = some row ∧ t.branches.get? key = some row' ∧
        row.version = read.version ∧ row'.version = row.version + 1 := by
    intro base read f hread hswap hbase
    obtain ⟨row, hrow, hversion, rfl⟩ := swapBranch_ok hswap
    obtain ⟨hsession, hid⟩ := (hseen 0).branchKeys _ _ read hread
    rw [hsession, hid] at hrow
    have hafter := base.readBranch_updateBranch read.sessionId read.id f key.1 key.2
    rw [hsession, hid, if_pos rfl, hrow] at hafter
    refine ⟨read, row, { f row with version := row.version + 1 }, hread, ?_, ?_, hversion, rfl⟩
    · rw [← hbase]
      exact hrow
    · rw [hsession, hid]
      exact hafter
  cases op with
  | renameBranch sessionId branchId newName =>
    cases hop
    obtain ⟨read, hread, hswap⟩ := renameBranch_ok h
    exact .inl (hswapped hread hswap rfl)
  | setBranchHead sessionId branchId newHeadId expectedHeadId expectedVersion =>
    cases hop
    obtain ⟨read, hread, _, hswap⟩ := setBranchHead_ok h
    exact .inl (hswapped hread hswap rfl)
  | appendAndAdvance node branchId expectedHeadId expectedVersion createdAt =>
    cases hop
    obtain ⟨appended, happended, h⟩ := appendAndAdvance_ok h
    have hsame := appendNode_branches happended
    rcases h with ⟨read, hread, hswap⟩ | ⟨habsent, hnew, rfl⟩
    · exact .inl (hswapped hread hswap hsame)
    · refine .inr ⟨habsent, hnew, _, Tables.readBranch_inserted ?_, rfl⟩
      unfold Tables.readBranch
      rw [hsame]
      exact hnew
  | _ => cases hop

def Op.deletesSessions : Op Message → Bool
  | .deleteSession _ | .eraseUnder _ => true
  | _ => false

theorem exec_keeps [DecidableEq Message] (h : exec seen now op = .ok t) {id : String}
    {node : MessageNode Message} (hnode : now.readNode id = some node) :
    t.readNode id = some node ∨ t.readNode id = none ∧ op.deletesSessions = true := by
  have happend : ∀ {seen : Nat → Tables Message} {new : MessageNode Message}
      {t : Tables Message}, appendNode seen now new = .ok t → t.readNode id = some node := by
    intro seen new t happended
    rcases appendNode_ok happended with ⟨rfl, _⟩ | ⟨rfl, hnew, _⟩
    · exact hnode
    · exact Tables.readNode_insertNode_of_some hnew hnode
  have hswap : ∀ {base : Tables Message} {read : Branch} {f : Branch → Branch},
      swapBranch base read f = .ok t → base.readNode id = some node →
      t.readNode id = some node := by
    intro base read f hswap hbase
    obtain ⟨row, _, _, rfl⟩ := swapBranch_ok hswap
    exact hbase
  have hdelete : ∀ gone : String → Bool, (now.deleteSessions gone).readNode id = some node ∨
      (now.deleteSessions gone).readNode id = none := by
    intro gone
    rw [Tables.readNode_deleteSessions, hnode, filter_some]
    split
    · exact .inl rfl
    · exact .inr rfl
  cases op with
  | appendNode new => exact .inl (happend h)
  | ensureBranch sessionId branchId head createdAt =>
    cases h
    exact .inl hnode
  | forkBranch sessionId sourceId newId forkFrom createdAt =>
    obtain ⟨source, _, _, _, rfl⟩ := forkBranch_ok h
    exact .inl hnode
  | renameBranch sessionId branchId newName =>
    obtain ⟨read, _, hswapped⟩ := renameBranch_ok h
    exact .inl (hswap hswapped hnode)
  | setBranchHead sessionId branchId newHeadId expectedHeadId expectedVersion =>
    obtain ⟨read, _, _, hswapped⟩ := setBranchHead_ok h
    exact .inl (hswap hswapped hnode)
  | appendAndAdvance new branchId expectedHeadId expectedVersion createdAt =>
    obtain ⟨appended, happended, h⟩ := appendAndAdvance_ok h
    rcases h with ⟨read, _, hswapped⟩ | ⟨_, _, rfl⟩
    · exact .inl (hswap hswapped (happend happended))
    · have hkept := happend happended
      exact .inl hkept
  | saveCheckpoint checkpoint =>
    obtain ⟨_, rfl⟩ := saveCheckpoint_ok h
    exact .inl hnode
  | deleteBranch sessionId branchId =>
    rw [deleteBranch_ok h]
    exact .inl hnode
  | deleteSession sessionId | eraseUnder name =>
    cases h
    exact (hdelete _).imp_right fun hgone => ⟨hgone, rfl⟩

theorem exec_nodes [DecidableEq Message] (h : exec seen now op = .ok t) {id : String}
    {node : MessageNode Message} (hnode : now.readNode id = some node) :
    t.readNode id = some node ∨ t.readNode id = none :=
  (exec_keeps h hnode).imp_right And.left

end Turns

def Op.HeadThere (now : Tables Message) : Op Message → Prop
  | .ensureBranch sessionId branchId (some head) _ =>
    now.readBranch sessionId branchId = none → now.Holds sessionId head
  | _ => True

/-- No node that the step found and points at was deleted since it was found. -/
def Op.NodesStay (seen : Nat → Tables Message) (now : Tables Message) (op : Op Message) : Prop :=
  ∀ pair ∈ op.names seen, ∀ n, (seen n).Holds pair.1 pair.2 → now.Holds pair.1 pair.2

section Coherence

variable {op : Op Message}

theorem ensureBranch_coherent {sessionId branchId : String} {head : Option String}
    {createdAt : String} {row : Branch} (hnow : Coherent now)
    (hrow : now.readBranch sessionId branchId = some row) :
    Coherent (ensureBranch now sessionId branchId head createdAt) := by
  have hkept : ∀ session branch,
      (ensureBranch now sessionId branchId head createdAt).readBranch session branch =
        now.readBranch session branch := by
    intro session branch
    have hsome : now.branches.get? (sessionId, branchId) = some row := hrow
    unfold ensureBranch Tables.insertBranch Tables.readBranch
    rw [Table.get?_insert, hsome]
    split
    · next heq =>
        rw [heq, hsome]
        rfl
    · rfl
  constructor
  · exact hnow.nodeIds
  · intro session branch found hfound
    rw [hkept] at hfound
    exact hnow.branchKeys session branch found hfound
  · exact hnow.rooted
  · intro session branch found foundHead hfound
    rw [hkept] at hfound
    exact hnow.heads session branch found foundHead hfound
  · exact hnow.anchors

variable {node : MessageNode Message}

theorem appendNode_coherent [DecidableEq Message] (hnow : Coherent now)
    (h : appendNode seen now node = .ok t)
    (hparent : (seen 0).readNode node.id = none → ∀ p, node.parentId = some p →
      (seen 1).Holds node.sessionId p → now.Holds node.sessionId p) : Coherent t := by
  rcases appendNode_ok h with ⟨rfl, _⟩ | ⟨rfl, hnew, habsent, hfound⟩
  · exact hnow
  · exact hnow.insertNode hnew fun p hp => hparent habsent p hp (hfound p hp)

theorem appendNode_holds [DecidableEq Message] (h : appendNode seen now node = .ok t)
    (hself : ∀ found, (seen 0).readNode node.id = some found →
      (seen 0).Holds node.sessionId node.id → now.Holds node.sessionId node.id) :
    t.Holds node.sessionId node.id := by
  rcases appendNode_ok h with ⟨rfl, hold | hold⟩ | ⟨rfl, hnew, _⟩
  · obtain ⟨found, hread, _⟩ := id hold
    exact hself found hread hold
  · exact hold
  · refine ⟨node, ?_, rfl⟩
    rw [Tables.readNode_insertNode hnew, if_pos rfl]

theorem swapBranch_coherent {read : Branch} {f : Branch → Branch} (hnow : Coherent now)
    (h : swapBranch now read f = .ok t)
    (hkey : ∀ row, (f row).sessionId = row.sessionId ∧ (f row).id = row.id)
    (hhead : ∀ row head, (f row).headMessageId = some head → row.headMessageId = some head ∨
      now.Holds read.sessionId head) : Coherent t := by
  obtain ⟨row, _, _, rfl⟩ := swapBranch_ok h
  exact hnow.updateBranch hkey hhead

theorem exec_coherent [DecidableEq Message] (hseen : ∀ n, Coherent (seen n))
    (hnow : Coherent now) (hhead : op.HeadThere now) (hstay : op.NodesStay seen now)
    (h : exec seen now op = .ok t) : Coherent t := by
  cases op with
  | appendNode node =>
    refine appendNode_coherent hnow h fun habsent p hp hfound => ?_
    refine hstay (node.sessionId, p) ?_ 1 hfound
    simp [Op.names, habsent, hp]
  | ensureBranch sessionId branchId head createdAt =>
    cases h
    cases hnew : now.readBranch sessionId branchId with
    | none =>
      refine hnow.insertBranch hnew fun found hfound => ?_
      simp only at hfound
      subst hfound
      exact hhead hnew
    | some row => exact ensureBranch_coherent hnow hnew
  | forkBranch sessionId sourceId newId forkFrom createdAt =>
    obtain ⟨source, hsource, hnamed, hnew, rfl⟩ := forkBranch_ok h
    refine hnow.insertBranch hnew fun head htarget => ?_
    have hname : (sessionId, head) ∈ (Op.forkBranch sessionId sourceId newId forkFrom createdAt).names seen := by
      simp only [Op.names, hsource, bind_some]
      simp only at htarget
      simp [htarget]
    cases hfork : forkFrom with
    | none =>
      rw [hfork] at htarget
      exact hstay _ hname 1 ((hseen 1).heads _ _ source head hsource htarget)
    | some from' =>
      rw [hfork] at htarget
      cases htarget
      exact hstay _ hname 2 (hnamed head hfork)
  | renameBranch sessionId branchId newName =>
    obtain ⟨read, _, hswap⟩ := renameBranch_ok h
    exact swapBranch_coherent hnow hswap (fun row => ⟨rfl, rfl⟩) fun row head hold => .inl hold
  | setBranchHead sessionId branchId newHeadId expectedHeadId expectedVersion =>
    obtain ⟨read, hread, hfound, hswap⟩ := setBranchHead_ok h
    have hsession := ((hseen 0).branchKeys _ _ read hread).1
    have hthere := hstay (sessionId, newHeadId) (List.mem_singleton.mpr rfl) 1 hfound
    refine swapBranch_coherent hnow hswap (fun row => ⟨rfl, rfl⟩) fun row head hnext => ?_
    cases hnext
    rw [hsession]
    exact .inr hthere
  | appendAndAdvance node branchId expectedHeadId expectedVersion createdAt =>
    obtain ⟨appended, happended, h⟩ := appendAndAdvance_ok h
    have hcoherent : Coherent appended := by
      refine appendNode_coherent hnow happended fun habsent p hp hfound => ?_
      refine hstay (node.sessionId, p) ?_ 2 hfound
      simp only [Nat.zero_add] at habsent
      simp [Op.names, habsent, hp]
    have hheld : appended.Holds node.sessionId node.id := by
      refine appendNode_holds happended fun found hread hfound => ?_
      refine hstay (node.sessionId, node.id) ?_ 1 hfound
      simp only [Nat.zero_add] at hread
      simp [Op.names, hread]
    rcases h with ⟨read, hread, hswap⟩ | ⟨_, hnew, rfl⟩
    · have hsession := ((hseen 0).branchKeys _ _ read hread).1
      refine swapBranch_coherent hcoherent hswap (fun row => ⟨rfl, rfl⟩) fun row head hnext => ?_
      cases hnext
      rw [hsession]
      exact .inr hheld
    · have hnone : appended.readBranch node.sessionId branchId = none := by
        unfold Tables.readBranch
        rw [appendNode_branches happended]
        exact hnew
      refine hcoherent.insertBranch hnone fun head hnext => ?_
      cases hnext
      exact hheld
  | saveCheckpoint checkpoint =>
    obtain ⟨hfound, rfl⟩ := saveCheckpoint_ok h
    exact hnow.upsertCheckpoint (hstay _ (List.mem_singleton.mpr rfl) 0 hfound)
  | deleteBranch sessionId branchId =>
    rw [deleteBranch_ok h]
    exact hnow.eraseBranch sessionId branchId
  | deleteSession sessionId | eraseUnder name =>
    cases h
    exact hnow.deleteSessions _

end Coherence

end Substrate.Threads
