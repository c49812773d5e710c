import Substrate.Threads.History

/-!
Coherent tables: every id a row points at names a node of the row's session, and
from every node the parents lead to a root. Each write keeps them so if what it
points at is there when it is made.
-/

namespace Substrate.Threads

open Lib Option

variable {Message : Type}

/-- Every branch, every node and every checkpoint leads into history that can be
read, within its own session. -/
structure Walkable (t : Tables Message) : Prop where
  heads : ∀ sessionId branchId branch head, t.readBranch sessionId branchId = some branch →
    branch.headMessageId = some head → t.Holds sessionId head
  lineages : ∀ id node, t.readNode id = some node → ∃ chain,
    t.resolveAncestry id none = .ok chain ∧ Lineage t node.sessionId id chain
  anchors : ∀ id checkpoint, t.checkpoints.get? id = some checkpoint →
    t.Holds checkpoint.sessionId checkpoint.anchorMessageId

/-- The invariant behind `Walkable`. -/
structure Coherent (t : Tables Message) : Prop where
  nodeIds : ∀ id node, t.readNode id = some node → node.id = id
  branchKeys : ∀ sessionId branchId branch, t.readBranch sessionId branchId = some branch →
    branch.sessionId = sessionId ∧ branch.id = branchId
  rooted : ∀ id node, t.readNode id = some node → ∃ n, Rooted (t.parentIn node.sessionId) n id
  heads : ∀ sessionId branchId branch head, t.readBranch sessionId branchId = some branch →
    branch.headMessageId = some head → t.Holds sessionId head
  anchors : ∀ id checkpoint, t.checkpoints.get? id = some checkpoint →
    t.Holds checkpoint.sessionId checkpoint.anchorMessageId

theorem Coherent.walkable {t : Tables Message} (h : Coherent t) : Walkable t := by
  constructor
  · exact h.heads
  · intro id node hnode
    obtain ⟨n, hrooted⟩ := h.rooted id node hnode
    exact resolveAncestry_rooted h.nodeIds hrooted
  · exact h.anchors

namespace Tables

variable {t : Tables Message} {node : MessageNode Message} {branch : Branch}
    {id sessionId : String}

theorem readNode_insertNode (hnew : t.readNode node.id = none) (id : String) :
    (t.insertNode node).readNode id = if id = node.id then some node else t.readNode id :=
  Table.get?_insert_of_none hnew

theorem readBranch_insertBranch (hnew : t.readBranch branch.sessionId branch.id = none)
    (sessionId branchId : String) :
    (t.insertBranch branch).readBranch sessionId branchId =
      if (sessionId, branchId) = (branch.sessionId, branch.id) then some branch
      else t.readBranch sessionId branchId :=
  Table.get?_insert_of_none hnew

theorem readBranch_inserted (hnew : t.readBranch branch.sessionId branch.id = none) :
    (t.insertBranch branch).readBranch branch.sessionId branch.id = some branch := by
  rw [readBranch_insertBranch hnew, if_pos rfl]

theorem readBranch_updateBranch (t : Tables Message) (sessionId branchId : String)
    (f : Branch → Branch) (sessionId' branchId' : String) :
    (t.updateBranch sessionId branchId f).readBranch sessionId' branchId' =
      if (sessionId', branchId') = (sessionId, branchId) then
        (t.readBranch sessionId branchId).map fun branch =>
          { f branch with version := branch.version + 1 }
      else t.readBranch sessionId' branchId' := by
  unfold readBranch updateBranch
  rw [Table.get?_modify]
  by_cases hkey : (sessionId', branchId') = (sessionId, branchId)
  · rw [if_pos hkey, if_pos hkey, hkey]
  · rw [if_neg hkey, if_neg hkey]

theorem readNode_insertNode_of_some {found : MessageNode Message}
    (hnew : t.readNode node.id = none) (hfound : t.readNode id = some found) :
    (t.insertNode node).readNode id = some found := by
  rw [readNode_insertNode hnew, if_neg, hfound]
  rintro rfl
  rw [hnew] at hfound
  cases hfound

theorem Holds.insertNode (h : t.Holds sessionId id) (hnew : t.readNode node.id = none) :
    (t.insertNode node).Holds sessionId id := by
  obtain ⟨found, hfound, hsession⟩ := h
  exact ⟨found, readNode_insertNode_of_some hnew hfound, hsession⟩

theorem readNode_deleteSessions (t : Tables Message) (gone : String → Bool) (id : String) :
    (t.deleteSessions gone).readNode id =
      (t.readNode id).filter fun node => ¬ gone node.sessionId :=
  Table.get?_filter ..

theorem Holds.deleteSessions {gone : String → Bool} (h : t.Holds sessionId id)
    (hkept : gone sessionId = false) : (t.deleteSessions gone).Holds sessionId id := by
  obtain ⟨found, hfound, hsession⟩ := h
  refine ⟨found, ?_, hsession⟩
  rw [readNode_deleteSessions, hfound]
  simp [hsession, hkept]

end Tables

namespace Coherent

variable {t : Tables Message}

theorem empty : Coherent (Tables.empty : Tables Message) := by
  constructor <;> simp [Tables.empty, Tables.readNode, Tables.readBranch]

theorem insertNode (h : Coherent t) {node : MessageNode Message} (hnew : t.readNode node.id = none)
    (hparent : ∀ p, node.parentId = some p → t.Holds node.sessionId p) :
    Coherent (t.insertNode node) := by
  have hkeep : ∀ sessionId id p, t.parentIn sessionId id = some p →
      (t.insertNode node).parentIn sessionId id = some p := by
    intro sessionId id p hp
    obtain ⟨found, hfound, hrest⟩ := Tables.parentIn_eq_some.mp hp
    exact Tables.parentIn_eq_some.mpr ⟨found, Tables.readNode_insertNode_of_some hnew hfound, hrest⟩
  have hself : (t.insertNode node).parentIn node.sessionId node.id = some node.parentId := by
    refine Tables.parentIn_eq_some.mpr ⟨node, ?_, rfl, rfl⟩
    rw [Tables.readNode_insertNode hnew, if_pos rfl]
  constructor
  · intro id found hfound
    rw [Tables.readNode_insertNode hnew] at hfound
    split at hfound
    · next heq =>
        cases hfound
        exact heq.symm
    · exact h.nodeIds id found hfound
  · exact h.branchKeys
  · intro id found hfound
    rw [Tables.readNode_insertNode hnew] at hfound
    split at hfound
    · next heq =>
        cases hfound
        subst heq
        cases hup : node.parentId with
        | none => exact ⟨0, .root (by rw [hself, hup])⟩
        | some parentId =>
          obtain ⟨parent, hread, hsession⟩ := hparent parentId hup
          obtain ⟨n, hrooted⟩ := h.rooted parentId parent hread
          rw [hsession] at hrooted
          exact ⟨n + 1, .child (by rw [hself, hup]) (hrooted.mono (hkeep node.sessionId))⟩
    · obtain ⟨n, hrooted⟩ := h.rooted id found hfound
      exact ⟨n, hrooted.mono (hkeep found.sessionId)⟩
  · intro sessionId branchId branch head hbranch hhead
    exact (h.heads sessionId branchId branch head hbranch hhead).insertNode hnew
  · intro id checkpoint hcheckpoint
    exact (h.anchors id checkpoint hcheckpoint).insertNode hnew

theorem insertBranch (h : Coherent t) {branch : Branch}
    (hnew : t.readBranch branch.sessionId branch.id = none)
    (hhead : ∀ head, branch.headMessageId = some head → t.Holds branch.sessionId head) :
    Coherent (t.insertBranch branch) := by
  constructor
  · exact h.nodeIds
  · intro sessionId branchId found hfound
    rw [Tables.readBranch_insertBranch hnew] at hfound
    split at hfound
    · next heq =>
        cases hfound
        cases heq
        exact ⟨rfl, rfl⟩
    · exact h.branchKeys sessionId branchId found hfound
  · exact h.rooted
  · intro sessionId branchId found head hfound hfoundHead
    rw [Tables.readBranch_insertBranch hnew] at hfound
    split at hfound
    · next heq =>
        cases hfound
        cases heq
        exact hhead head hfoundHead
    · exact h.heads sessionId branchId found head hfound hfoundHead
  · exact h.anchors

theorem updateBranch (h : Coherent t) {sessionId branchId : String} {f : Branch → Branch}
    (hkey : ∀ row, (f row).sessionId = row.sessionId ∧ (f row).id = row.id)
    (hhead : ∀ row head, (f row).headMessageId = some head → row.headMessageId = some head ∨
      t.Holds sessionId head) : Coherent (t.updateBranch sessionId branchId f) := by
  constructor
  · exact h.nodeIds
  · intro session branch found hfound
    rw [Tables.readBranch_updateBranch] at hfound
    split at hfound
    · next heq =>
        obtain ⟨row, hrow, rfl⟩ := map_eq_some_iff.mp hfound
        cases heq
        have hold := h.branchKeys _ _ row hrow
        exact ⟨(hkey row).1.trans hold.1, (hkey row).2.trans hold.2⟩
    · exact h.branchKeys session branch found hfound
  · exact h.rooted
  · intro session branch found head hfound hfoundHead
    rw [Tables.readBranch_updateBranch] at hfound
    split at hfound
    · next heq =>
        obtain ⟨row, hrow, rfl⟩ := map_eq_some_iff.mp hfound
        cases heq
        rcases hhead row head hfoundHead with hold | hthere
        · exact h.heads _ _ row head hrow hold
        · exact hthere
    · exact h.heads session branch found head hfound hfoundHead
  · exact h.anchors

theorem upsertCheckpoint (h : Coherent t) {checkpoint : HistoryCheckpoint}
    (hanchor : t.Holds checkpoint.sessionId checkpoint.anchorMessageId) :
    Coherent (t.upsertCheckpoint checkpoint) := by
  constructor
  · exact h.nodeIds
  · exact h.branchKeys
  · exact h.rooted
  · exact h.heads
  · intro id found hfound
    unfold Tables.upsertCheckpoint Table.upsert at hfound
    rw [Table.get?_modify, Table.get?_insert] at hfound
    split at hfound
    · simp only [map_some, Option.some.injEq] at hfound
      subst hfound
      exact hanchor
    · exact h.anchors id found hfound

theorem eraseBranch (h : Coherent t) (sessionId branchId : String) :
    Coherent { t with branches := t.branches.erase (sessionId, branchId) } := by
  have hkept : ∀ session branch found,
      (t.branches.erase (sessionId, branchId)).get? (session, branch) = some found →
      t.readBranch session branch = some found := by
    intro session branch found hfound
    rw [Table.get?_erase] at hfound
    split at hfound
    · cases hfound
    · exact hfound
  constructor
  · exact h.nodeIds
  · exact fun session branch found hfound =>
      h.branchKeys session branch found (hkept session branch found hfound)
  · exact h.rooted
  · exact fun session branch found head hfound =>
      h.heads session branch found head (hkept session branch found hfound)
  · exact h.anchors

theorem deleteSessions (h : Coherent t) (gone : String → Bool) :
    Coherent (t.deleteSessions gone) := by
  have hnode : ∀ id node, (t.deleteSessions gone).readNode id = some node →
      t.readNode id = some node ∧ gone node.sessionId = false := by
    intro id node hread
    rw [Tables.readNode_deleteSessions, filter_eq_some_iff] at hread
    simpa using hread
  have hbranch : ∀ sessionId branchId branch,
      (t.deleteSessions gone).readBranch sessionId branchId = some branch →
      t.readBranch sessionId branchId = some branch ∧ gone sessionId = false := by
    intro sessionId branchId branch hread
    have hfound : (t.branches.get? (sessionId, branchId)).filter (fun _ => ¬ gone sessionId) =
        some branch := (Table.get?_filter ..).symm.trans hread
    rw [filter_eq_some_iff] at hfound
    exact ⟨hfound.1, by simpa using hfound.2⟩
  constructor
  · exact fun id node hread => h.nodeIds id node (hnode id node hread).1
  · exact fun sessionId branchId branch hread =>
      h.branchKeys sessionId branchId branch (hbranch sessionId branchId branch hread).1
  · intro id node hread
    obtain ⟨hold, hkept⟩ := hnode id node hread
    obtain ⟨n, hrooted⟩ := h.rooted id node hold
    refine ⟨n, hrooted.mono fun other p hp => ?_⟩
    obtain ⟨found, hfound, hsession, hparent⟩ := Tables.parentIn_eq_some.mp hp
    refine Tables.parentIn_eq_some.mpr ⟨found, ?_, hsession, hparent⟩
    rw [Tables.readNode_deleteSessions, hfound]
    simp [hsession, hkept]
  · intro sessionId branchId branch head hread hhead
    obtain ⟨hold, hkept⟩ := hbranch sessionId branchId branch hread
    exact (h.heads sessionId branchId branch head hold hhead).deleteSessions hkept
  · intro id checkpoint hread
    have hfound : (t.checkpoints.get? id).filter (fun c => ¬ gone c.sessionId) =
        some checkpoint := (Table.get?_filter ..).symm.trans hread
    rw [filter_eq_some_iff] at hfound
    exact (h.anchors id checkpoint hfound.1).deleteSessions (by simpa using hfound.2)

end Coherent

end Substrate.Threads
