import Mathlib.Data.List.Chain
import Substrate.Lib.Lineage
import Substrate.Threads.State

/-!
Reading history (`context/history.py`). `resolveAncestry` walks the parent
pointers of a node and gives up on a node it has met before or does not find. From
a node that leads to a root it does neither, and returns the node's line of
ancestors, the root first.
-/

namespace Substrate.Threads

open Lib List Option

variable {Message : Type}

namespace Tables

/-- The walk of `DefaultHistoryResolver.resolve_ancestry`, with the nodes already
collected, the newest last. -/
def resolveFrom (t : Tables Message) (stopAtNodeId : Option String) (visited : List String)
    (chain : List (MessageNode Message)) :
    Option String → Except ThreadError (List (MessageNode Message))
  | none => .ok chain
  | some curr =>
    if curr ∈ visited then
      .error (.dagIntegrity s!"Cycle detected in ancestry path at node '{curr}'")
    else if stopAtNodeId = some curr then
      .ok chain
    else
      match _hfound : t.readNode curr with
      | none => .error (.dagIntegrity s!"Broken DAG: ancestor node '{curr}' not found")
      | some node => t.resolveFrom stopAtNodeId (curr :: visited) (node :: chain) node.parentId
termination_by (t.nodes.rows.filter fun row => row.1 ∉ visited).length
decreasing_by
  rename_i hvisited _
  have hmem : (curr, node) ∈ t.nodes.rows := Table.mem_rows_iff.mpr _hfound
  have hless : (t.nodes.rows.filter fun row => row.1 ∉ curr :: visited) =
      (t.nodes.rows.filter fun row => row.1 ∉ visited).filter fun row => row.1 ≠ curr := by
    rw [List.filter_filter]
    congr 1
    funext row
    simp
  rw [hless]
  apply length_filter_lt_length_iff_exists.mpr
  exact ⟨(curr, node), mem_filter.mpr ⟨hmem, by simpa using hvisited⟩, by simp⟩

def resolveAncestry (t : Tables Message) (leafMessageId : String)
    (stopAtNodeId : Option String) : Except ThreadError (List (MessageNode Message)) :=
  t.resolveFrom stopAtNodeId [] [] (some leafMessageId)

def parentIn (t : Tables Message) (sessionId nodeId : String) : Option (Option String) :=
  ((t.readNode nodeId).filter fun node => node.sessionId = sessionId).map (·.parentId)

theorem parentIn_eq_some {t : Tables Message} {sessionId nodeId : String} {p : Option String} :
    t.parentIn sessionId nodeId = some p ↔
      ∃ node, t.readNode nodeId = some node ∧ node.sessionId = sessionId ∧ node.parentId = p := by
  simp [parentIn, filter_eq_some_iff, and_assoc]

end Tables

/-- The chain is the line of ancestors of `leaf`, from a root down, within one
session of the tables and without a repetition. -/
structure Lineage (t : Tables Message) (sessionId leaf : String)
    (chain : List (MessageNode Message)) : Prop where
  leaf : chain.getLast?.map (·.id) = some leaf
  root : ∀ first, chain.head? = some first → first.parentId = none
  linked : chain.IsChain fun older newer => newer.parentId = some older.id
  held : ∀ node ∈ chain, t.readNode node.id = some node ∧ node.sessionId = sessionId
  nodup : (chain.map (·.id)).Nodup

section Walk

variable {t : Tables Message} {sessionId : String}

private theorem lineage_root {node : MessageNode Message}
    (hnode : t.readNode node.id = some node) (hsession : node.sessionId = sessionId)
    (hroot : node.parentId = none) : Lineage t sessionId node.id [node] := by
  constructor
  · rfl
  · intro first hfirst
    cases hfirst
    exact hroot
  · exact .singleton _
  · intro other hother
    cases mem_singleton.mp hother
    exact ⟨hnode, hsession⟩
  · exact nodup_singleton _

private theorem lineage_child {parentId : String} {older : List (MessageNode Message)}
    {node : MessageNode Message} (h : Lineage t sessionId parentId older)
    (hnode : t.readNode node.id = some node) (hsession : node.sessionId = sessionId)
    (hparent : node.parentId = some parentId) (hfresh : node.id ∉ older.map (·.id)) :
    Lineage t sessionId node.id (older ++ [node]) := by
  constructor
  · simp
  · intro first hfirst
    cases older with
    | nil => simpa using h.leaf
    | cons oldest rest =>
      simp only [cons_append, List.head?_cons, Option.some.injEq] at hfirst
      subst hfirst
      exact h.root oldest rfl
  · rw [isChain_append]
    refine ⟨h.linked, .singleton _, fun last hlast next hnext => ?_⟩
    cases hnext
    have hleaf := h.leaf
    rw [mem_def.mp hlast] at hleaf
    cases hleaf
    exact hparent
  · intro other hother
    rcases mem_append.mp hother with hold | hnew
    · exact h.held other hold
    · cases mem_singleton.mp hnew
      exact ⟨hnode, hsession⟩
  · rw [map_append, nodup_append]
    refine ⟨h.nodup, nodup_singleton _, ?_⟩
    rintro id hid _ hlast rfl
    cases mem_singleton.mp hlast
    exact hfresh hid

private theorem resolveFrom_rooted (hids : ∀ id node, t.readNode id = some node → node.id = id)
    {n : Nat} {id : String} (h : Rooted (t.parentIn sessionId) n id) :
    ∀ (visited : List String) (chain : List (MessageNode Message)),
      (∀ v ∈ visited, ∃ m, n < m ∧ Rooted (t.parentIn sessionId) m v) →
      ∃ older, t.resolveFrom none visited chain (some id) = .ok (older ++ chain) ∧
        Lineage t sessionId id older ∧
        ∀ node ∈ older, ∃ m ≤ n, Rooted (t.parentIn sessionId) m node.id := by
  induction h with
  | @root id hup =>
    intro visited chain hvisited
    obtain ⟨node, hnode, hsession, hparent⟩ := Tables.parentIn_eq_some.mp hup
    have hid := hids id node hnode
    have hnew : id ∉ visited := by
      intro hmem
      obtain ⟨m, hm, hrooted⟩ := hvisited id hmem
      have hzero := Rooted.depth_unique (.root hup) hrooted
      omega
    refine ⟨[node], ?_, ?_, ?_⟩
    · rw [Tables.resolveFrom, if_neg hnew, if_neg (by simp)]
      split
      · next hnone => simp [hnode] at hnone
      · next found hfound =>
          rw [hnode] at hfound
          cases hfound
          rw [hparent, Tables.resolveFrom]
          rfl
    · rw [← hid] at hnode ⊢
      exact lineage_root hnode hsession hparent
    · intro other hother
      cases mem_singleton.mp hother
      exact ⟨0, Nat.le_refl 0, hid ▸ .root hup⟩
  | @child n id parentId hup hrooted ih =>
    intro visited chain hvisited
    obtain ⟨node, hnode, hsession, hparent⟩ := Tables.parentIn_eq_some.mp hup
    have hid := hids id node hnode
    have hself : Rooted (t.parentIn sessionId) (n + 1) id := .child hup hrooted
    have hnew : id ∉ visited := by
      intro hmem
      obtain ⟨m, hm, hdeeper⟩ := hvisited id hmem
      have hsame := hself.depth_unique hdeeper
      omega
    obtain ⟨older, hwalk, hline, hdepth⟩ := ih (id :: visited) (node :: chain) (by
      intro v hv
      rcases mem_cons.mp hv with rfl | hv
      · exact ⟨n + 1, by omega, hself⟩
      · obtain ⟨m, hm, hdeeper⟩ := hvisited v hv
        exact ⟨m, by omega, hdeeper⟩)
    have hfresh : node.id ∉ older.map (·.id) := by
      intro hmem
      obtain ⟨other, hother, heq⟩ := mem_map.mp hmem
      obtain ⟨m, hm, hshallow⟩ := hdepth other hother
      rw [heq, hid] at hshallow
      have hsame := hself.depth_unique hshallow
      omega
    refine ⟨older ++ [node], ?_, ?_, ?_⟩
    · rw [Tables.resolveFrom, if_neg hnew, if_neg (by simp)]
      split
      · next hnone => simp [hnode] at hnone
      · next found hfound =>
          rw [hnode] at hfound
          cases hfound
          rw [hparent, hwalk, append_assoc]
          rfl
    · rw [← hid] at hnode ⊢
      exact lineage_child hline hnode hsession hparent hfresh
    · intro other hother
      rcases mem_append.mp hother with hold | hlast
      · obtain ⟨m, hm, hshallow⟩ := hdepth other hold
        exact ⟨m, by omega, hshallow⟩
      · cases mem_singleton.mp hlast
        exact ⟨n + 1, Nat.le_refl _, hid.symm ▸ hself⟩

theorem resolveAncestry_rooted (hids : ∀ id node, t.readNode id = some node → node.id = id)
    {n : Nat} {leaf : String} (h : Rooted (t.parentIn sessionId) n leaf) :
    ∃ chain, t.resolveAncestry leaf none = .ok chain ∧ Lineage t sessionId leaf chain := by
  obtain ⟨older, hwalk, hline, _⟩ := resolveFrom_rooted hids h [] [] (by simp)
  rw [append_nil] at hwalk
  exact ⟨older, hwalk, hline⟩

end Walk

end Substrate.Threads
