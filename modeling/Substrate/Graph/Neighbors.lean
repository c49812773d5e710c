import Mathlib.Combinatorics.SimpleGraph.Metric
import Substrate.Lib.Recursive
import Substrate.Lib.Table

/-!
Entities and relationships, and the neighbourhood of an entity (`stores/graph_tables.py`).
A row is identified by its namespace and its id; a call that names a namespace sees the
rows of that one, and the empty name sees them all.
-/

namespace Substrate.Graph

open Lib List

/-- `name`, which only searches read, is left out. -/
structure EntityRow (Properties : Type) where
  label : String
  properties : Properties
  deriving DecidableEq, Repr

structure RelationshipRow (Properties : Type) where
  sourceId : String
  targetId : String
  type : String
  properties : Properties
  deriving DecidableEq, Repr

structure Tables (Properties : Type) where
  entities : Table (String × String) (EntityRow Properties)
  relationships : Table (String × String) (RelationshipRow Properties)

structure Entity (Properties : Type) where
  id : String
  label : String
  properties : Properties
  deriving DecidableEq, Repr

structure Relationship (Properties : Type) where
  id : String
  sourceId : String
  targetId : String
  type : String
  properties : Properties
  deriving DecidableEq, Repr

structure SubGraph (Properties : Type) where
  entities : List (Entity Properties)
  relationships : List (Relationship Properties)
  deriving DecidableEq, Repr

variable {Properties : Type}

abbrev Stored (Row : Type) := (String × String) × Row

/-- `_entity`. -/
def entityOf (row : Stored (EntityRow Properties)) : Entity Properties :=
  ⟨row.1.2, row.2.label, row.2.properties⟩

/-- `_relationship`. -/
def relationshipOf (row : Stored (RelationshipRow Properties)) : Relationship Properties :=
  ⟨row.1.2, row.2.sourceId, row.2.targetId, row.2.type, row.2.properties⟩

def inNamespace (ns : String) (key : String × String) : Bool := ns = "" || key.1 = ns

def ofTypes (types : Option (List String)) (type : String) : Bool :=
  types.getD [] = [] || type ∈ types.getD []

namespace Tables

variable (g : Tables Properties)

def visibleEntities (ns : String) : List (Stored (EntityRow Properties)) :=
  g.entities.rows.filter fun row => inNamespace ns row.1

def visibleRelationships (ns : String) (types : Option (List String)) :
    List (Stored (RelationshipRow Properties)) :=
  g.relationships.rows.filter fun row => inNamespace ns row.1 && ofTypes types row.2.type

end Tables

/-- The rows of `reach` that one leads to: the other end of each relationship that touches
the id, a hop further. -/
def hop (rels : List (Stored (RelationshipRow Properties))) (depth : Nat) (at_ : String × Nat) :
    List (String × Nat) :=
  if at_.2 < depth then
    rels.filterMap fun rel =>
      if rel.2.sourceId = at_.1 then some (rel.2.targetId, at_.2 + 1)
      else if rel.2.targetId = at_.1 then some (rel.2.sourceId, at_.2 + 1)
      else none
  else []

/-- `near`: the fewest hops to the id are fewer than the depth. -/
def near (reach : List (String × Nat)) (depth : Nat) (id : String) : Bool :=
  match ((reach.filter fun row => row.1 = id).map Prod.snd).min? with
  | some fewest => fewest < depth
  | none => false

/-- `get_neighbors`, with so many rows of the query at most; nothing if these do not last. -/
def Tables.getNeighbors (g : Tables Properties) (fuel : Nat) (entityId : String) (depth : Nat)
    (types : Option (List String)) (ns : String) : Option (SubGraph Properties) :=
  if (g.visibleEntities ns).any fun row => row.1.2 = entityId then
    let rels := g.visibleRelationships ns types
    (recurse (hop rels depth) fuel [(entityId, 0)] [(entityId, 0)]).map fun reach =>
      { entities := ((g.visibleEntities ns).filter fun row =>
          row.1.2 ∈ reach.map Prod.fst).map entityOf
        relationships := (rels.filter fun row =>
          near reach depth row.2.sourceId || near reach depth row.2.targetId).map relationshipOf }
  else some ⟨[], []⟩

def graphOf (rels : List (Stored (RelationshipRow Properties))) : SimpleGraph String :=
  SimpleGraph.fromRel fun a b => ∃ rel ∈ rels, rel.2.sourceId = a ∧ rel.2.targetId = b

section Distance

variable {rels : List (Stored (RelationshipRow Properties))} {depth : Nat}

variable {here there : String × Nat} {entityId id : String}

theorem mem_hop : there ∈ hop rels depth here ↔
    here.2 < depth ∧ there.2 = here.2 + 1 ∧ ∃ rel ∈ rels,
      (rel.2.sourceId = here.1 ∧ rel.2.targetId = there.1) ∨
        (rel.2.sourceId = there.1 ∧ rel.2.targetId = here.1) := by
  obtain ⟨id, hops⟩ := there
  unfold hop
  split
  · next hless =>
      simp only [mem_filterMap, hless, true_and]
      constructor
      · rintro ⟨rel, hrel, heq⟩
        split at heq
        · next hsource =>
            cases heq
            exact ⟨rfl, rel, hrel, .inl ⟨hsource, rfl⟩⟩
        · split at heq
          · next htarget =>
              cases heq
              exact ⟨rfl, rel, hrel, .inr ⟨rfl, htarget⟩⟩
          · cases heq
      · rintro ⟨rfl, rel, hrel, ⟨hsource, rfl⟩ | ⟨rfl, htarget⟩⟩
        · exact ⟨rel, hrel, if_pos hsource⟩
        · refine ⟨rel, hrel, ?_⟩
          split
          · next hsource => rw [htarget, hsource]
          · rfl
  · next hmore => simp [hmore]

theorem edist_hop (h : there ∈ hop rels depth here) : (graphOf rels).edist here.1 there.1 ≤ 1 := by
  obtain ⟨-, -, rel, hrel, hends⟩ := mem_hop.mp h
  by_cases hsame : here.1 = there.1
  · rw [hsame, SimpleGraph.edist_self]
    exact zero_le_one
  · have hadj : (graphOf rels).Adj here.1 there.1 := by
      unfold graphOf
      rw [SimpleGraph.fromRel_adj]
      refine ⟨hsame, ?_⟩
      rcases hends with hforth | hback
      · exact .inl ⟨rel, hrel, hforth⟩
      · exact .inr ⟨rel, hrel, hback⟩
    exact (SimpleGraph.edist_eq_one_iff_adj.mpr hadj).le

theorem edist_le_of_leads (h : Leads (hop rels depth) (entityId, 0) there) :
    there.2 ≤ depth ∧ (graphOf rels).edist entityId there.1 ≤ there.2 := by
  induction h with
  | refl => exact ⟨Nat.zero_le depth, by simp⟩
  | @tail here there _ hlast ih =>
    obtain ⟨hless, hhops, -⟩ := mem_hop.mp hlast
    refine ⟨by omega, ?_⟩
    have hsum := SimpleGraph.edist_triangle (G := graphOf rels) (u := entityId) (v := here.1)
      (w := there.1)
    rw [hhops]
    push_cast
    exact hsum.trans (add_le_add ih.2 (edist_hop hlast))

theorem leads_of_walk {start : String × Nat} {last : String} (walk : (graphOf rels).Walk id last)
    {hops : Nat} (h : Leads (hop rels depth) start (id, hops))
    (hlength : hops + walk.length ≤ depth) :
    Leads (hop rels depth) start (last, hops + walk.length) := by
  induction walk generalizing hops with
  | nil => exact h
  | @cons id next last hadj walk ih =>
    rw [SimpleGraph.Walk.length_cons] at hlength ⊢
    have hedge := hadj
    unfold graphOf at hedge
    rw [SimpleGraph.fromRel_adj] at hedge
    have hhop : (next, hops + 1) ∈ hop rels depth (id, hops) := by
      rw [mem_hop]
      refine ⟨by simp only; omega, rfl, ?_⟩
      rcases hedge.2 with ⟨rel, hrel, hforth⟩ | ⟨rel, hrel, hback⟩
      · exact ⟨rel, hrel, .inl hforth⟩
      · exact ⟨rel, hrel, .inr hback⟩
    have hrest := ih (h.tail hhop) (by omega)
    have hsum : hops + (walk.length + 1) = hops + 1 + walk.length := by omega
    rw [hsum]
    exact hrest

theorem leads_iff {bound : Nat} (hbound : bound ≤ depth) :
    (∃ hops ≤ bound, Leads (hop rels depth) (entityId, 0) (id, hops)) ↔
      (graphOf rels).edist entityId id ≤ bound := by
  constructor
  · rintro ⟨hops, hless, hleads⟩
    have hdistance := (edist_le_of_leads hleads).2
    exact hdistance.trans (by exact_mod_cast hless)
  · intro hdistance
    have hreach : (graphOf rels).Reachable entityId id := by
      apply SimpleGraph.reachable_of_edist_ne_top
      intro htop
      rw [htop] at hdistance
      exact absurd hdistance (by simp)
    obtain ⟨walk, hwalk⟩ := hreach.exists_walk_length_eq_edist
    have hless : walk.length ≤ bound := by
      rw [← hwalk] at hdistance
      exact_mod_cast hdistance
    have hleads := leads_of_walk walk (Relation.ReflTransGen.refl : Leads (hop rels depth) _ _)
      (by omega : 0 + walk.length ≤ depth)
    rw [Nat.zero_add] at hleads
    exact ⟨walk.length, hless, hleads⟩

theorem leads_lt_iff : (∃ hops < depth, Leads (hop rels depth) (entityId, 0) (id, hops)) ↔
      (graphOf rels).edist entityId id < depth := by
  cases depth with
  | zero => simp
  | succ n =>
    have hwithin := @leads_iff _ rels (n + 1) entityId id n (Nat.le_succ n)
    have hless : (graphOf rels).edist entityId id < ((n + 1 : Nat) : ℕ∞) ↔
        (graphOf rels).edist entityId id ≤ n := by
      push_cast
      exact ENat.lt_add_one_iff (ENat.natCast_ne_top n)
    rw [hless, ← hwithin]
    simp only [Nat.lt_succ_iff]

end Distance

variable {depth : Nat}

theorem near_iff {reach : List (String × Nat)} {id : String} :
    near reach depth id = true ↔ ∃ hops < depth, (id, hops) ∈ reach := by
  have hmem : ∀ hops, hops ∈ (reach.filter fun row => row.1 = id).map Prod.snd ↔
      (id, hops) ∈ reach := by
    intro hops
    simp
  unfold near
  cases hmin : ((reach.filter fun row => row.1 = id).map Prod.snd).min? with
  | none =>
    have hnil := List.min?_eq_none_iff.mp hmin
    simp only [Bool.false_eq_true, false_iff, not_exists, not_and]
    intro hops _ hin
    rw [← hmem, hnil] at hin
    cases hin
  | some fewest =>
    obtain ⟨hin, hleast⟩ := List.min?_eq_some_iff.mp hmin
    rw [decide_eq_true_eq]
    constructor
    · intro hless
      exact ⟨fewest, hless, (hmem fewest).mp hin⟩
    · rintro ⟨hops, hless, hhops⟩
      exact (hleast hops ((hmem hops).mpr hhops)).trans_lt hless

def bound (rels : List (Stored (RelationshipRow Properties))) (entityId : String)
    (depth : Nat) : List (String × Nat) :=
  (entityId :: rels.flatMap fun rel => [rel.2.sourceId, rel.2.targetId]) ×ˢ List.range (depth + 1)

theorem mem_bound {rels : List (Stored (RelationshipRow Properties))} {entityId : String}
    {row : String × Nat} :
    row ∈ bound rels entityId depth ↔
      (row.1 = entityId ∨ ∃ rel ∈ rels, row.1 = rel.2.sourceId ∨ row.1 = rel.2.targetId) ∧
        row.2 ≤ depth := by
  obtain ⟨id, hops⟩ := row
  unfold bound
  rw [mem_product, mem_cons, mem_flatMap, mem_range, Nat.lt_succ_iff]
  simp only [mem_cons, not_mem_nil, or_false]

theorem reach_ends (rels : List (Stored (RelationshipRow Properties))) (entityId : String)
    (depth : Nat) : ∃ least reach, ∀ fuel, least ≤ fuel →
      recurse (hop rels depth) fuel [(entityId, 0)] [(entityId, 0)] = some reach := by
  have hstart : ∀ row ∈ [(entityId, 0)], row ∈ bound rels entityId depth := by
    intro row hrow
    rw [mem_singleton.mp hrow, mem_bound]
    exact ⟨.inl rfl, Nat.zero_le depth⟩
  have hstep : ∀ row ∈ bound rels entityId depth, ∀ there ∈ hop rels depth row,
      there ∈ bound rels entityId depth := by
    intro row _ there hthere
    obtain ⟨hless, hhops, rel, hrel, hends⟩ := mem_hop.mp hthere
    rw [mem_bound]
    refine ⟨.inr ⟨rel, hrel, ?_⟩, by omega⟩
    rcases hends with ⟨-, htarget⟩ | ⟨hsource, -⟩
    · exact .inr htarget.symm
    · exact .inl hsource.symm
  obtain ⟨reach, hreach⟩ := (Partial.begin (hop rels depth) (entityId, 0)).ends hstart hstep
    (le_refl _)
  exact ⟨_, reach, fun fuel hfuel => recurse_mono hfuel hreach⟩

namespace Tables

open Classical in
/-- The visible entities at a distance of at most the depth, and the visible relationships of
the types that have an end nearer than the depth. There is nothing around what is no
visible entity, and if no type is given all are meant. -/
noncomputable def ball (g : Tables Properties) (entityId : String) (depth : Nat)
    (types : Option (List String)) (ns : String) : SubGraph Properties :=
  if ∃ row ∈ g.visibleEntities ns, row.1.2 = entityId then
    let graph := graphOf (g.visibleRelationships ns types)
    { entities := ((g.visibleEntities ns).filter fun row =>
        graph.edist entityId row.1.2 ≤ depth).map entityOf
      relationships := ((g.visibleRelationships ns types).filter fun row =>
        graph.edist entityId row.2.sourceId < depth ∨
          graph.edist entityId row.2.targetId < depth).map relationshipOf }
  else ⟨[], []⟩

def only (g : Tables Properties) (ns : String) : Tables Properties where
  entities := g.entities.filter fun key _ => key.1 = ns
  relationships := g.relationships.filter fun key _ => key.1 = ns

variable {ns : String}

theorem visibleEntities_only (g : Tables Properties) (hns : ns ≠ "") :
    g.visibleEntities ns = (g.only ns).entities.rows := by
  unfold visibleEntities only Table.filter inNamespace
  simp [hns]

theorem visibleRelationships_only (g : Tables Properties) (hns : ns ≠ "")
    (types : Option (List String)) :
    g.visibleRelationships ns types =
      (g.only ns).relationships.rows.filter fun row => ofTypes types row.2.type := by
  unfold visibleRelationships only Table.filter inNamespace
  rw [List.filter_filter]
  apply List.filter_congr
  intro row _
  simp [hns, Bool.and_comm]

/-- For every graph, the query ends, and what is returned is the ball around the entity. What
is in other namespaces than the one named makes no difference. -/
theorem neighbors_ball (g : Tables Properties) (entityId : String) (depth : Nat)
    (types : Option (List String)) (ns : String) :
    (∃ least, ∀ fuel, least ≤ fuel →
      g.getNeighbors fuel entityId depth types ns = some (g.ball entityId depth types ns)) ∧
    (ns ≠ "" → ∀ other : Tables Properties, other.only ns = g.only ns → ∀ fuel,
      other.getNeighbors fuel entityId depth types ns =
        g.getNeighbors fuel entityId depth types ns) := by
  constructor
  · obtain ⟨least, reach, hreach⟩ := reach_ends (g.visibleRelationships ns types) entityId depth
    refine ⟨least, ?_⟩
    intro fuel hfuel
    have hmem := (Partial.begin (hop (g.visibleRelationships ns types) depth)
      (entityId, 0)).mem_iff (hreach fuel hfuel)
    unfold getNeighbors ball
    by_cases hvisible : ∃ row ∈ g.visibleEntities ns, row.1.2 = entityId
    · rw [if_pos (by simpa using hvisible), if_pos hvisible]
      dsimp only
      rw [hreach fuel hfuel, Option.map_some]
      congr 2
      · congr 1
        apply List.filter_congr
        intro row _
        apply Bool.decide_congr
        rw [← leads_iff (le_refl depth)]
        simp only [mem_map, Prod.exists, exists_and_right, exists_eq_right, hmem]
        constructor
        · rintro ⟨hops, hleads⟩
          exact ⟨hops, (edist_le_of_leads hleads).1, hleads⟩
        · rintro ⟨hops, -, hleads⟩
          exact ⟨hops, hleads⟩
      · congr 1
        apply List.filter_congr
        intro row _
        rw [Bool.eq_iff_iff, Bool.or_eq_true, near_iff, near_iff, decide_eq_true_eq,
          ← leads_lt_iff, ← leads_lt_iff]
        simp only [hmem]
    · rw [if_neg (by simpa using hvisible), if_neg hvisible]
  · intro hns other hsame fuel
    unfold getNeighbors
    rw [other.visibleEntities_only hns, g.visibleEntities_only hns,
      other.visibleRelationships_only hns, g.visibleRelationships_only hns, hsame]

end Tables

/-- `a` and `b`, and one relationship from the one to the other. -/
def pair : Tables Unit where
  entities := ⟨[(("", "a"), ⟨"Person", ()⟩), (("", "b"), ⟨"Person", ()⟩)], by decide⟩
  relationships := ⟨[(("", "r"), ⟨"a", "b", "knows", ()⟩)], by decide⟩

/-- Along the relationships of no type at all `b` is not reached, but it is returned. -/
theorem pair_no_types : ∃ sub, pair.getNeighbors 9 "a" 1 (some []) "" = some sub ∧
    (∃ e ∈ sub.entities, e.id = "b") ∧
    ¬ (graphOf (pair.relationships.rows.filter fun row => row.2.type ∈ ([] : List String))).edist
      "a" "b" ≤ 1 := by
  refine ⟨_, rfl, ?_, ?_⟩
  · exact ⟨⟨"b", "Person", ()⟩, by decide, rfl⟩
  · have hnone : graphOf (pair.relationships.rows.filter fun row =>
        row.2.type ∈ ([] : List String)) = ⊥ := by
      ext a b
      unfold graphOf
      rw [SimpleGraph.fromRel_adj]
      simp
    rw [hnone, SimpleGraph.edist_bot_of_ne (by decide)]
    simp

end Substrate.Graph
