import Substrate.Sql.Planner

/-!
What an expanded statement is made of. Each of its leaves is a bare name that is
defined somewhere, or the reading of a table, by the caller or by a view's definer,
that the catalog allows. The bare names and their scopes are those of the statement
with its views written out.
-/

namespace Substrate.Sql

open Lib List

variable {catalog : Catalog} {salt : String}

/-- The view's definition names the table or view. -/
def ViewRecord.Reads (view : ViewRecord) (name : TableName) : Prop :=
  ∃ ref ∈ view.sql.leaves, isBare view.sql.defined ref.parts = false ∧
    resolveName view.catalogName view.schemaName ref.parts = name

/-- Through something it may SELECT, the subject sees the table as `who` does: as
itself for a table, and as the definer for a view. -/
inductive Sees (catalog : Catalog) : Principal → Securable → Principal → TableRecord → Prop
  | table {subject : Principal} {record : TableRecord}
      (h : catalog.maySelect subject (.table record) = true) :
      Sees catalog subject (.table record) subject record
  | view {subject who : Principal} {view : ViewRecord} {part : Securable} {record : TableRecord}
      (h : catalog.maySelect subject (.view view) = true) (hpart : view.Reads part.name)
      (hsees : Sees catalog view.definer part who record) :
      Sees catalog subject (.view view) who record

/-- The text a reference stands for. -/
def writeOutRef (catalog : Catalog) (inner : ViewRecord → Statement) (ctes : List String)
    (defaultCatalog defaultSchema : String) (ref : TableRef) : Statement :=
  if isBare ctes ref.parts then .leaf ref
  else
    let name := resolveName defaultCatalog defaultSchema ref.parts
    match catalog.table name, catalog.view name with
    | none, some view => .node (.subquery ref.aliasName) (.cons (inner view) .nil)
    | _, _ => .leaf { ref with parts := TableName.parts name }

def writeOutText (catalog : Catalog) (inner : ViewRecord → Statement) (sql : Statement)
    (defaultCatalog defaultSchema : String) : Statement :=
  sql.subst (writeOutRef catalog inner sql.defined defaultCatalog defaultSchema)

/-- A statement with its views written out, to a depth. -/
def writeOut (catalog : Catalog) : Nat → Statement → String → String → Statement
  | 0, sql, defaultCatalog, defaultSchema =>
    writeOutText catalog (fun view => view.sql) sql defaultCatalog defaultSchema
  | depth + 1, sql, defaultCatalog, defaultSchema =>
    writeOutText catalog
      (fun view => writeOut catalog depth view.sql view.catalogName view.schemaName)
      sql defaultCatalog defaultSchema

section Ref

variable {inner : ViewRecord → Except Problem (Planned × List Check)} {ctes : List String}
  {defaultCatalog defaultSchema : String} {subject : Principal} {trail : List TableName}
  {viaView : Option TableName} {ref : TableRef} {r : Planned × List Check}

theorem expandRef_ok (h : expandRef catalog salt inner ctes defaultCatalog defaultSchema subject
      trail viaView ref = .ok r) :
    (isBare ctes ref.parts = true ∧ r = (.leaf (.table ref), [])) ∨
    (isBare ctes ref.parts = false ∧ ∃ record,
      catalog.table (resolveName defaultCatalog defaultSchema ref.parts) = some record ∧
      r = (.leaf (readTable catalog salt record subject ref),
        [⟨subject, viaView.isNone, .table record⟩])) ∨
    (isBare ctes ref.parts = false ∧
      catalog.table (resolveName defaultCatalog defaultSchema ref.parts) = none ∧
      ∃ view tree checks,
        catalog.view (resolveName defaultCatalog defaultSchema ref.parts) = some view ∧
        inner view = .ok (tree, checks) ∧
        r = (.node (.subquery ref.aliasName) (.cons tree .nil),
          ⟨subject, viaView.isNone, .view view⟩ :: checks)) := by
  unfold expandRef at h
  cases hbare : isBare ctes ref.parts with
  | true =>
    rw [hbare, if_pos rfl] at h
    cases h
    exact .inl ⟨rfl, rfl⟩
  | false =>
    rw [hbare, if_neg Bool.false_ne_true] at h
    split at h
    · cases h
    · simp only at h
      split at h
      · next record hrecord =>
          split at h
          · cases h
          · cases h
            exact .inr (.inl ⟨rfl, record, hrecord, rfl⟩)
      · next hnone =>
          split at h
          · next view hview =>
              split at h
              · cases h
              · split at h
                · cases h
                · next tree checks hinner =>
                    cases h
                    exact .inr (.inr ⟨rfl, hnone, view, tree, checks, hview, hinner, rfl⟩)
          · split at h
            · cases h
            · cases h

theorem readTable_parts (record : TableRecord) (subject : Principal) (ref : TableRef) :
    (readTable catalog salt record subject ref).parts = TableName.parts record.name := by
  unfold readTable
  split
  · rfl
  · rfl

end Ref

inductive Stands (catalog : Catalog) (salt : String) (subject : Principal)
    (names : TableName → Prop) (ctes : List String) : Source → Prop
  | bare {ref : TableRef} {name : String} (hparts : ref.parts = [name]) (hname : name ∈ ctes) :
      Stands catalog salt subject names ctes (.table ref)
  | read {who : Principal} {part : Securable} {record : TableRecord} {ref : TableRef}
      (hpart : names part.name) (hsees : Sees catalog subject part who record) :
      Stands catalog salt subject names ctes (readTable catalog salt record who ref)

theorem Stands.source {subject : Principal} {names : TableName → Prop} {ctes : List String}
    {source : Source} (h : Stands catalog salt subject names ctes source) :
    (∃ ref name, source = .table ref ∧ ref.parts = [name] ∧ name ∈ ctes) ∨
    (∃ who part record ref, source = readTable catalog salt record who ref ∧
      names (Securable.name part) ∧ Sees catalog subject part who record) := by
  cases h with
  | bare hparts hname => exact .inl ⟨_, _, rfl, hparts, hname⟩
  | read hpart hsees => exact .inr ⟨_, _, _, _, rfl, hpart, hsees⟩

def Resolves (sql : Statement) (defaultCatalog defaultSchema : String) (name : TableName) : Prop :=
  ∃ ref ∈ sql.leaves, isBare sql.defined ref.parts = false ∧
    resolveName defaultCatalog defaultSchema ref.parts = name

section Text

variable {inner : ViewRecord → Except Problem (Planned × List Check)} {sql : Statement}
  {defaultCatalog defaultSchema : String} {subject : Principal} {trail : List TableName}
  {viaView : Option TableName} {tree : Planned} {checks : List Check}

theorem expandText_ok (h : expandText catalog salt inner sql defaultCatalog defaultSchema subject
      trail viaView = .ok (tree, checks)) :
    ∃ g : TableRef → Planned, tree = sql.subst g ∧ ∀ scope, ∀ leaf ∈ sql.scopes scope, ∃ r,
        expandRef catalog salt inner sql.defined defaultCatalog defaultSchema subject trail
          viaView leaf.2 = .ok r ∧
        g leaf.2 = r.1 ∧ ∀ check ∈ r.2, check ∈ checks := by
  unfold expandText at h
  split at h
  · cases h
  · let visit := expandRef catalog salt inner sql.defined defaultCatalog defaultSchema subject
      trail viaView
    let g : TableRef → Planned := fun ref =>
      match visit ref with
      | .ok r => r.1
      | .error _ => .leaf (.table ref)
    have hg : ∀ ref r, visit ref = .ok r → g ref = r.1 := by
      intro ref r hr
      simp only [g, hr]
    refine ⟨g, Term.traverse_subst hg sql h, fun scope leaf hleaf => ?_⟩
    obtain ⟨r, hr, hout⟩ := Term.traverse_leaf scope sql h leaf hleaf
    exact ⟨r, hr, hg _ r hr, hout⟩

theorem expandText_stands (hinner : ∀ view tree checks, inner view = .ok (tree, checks) →
      (∀ check ∈ checks, catalog.maySelect check.subject check.securable = true) →
      ∀ scope, ∀ leaf ∈ tree.scopes scope,
        Stands catalog salt view.definer view.Reads tree.defined leaf.2)
    (h : expandText catalog salt inner sql defaultCatalog defaultSchema subject trail viaView =
      .ok (tree, checks))
    (hchecks : ∀ check ∈ checks, catalog.maySelect check.subject check.securable = true)
    (scope : List String) :
    ∀ leaf ∈ tree.scopes scope, Stands catalog salt subject
      (Resolves sql defaultCatalog defaultSchema) tree.defined leaf.2 := by
  rintro ⟨leafScope, source⟩ hleaf
  obtain ⟨g, rfl, hvisit⟩ := expandText_ok h
  rw [Term.scopes_subst] at hleaf
  obtain ⟨⟨scope', ref⟩, href, hleaf⟩ := mem_flatMap.mp hleaf
  obtain ⟨r, hr, hg, hout⟩ := hvisit scope _ href
  have hdefined := Term.defined_leaf g scope sql _ href
  simp only at hleaf hr hg hdefined
  rw [hg] at hleaf hdefined
  rcases expandRef_ok hr with ⟨hbare, rfl⟩ | ⟨hbare, record, hrecord, rfl⟩ |
    ⟨hbare, hnone, view, inside, more, hview, hinside, rfl⟩
  · cases mem_singleton.mp hleaf
    unfold isBare at hbare
    split at hbare
    · next name hparts =>
        exact .bare hparts (Term.defined_subst g sql name (of_decide_eq_true hbare))
    · cases hbare
  · cases mem_singleton.mp hleaf
    have hpart : Resolves sql defaultCatalog defaultSchema (Securable.table record).name :=
      ⟨ref, Term.mem_leaves href, hbare, (catalog.table_name _ record hrecord).symm⟩
    exact .read hpart (.table (hchecks _ (hout _ mem_cons_self)))
  · have hpart : Resolves sql defaultCatalog defaultSchema (Securable.view view).name :=
      ⟨ref, Term.mem_leaves href, hbare, (catalog.view_name _ view hview).symm⟩
    have hmay := hchecks _ (hout _ mem_cons_self)
    have hstands := hinner view inside more hinside
      (fun check hcheck => hchecks check (hout check (mem_cons_of_mem _ hcheck)))
      scope' (leafScope, source) (by simpa [Term.scopes, Terms.scopes] using hleaf)
    have hinside : ∀ name ∈ inside.defined, name ∈ (sql.subst g).defined := by
      intro name hname
      exact hdefined name (by simpa [Term.defined, Terms.defined] using hname)
    cases hstands with
    | bare hparts hname => exact .bare hparts (hinside _ hname)
    | read hreads hsees => exact .read hpart (.view hmay hreads hsees)

end Text

theorem expand_stands (depth : Nat) :
    ∀ {sql : Statement} {defaultCatalog defaultSchema : String} {subject : Principal}
      {trail : List TableName} {viaView : Option TableName} {tree : Planned}
      {checks : List Check},
      expand catalog salt depth sql defaultCatalog defaultSchema subject trail viaView =
        .ok (tree, checks) →
      (∀ check ∈ checks, catalog.maySelect check.subject check.securable = true) →
      ∀ scope, ∀ leaf ∈ tree.scopes scope, Stands catalog salt subject
        (Resolves sql defaultCatalog defaultSchema) tree.defined leaf.2 := by
  induction depth with
  | zero =>
    intro sql defaultCatalog defaultSchema subject trail viaView tree checks h hchecks
    refine expandText_stands ?_ h hchecks
    intro view tree checks hview
    cases hview
  | succ depth ih =>
    intro sql defaultCatalog defaultSchema subject trail viaView tree checks h hchecks
    refine expandText_stands ?_ h hchecks
    intro view tree checks hview hallowed
    exact ih hview hallowed

def named {α : Type} (parts : α → List String) (scope : List String) (t : Term Kind α) :
    List (List String × List String) :=
  (t.scopes scope).map fun leaf => (leaf.1, parts leaf.2)

theorem named_subst {α β : Type} (parts : β → List String) (g : α → Term Kind β)
    (scope : List String) (t : Term Kind α) :
    named parts scope (t.subst g) =
      (t.scopes scope).flatMap fun leaf => named parts leaf.1 (g leaf.2) := by
  unfold named
  rw [Term.scopes_subst, map_flatMap]

theorem expandText_named {inner : ViewRecord → Except Problem (Planned × List Check)}
    {writeInner : ViewRecord → Statement} {sql : Statement}
    {defaultCatalog defaultSchema : String} {subject : Principal} {trail : List TableName}
    {viaView : Option TableName} {tree : Planned} {checks : List Check}
    (hinner : ∀ view tree checks, inner view = .ok (tree, checks) → ∀ scope,
      named Source.parts scope tree = named TableRef.parts scope (writeInner view))
    (h : expandText catalog salt inner sql defaultCatalog defaultSchema subject trail viaView =
      .ok (tree, checks)) (scope : List String) :
    named Source.parts scope tree = named TableRef.parts scope
        (writeOutText catalog writeInner sql defaultCatalog defaultSchema) := by
  obtain ⟨g, rfl, hvisit⟩ := expandText_ok h
  unfold writeOutText
  rw [named_subst, named_subst]
  apply flatMap_congr
  rintro ⟨scope', ref⟩ href
  obtain ⟨r, hr, hg, _⟩ := hvisit scope _ href
  simp only at hr hg ⊢
  rw [hg]
  unfold writeOutRef
  rcases expandRef_ok hr with ⟨hbare, rfl⟩ | ⟨hbare, record, hrecord, rfl⟩ |
    ⟨hbare, hnone, view, inside, more, hview, hinside, rfl⟩
  · rw [hbare, if_pos rfl]
    rfl
  · rw [hbare, if_neg Bool.false_ne_true]
    simp only [hrecord, named, Term.scopes, map_cons, map_nil, readTable_parts]
    rw [catalog.table_name _ record hrecord]
  · rw [hbare, if_neg Bool.false_ne_true]
    simp only [hnone, hview]
    have hsame := hinner view inside more hinside scope'
    unfold named at hsame ⊢
    simpa [Term.scopes, Terms.scopes] using hsame

theorem expand_named (depth : Nat) :
    ∀ {sql : Statement} {defaultCatalog defaultSchema : String} {subject : Principal}
      {trail : List TableName} {viaView : Option TableName} {tree : Planned}
      {checks : List Check},
      expand catalog salt depth sql defaultCatalog defaultSchema subject trail viaView =
        .ok (tree, checks) →
      ∀ scope, named Source.parts scope tree =
        named TableRef.parts scope (writeOut catalog depth sql defaultCatalog defaultSchema) := by
  induction depth with
  | zero =>
    intro sql defaultCatalog defaultSchema subject trail viaView tree checks h
    refine expandText_named ?_ h
    intro view tree checks hview
    cases hview
  | succ depth ih =>
    intro sql defaultCatalog defaultSchema subject trail viaView tree checks h
    refine expandText_named ?_ h
    intro view tree checks hview
    exact ih hview

end Substrate.Sql
