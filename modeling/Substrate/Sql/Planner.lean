import Std.Data.String.ToNat
import Substrate.Sql.Catalog

/-!
From a statement to a signed one (`sql/analysis.py` and `sql/planner.py`). The planner
checks the statement, writes its views out, puts a slice in the place of each reference to
a protected table, and gives every table reference that is left the alias of a ticket.
-/

namespace Substrate.Sql

open Lib

structure Problem where
  status : Nat
  code : String
  detail : String
  deriving DecidableEq, Repr

def invalid (detail : String) : Problem := ⟨400, "invalid-request", detail⟩

def notFound (what : String) : Problem := ⟨404, "not-found", s!"{what} was not found"⟩

def deniedFunctions : List String :=
  ["GETENV", "CURRENT_SETTING", "WHICH_SECRET", "READ_TEXT", "READ_BLOB", "GLOB", "QUERY",
    "QUERY_TABLE", "SNIFF_CSV"]

def deniedPrefixes : List String :=
  ["READ_", "PARQUET_", "ICEBERG_", "DELTA_", "DUCKDB_", "PRAGMA_", "SQLITE_"]

def systemSchemas : List String := ["information_schema", "pg_catalog", "system", "temp"]

def isDenied (function : String) : Bool := function ∈ deniedFunctions ||
    deniedPrefixes.any fun start => start.toList.isPrefixOf function.toList

/-- What `_validate` holds against a node. -/
def Kind.refusal : Kind → Option Problem
  | .statement _ => some (invalid "Statements may only read data")
  | .directTable _ =>
    some (invalid "Table functions and direct file access are disabled; use catalog tables")
  | .func name =>
    if isDenied name then some (invalid s!"Function {name} is not allowed") else none
  | _ => none

variable {α : Type}

def isQuery : Term Kind α → Bool
  | .leaf _ => false
  | .node (.query _) _ => true
  | .node (.subquery _) _ => true
  | .node _ _ => false
  | .define _ _ _ body => isQuery body

def validate (tree : Term Kind α) : Except Problem Unit :=
  if isQuery tree then
    match tree.kinds.findSome? Kind.refusal with
    | some problem => .error problem
    | none => .ok ()
  else
    .error (invalid "Only one read-only SELECT or WITH query is supported")

/-- A reference by a bare name that is one of `_cte_names` is left alone. -/
def isBare (ctes : List String) : List String → Bool
  | [name] => name ∈ ctes
  | _ => false

def resolveName (catalog schema : String) : List String → TableName
  | [table] => (catalog, schema, table)
  | [schema, table] => (catalog, schema, table)
  | catalog :: schema :: table :: _ => (catalog, schema, table)
  | [] => (catalog, schema, "")

def isSystem (parts : List String) : Bool := parts.dropLast.any (· ∈ systemSchemas) ||
    ["duckdb_", "pg_", "sqlite_"].any fun start =>
      start.toList.isPrefixOf (parts.getLastD "").toList

/-- The leaves of a planned statement: a table reference, a slice, or a ticket's
alias under the reference's own. -/
inductive Source where
  | table (ref : TableRef)
  | slice (cut : Slice)
  | ticket (name aliasName : String)
  deriving DecidableEq, Repr

def Source.parts : Source → List String
  | .table ref => ref.parts
  | .slice cut => cut.source
  | .ticket name _ => [name]

abbrev Planned := Term Kind Source

/-- Somebody has to be allowed to read something. `direct` is the caller's own. -/
structure Check where
  subject : Principal
  direct : Bool
  securable : Securable

def TableName.text (name : TableName) : String := name.1 ++ "." ++ name.2.1 ++ "." ++ name.2.2

def maxViewDepth : Nat := 8

section Expand

variable (catalog : Catalog) (salt : String)

def readTable (record : TableRecord) (subject : Principal) (ref : TableRef) : Source :=
  match catalog.policyFor record subject with
  | some policy => .slice (wrap policy record subject ref.aliasName ref.filters salt)
  | none => .table { ref with parts := TableName.parts record.name }

/-- What `expand` puts in the place of one reference of a text, and the checks it
records. -/
def expandRef (inner : ViewRecord → Except Problem (Planned × List Check)) (ctes : List String)
    (defaultCatalog defaultSchema : String) (subject : Principal) (trail : List TableName)
    (viaView : Option TableName) (ref : TableRef) : Except Problem (Planned × List Check) :=
  if isBare ctes ref.parts then
    .ok (.leaf (.table ref), [])
  else if isSystem ref.parts then
    .error (invalid "System catalogs are not available; use the catalog API")
  else
    let name := resolveName defaultCatalog defaultSchema ref.parts
    let text := TableName.text name
    match catalog.table name with
    | some record =>
      if (catalog.policyFor record subject).isSome ∧ record.columns = [] then
        .error ⟨500, "internal-error", "A protected table has no known columns"⟩
      else
        .ok (.leaf (readTable catalog salt record subject ref),
          [⟨subject, viaView.isNone, .table record⟩])
    | none =>
      match catalog.view name with
      | some view =>
        if name ∈ trail then
          .error (invalid "Views are nested too deeply or refer to themselves")
        else
          match inner view with
          | .error problem => .error problem
          | .ok (tree, checks) =>
            .ok (.node (.subquery ref.aliasName) (.cons tree .nil),
              ⟨subject, viaView.isNone, .view view⟩ :: checks)
      | none =>
        match viaView with
        | some view =>
          let viewText := TableName.text view
          .error ⟨409, "view-broken", s!"View {viewText} refers to {text}, which no longer exists"⟩
        | none => .error (notFound s!"Table {text}")

/-- `expand` of one text, given that of a view in it. -/
def expandText (inner : ViewRecord → Except Problem (Planned × List Check)) (sql : Statement)
    (defaultCatalog defaultSchema : String) (subject : Principal) (trail : List TableName)
    (viaView : Option TableName) : Except Problem (Planned × List Check) :=
  match validate sql with
  | .error problem => .error problem
  | .ok () =>
    sql.traverse (expandRef catalog salt inner sql.defined defaultCatalog defaultSchema subject
      trail viaView)

/-- `expand`, with the number of levels of views that may still be entered. -/
def expand : Nat → Statement → String → String → Principal → List TableName →
    Option TableName → Except Problem (Planned × List Check)
  | 0, sql, defaultCatalog, defaultSchema, subject, trail, viaView =>
    expandText catalog salt
      (fun _ => .error (invalid "Views are nested too deeply or refer to themselves"))
      sql defaultCatalog defaultSchema subject trail viaView
  | depth + 1, sql, defaultCatalog, defaultSchema, subject, trail, viaView =>
    expandText catalog salt
      (fun view =>
        expand depth view.sql view.catalogName view.schemaName view.definer
          (view.name :: trail) (some view.name))
      sql defaultCatalog defaultSchema subject trail viaView

def authorize (checks : List Check) : Except Problem Unit :=
  forM checks fun check =>
    let name := TableName.text check.securable.name
    if check.direct then
      if catalog.canBrowse check.subject check.securable = false then
        match check.securable with
        | .table _ => .error (notFound s!"Table {name}")
        | .view _ => .error (notFound s!"View {name}")
      else if catalog.maySelect check.subject check.securable then
        .ok ()
      else
        .error ⟨403, "forbidden", "Missing SELECT"⟩
    else if catalog.maySelect check.subject check.securable then
      .ok ()
    else
      .error ⟨403, "view-definer-access",
        "A view in this query reads data its owner can no longer access"⟩

end Expand

def ticketAlias (index : Nat) : String := "__t" ++ Nat.repr index

structure Ticket where
  name : String
  source : Source
  deriving DecidableEq, Repr

structure Signed where
  sql : Planned
  tickets : List Ticket

/-- The positions of the references among the leaves, in the order in which
`find_all` comes upon them. -/
def references (findAll : Planned → List Nat) (tree : Planned) : List Nat :=
  (findAll tree).filter fun position =>
    (tree.leaves[position]?).any fun source => !isBare tree.defined source.parts

/-- A reference under the alias of its ticket, in `Analysis.rewrite`. -/
def Source.named (name : String) : Source → Source
  | .table ref => .ticket name ref.aliasName
  | .slice cut => .slice { cut with source := [name] }
  | .ticket _ aliasName => .ticket name aliasName

/-- `Analysis.rewrite`. -/
def rewrite (tree : Planned) (refs : List Nat) (limit : Option Nat) : Planned :=
  let sql := tree.relabel
    (fun position source =>
      if position ∈ refs then source.named (ticketAlias (refs.idxOf position)) else source) 0
  match limit with
  | none => sql
  | some limit =>
    .node (.query s!"SELECT * FROM (..) AS bounded LIMIT {limit}") (.cons sql .nil)

/-- `plan`, up to what is signed. `findAll` is the order in which the parser's tree
is searched. -/
def plan (catalog : Catalog) (salt : String) (findAll : Planned → List Nat)
    (principal : Principal) (sql : Statement) (defaultCatalog defaultSchema : String)
    (maxRows : Option Nat) : Except Problem Signed :=
  match expand catalog salt maxViewDepth sql defaultCatalog defaultSchema principal [] none with
  | .error problem => .error problem
  | .ok (tree, checks) =>
    match authorize catalog checks with
    | .error problem => .error problem
    | .ok () =>
      match validate tree with
      | .error problem => .error problem
      | .ok () =>
        let refs := references findAll tree
        let sources := refs.filterMap fun position => tree.leaves[position]?
        let allowed := checks.filterMap fun check =>
          match check.securable with
          | .table record => some record.name
          | .view _ => none
        if sources.all (fun source =>
            resolveName defaultCatalog defaultSchema source.parts ∈ allowed) then
          .ok
            { sql := rewrite tree refs (maxRows.map (· + 1))
              tickets := sources.zipIdx.map fun entry => ⟨ticketAlias entry.2, entry.1⟩ }
        else
          .error ⟨500, "internal-error", "Planner lost track of a table reference"⟩

abbrev Contents (V : Type) := TableName → List (List (Row V))

section Run

variable {V M : Type} (engine : Engine V M) (node : Contents V → Kind → List M → M)
  (keep : Source → List (List (Row V)) → List (List (Row V)))

/-- What a name means under an alias. -/
def readSource (env : String → Option (Bound V M)) (source : Source) : M :=
  match source.parts with
  | [name] =>
    match env name with
    | none => engine.unknown source.parts
    | some bound =>
      match source, bound with
      | .table ref, bound => engine.table ref.aliasName bound
      | .ticket _ aliasName, bound => engine.table aliasName bound
      | .slice cut, .rows rows =>
        engine.table cut.aliasName (.rows (engine.select cut.columns cut.conditions rows))
      | .slice cut, .defined meaning => engine.slice cut meaning
  | parts => engine.unknown parts

/-- How a worker reads statements. What a node means may depend on the stored files
themselves. -/
def sense (contents : Contents V) : Sense Kind Source (Bound V M) M where
  leaf := readSource engine
  node := node contents
  named := .defined
  fixed := engine.recursive

def Source.tableName (source : Source) : TableName := resolveName "" "" source.parts

def Signed.env (signed : Signed) (contents : Contents V) (name : String) : Option (Bound V M) :=
  (signed.tickets.find? fun ticket => ticket.name = name).map fun ticket =>
    .rows (keep ticket.source (contents ticket.source.tableName)).flatten

def Signed.answer (signed : Signed) (contents : Contents V) : M :=
  signed.sql.eval (sense engine node contents) (signed.env keep contents)

end Run

end Substrate.Sql
