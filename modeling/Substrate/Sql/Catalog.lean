import Substrate.Lib.Scoped

/-!
Statements, the catalog they are planned against, and access policies
(`substrate_data/sql`). A statement is the parsed tree: its leaves are the table
references, a WITH clause is a chain of definitions around the query it belongs to, and
everything else is a node of some kind.
-/

namespace Substrate.Sql

open Lib Function

abbrev TableName := String × String × String

inductive Operator where
  | eq | ne | gt | ge | lt | le | in_
  deriving DecidableEq, Repr

inductive Literal where
  | text (value : String)
  | number (value : String)
  | boolean (value : Bool)
  deriving DecidableEq, Repr

/-- A comparison of a column with literals, as `_pushdown` attaches it to a
reference. -/
structure Filter where
  column : String
  operator : Operator
  values : List Literal
  deriving DecidableEq, Repr

/-- A plain table reference: the parts of its name, the alias it goes by, and the
filters attached to it. -/
structure TableRef where
  parts : List String
  aliasName : String
  filters : List Filter
  deriving DecidableEq, Repr

/-- The nodes of a statement, as far as the planner tells them apart. -/
inductive Kind where
  | query (label : String)
  | subquery (aliasName : String)
  | statement (label : String)
  | directTable (label : String)
  | func (name : String)
  | other (label : String)
  deriving DecidableEq, Repr

abbrev Statement := Term Kind TableRef

structure Column where
  name : String
  type : String
  deriving DecidableEq, Repr

inductive Mask where
  | null
  | redact
  | hash
  | expression (text : String)
  deriving DecidableEq, Repr

structure ColumnMask where
  column : String
  mask : Mask

structure Policy where
  rowFilter : Option String
  columnMasks : List ColumnMask
  exempt : List String

/-- `Principal`, as far as policies and grants read it. -/
structure Principal where
  kind : String
  name : String
  groups : List String
  tenantId : Option String
  deriving DecidableEq, Repr

def Principal.identities (p : Principal) : List String :=
  (p.kind ++ ":" ++ p.name) :: "group:account users" :: p.groups.map ("group:" ++ ·)

structure TableRecord where
  name : TableName
  columns : List Column

/-- A view with its parsed definition, where unqualified names in it are looked up,
and the identity it reads with (`definer_of`). -/
structure ViewRecord where
  name : TableName
  sql : Statement
  catalogName : String
  schemaName : String
  definer : Principal

inductive Securable where
  | table (record : TableRecord)
  | view (record : ViewRecord)

def Securable.name : Securable → TableName
  | .table record => record.name
  | .view record => record.name

/-- `CatalogStore`, as the planner asks it. Records are found under their own names. -/
structure Catalog where
  table : TableName → Option TableRecord
  view : TableName → Option ViewRecord
  policy : TableRecord → Option Policy
  canBrowse : Principal → Securable → Bool
  maySelect : Principal → Securable → Bool
  table_name : ∀ name record, table name = some record → record.name = name
  view_name : ∀ name record, view name = some record → record.name = name

def Policy.applies (policy : Policy) (subject : Principal) : Bool :=
  (policy.rowFilter.isSome || !policy.columnMasks.isEmpty) &&
    policy.exempt.all fun identity => identity ∉ subject.identities

def Catalog.policyFor (catalog : Catalog) (record : TableRecord) (subject : Principal) :
    Option Policy :=
  (catalog.policy record).filter fun policy => policy.applies subject

def Policy.maskOf (policy : Policy) (column : String) : Option Mask :=
  (policy.columnMasks.reverse.find? fun mask => mask.column = column).map (·.mask)

inductive Projection where
  | plain (column : Column)
  | masked (column : Column) (mask : Mask) (salt : String)
  deriving DecidableEq, Repr

def Projection.column : Projection → Column
  | .plain column => column
  | .masked column _ _ => column

/-- One condition of a slice: the row filter with a reader's facts filled in, or a
comparison. -/
inductive Condition where
  | rowFilter (text : String) (subject : Principal)
  | compare (filter : Filter)
  deriving DecidableEq, Repr

/-- `(SELECT columns FROM source WHERE conditions) AS alias`. -/
structure Slice where
  columns : List Projection
  conditions : List Condition
  source : List String
  aliasName : String
  deriving DecidableEq, Repr

def TableName.parts (name : TableName) : List String := [name.1, name.2.1, name.2.2]

/-- A column as `wrap` selects it. -/
def projection (policy : Policy) (salt : String) (column : Column) : Projection :=
  match policy.maskOf column.name with
  | some mask => .masked column mask salt
  | none => .plain column

/-- The select list of `wrap`. -/
def projections (policy : Policy) (record : TableRecord) (salt : String) : List Projection :=
  record.columns.map (projection policy salt)

/-- The row filter of `wrap`. -/
def filterOf (policy : Policy) (subject : Principal) : List Condition :=
  (policy.rowFilter.map fun text => Condition.rowFilter text subject).toList

/-- The comparisons the reader wrote that `wrap` repeats: those on columns of the
table that are not masked. -/
def repeated (policy : Policy) (record : TableRecord) (pushable : List Filter) : List Condition :=
  pushable.filterMap fun filter =>
    match policy.maskOf filter.column with
    | some _ => none
    | none =>
      (record.columns.find? fun column => column.name = filter.column).map fun column =>
        .compare { filter with column := column.name }

def wrap (policy : Policy) (record : TableRecord) (subject : Principal) (aliasName : String)
    (pushable : List Filter) (salt : String) : Slice where
  columns := projections policy record salt
  conditions := filterOf policy subject ++ repeated policy record pushable
  source := TableName.parts record.name
  aliasName := aliasName

abbrev Row (V : Type) := String → Option V

/-- What a name stands for in a signed statement: the rows of a ticket's files, or
what a definition of the statement means. -/
inductive Bound (V M : Type) where
  | rows (rows : List (Row V))
  | defined (meaning : M)

structure Engine (V M : Type) where
  passes : String → Principal → Row V → Bool
  compare : Filter → Option V → Bool
  mask : Column → Mask → String → Row V → Option V
  /-- A name under an alias. -/
  table : String → Bound V M → M
  /-- A slice of something that is not a table. -/
  slice : Slice → M → M
  /-- A name that stands for nothing. -/
  unknown : List String → M
  recursive : (Bound V M → M) → M

namespace Engine

variable {V M : Type} (engine : Engine V M)

def holds (row : Row V) : Condition → Bool
  | .rowFilter text subject => engine.passes text subject row
  | .compare filter => engine.compare filter (row filter.column)

def value (row : Row V) : Projection → Option V
  | .plain column => row column.name
  | .masked column mask salt => engine.mask column mask salt row

def project (columns : List Projection) (row : Row V) : Row V := fun name =>
  (columns.find? fun projection => projection.column.name = name).bind (engine.value row)

def select (columns : List Projection) (conditions : List Condition) (rows : List (Row V)) :
    List (Row V) :=
  (rows.filter fun row => conditions.all (engine.holds row)).map (engine.project columns)

/-- What a reader under a policy may see of a table's rows: those that pass the row
filter, with the masked columns replaced. -/
def visible (policy : Policy) (record : TableRecord) (subject : Principal) (salt : String)
    (rows : List (Row V)) : List (Row V) :=
  engine.select (projections policy record salt) (filterOf policy subject) rows

end Engine

theorem projection_column (policy : Policy) (salt : String) (column : Column) :
    (projection policy salt column).column = column := by
  unfold projection
  cases policy.maskOf column.name with
  | none | some mask => rfl

variable {V M : Type} {policy : Policy} {record : TableRecord} {salt : String}

theorem Engine.project_plain (engine : Engine V M) {column : Column}
    (hcolumn : (record.columns.find? fun other => other.name = column.name) = some column)
    (hplain : policy.maskOf column.name = none) (row : Row V) :
    engine.project (projections policy record salt) row column.name = row column.name := by
  have hfound : projection policy salt column = .plain column := by
    unfold projection
    rw [hplain]
  unfold project projections
  rw [List.find?_map]
  simp only [comp_def, projection_column, hcolumn, Option.map_some, Option.bind_some,
    hfound]
  rfl

theorem Engine.repeated_project (engine : Engine V M) {pushable : List Filter} (row : Row V) :
    ∀ condition ∈ repeated policy record pushable,
      engine.holds (engine.project (projections policy record salt) row) condition =
        engine.holds row condition := by
  intro condition hmem
  obtain ⟨filter, _, hfilter⟩ := List.mem_filterMap.mp hmem
  cases hmask : policy.maskOf filter.column with
  | some mask => simp [hmask] at hfilter
  | none =>
    rw [hmask] at hfilter
    obtain ⟨column, hcolumn, rfl⟩ := Option.map_eq_some_iff.mp hfilter
    have hname : column.name = filter.column := by
      simpa using List.find?_some hcolumn
    rw [← hname] at hcolumn hmask
    simp only [Engine.holds]
    rw [engine.project_plain hcolumn hmask]

theorem Engine.select_wrap (engine : Engine V M) (policy : Policy) (record : TableRecord)
    (subject : Principal) (aliasName : String) (pushable : List Filter) (salt : String)
    (rows : List (Row V)) :
    engine.select (wrap policy record subject aliasName pushable salt).columns
        (wrap policy record subject aliasName pushable salt).conditions rows =
      (engine.visible policy record subject salt rows).filter fun row =>
        (repeated policy record pushable).all (engine.holds row) := by
  unfold visible select
  rw [List.filter_map, List.filter_filter]
  congr 1
  apply List.filter_congr
  intro row _
  simp only [wrap, List.all_append, comp_apply]
  rw [Bool.and_comm]
  congr 1
  rw [Bool.eq_iff_iff, List.all_eq_true, List.all_eq_true]
  constructor
  · intro h condition hmem
    rw [engine.repeated_project row condition hmem]
    exact h condition hmem
  · intro h condition hmem
    rw [← engine.repeated_project row condition hmem]
    exact h condition hmem

end Substrate.Sql
