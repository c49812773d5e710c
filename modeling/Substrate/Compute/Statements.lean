import Substrate.Compute.Results
import Substrate.Lib.Arrays
import Substrate.Sql.Planner

/-!
From a planned statement to its bytes: the files of each table and the signed ticket
(`tables/iceberg.py`, `sql/planner.py`), and what a worker makes of a ticket
(`compute/service.py`). Plans, projections and results are remembered, each under a key of
its own.
-/

namespace Substrate.Compute

open Lib Sql Json

structure Field (τ : Type) where
  id : Nat
  name : String
  kind : τ
  deriving DecidableEq, Repr

abbrev Schema (τ : Type) := List (Field τ)

structure Metadata (τ : Type) where
  schema : Schema τ
  snapshot : Option Nat
  deriving DecidableEq, Repr

structure DataFile where
  path : String
  size : Nat
  rows : Nat
  deriving DecidableEq, Repr

/-- A file to scan, and whether rows of it are deleted by other files. -/
structure Task where
  file : DataFile
  deletes : Bool
  deriving DecidableEq, Repr

abbrev Columns := List (String × String)

structure ScanPlan where
  snapshot : Option Nat
  files : List DataFile
  columns : Columns
  totalFiles : Nat
  deriving DecidableEq, Repr

structure Predicate where
  operator : Operator
  field : String
  values : List Literal
  deriving DecidableEq, Repr

/-- What is not the program's own. `tasks` is what a scan of a snapshot with a schema
finds; `run` is what DuckDB streams of a statement over views. -/
structure Outside (τ γ δ : Type) where
  lower : String → String
  coerce : Literal → τ → Option Literal
  binds : Schema τ → Predicate → Bool
  repr : List Predicate → String
  duckdbType : τ → String
  tasks : Nat → Schema τ → List Predicate → List Task
  totalDataFiles : Nat → Option Nat
  salt : String
  findAll : Planned → List Nat
  pushed : Planned → Source → List Filter
  render : Planned → String
  cacheable : Planned → Bool
  sha1 : Text → δ
  sha256 : Text → δ
  present : List String → Except Problem Columns
  run : γ → String → List (String × String) → Except Problem (List Bytes × Bytes)

variable {τ γ δ : Type} [DecidableEq δ] (out : Outside τ γ δ)

structure PlanKey where
  name : TableName
  snapshot : Option Nat
  predicates : String
  deriving DecidableEq, Repr

structure CachedPlan (τ : Type) where
  plan : ScanPlan
  made : Schema τ
  deriving DecidableEq, Repr

/-- `TableService`. -/
structure Service (τ : Type) where
  tables : TableName → Option (Nat × Metadata τ)
  plans : Table PlanKey (CachedPlan τ)

def Service.new : Service τ := ⟨fun _ => none, Table.empty⟩

/-- `METADATA_TTL_SECONDS`. -/
def metadataTtl : Nat := 1000

/-- `load`, without `fresh`. -/
def Service.load (service : Service τ) (tables : TableName → Option (Metadata τ))
    (name : TableName) (now : Nat) : Except Problem (Metadata τ) × Service τ :=
  let reload : Except Problem (Metadata τ) × Service τ :=
    match tables name with
    | none =>
      (.error ⟨409, "table-metadata-missing", "The table's Iceberg metadata is missing"⟩, service)
    | some m => (.ok m, { service with tables := Function.update service.tables name (some (now, m)) })
  match service.tables name with
  | some (loadedAt, m) => if now < loadedAt + metadataTtl then (.ok m, service) else reload
  | none => reload

def Service.loaded (service : Service τ) (tables : TableName → Option (Metadata τ)) (now : Nat)
    (name : TableName) : Option (Metadata τ) :=
  match service.tables name with
  | some (loadedAt, m) => if now < loadedAt + metadataTtl then some m else tables name
  | none => tables name

/-- One round of the loop over the filters, in `plan`. -/
def Outside.predicate (schema : Schema τ) (filter : Filter) : Option Predicate := do
  let field ← schema.reverse.find? fun f => out.lower f.name = out.lower filter.column
  let values ← filter.values.mapM fun v => out.coerce v field.kind
  let predicate : Predicate :=
    ⟨filter.operator, field.name, if filter.operator = .in_ then values else values.take 1⟩
  if out.binds schema predicate then some predicate else none

def Outside.predicates (schema : Schema τ) (filters : List Filter) : List Predicate :=
  filters.filterMap (out.predicate schema)

def Outside.columns (schema : Schema τ) : Columns :=
  schema.map fun f => (f.name, out.duckdbType f.kind)

/-- What `plan` makes of a snapshot, a schema and predicates. -/
def Outside.scan (snapshot : Option Nat) (schema : Schema τ) (predicates : List Predicate) :
    Except Problem ScanPlan :=
  match snapshot with
  | none => .ok ⟨none, [], out.columns schema, 0⟩
  | some id =>
    let tasks := out.tasks id schema predicates
    if tasks.any Task.deletes then
      .error ⟨501, "unsupported-table-state", "Tables with row-level deletes are not supported yet"⟩
    else
      .ok ⟨some id, tasks.map Task.file, out.columns schema,
        (out.totalDataFiles id).getD tasks.length⟩

def maxPlans : Nat := 4096

def Service.remember (service : Service τ) (key : PlanKey) (plan : CachedPlan τ) : Service τ :=
  let plans := if maxPlans < service.plans.rows.length then Table.empty else service.plans
  { service with plans := plans.set key (some plan) }

def Outside.planKey (name : TableName) (m : Metadata τ) (filters : List Filter) : PlanKey :=
  ⟨name, m.snapshot, out.repr (out.predicates m.schema filters)⟩

def Service.plan (service : Service τ) (tables : TableName → Option (Metadata τ))
    (name : TableName) (filters : List Filter) (now : Nat) :
    Except Problem ScanPlan × Service τ :=
  match service.load tables name now with
  | (.error e, service) => (.error e, service)
  | (.ok m, service) =>
    match service.plans.get? (out.planKey name m filters) with
    | some cached => (.ok cached.plan, service)
    | none =>
      match out.scan m.snapshot m.schema (out.predicates m.schema filters) with
      | .error e => (.error e, service)
      | .ok plan => (.ok plan, service.remember (out.planKey name m filters) ⟨plan, m.schema⟩)

structure Request where
  principal : Principal
  sql : Statement
  defaultCatalog : String
  defaultSchema : String
  maxRows : Option Nat
  maxBytes : Nat
  query : Bool
  cache : Bool
  restrict : TableName → Option (List String)

structure TicketTable where
  aliasName : String
  table : String
  snapshot : Option Nat
  files : List String
  columns : Columns
  deriving DecidableEq, Repr

structure Claims (δ : Type) where
  sql : String
  tables : List TicketTable
  cache : Option δ
  maxBytes : Nat

/-- The table of a ticket that a plan gives, as far as it is wanted. -/
def ticketTable (aliasName : String) (name : TableName) (wanted : Option (List String))
    (plan : ScanPlan) : TicketTable :=
  let files := match wanted with
    | none => plan.files
    | some paths => plan.files.filter fun f => f.path ∈ paths
  ⟨aliasName, TableName.text name, plan.snapshot.filter fun id => id ≠ 0, files.map DataFile.path,
    plan.columns⟩

/-- The tables of a catalog that has names without dots, as the routes see to it. -/
def Plain (catalog : Catalog) : Prop := ∀ name record, catalog.table name = some record →
    ∀ part ∈ TableName.parts record.name, '.' ∉ part.toList

def recordsOf (catalog : Catalog) (request : Request) (tickets : List Ticket) :
    Option (List (Ticket × TableRecord)) :=
  tickets.mapM fun ticket =>
    (catalog.table
      (resolveName request.defaultCatalog request.defaultSchema ticket.source.parts)).map
        fun record => (ticket, record)

/-- The loop of `plan` over the references. -/
def Service.planTables (service : Service τ) (tables : TableName → Option (Metadata τ))
    (request : Request) (tree : Planned) (now : Nat) :
    List (Ticket × TableRecord) → Except Problem (List TicketTable) × Service τ
  | [] => (.ok [], service)
  | (ticket, record) :: rest =>
    match service.plan out tables record.name (out.pushed tree ticket.source) now with
    | (.error e, service) => (.error e, service)
    | (.ok plan, service) =>
      match service.planTables tables request tree now rest with
      | (.error e, service) => (.error e, service)
      | (.ok more, service) =>
        let wanted := request.restrict record.name
        (.ok (ticketTable ticket.name record.name wanted plan :: more), service)

/-- What `json.dumps` writes of a table for the digest. -/
def writeTable (table : TicketTable) : Text := array [encode (some table.aliasName.toList),
    array (table.columns.map fun c => array [encode (some c.1.toList), encode (some c.2.toList)]),
    array (table.files.map fun f => encode (some f.toList))]

def Outside.cacheKey (request : Request) (tree : Planned) (tables : List TicketTable) : Option δ :=
  if request.cache && request.query && out.cacheable tree then
    some (out.sha256 ((out.render tree).toList ++ array (tables.map writeTable)))
  else none

def maxStatement : Nat := 200000

def Outside.claims (request : Request) (tree : Planned) (tables : List TicketTable) :
    Except Problem (Claims δ) :=
  if maxStatement < (out.render tree).length then
    .error ⟨400, "invalid-request", "Statement is too large"⟩
  else
    .ok ⟨out.render tree, tables, out.cacheKey request tree tables, request.maxBytes⟩

/-- `Planner.plan`. -/
def Service.claims (service : Service τ) (catalog : Catalog)
    (tables : TableName → Option (Metadata τ)) (request : Request) (now : Nat) :
    Except Problem (Claims δ) × Service τ :=
  match Sql.plan catalog out.salt out.findAll request.principal request.sql request.defaultCatalog
    request.defaultSchema request.maxRows with
  | .error e => (.error e, service)
  | .ok signed =>
    match recordsOf catalog request signed.tickets with
    | none =>
      (.error ⟨500, "internal-error", "Planner lost track of a table reference"⟩, service)
    | some records =>
      match service.planTables out tables request signed.sql now records with
      | (.error e, service) => (.error e, service)
      | (.ok planned, service) => (out.claims request signed.sql planned, service)

structure ProjectionKey (δ : Type) where
  table : String
  snapshot : Option Nat
  files : δ
  deriving DecidableEq, Repr

/-- A projection that is remembered, and the columns it was made with. -/
structure CachedProjection where
  text : String
  made : Columns
  deriving DecidableEq, Repr

structure Worker (δ : Type) [DecidableEq δ] where
  projections : Table (ProjectionKey δ) CachedProjection
  results : ResultCache δ

/-- `quote`. -/
def quoteText (text : String) : String :=
  let mark := Char.ofNat 0x27
  String.ofList (mark :: (text.toList.flatMap fun c => if c = mark then [mark, mark] else [c]) ++ [mark])

def ident (name : String) : String := String.ofList
    (Json.quote :: (name.toList.flatMap fun c => if c = Json.quote then [c, c] else [c]) ++
      [Json.quote])

def nullColumn (column : String × String) : String :=
  let name := ident column.1
  let kind := column.2
  s!"CAST(NULL AS {kind}) AS {name}"

/-- The columns of `_projection`, given those that the files have. -/
def Outside.projected (found : Columns) (column : String × String) : String :=
  let name := ident column.1
  let kind := column.2
  match found.reverse.find? fun f => out.lower f.1 = out.lower column.1 with
  | none => nullColumn column
  | some f => if f.2 = kind then name else s!"CAST({name} AS {kind}) AS {name}"

/-- The text that `_projection` makes. -/
def Outside.projection (files : List String) (columns : Columns) : Except Problem String := do
  let found ← out.present files
  let list := ", ".intercalate (columns.map (out.projected found))
  let paths := ", ".intercalate (files.map quoteText)
  .ok s!"SELECT {list} FROM read_parquet([{paths}], union_by_name=true, hive_partitioning=false)"

def maxProjections : Nat := 1024

/-- The oldest rows go until `limit` are left. -/
def trim {κ α : Type} (limit : Nat) (t : Table κ α) : Table κ α :=
  ⟨t.rows.drop (t.rows.length - limit), t.nodup.sublist ((List.drop_sublist _ _).map _)⟩

def joined (files : List String) : Text := List.intercalate ['\n'] (files.map String.toList)

def Outside.projectionKey (table : TicketTable) : ProjectionKey δ :=
  ⟨table.table, table.snapshot, out.sha1 (joined table.files)⟩

namespace Worker

variable (worker : Worker δ)

def new (capacity entryLimit : Nat) : Worker δ := ⟨Table.empty, .new capacity entryLimit⟩

def projection (table : TicketTable) : Except Problem String × Worker δ :=
  match worker.projections.get? (out.projectionKey table) with
  | some cached => (.ok cached.text, worker)
  | none =>
    match out.projection table.files table.columns with
    | .error e => (.error e, worker)
    | .ok text =>
      let projections :=
        worker.projections.set (out.projectionKey table) (some ⟨text, table.columns⟩)
      (.ok text, { worker with projections := trim maxProjections projections })

def emptyView (columns : Columns) : String :=
  let list := ", ".intercalate (columns.map nullColumn)
  s!"SELECT {list} LIMIT 0"

/-- `_register`: the views of the tables. -/
def register (worker : Worker δ) : List TicketTable → Except Problem (List (String × String)) × Worker δ
  | [] => (.ok [], worker)
  | table :: rest =>
    let body :=
      if table.files = [] then (.ok (emptyView table.columns), worker)
      else worker.projection out table
    match body with
    | (.error e, worker) => (.error e, worker)
    | (.ok text, worker) =>
      match worker.register rest with
      | (.error e, worker) => (.error e, worker)
      | (.ok more, worker) => (.ok ((table.aliasName, text) :: more), worker)

end Worker

/-- The loop of `stream`. It says whether the chunks are still kept. -/
def send (maxBytes entryLimit : Nat) : List Bytes → Nat → Bool → Except Problem Bool
  | [], _, kept => .ok kept
  | chunk :: rest, sent, kept =>
    let sent := sent + chunk.length
    if maxBytes < sent then
      .error ⟨413, "result-too-large", "Result exceeds the byte limit; aggregate in SQL"⟩
    else send maxBytes entryLimit rest sent (kept && decide (sent ≤ entryLimit))

namespace Worker

variable (worker : Worker δ)

/-- What `execute` does without a remembered answer. -/
def compute (chance : γ) (claims : Claims δ) (now : Nat) : Except Problem Bytes × Worker δ :=
  match worker.register out claims.tables with
  | (.error e, worker) => (.error e, worker)
  | (.ok views, worker) =>
    match out.run chance claims.sql views with
    | .error e => (.error e, worker)
    | .ok (chunks, tail) =>
      let kept := claims.cache.isSome && worker.results.enabled
      match send claims.maxBytes worker.results.entryLimit chunks 0 kept with
      | .error e => (.error e, worker)
      | .ok kept =>
        let bytes := chunks.flatten ++ tail
        match claims.cache with
        | some key =>
          if kept then (.ok bytes, { worker with results := worker.results.put key bytes now })
          else (.ok bytes, worker)
        | none => (.ok bytes, worker)

def execute (chance : γ) (claims : Claims δ) (now : Nat) : Except Problem Bytes × Worker δ :=
  match claims.cache with
  | none => worker.compute out chance claims now
  | some key =>
    let looked := worker.results.get key now
    let worker := { worker with results := looked.2 }
    match looked.1 with
    | some hit =>
      if hit.length ≤ claims.maxBytes then (.ok hit, worker)
      else worker.compute out chance claims now
    | none => worker.compute out chance claims now

end Worker

end Substrate.Compute
