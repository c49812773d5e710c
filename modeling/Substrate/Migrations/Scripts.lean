import Substrate.Lib.Resumable
import Substrate.Lib.Table

/-!
Migrations (`stores/database.py`), with the scripts of every component as shipped, in both
dialects. A script is a list of statements, which the database runs in order and outside
the transaction that records the version. Of a schema only the names are kept: the columns
of each table, and what else was made.
-/

namespace Substrate.Migrations

open Lib

inductive Dialect where
  | sqlite
  | postgresql
  deriving DecidableEq, Repr

/-- What a statement makes besides tables and columns. A column whose `NOT NULL` was dropped
counts as such an object. -/
inductive Object where
  | index (name : String)
  | trigger (name : String)
  | virtualTable (name : String)
  | extension (name : String)
  | nullable (table column : String)
  deriving DecidableEq, Repr

structure Schema where
  tables : Table String (List String)
  objects : List Object

def Schema.empty : Schema := ⟨.empty, []⟩

/-- `guarded` is `IF NOT EXISTS`, or `IF EXISTS` of a column that goes. Tables and objects
are always guarded. -/
inductive Statement where
  | createTable (table : String) (columns : List String)
  | ensure (object : Object) (on : Option (String × List String))
  | addColumn (table column : String) (guarded : Bool)
  | dropColumn (table column : String) (guarded : Bool)
  | update (table : String) (columns : List String)
  deriving DecidableEq, Repr

abbrev Script := List Statement

def Schema.hasColumns (s : Schema) (table : String) (columns : List String) : Bool :=
  (s.tables.get? table).any fun present => columns.all fun column => column ∈ present

/-- There is none if the statement fails. -/
def Statement.exec (s : Schema) : Statement → Option Schema
  | .createTable table columns => some { s with tables := s.tables.insert table columns }
  | .ensure object on =>
    if object ∈ s.objects then some s
    else if on.all fun on => s.hasColumns on.1 on.2 then
      some { s with objects := s.objects ++ [object] }
    else none
  | .addColumn table column guarded =>
    match s.tables.get? table with
    | none => none
    | some columns =>
      if column ∈ columns then if guarded then some s else none
      else some { s with tables := s.tables.modify table fun present => present ++ [column] }
  | .dropColumn table column guarded =>
    match s.tables.get? table with
    | none => none
    | some columns =>
      if column ∉ columns then if guarded then some s else none
      else
        some { s with
          tables := s.tables.modify table fun present => present.filter fun c => c ≠ column }
  | .update table columns => if s.hasColumns table columns then some s else none

structure Database where
  schema : Schema
  recorded : List Nat

inductive Action where
  | run (statement : Statement)
  | record (version : Nat)

/-- A version is recorded `ON CONFLICT DO NOTHING`. -/
def exec : Action → Database → Option Database
  | .run statement, db => (statement.exec db.schema).map fun schema => { db with schema }
  | .record version, db =>
    some (if version ∈ db.recorded then db
      else { db with recorded := db.recorded ++ [version] })

def actions : Nat → List Script → List Action
  | _, [] => []
  | version, script :: scripts =>
    script.map .run ++ .record version :: actions (version + 1) scripts

def applied (db : Database) : Nat := db.recorded.foldl max 0

def remaining (scripts : List Script) (db : Database) : List Action :=
  actions (applied db + 1) (scripts.drop (applied db))

/-- `migrate`. There is none if it raises. -/
def migrate (scripts : List Script) (db : Database) : Option Database :=
  if applied db > scripts.length then none else play exec (remaining scripts db) db

/-- `CREATE INDEX IF NOT EXISTS`, with the columns its condition reads. -/
def createIndex (name table : String) (columns : List String) : Statement :=
  .ensure (.index name) (some (table, columns))

/-- `textsearch.ddl`. -/
def searchable (dialect : Dialect) (index table column : String) : Script :=
  match dialect with
  | .postgresql => [
      .addColumn table "tsv" true,
      createIndex (index ++ "_tsv_idx") table ["tsv"]]
  | .sqlite => [
      .ensure (.virtualTable index) none,
      .ensure (.trigger (index ++ "_insert")) (some (table, [])),
      .ensure (.trigger (index ++ "_delete")) (some (table, [])),
      .ensure (.trigger (index ++ "_update")) (some (table, [column]))]

def layout : List Script := [[.createTable "substrate_info" ["key", "value"]]]

def memorySchema (dialect : Dialect) : Script :=
  [.createTable "memory_records" ["seq", "tenant_id", "id", "user_id", "agent_id", "session_id",
      "category", "status", "text", "record_json", "last_accessed_at", "access_count",
      "created_at"],
    createIndex "memory_records_owner_idx" "memory_records" ["tenant_id", "user_id"]] ++
  searchable dialect "memory_fts" "memory_records" "text" ++
  [.createTable "session_state" ["session_id", "state_json", "updated_at"]]

def vectorSchema (dialect : Dialect) : Script :=
  (if dialect = .postgresql then [.ensure (.extension "vector") none] else []) ++
  [.createTable "vector_docs" ["seq", "collection", "id", "text", "document_json",
      "metadata_json", "embedding", "dims", "norm"]] ++
  searchable dialect "vector_fts" "vector_docs" "text"

def spacesSchema (dialect : Dialect) : Script :=
  .createTable "vector_spaces" ["collection", "space", "dims"] ::
  (if dialect = .postgresql then
    [.ensure (.nullable "vector_docs" "embedding") (some ("vector_docs", ["embedding"]))]
  else [])

def files : List Script :=
  [[.createTable "file_objects" ["seq", "key", "tenant_id", "blob", "size", "content_type",
      "mtime"],
    createIndex "file_objects_tenant_idx" "file_objects" ["tenant_id"]]]

def graph : List Script :=
  [[.createTable "graph_entities" ["seq", "namespace", "id", "label", "name", "properties_json"],
    createIndex "graph_entities_id_idx" "graph_entities" ["id"],
    .createTable "graph_relationships" ["seq", "namespace", "id", "source_id", "target_id",
      "type", "properties_json"],
    createIndex "graph_relationships_source_idx" "graph_relationships" ["source_id"],
    createIndex "graph_relationships_target_idx" "graph_relationships" ["target_id"]]]

def threads : List Script :=
  [[.createTable "thread_nodes" ["id", "session_id", "parent_id", "run_id", "payload_json",
      "workspace_snapshot_id", "created_at"],
    createIndex "thread_nodes_session_idx" "thread_nodes" ["session_id"],
    .createTable "thread_branches" ["session_id", "id", "name", "head_message_id",
      "forked_from_message_id", "version", "created_at"],
    .createTable "thread_checkpoints" ["id", "session_id", "anchor_message_id", "summary",
      "state_json", "parent_checkpoint_id", "created_at"],
    createIndex "thread_checkpoints_session_idx" "thread_checkpoints" ["session_id"]]]

def tasks : List Script :=
  [[.createTable "task_boards" ["seq", "id", "conversation_id", "agent_id", "agent_label",
      "parent_agent_id", "branch_id", "max_retries", "created_at"],
    .createTable "task_items" ["seq", "id", "board_id", "title", "status", "position",
      "retry_count", "note"],
    createIndex "task_items_board_idx" "task_items" ["board_id"]]]

def workspace : List Script :=
  [[.createTable "workspace_snapshots" ["seq", "id", "session_id", "branch_id", "created_at",
      "snapshot_json"],
    createIndex "workspace_snapshots_session_idx" "workspace_snapshots" ["session_id"],
    .createTable "workspace_heads" ["session_id", "branch_id", "snapshot_id"]]]

def librarySchema (dialect : Dialect) : Script :=
  [.createTable "library_documents" ["seq", "collection", "document", "title", "filename",
      "resource", "engine", "pages", "sections", "images", "needs_ocr", "sha256", "meta_json",
      "added_at"],
    .createTable "library_sections" ["seq", "collection", "document", "position", "title",
      "heading_path", "first_page", "last_page", "tokens", "text"]] ++
  searchable dialect "library_sections_fts" "library_sections" "text" ++
  [.createTable "library_images" ["seq", "collection", "document", "image", "page", "label",
      "caption", "media_type"]]

def enrichmentSchema (dialect : Dialect) : Script :=
  [.createTable "library_enrichment" ["seq", "collection", "document", "position",
      "description"]] ++
  searchable dialect "library_enrichment_fts" "library_enrichment" "description" ++
  [.createTable "library_enrichment_state" ["seq", "collection", "document", "state",
      "enricher", "version", "attempts", "error", "input_tokens", "output_tokens", "cost_usd",
      "updated_at"],
    .createTable "library_topics" ["seq", "collection", "document", "topic"]]

/-- `_SCHEMA_V1`. -/
def runtimeV1 : Script :=
  [.createTable "rt_runs" ["run_id", "agent", "tenant", "thread_id", "parent_run_id", "tree_id",
      "status", "priority", "epoch", "attempt", "retry_count", "retry_policy", "worker_id",
      "lease_expires_at", "wake_json", "wake_at", "deadline", "cancel_requested",
      "supervision_json", "trace", "recipe_json", "enqueued_at", "started_at", "terminated_at",
      "result_json"],
    createIndex "rt_runs_claim_idx" "rt_runs" ["priority", "enqueued_at", "status"],
    createIndex "rt_runs_timer_idx" "rt_runs" ["wake_at", "status"],
    createIndex "rt_runs_lease_idx" "rt_runs" ["lease_expires_at", "status"],
    createIndex "rt_runs_agent_idx" "rt_runs" ["agent", "status"],
    createIndex "rt_runs_parent_idx" "rt_runs" ["parent_run_id"],
    createIndex "rt_runs_tree_idx" "rt_runs" ["tree_id", "status"],
    createIndex "rt_runs_tenant_idx" "rt_runs" ["tenant"],
    createIndex "rt_runs_thread_single_flight" "rt_runs" ["thread_id", "status"],
    .createTable "rt_run_wake" ["run_id", "name"],
    createIndex "rt_run_wake_name_idx" "rt_run_wake" ["name"],
    .createTable "rt_events" ["run_id", "seq", "kind", "entry_json", "ephemeral", "dedup_key"],
    createIndex "rt_events_dedup_idx" "rt_events" ["run_id", "dedup_key"],
    .createTable "rt_inbox" ["id", "agent", "msg_id", "sender", "tenant", "msg_json", "attempts"],
    createIndex "rt_inbox_order_idx" "rt_inbox" ["agent", "sender", "id"],
    .createTable "rt_inbox_processed" ["agent", "msg_id", "at"],
    .createTable "rt_dead_letters" ["id", "agent", "msg_id", "tenant", "entry_json"],
    createIndex "rt_dead_letters_agent_idx" "rt_dead_letters" ["agent"],
    .createTable "rt_signals" ["id", "run_id", "name", "payload_json"],
    createIndex "rt_signals_idx" "rt_signals" ["run_id", "name", "id"],
    .createTable "rt_signal_claims" ["claim_id", "payload_json"],
    .createTable "rt_spawns" ["effect_id", "child_run_id"],
    .createTable "rt_spend" ["tree_id", "tokens", "cost_micros", "turns"],
    .createTable "rt_edges" ["topic", "follower"]]

/-- `_SCHEMA_CHANNELS`. -/
def schemaChannels : Script :=
  [.createTable "rt_channels" ["channel", "tenant", "breaker", "next_seq", "streak", "paused"],
    .createTable "rt_channel_members" ["channel", "member", "mode", "cursor"],
    .createTable "rt_accounts" ["account", "tokens", "cost_micros", "turns", "max_tokens",
      "max_cost_micros", "max_turns"],
    .createTable "rt_run_accounts" ["run_id", "account"],
    .createTable "rt_channel_entries" ["channel", "seq", "sender", "kind", "text",
      "mentions_json", "reply_to", "caused_by", "depth", "at"]]

def guard (dialect : Dialect) : Bool := dialect = .postgresql

def schemaDedup (dialect : Dialect) : Script :=
  [.addColumn "rt_channel_entries" "dedup_key" (guard dialect),
    createIndex "rt_channel_entries_dedup_idx" "rt_channel_entries" ["channel", "dedup_key"]]

def schemaEntryData (dialect : Dialect) : Script :=
  [.addColumn "rt_channel_entries" "data_json" (guard dialect)]

def schemaEngagement (dialect : Dialect) : Script :=
  [.addColumn "rt_channels" "engage_s" (guard dialect),
    .addColumn "rt_channel_members" "engaged_until" (guard dialect)]

def schemaChat (dialect : Dialect) : Script :=
  [.addColumn "rt_channel_entries" "id" (guard dialect),
    .addColumn "rt_channel_entries" "cause_seq" (guard dialect),
    .addColumn "rt_channel_entries" "edited_at" (guard dialect),
    .addColumn "rt_channel_entries" "deleted_at" (guard dialect),
    .update "rt_channel_entries" ["id"],
    createIndex "rt_channel_entries_id_idx" "rt_channel_entries" ["id"],
    .addColumn "rt_channel_members" "kind" (guard dialect),
    .addColumn "rt_channel_members" "inbox" (guard dialect),
    .update "rt_channel_members" ["inbox", "member"],
    .addColumn "rt_channel_members" "delivered" (guard dialect),
    .addColumn "rt_channel_members" "joined_seq" (guard dialect),
    .addColumn "rt_channel_members" "exhausted_noticed" (guard dialect),
    .createTable "rt_channel_reactions" ["channel", "seq", "participant", "emoji", "marker_seq"],
    .dropColumn "rt_channels" "streak" (guard dialect)]

inductive Component where
  | store
  | memory
  | vectors
  | files
  | graph
  | threads
  | tasks
  | workspace
  | library
  | runtime
  deriving DecidableEq, Repr

def scripts (dialect : Dialect) : Component → List Script
  | .store => layout
  | .memory => [memorySchema dialect]
  | .vectors => [vectorSchema dialect, spacesSchema dialect]
  | .files => Migrations.files
  | .graph => Migrations.graph
  | .threads => Migrations.threads
  | .tasks => Migrations.tasks
  | .workspace => Migrations.workspace
  | .library => [librarySchema dialect, enrichmentSchema dialect]
  | .runtime => [runtimeV1, schemaChannels, schemaDedup dialect, schemaEntryData dialect,
      schemaEngagement dialect, schemaChat dialect]

end Substrate.Migrations
