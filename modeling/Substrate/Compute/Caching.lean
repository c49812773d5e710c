import Substrate.Compute.Statements
import Substrate.Lib.Runs

/-!
Statements over tables that change, with everything that is remembered between them. As
long as no plan that is remembered was made with another schema, and no projection with
other columns, a statement answers as it does with empty caches.
-/

namespace Substrate.Compute

open Lib Sql Json List Function Option

variable {τ γ δ : Type} [DecidableEq δ]

section Direct

variable (out : Outside τ γ δ)

/-- The tables of a ticket, from the metadata alone. -/
def Outside.directTables (tables : TableName → Option (Metadata τ)) (request : Request)
    (tree : Planned) : List (Ticket × TableRecord) → Except Problem (List TicketTable)
  | [] => .ok []
  | (ticket, record) :: rest =>
    match tables record.name with
    | none => .error ⟨409, "table-metadata-missing", "The table's Iceberg metadata is missing"⟩
    | some m =>
      match out.scan m.snapshot m.schema
        (out.predicates m.schema (out.pushed tree ticket.source)) with
      | .error e => .error e
      | .ok plan =>
        match Outside.directTables tables request tree rest with
        | .error e => .error e
        | .ok more =>
          let wanted := request.restrict record.name
          .ok (ticketTable ticket.name record.name wanted plan :: more)

/-- What is signed, from the metadata alone. -/
def Outside.directClaims (catalog : Catalog) (tables : TableName → Option (Metadata τ))
    (request : Request) : Except Problem (Claims δ) :=
  match Sql.plan catalog out.salt out.findAll request.principal request.sql request.defaultCatalog
    request.defaultSchema request.maxRows with
  | .error e => .error e
  | .ok signed =>
    match recordsOf catalog request signed.tickets with
    | none => .error ⟨500, "internal-error", "Planner lost track of a table reference"⟩
    | some records =>
      match out.directTables tables request signed.sql records with
      | .error e => .error e
      | .ok planned => out.claims request signed.sql planned

def Outside.view (table : TicketTable) : Except Problem String :=
  if table.files = [] then .ok (Worker.emptyView table.columns)
  else out.projection table.files table.columns

/-- The views of the tables of a ticket. -/
def Outside.views : List TicketTable → Except Problem (List (String × String))
  | [] => .ok []
  | table :: rest =>
    match out.view table with
    | .error e => .error e
    | .ok text =>
      match Outside.views rest with
      | .error e => .error e
      | .ok more => .ok ((table.aliasName, text) :: more)

/-- The bytes that a ticket stands for. -/
def Outside.bytes (chance : γ) (claims : Claims δ) : Except Problem Bytes :=
  match out.views claims.tables with
  | .error e => .error e
  | .ok views =>
    match out.run chance claims.sql views with
    | .error e => .error e
    | .ok (chunks, tail) =>
      match send claims.maxBytes 0 chunks 0 false with
      | .error e => .error e
      | .ok _ => .ok (chunks.flatten ++ tail)

end Direct

structure World (τ δ : Type) [DecidableEq δ] where
  catalog : { catalog : Catalog // Plain catalog }
  tables : TableName → Option (Metadata τ)
  service : Service τ
  workers : Nat → Worker δ

/-- What happens. `elsewhere` is a change of a table that is not made through this
service. -/
inductive Action (τ γ : Type) where
  | statement (request : Request) (worker : Nat) (chance : γ) (now : Nat)
  | commit (name : TableName) (snapshot now : Nat)
  | alter (name : TableName) (schema : Schema τ) (now : Nat)
  | create (name : TableName) (schema : Schema τ)
  | drop (name : TableName)
  | elsewhere (name : TableName) (m : Option (Metadata τ))
  | setCatalog (catalog : { catalog : Catalog // Plain catalog })
  | restart
  | restartWorker (worker : Nat)

section World

variable (out : Outside τ γ δ)

/-- The answer to a statement, and what is remembered after it. -/
def answer (service : Service τ) (worker : Worker δ) (catalog : Catalog)
    (tables : TableName → Option (Metadata τ)) (request : Request) (chance : γ) (now : Nat) :
    Except Problem Bytes × Service τ × Worker δ :=
  match service.claims out catalog tables request now with
  | (.error e, service) => (.error e, service, worker)
  | (.ok claims, service) =>
    let done := worker.execute out chance claims now
    (done.1, service, done.2)

def World.reloaded (w : World τ δ) (name : TableName) (m : Metadata τ) (now : Nat) : World τ δ :=
  { w with
    tables := update w.tables name (some m)
    service := { w.service with tables := update w.service.tables name (some (now, m)) } }

def World.step : Action τ γ → World τ δ → Option (World τ δ)
  | .statement request worker chance now, w =>
    let done := answer out w.service (w.workers worker) w.catalog.1 w.tables request chance now
    some { w with
      service := done.2.1
      workers := update w.workers worker done.2.2 }
  | .commit name snapshot now, w =>
    (w.tables name).map fun m => w.reloaded name { m with snapshot := some snapshot } now
  | .alter name schema now, w =>
    (w.tables name).map fun m => w.reloaded name { m with schema := schema } now
  | .create name schema, w =>
    if w.tables name = none then
      some { w with tables := update w.tables name (some ⟨schema, none⟩) }
    else none
  | .drop name, w =>
    some { w with
      tables := update w.tables name none
      service := { w.service with tables := update w.service.tables name none } }
  | .elsewhere name m, w => some { w with tables := update w.tables name m }
  | .setCatalog catalog, w => some { w with catalog := catalog }
  | .restart, w => some { w with service := Service.new }
  | .restartWorker worker, w =>
    let old := (w.workers worker).results
    some { w with
      workers := update w.workers worker (Worker.new old.capacity old.entryLimit) }

def World.loaded (w : World τ δ) (now : Nat) : TableName → Option (Metadata τ) :=
  w.service.loaded w.tables now

/-- A table whose files can be told apart in a text of lines. -/
def TicketTable.Lined (table : TicketTable) : Prop := ∀ f ∈ table.files, '\n' ∉ f.toList

def Outside.Steady (sql : String) : Prop :=
  ∀ chance chance' views, out.run chance sql views = out.run chance' sql views

/-- What is asked of a statement: a remembered plan of one of its tables was made with the
table's schema, and a remembered projection with its columns. The paths of its files have
no line breaks, and it does not depend on chance if its answer may be remembered. -/
def Meets (w : World τ δ) : Action τ γ → Prop
  | .statement request worker _ now =>
    ∀ signed records, Sql.plan w.catalog.1 out.salt out.findAll request.principal request.sql
        request.defaultCatalog request.defaultSchema request.maxRows = .ok signed →
      recordsOf w.catalog.1 request signed.tickets = some records →
        (∀ entry ∈ records, ∀ m, w.loaded now entry.2.name = some m → ∀ c, w.service.plans.get?
              (out.planKey entry.2.name m (out.pushed signed.sql entry.1.source)) = some c →
            c.made = m.schema) ∧
        (∀ tables, out.directTables (w.loaded now) request signed.sql records = .ok tables →
          ∀ table ∈ tables, table.Lined ∧ ∀ c,
            (w.workers worker).projections.get? (out.projectionKey table) = some c →
              c.made = table.columns) ∧
        (out.cacheable signed.sql = true → out.Steady (out.render signed.sql))
  | _ => True

/-- A statement answers as it does with empty caches, over the metadata that it loads. -/
def Fine (m : Taken (World τ δ) (Action τ γ)) : Prop :=
  ∀ request worker chance now, m.act = .statement request worker chance now → ∀ capacity entryLimit,
      (answer out m.before.service (m.before.workers worker) m.before.catalog.1 m.before.tables
        request chance now).1 =
      (answer out Service.new (Worker.new capacity entryLimit) m.before.catalog.1
        (m.before.loaded now) request chance now).1

end World

section Plans

variable {out : Outside τ γ δ}

/-- Every plan that is remembered is a scan of its snapshot, with the schema beside it. -/
def Service.Sound (out : Outside τ γ δ) (service : Service τ) : Prop :=
  ∀ key c, service.plans.get? key = some c → ∃ predicates, key.predicates = out.repr predicates ∧
      out.scan key.snapshot c.made predicates = .ok c.plan

omit [DecidableEq δ] in
theorem sound_new : (Service.new : Service τ).Sound out := nofun

omit [DecidableEq δ] in
theorem load_spec (service : Service τ) (tables : TableName → Option (Metadata τ))
    (name : TableName) (now : Nat) :
    (service.load tables name now).2.plans = service.plans ∧
      (service.load tables name now).2.loaded tables now = service.loaded tables now ∧
      (service.load tables name now).1 =
        match service.loaded tables now name with
        | none => .error ⟨409, "table-metadata-missing", "The table's Iceberg metadata is missing"⟩
        | some m => .ok m := by
  have hreload : ∀ m, tables name = some m → service.loaded tables now name = some m →
      Service.loaded { service with tables := update service.tables name (some (now, m)) }
        tables now = service.loaded tables now := by
    intro m _ hloaded
    funext other
    by_cases hother : other = name
    · subst hother
      have hnow : now < now + metadataTtl := by
        unfold metadataTtl
        omega
      rw [hloaded]
      simp [Service.loaded, hnow]
    · simp [Service.loaded, update_of_ne hother]
  unfold Service.load
  cases hcached : service.tables name with
  | none =>
    have hloaded : service.loaded tables now name = tables name := by
      simp [Service.loaded, hcached]
    cases htable : tables name with
    | none => simp [hloaded, htable]
    | some m =>
      rw [hloaded, htable]
      exact ⟨rfl, hreload m htable (hloaded.trans htable), rfl⟩
  | some entry =>
    obtain ⟨loadedAt, m⟩ := entry
    by_cases hfresh : now < loadedAt + metadataTtl
    · have hloaded : service.loaded tables now name = some m := by
        simp [Service.loaded, hcached, hfresh]
      simp [hfresh, hloaded]
    · have hloaded : service.loaded tables now name = tables name := by
        simp [Service.loaded, hcached, hfresh]
      cases htable : tables name with
      | none => simp [hfresh, hloaded, htable]
      | some m' =>
        rw [hloaded, htable]
        simp only [if_neg hfresh]
        exact ⟨trivial, hreload m' htable (hloaded.trans htable), trivial⟩

theorem remember_get? {service : Service τ} {key k : PlanKey} {plan c : CachedPlan τ}
    (h : (service.remember key plan).plans.get? k = some c) :
    service.plans.get? k = some c ∨ k = key ∧ c = plan := by
  unfold Service.remember at h
  dsimp only at h
  rw [Table.get?_set] at h
  split at h
  · next hkey => exact .inr ⟨hkey, (Option.some.inj h).symm⟩
  · split at h
    · cases h
    · exact .inl h

omit [DecidableEq δ] in
theorem scan_columns {snapshot : Option Nat} {schema : Schema τ} {predicates : List Predicate}
    {plan : ScanPlan} (h : out.scan snapshot schema predicates = .ok plan) :
    plan.columns = out.columns schema := by
  unfold Outside.scan at h
  cases snapshot with
  | none =>
    cases h
    rfl
  | some id =>
    dsimp only at h
    split at h
    · cases h
    · cases h
      rfl

omit [DecidableEq δ] in
theorem plan_spec (hrepr : Function.Injective out.repr) {service : Service τ}
    (hsound : service.Sound out) (tables : TableName → Option (Metadata τ)) (name : TableName)
    (filters : List Filter) (now : Nat)
    (hfresh : ∀ m, service.loaded tables now name = some m →
      ∀ c, service.plans.get? (out.planKey name m filters) = some c → c.made = m.schema) :
    (service.plan out tables name filters now).1 =
        (match service.loaded tables now name with
        | none => .error ⟨409, "table-metadata-missing", "The table's Iceberg metadata is missing"⟩
        | some m => out.scan m.snapshot m.schema (out.predicates m.schema filters)) ∧
      (service.plan out tables name filters now).2.Sound out ∧
      (service.plan out tables name filters now).2.loaded tables now = service.loaded tables now ∧
      ∀ k c, (service.plan out tables name filters now).2.plans.get? k = some c →
        service.plans.get? k = some c ∨
          ∃ m, service.loaded tables now name = some m ∧ k = out.planKey name m filters ∧
            c.made = m.schema := by
  obtain ⟨hplans, hloaded, hresult⟩ := load_spec service tables name now
  unfold Service.plan
  generalize service.load tables name now = done at hplans hloaded hresult
  obtain ⟨result, after⟩ := done
  dsimp only at hplans hloaded hresult
  have hafter : after.Sound out := by
    intro k c hc
    rw [hplans] at hc
    exact hsound k c hc
  cases hm : service.loaded tables now name with
  | none =>
    rw [hm] at hresult
    subst hresult
    exact ⟨rfl, hafter, hloaded, fun k c hc => .inl (hplans ▸ hc)⟩
  | some m =>
    rw [hm] at hresult
    subst hresult
    dsimp only
    cases hcached : after.plans.get? (out.planKey name m filters) with
    | some c =>
      rw [hplans] at hcached
      obtain ⟨predicates, hkey, hscan⟩ := hsound _ c hcached
      have hsame : out.predicates m.schema filters = predicates := hrepr hkey
      refine ⟨?_, hafter, hloaded, fun k c hc => .inl (hplans ▸ hc)⟩
      rw [hfresh m hm c hcached, ← hsame] at hscan
      exact hscan.symm
    | none =>
      cases hscan : out.scan m.snapshot m.schema (out.predicates m.schema filters) with
      | error e => exact ⟨rfl, hafter, hloaded, fun k c hc => .inl (hplans ▸ hc)⟩
      | ok plan =>
        refine ⟨rfl, ?_, hloaded, ?_⟩
        · intro k c hc
          rcases remember_get? hc with hold | ⟨rfl, rfl⟩
          · exact hafter k c hold
          · exact ⟨_, rfl, hscan⟩
        · intro k c hc
          rcases remember_get? hc with hold | ⟨rfl, rfl⟩
          · rw [hplans] at hold
            exact .inl hold
          · exact .inr ⟨m, rfl, rfl, rfl⟩

/-- What is remembered of the tables of a statement was made with their schemas. -/
def Service.Current (out : Outside τ γ δ) (service : Service τ)
    (tables : TableName → Option (Metadata τ)) (tree : Planned) (now : Nat)
    (records : List (Ticket × TableRecord)) : Prop :=
  ∀ entry ∈ records, ∀ m, service.loaded tables now entry.2.name = some m →
    ∀ c, service.plans.get? (out.planKey entry.2.name m (out.pushed tree entry.1.source)) = some c →
      c.made = m.schema

omit [DecidableEq δ] in
theorem planTables_spec (hrepr : Function.Injective out.repr) {service : Service τ}
    (hsound : service.Sound out) (tables : TableName → Option (Metadata τ)) (request : Request)
    (tree : Planned) (now : Nat) (records : List (Ticket × TableRecord))
    (hcurrent : service.Current out tables tree now records) :
    (service.planTables out tables request tree now records).1 =
        out.directTables (service.loaded tables now) request tree records ∧
      (service.planTables out tables request tree now records).2.Sound out := by
  induction records generalizing service with
  | nil => exact ⟨rfl, hsound⟩
  | cons entry rest ih =>
    obtain ⟨ticket, record⟩ := entry
    obtain ⟨hresult, hafter, hloaded, hnew⟩ := plan_spec hrepr hsound tables record.name
      (out.pushed tree ticket.source) now
      fun m hm c hc => hcurrent (ticket, record) mem_cons_self m hm c hc
    unfold Service.planTables Outside.directTables
    generalize service.plan out tables record.name (out.pushed tree ticket.source) now = done
      at hresult hafter hloaded hnew
    obtain ⟨result, after⟩ := done
    dsimp only at hresult hafter hloaded hnew
    subst hresult
    have hrest : after.Current out tables tree now rest := by
      intro entry hentry m hm c hc
      rw [hloaded] at hm
      rcases hnew _ c hc with hold | ⟨m', hm', hkey, hmade⟩
      · exact hcurrent entry (mem_cons_of_mem _ hentry) m hm c hold
      · have hname : entry.2.name = record.name := congrArg PlanKey.name hkey
        rw [hname, hm'] at hm
        rw [hmade, Option.some.inj hm]
    obtain ⟨hmore, hlast⟩ := ih hafter hrest
    cases hm : service.loaded tables now record.name with
    | none => exact ⟨rfl, hafter⟩
    | some m =>
      dsimp only
      cases out.scan m.snapshot m.schema
        (out.predicates m.schema (out.pushed tree ticket.source)) with
      | error e => exact ⟨rfl, hafter⟩
      | ok plan =>
        dsimp only
        rw [← hloaded, ← hmore]
        generalize after.planTables out tables request tree now rest = done at hlast
        obtain ⟨more, last⟩ := done
        cases more with
        | error e | ok more => exact ⟨rfl, hlast⟩

end Plans

section Projections

variable {out : Outside τ γ δ}

variable {others : List String}

theorem parts_inj {names : List String} (hne : names ≠ []) (hne' : others ≠ []) (mark : Char)
    (h : ∀ name ∈ names, mark ∉ name.toList) (h' : ∀ name ∈ others, mark ∉ name.toList)
    (heq : List.intercalate [mark] (names.map String.toList) =
      List.intercalate [mark] (others.map String.toList)) : names = others := by
  have hsplit : ∀ {names : List String}, names ≠ [] → (∀ name ∈ names, mark ∉ name.toList) →
      (List.intercalate [mark] (names.map String.toList)).splitOn mark =
        names.map String.toList := by
    intro names hnames hfree
    refine splitOn_intercalate mark ?_ (by simpa using hnames)
    intro text htext
    obtain ⟨name, hname, rfl⟩ := mem_map.mp htext
    exact hfree name hname
  have hmap := congrArg (fun text : Text => text.splitOn mark) heq
  rw [hsplit hne h, hsplit hne' h'] at hmap
  exact (map_injective_iff.mpr fun _ _ => String.toList_inj.mp) hmap

theorem joined_inj {files : List String} (hne : files ≠ []) (hne' : others ≠ [])
    (h : ∀ f ∈ files, '\n' ∉ f.toList) (h' : ∀ f ∈ others, '\n' ∉ f.toList)
    (heq : joined files = joined others) : files = others :=
  parts_inj hne hne' '\n' h h' heq

/-- Every projection that is remembered is one of its files, onto the columns beside it. -/
def Worker.Sound (out : Outside τ γ δ) (worker : Worker δ) : Prop :=
  ∀ key c, worker.projections.get? key = some c →
    ∃ files, files ≠ [] ∧ (∀ f ∈ files, '\n' ∉ f.toList) ∧ key.files = out.sha1 (joined files) ∧
      out.projection files c.made = .ok c.text

theorem worker_sound_new (capacity entryLimit : Nat) :
    (Worker.new capacity entryLimit : Worker δ).Sound out := nofun

theorem trim_get? {κ α : Type} [DecidableEq κ] {limit : Nat} {t : Table κ α} {k : κ} {a : α}
    (h : (trim limit t).get? k = some a) : t.get? k = some a := by
  rw [← Table.mem_rows_iff] at h ⊢
  exact mem_of_mem_drop h

theorem projection_spec (hsha : Function.Injective out.sha1) {worker : Worker δ}
    (hsound : worker.Sound out) {table : TicketTable} (hlined : table.Lined)
    (hfiles : table.files ≠ [])
    (hfresh : ∀ c, worker.projections.get? (out.projectionKey table) = some c →
      c.made = table.columns) :
    (worker.projection out table).1 = out.projection table.files table.columns ∧
      (worker.projection out table).2.Sound out ∧
      (worker.projection out table).2.results = worker.results ∧
      ∀ k c, (worker.projection out table).2.projections.get? k = some c →
        worker.projections.get? k = some c ∨
          k = out.projectionKey table ∧ c.made = table.columns := by
  unfold Worker.projection
  cases hcached : worker.projections.get? (out.projectionKey table) with
  | some c =>
    obtain ⟨files, hne, hlines, hkey, hprojection⟩ := hsound _ c hcached
    have hsame : table.files = files := joined_inj hfiles hne hlined hlines (hsha hkey)
    refine ⟨?_, hsound, rfl, fun k c hc => .inl hc⟩
    rw [hfresh c hcached, ← hsame] at hprojection
    exact hprojection.symm
  | none =>
    cases htext : out.projection table.files table.columns with
    | error e => exact ⟨rfl, hsound, rfl, fun k c hc => .inl hc⟩
    | ok text =>
      have hnew : ∀ k c, (trim maxProjections (worker.projections.set
          (out.projectionKey table) (some ⟨text, table.columns⟩))).get? k = some c →
          worker.projections.get? k = some c ∨
            k = out.projectionKey table ∧ c = ⟨text, table.columns⟩ := by
        intro k c hc
        have hset := trim_get? hc
        rw [Table.get?_set] at hset
        split at hset
        · next hkey => exact .inr ⟨hkey, (Option.some.inj hset).symm⟩
        · exact .inl hset
      refine ⟨rfl, ?_, rfl, ?_⟩
      · intro k c hc
        rcases hnew k c hc with hold | ⟨rfl, rfl⟩
        · exact hsound k c hold
        · exact ⟨table.files, hfiles, hlined, rfl, htext⟩
      · intro k c hc
        rcases hnew k c hc with hold | ⟨rfl, rfl⟩
        · exact .inl hold
        · exact .inr ⟨rfl, rfl⟩

/-- What is remembered of the tables of a ticket was made with their columns, and tables
with one key have the same columns. -/
structure Worker.Current (out : Outside τ γ δ) (worker : Worker δ) (tables : List TicketTable) :
    Prop where
  made : ∀ table ∈ tables, ∀ c,
    worker.projections.get? (out.projectionKey table) = some c → c.made = table.columns
  alike : ∀ table ∈ tables, ∀ table' ∈ tables,
    out.projectionKey table = out.projectionKey table' → table.columns = table'.columns

theorem register_spec (hsha : Function.Injective out.sha1) {worker : Worker δ}
    (hsound : worker.Sound out) {tables : List TicketTable}
    (hlined : ∀ table ∈ tables, table.Lined) (hcurrent : worker.Current out tables) :
    (worker.register out tables).1 = out.views tables ∧ (worker.register out tables).2.Sound out ∧
      (worker.register out tables).2.results = worker.results := by
  induction tables generalizing worker with
  | nil => exact ⟨rfl, hsound, rfl⟩
  | cons table rest ih =>
    have hbody : ∃ body : Except Problem String × Worker δ,
        (if table.files = [] then (.ok (Worker.emptyView table.columns), worker)
          else worker.projection out table) = body ∧
        body.1 = out.view table ∧ body.2.Sound out ∧ body.2.results = worker.results ∧
        ∀ k c, body.2.projections.get? k = some c → worker.projections.get? k = some c ∨
            k = out.projectionKey table ∧ c.made = table.columns := by
      refine ⟨_, rfl, ?_⟩
      unfold Outside.view
      by_cases hfiles : table.files = []
      · simp only [if_pos hfiles]
        exact ⟨trivial, hsound, trivial, fun k c hc => .inl hc⟩
      · simp only [if_neg hfiles]
        exact projection_spec hsha hsound (hlined table mem_cons_self) hfiles
          fun c hc => hcurrent.made table mem_cons_self c hc
    obtain ⟨body, heq, hview, hafter, hresults, hnew⟩ := hbody
    unfold Worker.register Outside.views
    rw [heq, ← hview]
    obtain ⟨result, after⟩ := body
    dsimp only at hafter hresults hnew ⊢
    have hrest : after.Current out rest := by
      refine ⟨fun t ht c hc => ?_, fun t ht t' ht' =>
        hcurrent.alike t (mem_cons_of_mem _ ht) t' (mem_cons_of_mem _ ht')⟩
      rcases hnew _ c hc with hold | ⟨hkey, hmade⟩
      · exact hcurrent.made t (mem_cons_of_mem _ ht) c hold
      · rw [hmade]
        exact (hcurrent.alike t (mem_cons_of_mem _ ht) table mem_cons_self hkey).symm
    obtain ⟨hmore, hlast, hkept⟩ := ih hafter (fun t ht => hlined t (mem_cons_of_mem _ ht)) hrest
    cases result with
    | error e => exact ⟨rfl, hafter, hresults⟩
    | ok text =>
      dsimp only
      rw [← hmore]
      generalize after.register out rest = done at hlast hkept
      obtain ⟨more, last⟩ := done
      dsimp only at hlast hkept ⊢
      cases more with
      | error e | ok more => exact ⟨rfl, hlast, hkept.trans hresults⟩

end Projections

section Digests

def TicketTable.covered (table : TicketTable) : String × Columns × List String :=
  (table.aliasName, table.columns, table.files)

theorem code_text : Code fun text : String => encode (some text.toList) :=
  code_encode.comp fun _ _ h => String.toList_inj.mp h

theorem code_table : Code fun t : String × Columns × List String =>
    array [encode (some t.1.toList),
      array (t.2.1.map fun c => array [encode (some c.1.toList), encode (some c.2.toList)]),
      array (t.2.2.map fun f => encode (some f.toList))] :=
  code_text.triple (code_text.pair code_text).array code_text.array

theorem nested_text (text : String) : Nested (encode (some text.toList)) := nested_encode _

theorem nested_table (table : TicketTable) : Nested (writeTable table) := by
  have hcolumn : ∀ c : String × String,
      Nested (array [encode (some c.1.toList), encode (some c.2.toList)]) := by
    intro c
    refine nested_array fun item hitem => ?_
    simp only [mem_cons, not_mem_nil, or_false] at hitem
    rcases hitem with rfl | rfl <;> exact nested_text _
  refine nested_array fun item hitem => ?_
  simp only [mem_cons, not_mem_nil, or_false] at hitem
  rcases hitem with rfl | rfl | rfl
  · exact nested_text _
  · refine nested_array fun item hitem => ?_
    obtain ⟨c, _, rfl⟩ := mem_map.mp hitem
    exact hcolumn c
  · refine nested_array fun item hitem => ?_
    obtain ⟨f, _, rfl⟩ := mem_map.mp hitem
    exact nested_text f

variable {tables tables' : List TicketTable}

theorem digested_inj {sql sql' : String} (h : sql.toList ++ array (tables.map writeTable) =
      sql'.toList ++ array (tables'.map writeTable)) :
    sql = sql' ∧ tables.map TicketTable.covered = tables'.map TicketTable.covered := by
  have hnested : ∀ tables : List TicketTable, ∀ item ∈ tables.map writeTable, Nested item := by
    intro tables item hitem
    obtain ⟨table, _, rfl⟩ := mem_map.mp hitem
    exact nested_table table
  obtain ⟨hsql, harray⟩ := append_array_inj (hnested tables) (hnested tables') h
  have hcovered : ∀ tables : List TicketTable, tables.map writeTable =
      (tables.map TicketTable.covered).map fun t : String × Columns × List String =>
        array [encode (some t.1.toList),
          array (t.2.1.map fun c => array [encode (some c.1.toList), encode (some c.2.toList)]),
          array (t.2.2.map fun f => encode (some f.toList))] := by
    intro tables
    rw [List.map_map]
    rfl
  rw [hcovered tables, hcovered tables'] at harray
  refine ⟨String.toList_inj.mp hsql, (code_table.array.inj _ _ [] [] ?_).1⟩
  rw [append_nil, append_nil]
  exact harray

omit [DecidableEq δ] in
theorem views_congr {out : Outside τ γ δ}
    (h : tables.map TicketTable.covered = tables'.map TicketTable.covered) :
    out.views tables = out.views tables' := by
  induction tables generalizing tables' with
  | nil =>
    cases tables' with
    | nil => rfl
    | cons t rest => cases h
  | cons table rest ih =>
    cases tables' with
    | nil => cases h
    | cons table' rest' =>
      obtain ⟨hhead, htail⟩ := List.cons.inj h
      obtain ⟨hname, hmore⟩ := Prod.mk.inj hhead
      obtain ⟨hcolumns, hfiles⟩ := Prod.mk.inj hmore
      unfold Outside.views Outside.view
      rw [ih htail, hname, hcolumns, hfiles]

end Digests

section Results

variable {out : Outside τ γ δ}

/-- The bytes of a key are those of a statement that does not depend on chance. -/
def Outside.Remembered (out : Outside τ γ δ) (key : δ) (bytes : Bytes) : Prop :=
  ∃ sql tables views, key = out.sha256 (String.toList sql ++ array (tables.map writeTable)) ∧
    out.views tables = .ok views ∧
    ∀ chance, ∃ chunks tail, out.run chance sql views = .ok (chunks, tail) ∧
      bytes = chunks.flatten ++ tail

/-- The key of an answer that may be remembered is that of its statement, which does not
depend on chance. -/
def Claims.Keyed (out : Outside τ γ δ) (claims : Claims δ) : Prop :=
  ∀ key, claims.cache = some key → out.Steady claims.sql ∧
    key = out.sha256 (claims.sql.toList ++ array (claims.tables.map writeTable))

theorem send_ok {maxBytes limit : Nat} {chunks : List Bytes} {sent : Nat} (kept : Bool)
    (h : sent + chunks.flatten.length ≤ maxBytes) :
    ∃ kept', send maxBytes limit chunks sent kept = .ok kept' := by
  induction chunks generalizing sent kept with
  | nil => exact ⟨kept, rfl⟩
  | cons chunk rest ih =>
    rw [flatten_cons, length_append] at h
    unfold send
    dsimp only
    rw [if_neg (by omega)]
    exact ih _ (by omega)

theorem send_congr (maxBytes limit limit' : Nat) (chunks : List Bytes) (sent : Nat)
    (kept kept' : Bool) :
    (∃ a b, send maxBytes limit chunks sent kept = .ok a ∧
        send maxBytes limit' chunks sent kept' = .ok b) ∨
      ∃ e, send maxBytes limit chunks sent kept = .error e ∧
        send maxBytes limit' chunks sent kept' = .error e := by
  induction chunks generalizing sent kept kept' with
  | nil => exact .inl ⟨kept, kept', rfl, rfl⟩
  | cons chunk rest ih =>
    unfold send
    dsimp only
    by_cases hmore : maxBytes < sent + chunk.length
    · rw [if_pos hmore, if_pos hmore]
      exact .inr ⟨_, rfl, rfl⟩
    · rw [if_neg hmore, if_neg hmore]
      exact ih _ _ _

theorem compute_spec (hsha : Function.Injective out.sha1)
    {worker : Worker δ} (hsound : worker.Sound out)
    (hright : worker.results.Right out.Remembered) {claims : Claims δ}
    (hkeyed : claims.Keyed out) (hlined : ∀ table ∈ claims.tables, table.Lined)
    (hcurrent : worker.Current out claims.tables) (chance : γ) (now : Nat) :
    (worker.compute out chance claims now).1 = out.bytes chance claims ∧
      (worker.compute out chance claims now).2.Sound out ∧
      (worker.compute out chance claims now).2.results.Right out.Remembered := by
  obtain ⟨hviews, hafter, hresults⟩ := register_spec hsha hsound hlined hcurrent
  unfold Worker.compute Outside.bytes
  rw [← hviews]
  generalize hdone : worker.register out claims.tables = done at hviews hafter hresults
  obtain ⟨result, after⟩ := done
  dsimp only at hviews hafter hresults ⊢
  rw [← hresults] at hright
  cases result with
  | error e => exact ⟨rfl, hafter, hright⟩
  | ok views =>
    dsimp only
    cases hrun : out.run chance claims.sql views with
    | error e => exact ⟨rfl, hafter, hright⟩
    | ok streamed =>
      obtain ⟨chunks, tail⟩ := streamed
      dsimp only
      rcases send_congr claims.maxBytes after.results.entryLimit 0 chunks 0
        (claims.cache.isSome && after.results.enabled) false with
        ⟨kept, b, hsend, hsend'⟩ | ⟨e, hsend, hsend'⟩
      · rw [hsend, hsend']
        dsimp only
        cases hkey : claims.cache with
        | none => exact ⟨rfl, hafter, hright⟩
        | some key =>
          dsimp only
          cases kept with
          | false => exact ⟨rfl, hafter, hright⟩
          | true =>
            refine ⟨rfl, hafter, hright.put ?_ now⟩
            obtain ⟨hsteady, hdigest⟩ := hkeyed key hkey
            refine ⟨claims.sql, claims.tables, views, hdigest, hviews.symm, ?_⟩
            intro other
            refine ⟨chunks, tail, ?_, rfl⟩
            rw [hsteady other chance]
            exact hrun
      · rw [hsend, hsend']
        exact ⟨rfl, hafter, hright⟩

theorem execute_spec (hsha : Function.Injective out.sha1) (hsha' : Function.Injective out.sha256)
    {worker : Worker δ} (hsound : worker.Sound out)
    (hright : worker.results.Right out.Remembered) {claims : Claims δ}
    (hkeyed : claims.Keyed out) (hlined : ∀ table ∈ claims.tables, table.Lined)
    (hcurrent : worker.Current out claims.tables) (chance : γ) (now : Nat) :
    (worker.execute out chance claims now).1 = out.bytes chance claims ∧
      (worker.execute out chance claims now).2.Sound out ∧
      (worker.execute out chance claims now).2.results.Right out.Remembered := by
  unfold Worker.execute
  cases hkey : claims.cache with
  | none => exact compute_spec hsha hsound hright hkeyed hlined hcurrent chance now
  | some key =>
    dsimp only
    have hlooked := hright.get key now
    let looked : Worker δ := { worker with results := (worker.results.get key now).2 }
    have hlookedSound : looked.Sound out := hsound
    have hcompute := compute_spec hsha hlookedSound hlooked hkeyed hlined
      ⟨hcurrent.made, hcurrent.alike⟩ chance now
    cases hhit : (worker.results.get key now).1 with
    | none => exact hcompute
    | some hit =>
      dsimp only
      by_cases hfits : hit.length ≤ claims.maxBytes
      · rw [if_pos hfits]
        refine ⟨?_, hsound, hlooked⟩
        obtain ⟨sql, tables, views, hdigest, hviews, hruns⟩ := hright.of_get hhit
        obtain ⟨_, hdigest'⟩ := hkeyed key hkey
        obtain ⟨hsame, hcovered⟩ := digested_inj (hsha' (hdigest'.symm.trans hdigest))
        obtain ⟨chunks, tail, hrun, hbytes⟩ := hruns chance
        unfold Outside.bytes
        rw [views_congr hcovered, hviews]
        dsimp only
        rw [hsame, hrun]
        dsimp only
        rw [hbytes, length_append] at hfits
        have hall : 0 + chunks.flatten.length ≤ claims.maxBytes := by omega
        obtain ⟨kept, hsend⟩ := send_ok false hall
        rw [hsend, hbytes]
      · rw [if_neg hfits]
        exact hcompute

end Results

section Tickets

variable {out : Outside τ γ δ}

theorem text_inj {name other : TableName} (h : ∀ part ∈ TableName.parts name, '.' ∉ part.toList)
    (h' : ∀ part ∈ TableName.parts other, '.' ∉ part.toList)
    (heq : TableName.text name = TableName.text other) : name = other := by
  have htext : ∀ name : TableName, (TableName.text name).toList =
      List.intercalate ['.'] ((TableName.parts name).map String.toList) := by
    intro name
    simp [TableName.text, TableName.parts, List.intercalate]
  have hparts : TableName.parts name = TableName.parts other := by
    refine parts_inj (cons_ne_nil _ _) (cons_ne_nil _ _) '.' h h' ?_
    rw [← htext, ← htext, heq]
  obtain ⟨c, s, t⟩ := name
  obtain ⟨c', s', t'⟩ := other
  simpa [TableName.parts] using hparts

omit [DecidableEq δ] in
theorem mem_directTables {tables : TableName → Option (Metadata τ)} {request : Request}
    {tree : Planned} {records : List (Ticket × TableRecord)} {planned : List TicketTable}
    (h : out.directTables tables request tree records = .ok planned) :
    ∀ table ∈ planned, ∃ entry ∈ records, ∃ m, tables entry.2.name = some m ∧
      table.table = TableName.text entry.2.name ∧ table.columns = out.columns m.schema := by
  induction records generalizing planned with
  | nil =>
    cases h
    nofun
  | cons entry rest ih =>
    obtain ⟨ticket, record⟩ := entry
    unfold Outside.directTables at h
    cases hm : tables record.name with
    | none =>
      rw [hm] at h
      cases h
    | some m =>
      rw [hm] at h
      dsimp only at h
      cases hscan : out.scan m.snapshot m.schema
        (out.predicates m.schema (out.pushed tree ticket.source)) with
      | error e =>
        rw [hscan] at h
        cases h
      | ok plan =>
        rw [hscan] at h
        dsimp only at h
        cases hrest : out.directTables tables request tree rest with
        | error e =>
          rw [hrest] at h
          cases h
        | ok more =>
          rw [hrest] at h
          cases h
          intro table htable
          rcases mem_cons.mp htable with rfl | hmore
          · refine ⟨(ticket, record), mem_cons_self, m, hm, rfl, ?_⟩
            exact scan_columns hscan
          · obtain ⟨entry, hentry, hrecord⟩ := ih hrest table hmore
            exact ⟨entry, mem_cons_of_mem _ hentry, hrecord⟩

end Tickets

section Answers

variable {out : Outside τ γ δ}

def Outside.directAnswer (out : Outside τ γ δ) (catalog : Catalog)
    (tables : TableName → Option (Metadata τ)) (request : Request) (chance : γ) :
    Except Problem Bytes :=
  match out.directClaims catalog tables request with
  | .error e => .error e
  | .ok claims => out.bytes chance claims

omit [DecidableEq δ] in
variable {request : Request} {catalog : Catalog}

omit [DecidableEq δ] in
theorem claims_keyed {tree : Planned} {tables : List TicketTable} {claims : Claims δ}
    (hsteady : out.cacheable tree = true → out.Steady (out.render tree))
    (h : out.claims request tree tables = .ok claims) :
    claims.Keyed out ∧ claims.tables = tables := by
  unfold Outside.claims at h
  split at h
  · cases h
  · cases h
    refine ⟨?_, rfl⟩
    intro key hkey
    dsimp only [Outside.cacheKey] at hkey ⊢
    split at hkey
    · next hcache =>
        have hcacheable : out.cacheable tree = true := by
          rw [Bool.and_eq_true] at hcache
          exact hcache.2
        exact ⟨hsteady hcacheable, (Option.some.inj hkey).symm⟩
    · cases hkey

omit [DecidableEq δ] in
theorem claims_spec (hrepr : Function.Injective out.repr) {service : Service τ}
    (hsound : service.Sound out) (catalog : Catalog) (tables : TableName → Option (Metadata τ))
    (request : Request) (now : Nat)
    (hcurrent : ∀ signed records,
      Sql.plan catalog out.salt out.findAll request.principal request.sql request.defaultCatalog
        request.defaultSchema request.maxRows = .ok signed →
      recordsOf catalog request signed.tickets = some records →
        service.Current out tables signed.sql now records) :
    (service.claims out catalog tables request now).1 =
        out.directClaims catalog (service.loaded tables now) request ∧
      (service.claims out catalog tables request now).2.Sound out := by
  unfold Service.claims Outside.directClaims
  cases hplan : Sql.plan catalog out.salt out.findAll request.principal request.sql
      request.defaultCatalog request.defaultSchema request.maxRows with
  | error e => exact ⟨rfl, hsound⟩
  | ok signed =>
    dsimp only
    cases hrecords : recordsOf catalog request signed.tickets with
    | none => exact ⟨rfl, hsound⟩
    | some records =>
      dsimp only
      obtain ⟨hresult, hafter⟩ := planTables_spec hrepr hsound tables request signed.sql now
        records (hcurrent signed records hplan hrecords)
      rw [← hresult]
      generalize service.planTables out tables request signed.sql now records = done at hafter
      obtain ⟨result, after⟩ := done
      cases result with
      | error e | ok planned => exact ⟨rfl, hafter⟩

omit [DecidableEq δ] in
theorem directClaims_ok {tables : TableName → Option (Metadata τ)} {claims : Claims δ}
    (h : out.directClaims catalog tables request = .ok claims) :
    ∃ signed records planned,
      Sql.plan catalog out.salt out.findAll request.principal request.sql request.defaultCatalog
        request.defaultSchema request.maxRows = .ok signed ∧
      recordsOf catalog request signed.tickets = some records ∧
      out.directTables tables request signed.sql records = .ok planned ∧
      out.claims request signed.sql planned = .ok claims := by
  unfold Outside.directClaims at h
  cases hplan : Sql.plan catalog out.salt out.findAll request.principal request.sql
      request.defaultCatalog request.defaultSchema request.maxRows with
  | error e =>
    rw [hplan] at h
    cases h
  | ok signed =>
    rw [hplan] at h
    dsimp only at h
    cases hrecords : recordsOf catalog request signed.tickets with
    | none =>
      rw [hrecords] at h
      cases h
    | some records =>
      rw [hrecords] at h
      dsimp only at h
      cases htables : out.directTables tables request signed.sql records with
      | error e =>
        rw [htables] at h
        cases h
      | ok planned =>
        rw [htables] at h
        exact ⟨signed, records, planned, rfl, hrecords, htables, h⟩

theorem recordsOf_table {tickets : List Ticket} {records : List (Ticket × TableRecord)}
    (h : recordsOf catalog request tickets = some records) :
    ∀ entry ∈ records, ∃ name, catalog.table name = some entry.2 := by
  induction tickets generalizing records with
  | nil =>
    cases h
    nofun
  | cons ticket rest ih =>
    unfold recordsOf at h
    rw [mapM_cons] at h
    obtain ⟨first, hfirst, hmore⟩ := bind_eq_some_iff.mp h
    obtain ⟨more, hrest, heq⟩ := bind_eq_some_iff.mp hmore
    obtain ⟨record, hrecord, rfl⟩ := map_eq_some_iff.mp hfirst
    cases heq
    intro entry hentry
    rcases mem_cons.mp hentry with rfl | htail
    · exact ⟨_, hrecord⟩
    · exact ih hrest entry htail

structure World.Sound (out : Outside τ γ δ) (w : World τ δ) : Prop where
  plans : w.service.Sound out
  projections : ∀ n, (w.workers n).Sound out
  results : ∀ n, (w.workers n).results.Right out.Remembered

theorem answer_spec (hrepr : Function.Injective out.repr) (hsha : Function.Injective out.sha1)
    (hsha' : Function.Injective out.sha256) {w : World τ δ} (hsound : w.Sound out) {worker : Nat}
    {chance : γ} {now : Nat} (hmeets : Meets out w (.statement request worker chance now)) :
    (answer out w.service (w.workers worker) w.catalog.1 w.tables request chance now).1 =
        out.directAnswer w.catalog.1 (w.loaded now) request chance ∧
      (answer out w.service (w.workers worker) w.catalog.1 w.tables request chance now).2.1.Sound
        out ∧
      (answer out w.service (w.workers worker) w.catalog.1 w.tables request chance now).2.2.Sound
        out ∧
      (answer out w.service (w.workers worker) w.catalog.1 w.tables request chance
        now).2.2.results.Right out.Remembered := by
  obtain ⟨hclaims, hafter⟩ := claims_spec hrepr hsound.plans w.catalog.1 w.tables request now
    fun signed records hplan hrecords => (hmeets signed records hplan hrecords).1
  unfold answer Outside.directAnswer
  generalize w.service.claims out w.catalog.1 w.tables request now = done at hclaims hafter
  obtain ⟨result, after⟩ := done
  dsimp only at hclaims hafter ⊢
  have hloaded : w.service.loaded w.tables now = w.loaded now := rfl
  rw [hloaded] at hclaims
  rw [← hclaims]
  cases result with
  | error e => exact ⟨rfl, hafter, hsound.projections worker, hsound.results worker⟩
  | ok claims =>
    obtain ⟨signed, records, planned, hplan, hrecords, htables, hsigned⟩ :=
      directClaims_ok hclaims.symm
    obtain ⟨_, hfresh, hsteady⟩ := hmeets signed records hplan hrecords
    obtain ⟨hkeyed, rfl⟩ := claims_keyed hsteady hsigned
    have hplanned := mem_directTables htables
    have halike : ∀ table ∈ claims.tables, ∀ table' ∈ claims.tables,
        out.projectionKey table = out.projectionKey table' → table.columns = table'.columns := by
      intro table htable table' htable' hkey
      obtain ⟨entry, hentry, m, hm, hname, hcolumns⟩ := hplanned table htable
      obtain ⟨entry', hentry', m', hm', hname', hcolumns'⟩ := hplanned table' htable'
      obtain ⟨_, hrecord⟩ := recordsOf_table hrecords entry hentry
      obtain ⟨_, hrecord'⟩ := recordsOf_table hrecords entry' hentry'
      have htext : table.table = table'.table := congrArg ProjectionKey.table hkey
      rw [hname, hname'] at htext
      have hsame := text_inj (w.catalog.2 _ _ hrecord) (w.catalog.2 _ _ hrecord') htext
      rw [hsame, hm'] at hm
      rw [hcolumns, hcolumns', Option.some.inj hm]
    have hcurrent : (w.workers worker).Current out claims.tables :=
      ⟨fun table htable => (hfresh _ htables table htable).2, halike⟩
    obtain ⟨hbytes, hworker, hresults⟩ := execute_spec hsha hsha' (hsound.projections worker)
      (hsound.results worker) hkeyed (fun table htable => (hfresh _ htables table htable).1)
      hcurrent chance now
    exact ⟨hbytes, hafter, hworker, hresults⟩

end Answers

section Run

variable {out : Outside τ γ δ}

theorem right_new (right : δ → Bytes → Prop) (capacity entryLimit : Nat) :
    (ResultCache.new capacity entryLimit).Right right := nofun

def World.bare (w : World τ δ) (now capacity entryLimit : Nat) : World τ δ :=
  ⟨w.catalog, w.loaded now, Service.new, fun _ => Worker.new capacity entryLimit⟩

theorem bare_sound (w : World τ δ) (now capacity entryLimit : Nat) :
    (w.bare now capacity entryLimit).Sound out :=
  ⟨sound_new, fun _ => worker_sound_new capacity entryLimit,
    fun _ => right_new _ capacity entryLimit⟩

theorem bare_meets {w : World τ δ} {request : Request} {worker : Nat} {chance : γ} {now : Nat}
    (capacity entryLimit : Nat) (hmeets : Meets out w (.statement request worker chance now)) :
    Meets out (w.bare now capacity entryLimit) (.statement request worker chance now) := by
  intro signed records hplan hrecords
  obtain ⟨_, hfresh, hsteady⟩ := hmeets signed records hplan hrecords
  refine ⟨fun _ _ _ _ c hc => (nomatch hc), fun tables htables table htable => ?_, hsteady⟩
  exact ⟨(hfresh tables htables table htable).1, nofun⟩

theorem fine_of_sound (hrepr : Function.Injective out.repr) (hsha : Function.Injective out.sha1)
    (hsha' : Function.Injective out.sha256) {w w' : World τ δ} (hsound : w.Sound out)
    {act : Action τ γ} (hmeets : Meets out w act) : Fine out ⟨w, act, w'⟩ := by
  intro request worker chance now hact capacity entryLimit
  have hstatement : act = .statement request worker chance now := hact
  subst hstatement
  have hwarm := (answer_spec hrepr hsha hsha' hsound hmeets).1
  have hcold := (answer_spec hrepr hsha hsha' (bare_sound w now capacity entryLimit)
    (bare_meets capacity entryLimit hmeets)).1
  exact hwarm.trans hcold.symm

theorem World.Sound.step (hrepr : Function.Injective out.repr)
    (hsha : Function.Injective out.sha1) (hsha' : Function.Injective out.sha256)
    {w w' : World τ δ} (hsound : w.Sound out) {act : Action τ γ}
    (hstep : World.step out act w = some w') (hmeets : Meets out w act) : w'.Sound out := by
  cases act with
  | statement request worker chance now =>
    cases hstep
    obtain ⟨_, hplans, hprojections, hresults⟩ := answer_spec hrepr hsha hsha' hsound hmeets
    refine ⟨hplans, fun n => ?_, fun n => ?_⟩
    · by_cases hn : n = worker
      · subst hn
        simpa using hprojections
      · simpa [update_of_ne hn] using hsound.projections n
    · by_cases hn : n = worker
      · subst hn
        simpa using hresults
      · simpa [update_of_ne hn] using hsound.results n
  | commit name snapshot now | alter name schema now =>
    obtain ⟨m, _, rfl⟩ := map_eq_some_iff.mp hstep
    exact ⟨hsound.plans, hsound.projections, hsound.results⟩
  | create name schema =>
    simp only [World.step] at hstep
    split at hstep
    · cases hstep
      exact ⟨hsound.plans, hsound.projections, hsound.results⟩
    · cases hstep
  | drop name | elsewhere name m | setCatalog catalog =>
    cases hstep
    exact ⟨hsound.plans, hsound.projections, hsound.results⟩
  | restart =>
    cases hstep
    exact ⟨sound_new, hsound.projections, hsound.results⟩
  | restartWorker worker =>
    cases hstep
    refine ⟨hsound.plans, fun n => ?_, fun n => ?_⟩
    · by_cases hn : n = worker
      · subst hn
        simpa using worker_sound_new _ _
      · simpa [update_of_ne hn] using hsound.projections n
    · by_cases hn : n = worker
      · subst hn
        simpa [Worker.new] using right_new _ _ _
      · simpa [update_of_ne hn] using hsound.results n

theorem projection_results (worker : Worker δ) (table : TicketTable) :
    (worker.projection out table).2.results = worker.results := by
  unfold Worker.projection
  split
  · rfl
  · split <;> rfl

theorem register_results (worker : Worker δ) (tables : List TicketTable) :
    (worker.register out tables).2.results = worker.results := by
  induction tables generalizing worker with
  | nil => rfl
  | cons table rest ih =>
    have hbody : (if table.files = [] then (.ok (Worker.emptyView table.columns), worker)
        else worker.projection out table : Except Problem String × Worker δ).2.results =
        worker.results := by
      split
      · rfl
      · exact projection_results worker table
    unfold Worker.register
    generalize (if table.files = [] then (.ok (Worker.emptyView table.columns), worker)
      else worker.projection out table : Except Problem String × Worker δ) = body at hbody ⊢
    obtain ⟨result, after⟩ := body
    dsimp only at hbody ⊢
    cases result with
    | error e => exact hbody
    | ok text =>
      dsimp only
      have hrest := ih after
      generalize after.register out rest = done at hrest ⊢
      obtain ⟨more, last⟩ := done
      dsimp only at hrest ⊢
      cases more with
      | error e | ok more => exact hrest.trans hbody

theorem compute_counted {worker : Worker δ} (h : worker.results.Counted) (chance : γ)
    (claims : Claims δ) (now : Nat) : (worker.compute out chance claims now).2.results.Counted := by
  have hregister : (worker.register out claims.tables).2.results = worker.results :=
    register_results worker claims.tables
  unfold Worker.compute
  generalize worker.register out claims.tables = done at hregister ⊢
  obtain ⟨result, after⟩ := done
  dsimp only at hregister ⊢
  rw [← hregister] at h
  cases result with
  | error e => exact h
  | ok views =>
    dsimp only
    split
    · exact h
    · split
      · exact h
      · split
        · split
          · exact h.put _ _ now
          · exact h
        · exact h

theorem execute_counted {worker : Worker δ} (h : worker.results.Counted) (chance : γ)
    (claims : Claims δ) (now : Nat) : (worker.execute out chance claims now).2.results.Counted := by
  unfold Worker.execute
  cases claims.cache with
  | none => exact compute_counted h chance claims now
  | some key =>
    dsimp only
    have hlooked := h.get key now
    have hcompute : (Worker.compute out { worker with
        results := (worker.results.get key now).2 } chance claims now).2.results.Counted :=
      compute_counted hlooked chance claims now
    split
    · split
      · exact hlooked
      · exact hcompute
    · exact hcompute

theorem counted_step {w w' : World τ δ} (h : ∀ n, (w.workers n).results.Counted)
    {act : Action τ γ} (hstep : World.step out act w = some w') :
    ∀ n, (w'.workers n).results.Counted := by
  cases act with
  | statement request worker chance now =>
    cases hstep
    intro n
    by_cases hn : n = worker
    · subst hn
      simp only [update_self]
      unfold answer
      split
      · exact h n
      · exact execute_counted (h n) chance _ now
    · simpa [update_of_ne hn] using h n
  | commit name snapshot now | alter name schema now =>
    obtain ⟨m, _, rfl⟩ := map_eq_some_iff.mp hstep
    exact h
  | create name schema =>
    simp only [World.step] at hstep
    split at hstep
    · cases hstep
      exact h
    · cases hstep
  | drop name | elsewhere name m | setCatalog catalog | restart =>
    cases hstep
    exact h
  | restartWorker worker =>
    cases hstep
    intro n
    by_cases hn : n = worker
    · subst hn
      simpa [Worker.new] using ResultCache.counted_new _ _
    · simpa [update_of_ne hn] using h n

def World.start (catalog : { catalog : Catalog // Plain catalog })
    (tables : TableName → Option (Metadata τ)) (capacity entryLimit : Nat → Nat) : World τ δ :=
  ⟨catalog, tables, Service.new, fun n => Worker.new (capacity n) (entryLimit n)⟩

/-- While no remembered plan was made with another schema, and no remembered projection
with other columns, every statement of a run answers as it does with empty caches. In any
run the count of each worker's bytes is right, and within the capacity. -/
theorem caches_keep_answers (hrepr : Function.Injective out.repr)
    (hsha : Function.Injective out.sha1) (hsha' : Function.Injective out.sha256)
    (catalog : { catalog : Catalog // Plain catalog }) (tables : TableName → Option (Metadata τ))
    (capacity entryLimit : Nat → Nat) {actions : List (Action τ γ)}
    {ms : List (Taken (World τ δ) (Action τ γ))}
    (h : moves (World.step out) actions (World.start catalog tables capacity entryLimit) =
      some ms) :
    (∀ m ∈ ms, ∀ n, (m.after.workers n).results.Counted) ∧
      ((∀ m ∈ ms, Meets out m.before m.act) → ∀ m ∈ ms, Fine out m) := by
  constructor
  · have hinit : ∀ n, ((World.start (δ := δ) catalog tables capacity entryLimit).workers
        n).results.Counted := fun n => ResultCache.counted_new _ _
    have hkeep := moves_keep (P := fun w : World τ δ => ∀ n, (w.workers n).results.Counted)
      (fun w act w' hw hstep => counted_step hw hstep) hinit h
    exact fun m hm => (hkeep m hm).2
  · intro hmeets
    have hinit : (World.start (δ := δ) catalog tables capacity entryLimit).Sound out :=
      ⟨sound_new, fun _ => worker_sound_new _ _, fun _ => right_new _ _ _⟩
    refine fine_of_meets (P := World.Sound out) ?_ hinit h hmeets
    intro w act w' hsound hstep hmove
    exact ⟨fine_of_sound hrepr hsha hsha' hsound hmove, hsound.step hrepr hsha hsha' hstep hmove⟩

end Run

def literalParts : Literal → String × String
  | .text value => ("text", value)
  | .number value => ("number", value)
  | .boolean value => ("boolean", if value then "true" else "false")

theorem literalParts_inj : Function.Injective literalParts := by
  intro a b h
  cases a with
  | text value =>
    cases b with
    | text value' => simpa [literalParts] using h
    | number _ | boolean _ => simp [literalParts] at h
  | number value =>
    cases b with
    | text _ | boolean _ => simp [literalParts] at h
    | number value' => simpa [literalParts] using h
  | boolean value =>
    cases b with
    | text _ | number _ => simp [literalParts] at h
    | boolean value' => cases value <;> cases value' <;> simp [literalParts] at h ⊢

/-- The class of a predicate's expression. -/
def operatorText : Operator → String
  | .eq => "EqualTo"
  | .ne => "NotEqualTo"
  | .gt => "GreaterThan"
  | .ge => "GreaterThanOrEqual"
  | .lt => "LessThan"
  | .le => "LessThanOrEqual"
  | .in_ => "In"

theorem operatorText_inj : Function.Injective operatorText := by
  intro a b h
  cases a <;> cases b <;> first | rfl | simp [operatorText] at h

def predicateParts (p : Predicate) : String × String × List Literal :=
  (operatorText p.operator, p.field, p.values)

theorem predicateParts_inj : Function.Injective predicateParts := by
  intro a b h
  obtain ⟨hoperator, hrest⟩ := Prod.mk.inj h
  obtain ⟨hfield, hvalues⟩ := Prod.mk.inj hrest
  obtain ⟨o, f, v⟩ := a
  obtain ⟨o', f', v'⟩ := b
  dsimp only at hoperator hfield hvalues
  rw [operatorText_inj hoperator, hfield, hvalues]

def writeLiteral (v : Literal) : Text :=
  array [encode (some (literalParts v).1.toList), encode (some (literalParts v).2.toList)]

theorem code_literal : Code writeLiteral := (code_text.pair code_text).comp literalParts_inj

def writePredicate (p : Predicate) : Text :=
  array [encode (some (predicateParts p).1.toList), encode (some (predicateParts p).2.1.toList),
    array ((predicateParts p).2.2.map writeLiteral)]

theorem code_predicate : Code writePredicate :=
  (code_text.triple code_text code_literal.array).comp predicateParts_inj

def reprOf (predicates : List Predicate) : String :=
  String.ofList (array (predicates.map writePredicate))

theorem reprOf_inj : Function.Injective reprOf := by
  intro a b h
  have htext : array (a.map writePredicate) = array (b.map writePredicate) :=
    String.ofList_injective h
  have hall : array (a.map writePredicate) ++ [] = array (b.map writePredicate) ++ [] := by
    rw [htext]
  exact (code_predicate.array.inj a b [] [] hall).1

def bob : Principal := ⟨"user", "bob", [], none⟩

/-- A catalog with one table, which all may read. -/
def oneTable : Catalog where
  table name := if name = ("main", "s", "t") then some ⟨("main", "s", "t"), []⟩ else none
  view _ := none
  policy _ := none
  canBrowse _ _ := true
  maySelect _ _ := true
  table_name := by
    intro name record h
    split at h
    · next hname =>
        cases h
        exact hname.symm
    · cases h
  view_name _ _ h := nomatch h

theorem plain_oneTable : Plain oneTable := by
  intro name record h
  change (if name = ("main", "s", "t") then some (⟨("main", "s", "t"), []⟩ : TableRecord)
    else none) = some record at h
  split at h
  · cases h
    decide
  · cases h

/-- Each snapshot has one file, and DuckDB streams what it is asked for. -/
def plainly : Outside String Unit Text where
  lower := id
  coerce literal _ := some literal
  binds _ _ := true
  repr := reprOf
  duckdbType := id
  tasks _ _ _ := [⟨⟨"t/data/1.parquet", 1, 1⟩, false⟩]
  totalDataFiles _ := some 1
  salt := ""
  findAll tree := List.range tree.leaves.length
  pushed _ source := match source with
    | .table ref => ref.filters
    | _ => []
  render _ := "SELECT * FROM __t0 AS t"
  cacheable _ := true
  sha1 := id
  sha256 := id
  present _ := .ok []
  run _ _ views := .ok ([], views.flatMap fun v => v.2.toList.map fun c => c.toNat.toUInt8)

/-- `SELECT * FROM t` -/
def readT : Request where
  principal := bob
  sql := .node (.query "select *") (.cons (.leaf ⟨["t"], "t", []⟩) .nil)
  defaultCatalog := "main"
  defaultSchema := "s"
  maxRows := none
  maxBytes := 1000
  query := true
  cache := true
  restrict _ := none

def begun : World String Text :=
  World.start ⟨oneTable, plain_oneTable⟩ (fun _ => none) (fun _ => 1000) (fun _ => 1000)

def tableT : TableName := ("main", "s", "t")

/-- A table that is dropped and created again with another column is read as it was. -/
theorem created_again : ∃ ms, moves (World.step plainly)
        [.create tableT [⟨1, "a", "INTEGER"⟩], .statement readT 0 () 0, .drop tableT,
          .create tableT [⟨1, "b", "VARCHAR"⟩], .statement readT 0 () 1] begun = some ms ∧
      ∃ m ∈ ms, ¬Fine plainly m := by
  refine ⟨_, rfl, _, getLast_mem (cons_ne_nil _ _), fun hfine => ?_⟩
  have hsame := hfine readT 0 () 1 rfl 0 0
  revert hsame
  decide +kernel

/-- What stands in `readT`'s ticket. -/
def signedT : Signed where
  sql := .node (.query "select *") (.cons (.leaf (.ticket "__t0" "t")) .nil)
  tickets := [⟨"__t0", .table ⟨["main", "s", "t"], "t", []⟩⟩]

theorem plan_readT :
    Sql.plan oneTable "" plainly.findAll bob readT.sql "main" "s" none = .ok signedT := rfl

theorem records_readT : recordsOf oneTable readT signedT.tickets =
      some [(⟨"__t0", .table ⟨["main", "s", "t"], "t", []⟩⟩, ⟨tableT, []⟩)] := rfl

theorem meets_readT {w : World String Text} (hcatalog : w.catalog.1 = oneTable) (worker now : Nat)
    {m : Metadata String} (hm : w.loaded now tableT = some m)
    (hplans : ∀ row ∈ w.service.plans.rows, row.2.made = m.schema)
    (hprojections : ∀ row ∈ (w.workers worker).projections.rows,
      row.2.made = plainly.columns m.schema) :
    Meets plainly w (.statement readT worker () now) := by
  intro signed records hplan hrecords
  rw [hcatalog] at hplan hrecords
  have hsigned : signed = signedT := Except.ok.inj (hplan.symm.trans plan_readT)
  subst hsigned
  have hall : records = [(⟨"__t0", .table ⟨["main", "s", "t"], "t", []⟩⟩, ⟨tableT, []⟩)] :=
    Option.some.inj (hrecords.symm.trans records_readT)
  subst hall
  refine ⟨fun entry hentry m' hm' c hc => ?_, fun tables htables table htable => ?_, fun _ => ?_⟩
  · obtain rfl := mem_singleton.mp hentry
    have hsame : m' = m := Option.some.inj (hm'.symm.trans hm)
    rw [hsame]
    exact hplans _ (Table.mem_rows_iff.mpr hc)
  · obtain ⟨entry, hentry, m', hm', _, hcolumns⟩ := mem_directTables htables table htable
    obtain rfl := mem_singleton.mp hentry
    have hsame : m' = m := Option.some.inj (hm'.symm.trans hm)
    rw [hsame] at hcolumns
    refine ⟨?_, fun c hc => (hprojections _ (Table.mem_rows_iff.mpr hc)).trans hcolumns.symm⟩
    simp only [Outside.directTables] at htables
    rw [hm] at htables
    dsimp only [Outside.scan] at htables
    cases hsnapshot : m.snapshot with
    | none =>
      rw [hsnapshot] at htables
      cases htables
      obtain rfl := mem_singleton.mp htable
      nofun
    | some id =>
      rw [hsnapshot] at htables
      cases htables
      obtain rfl := mem_singleton.mp htable
      intro f hf
      obtain rfl := mem_singleton.mp hf
      decide
  · exact fun _ _ _ => rfl

def filled : List (Action String Unit) :=
  [.create tableT [⟨1, "a", "INTEGER"⟩], .statement readT 0 () 0, .statement readT 0 () 1,
    .commit tableT 7 2, .statement readT 0 () 3]

theorem caches_keep_answers_filled :
    ∃ ms, moves (World.step plainly) filled begun = some ms ∧ ms.length = 5 ∧
      ∀ m ∈ ms, Fine plainly m := by
  refine ⟨_, rfl, rfl, (caches_keep_answers reprOf_inj injective_id injective_id
    ⟨oneTable, plain_oneTable⟩ (fun _ => none) (fun _ => 1000) (fun _ => 1000)
    (rfl : moves (World.step plainly) filled begun = some _)).2 ?_⟩
  intro m hm
  rcases mem_cons.mp hm with rfl | hm
  · trivial
  rcases mem_cons.mp hm with rfl | hm
  · exact meets_readT rfl 0 0 (m := ⟨[⟨1, "a", "INTEGER"⟩], none⟩) rfl (by decide) (by decide)
  rcases mem_cons.mp hm with rfl | hm
  · exact meets_readT rfl 0 1 (m := ⟨[⟨1, "a", "INTEGER"⟩], none⟩) (by decide +kernel)
      (by decide +kernel) (by decide +kernel)
  rcases mem_cons.mp hm with rfl | hm
  · trivial
  obtain rfl := mem_singleton.mp hm
  exact meets_readT rfl 0 3 (m := ⟨[⟨1, "a", "INTEGER"⟩], some 7⟩) (by decide +kernel)
    (by decide +kernel) (by decide +kernel)

end Substrate.Compute
