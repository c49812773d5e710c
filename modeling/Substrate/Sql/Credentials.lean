import Mathlib.Data.Char
import Mathlib.Data.List.Dedup
import Mathlib.Data.List.Lex
import Mathlib.Data.List.Sort
import Substrate.Lib.Folders
import Substrate.Lib.Transition
import Substrate.Sql.Planner

/-!
Storage credentials for a statement (`tables/credentials.py`, and the part of
`Planner.plan` that asks for them). The credentials read below one folder for each table
of the statement, and are kept for the next statement over the same folders.
-/

namespace Substrate.Sql

open Lib List

abbrev Path := List Char

def isNameChar (c : Char) : Bool := c.isLower || c.isDigit || c = '_'

/-- `NAME`, the pattern of the names of catalogs, schemas and tables. -/
def isName : Path → Bool
  | [] => false
  | c :: rest => isNameChar c && !c.isDigit && rest.length ≤ 63 && rest.all isNameChar

def isBucket (name : Path) : Bool :=
  3 ≤ name.length && name.length ≤ 63 && (name.all fun c => c.isLower || c.isDigit || c = '-') &&
    name.head? ≠ some '-' && name.getLast? ≠ some '-'

structure VendorSettings where
  stsRoleArn : String
  stsSessionSeconds : Nat
  warehouse : Path
  is_bucket : isBucket warehouse

structure TableFolder where
  catalog : { name : Path // isName name }
  schema : { name : Path // isName name }
  table : { name : Path // isName name }
  deriving DecidableEq

namespace TableFolder

def names (t : TableFolder) : List Path := [t.catalog.1, t.schema.1, t.table.1]

def above (bucket : Path) : List Path := [['s', '3', ':'], [], bucket]

def dataName : Path := ['d', 'a', 't', 'a']

def file (t : TableFolder) (bucket rest : Path) : Path :=
  folder '/' (above bucket ++ t.names ++ [dataName]) ++ rest

end TableFolder

/-- A table of a statement and the files that are planned for it. -/
structure PlannedTable (bucket : Path) where
  name : TableFolder
  files : List Path
  placed : ∀ file ∈ files, ∃ rest, file = name.file bucket rest

/-- `text.rsplit("/", 1)[0]`. -/
def beforeLast (text : Path) : Path :=
  if '/' ∈ text then ((text.reverse.dropWhile (· ≠ '/')).drop 1).reverse else text

def tablePrefix : List Path → Option Path
  | [] => none
  | first :: _ =>
    match before? ('/' :: (TableFolder.dataName ++ ['/'])) first with
    | some front => some (front ++ ['/'])
    | none => some (beforeLast first ++ ['/'])

def prefixesOf {bucket : Path} (tables : List (PlannedTable bucket)) : List Path :=
  tables.filterMap fun t => tablePrefix t.files

/-- `tuple(sorted(set(prefixes)))`. -/
def scopesOf (prefixes : List Path) : List Path := prefixes.dedup.insertionSort (· ≤ ·)

/-- `urlsplit(url).path` of a URL of the object store. -/
def urlPath (url : Path) : Path :=
  ((url.drop 5).dropWhile fun c => c ≠ '/' && c ≠ '?' && c ≠ '#').takeWhile fun c =>
    c ≠ '?' && c ≠ '#'

/-- The session policy, which lets objects be read whose names begin as one of these. -/
structure SessionPolicy where
  version : String
  effect : String
  action : List String
  resource : List Path

structure AssumeRole where
  roleArn : String
  roleSessionName : String
  durationSeconds : Nat
  policy : SessionPolicy

/-- `Credentials` of a response. -/
structure Issued where
  accessKeyId : String
  secretAccessKey : String
  sessionToken : String
  expiration : Rat

structure Vended where
  keyId : String
  secret : String
  token : String
  expires : Rat
  scopes : List Path
  deriving DecidableEq, Repr

def maxPrefixes : Nat := 25

def refreshMargin : Rat := 300

def maxCached : Nat := 512

/-- `cache`, newest first. -/
abbrev CredentialCache := List (List Path × Vended)

/-- A vendor, with the scopes that the object store has been asked for. -/
structure Vendor where
  cache : CredentialCache
  waiting : List (List Path)

/-- What `for_prefixes` comes to up to where the object store is asked. -/
inductive Lookup where
  | off
  | refused (problem : Problem)
  | cached (vended : Vended)
  | absent (scopes : List Path)

section Vendor

variable (settings : VendorSettings)

def inWarehouse (scope : Path) : Bool :=
  (['s', '3', ':', '/', '/'] ++ settings.warehouse ++ ['/']).isPrefixOf scope

def CredentialCache.get? (cache : CredentialCache) (scopes : List Path) : Option Vended :=
  (cache.find? fun entry => entry.1 = scopes).map Prod.snd

/-- `for_prefixes`, to the end of the first lock. -/
def lookup (now : Rat) (cache : CredentialCache) (prefixes : List Path) : Lookup :=
  if settings.stsRoleArn = "" ∨ prefixes = [] then .off
  else
    let scopes := scopesOf prefixes
    if maxPrefixes < scopes.length then
      .refused ⟨400, "too-many-tables",
        s!"A statement may read at most {maxPrefixes} tables when storage credentials are vended"⟩
    else if scopes.all (inWarehouse settings) = false then
      .refused ⟨500, "internal-error", "A planned file is outside the warehouse"⟩
    else
      match cache.get? scopes with
      | some vended =>
        if refreshMargin < vended.expires - now then .cached vended else .absent scopes
      | none => .absent scopes

def resourceOf (scope : Path) : Path := "arn:aws:s3:::".toList ++ settings.warehouse ++ '/' ::
    ((urlPath scope).dropWhile (· = '/') ++ ['*'])

def assumeRole (scopes : List Path) : AssumeRole :=
  ⟨settings.stsRoleArn, "substrate-statement", settings.stsSessionSeconds,
    ⟨"2012-10-17", "Allow", ["s3:GetObject"], scopes.map (resourceOf settings)⟩⟩

def issue (scopes : List Path) : Option Issued → Except Problem Vended
  | none => .error ⟨503, "compute-unavailable", "Storage credentials could not be issued"⟩
  | some response =>
    .ok ⟨response.accessKeyId, response.secretAccessKey, response.sessionToken,
      response.expiration, scopes⟩

/-- `self.cache[scopes] = vended` in a cache with room for it. -/
def remember (cache : CredentialCache) (scopes : List Path) (vended : Vended) : CredentialCache :=
  let kept := if maxCached ≤ cache.length then [] else cache
  (scopes, vended) :: kept.filter fun entry => entry.1 ≠ scopes

/-- Statements ask, each up to where it waits for the object store, and the store answers
them in any order. -/
inductive VendorStep where
  | ask (now : Rat) (prefixes : List Path)
  | answer (scopes : List Path) (response : Option Issued)

namespace Vendor

def empty : Vendor := ⟨[], []⟩

def allowed (v : Vendor) : VendorStep → Prop
  | .ask _ _ => True
  | .answer scopes _ => scopes ∈ v.waiting

def step : VendorStep → Vendor → Vendor
  | .ask now prefixes, v =>
    match lookup settings now v.cache prefixes with
    | .absent scopes => { v with waiting := scopes :: v.waiting }
    | _ => v
  | .answer scopes response, v =>
    match issue scopes response with
    | .ok vended => ⟨remember v.cache scopes vended, v.waiting.erase scopes⟩
    | .error _ => { v with waiting := v.waiting.erase scopes }

/-- What the step returns to a statement, if it returns. -/
def reply (v : Vendor) : VendorStep → Option (Except Problem (Option Vended))
  | .ask now prefixes =>
    match lookup settings now v.cache prefixes with
    | .off => some (.ok none)
    | .refused problem => some (.error problem)
    | .cached vended => some (.ok (some vended))
    | .absent _ => none
  | .answer scopes response => some ((issue scopes response).map some)

end Vendor

def VendorStep.scopes : VendorStep → List Path
  | .ask _ prefixes => scopesOf prefixes
  | .answer scopes _ => scopes

/-- Credentials are kept under their own scopes, and nothing outside the warehouse is asked
for. -/
structure Vendor.Sound (v : Vendor) : Prop where
  cached : ∀ entry ∈ v.cache, entry.2.scopes = entry.1
  asked : ∀ scopes ∈ v.waiting, scopes.all (inWarehouse settings) = true

theorem Vendor.sound_empty : Vendor.empty.Sound settings := by
  constructor
  · intro entry hentry
    cases hentry
  · intro scopes hscopes
    cases hscopes

variable {settings}

variable {cache : CredentialCache} {scopes prefixes : List Path} {vended : Vended} {now : Rat}
    {v : Vendor} {name scope : Path} {c : Char}

theorem CredentialCache.scopes_of_get? (hcache : ∀ entry ∈ cache, entry.2.scopes = entry.1)
    (hget : cache.get? scopes = some vended) : vended.scopes = scopes := by
  unfold CredentialCache.get? at hget
  obtain ⟨entry, hfind, rfl⟩ := Option.map_eq_some_iff.mp hget
  have hkey := List.find?_some hfind
  simp only [decide_eq_true_eq] at hkey
  rw [hcache entry (mem_of_find?_eq_some hfind), hkey]

theorem lookup_absent (h : lookup settings now cache prefixes = .absent scopes) :
    scopes = scopesOf prefixes ∧ scopes.all (inWarehouse settings) = true := by
  unfold lookup at h
  split at h
  · cases h
  · dsimp only at h
    split at h
    · cases h
    · split at h
      · cases h
      · next hin =>
          have hall := Bool.of_not_eq_false hin
          split at h
          · split at h
            · cases h
            · cases h
              exact ⟨rfl, hall⟩
          · cases h
            exact ⟨rfl, hall⟩

theorem lookup_cached (h : lookup settings now cache prefixes = .cached vended) :
    cache.get? (scopesOf prefixes) = some vended ∧
      (scopesOf prefixes).all (inWarehouse settings) = true := by
  unfold lookup at h
  split at h
  · cases h
  · dsimp only at h
    split at h
    · cases h
    · split at h
      · cases h
      · next hin =>
          have hall := Bool.of_not_eq_false hin
          split at h
          · next found hfound =>
              split at h
              · cases h
                exact ⟨hfound, hall⟩
              · cases h
          · cases h

theorem issue_scopes {response : Option Issued} (h : issue scopes response = .ok vended) :
    vended.scopes = scopes := by
  cases response with
  | none => cases h
  | some response =>
    cases h
    rfl

theorem Vendor.Sound.step (h : v.Sound settings) (action : VendorStep)
    (hallowed : v.allowed action) : (v.step settings action).Sound settings := by
  cases action with
  | ask now prefixes =>
    simp only [Vendor.step]
    split
    · next scopes hlookup =>
        refine ⟨h.cached, ?_⟩
        intro other hother
        rcases mem_cons.mp hother with rfl | hother
        · exact (lookup_absent hlookup).2
        · exact h.asked other hother
    · exact h
  | answer scopes response =>
    have hfewer : ∀ other ∈ v.waiting.erase scopes, other.all (inWarehouse settings) = true := by
      intro other hother
      exact h.asked other (mem_of_mem_erase hother)
    simp only [Vendor.step]
    split
    · next vended hissue =>
        refine ⟨?_, hfewer⟩
        intro entry hentry
        rcases mem_cons.mp hentry with rfl | hentry
        · exact issue_scopes hissue
        · have hkept := (mem_filter.mp hentry).1
          split at hkept
          · cases hkept
          · exact h.cached entry hkept
    · exact ⟨h.cached, hfewer⟩

theorem Vendor.sound_of_run (hrun : Steps (Vendor.step settings) Vendor.allowed Vendor.empty v) :
    v.Sound settings :=
  hrun.invariant (fun _ action h hallowed => h.step action hallowed) (Vendor.sound_empty settings)

theorem Vendor.Sound.reply (h : v.Sound settings) {action : VendorStep}
    (hallowed : v.allowed action) (hreply : v.reply settings action = some (.ok (some vended))) :
    vended.scopes = action.scopes ∧ vended.scopes.all (inWarehouse settings) = true := by
  cases action with
  | ask now prefixes =>
    simp only [Vendor.reply] at hreply
    split at hreply
    · cases hreply
    · cases hreply
    · next found hlookup =>
        cases hreply
        obtain ⟨hget, hall⟩ := lookup_cached hlookup
        have hscopes := CredentialCache.scopes_of_get? h.cached hget
        rw [hscopes]
        exact ⟨rfl, hall⟩
    · cases hreply
  | answer scopes response =>
    simp only [Vendor.reply, Option.some.injEq] at hreply
    cases hissue : issue scopes response with
    | error problem =>
      rw [hissue] at hreply
      cases hreply
    | ok found =>
      rw [hissue] at hreply
      cases hreply
      have hscopes := issue_scopes hissue
      rw [hscopes]
      exact ⟨rfl, h.asked scopes hallowed⟩

theorem nameChar_of_mem (h : isName name = true) (hc : c ∈ name) : isNameChar c = true := by
  cases name with
  | nil => cases hc
  | cons first rest =>
    simp only [isName, Bool.and_eq_true] at h
    rcases mem_cons.mp hc with rfl | hc
    · exact h.1.1.1
    · exact all_eq_true.mp h.2 c hc

theorem bucketChar_of_mem (h : isBucket name = true) (hc : c ∈ name) :
    (c.isLower || c.isDigit || c = '-') = true := by
  simp only [isBucket, Bool.and_eq_true] at h
  exact all_eq_true.mp h.1.1.2 c hc

theorem not_slash_of_isName (h : isName name = true) : '/' ∉ name := by
  intro hmem
  exact absurd (nameChar_of_mem h hmem) (by decide)

theorem not_slash_of_isBucket (h : isBucket name = true) : '/' ∉ name := by
  intro hmem
  exact absurd (bucketChar_of_mem h hmem) (by decide)

theorem names_above (settings : VendorSettings) (t : TableFolder) :
    Names '/' (TableFolder.above settings.warehouse ++ t.names ++ [TableFolder.dataName]) := by
  intro name hname
  simp only [TableFolder.above, TableFolder.names, TableFolder.dataName, mem_append,
    mem_cons, not_mem_nil, or_false] at hname
  rcases hname with ((rfl | rfl | rfl) | rfl | rfl | rfl) | rfl
  · decide
  · decide
  · exact not_slash_of_isBucket settings.is_bucket
  · exact not_slash_of_isName t.catalog.2
  · exact not_slash_of_isName t.schema.2
  · exact not_slash_of_isName t.table.2
  · decide

/-- The names of a table's path that its scope keeps: those before the first `data`. -/
def TableFolder.kept (t : TableFolder) : List Path :=
  t.names.takeWhile fun name => name ≠ TableFolder.dataName

theorem tablePrefix_file (t : TableFolder) (rest : Path) (more : List Path)
    (hbucket : settings.warehouse ≠ TableFolder.dataName) :
    tablePrefix (t.file settings.warehouse rest :: more) =
      some (folder '/' (TableFolder.above settings.warehouse ++ t.kept)) := by
  have hall := names_above settings t
  have hnames : Names '/' ([] :: settings.warehouse :: (t.names ++ [TableFolder.dataName])) :=
    fun name hname => hall name (mem_cons_of_mem _ hname)
  have hscheme : '/' ∉ ['s', '3', ':'] := by decide
  have hdata : '/' ∉ TableFolder.dataName := by decide
  have hmem : TableFolder.dataName ∈
      [] :: settings.warehouse :: (t.names ++ [TableFolder.dataName]) := by simp
  have hcut := before?_folder hdata hscheme hnames hmem rest
  have htake : (t.names ++ [TableFolder.dataName]).takeWhile
      (fun name => name ≠ TableFolder.dataName) = t.kept := by
    unfold TableFolder.kept
    rw [takeWhile_append]
    split
    · next hlength =>
        have hwhole := ( takeWhile_prefix _).eq_of_length hlength
        rw [hwhole]
        simp
    · rfl
  have hempty : ([] : Path) ≠ TableFolder.dataName := by decide
  rw [takeWhile_cons_of_pos (by simpa using hempty),
    takeWhile_cons_of_pos (by simpa using hbucket), htake] at hcut
  unfold tablePrefix
  have hfile : t.file settings.warehouse rest = folder '/' (['s', '3', ':'] ::
      [] :: settings.warehouse :: (t.names ++ [TableFolder.dataName])) ++ rest := rfl
  rw [hfile]
  cases hbefore : before? ('/' :: (TableFolder.dataName ++ ['/'])) (folder '/'
      (['s', '3', ':'] :: [] :: settings.warehouse :: (t.names ++ [TableFolder.dataName])) ++
        rest) with
  | none =>
    rw [hbefore] at hcut
    cases hcut
  | some front =>
    rw [hbefore, Option.map_some] at hcut
    simp only [hbefore]
    exact hcut

theorem scope_above_iff (t other : TableFolder) (rest : Path) :
    folder '/' (TableFolder.above settings.warehouse ++ t.kept) <+:
        other.file settings.warehouse rest ↔
      t.catalog.1 = TableFolder.dataName ∨
        (t.schema.1 = TableFolder.dataName ∧ t.catalog = other.catalog) ∨
        (t.table.1 = TableFolder.dataName ∧ t.catalog = other.catalog ∧
          t.schema = other.schema) ∨ t = other := by
  have hkept : t.kept.length ≤ t.names.length := (takeWhile_sublist _).length_le
  have hsub : ∀ name ∈ t.kept, name ∈ t.names := fun name h =>
    (takeWhile_sublist _).subset h
  have hnames : Names '/' (TableFolder.above settings.warehouse ++ t.kept) := by
    intro name hname
    apply names_above settings t name
    rcases mem_append.mp hname with hname | hname
    · exact mem_append_left _ (mem_append_left _ hname)
    · exact mem_append_left _ (mem_append_right _ (hsub name hname))
  have hlength : (TableFolder.above settings.warehouse ++ t.kept).length ≤
      (TableFolder.above settings.warehouse ++ other.names ++ [TableFolder.dataName]).length := by
    simp only [length_append, TableFolder.names, length_cons, length_nil] at hkept ⊢
    omega
  unfold TableFolder.file
  rw [folder_start_iff hnames (names_above settings other) hlength, append_assoc,
    prefix_append_right_inj]
  obtain ⟨catalog, schema, table⟩ := t
  obtain ⟨catalog', schema', table'⟩ := other
  simp only [TableFolder.kept, TableFolder.names, takeWhile_cons, takeWhile_nil,
    TableFolder.mk.injEq, Subtype.ext_iff]
  by_cases hcatalog : catalog.1 = TableFolder.dataName
  · simp [hcatalog]
  · by_cases hschema : schema.1 = TableFolder.dataName
    · simp [hcatalog, hschema, cons_prefix_cons]
      tauto
    · by_cases htable : table.1 = TableFolder.dataName
      · simp [hcatalog, hschema, htable, cons_prefix_cons]
        tauto
      · simp [hcatalog, hschema, htable, cons_prefix_cons]

variable {bucket : Path}

/-- Each planned file lies below one of the scopes. -/
def Covered (tables : List (PlannedTable bucket)) (scopes : List Path) : Prop :=
  ∀ t ∈ tables, ∀ file ∈ t.files, ∃ scope ∈ scopes, scope <+: file

/-- No scope lies above a data file of a table that is not read. A file is given by its
table and its path below the table's `data` folder. -/
def Confined (tables : List (PlannedTable bucket)) (stored : Set (TableFolder × Path))
    (scopes : List Path) : Prop :=
  ∀ file ∈ stored, (∀ t ∈ tables, t.name ≠ file.1) →
    ∀ scope ∈ scopes, ¬ scope <+: file.1.file bucket file.2

/-- The first folder named `data` on the way to a table's files is not the table's own, and
the other table lies beside or below that folder. -/
def TableFolder.Widened (t other : TableFolder) : Prop :=
  t.catalog.1 = dataName ∨ (t.schema.1 = dataName ∧ t.catalog = other.catalog) ∨
    (t.table.1 = dataName ∧ t.catalog = other.catalog ∧ t.schema = other.schema)

theorem mem_scopesOf : scope ∈ scopesOf prefixes ↔ scope ∈ prefixes := by
  unfold scopesOf
  rw [mem_insertionSort, mem_dedup]

theorem mem_scopes_iff {tables : List (PlannedTable settings.warehouse)}
    (hbucket : settings.warehouse ≠ TableFolder.dataName) :
    scope ∈ scopesOf (prefixesOf tables) ↔ ∃ t ∈ tables, t.files ≠ [] ∧
      scope = folder '/' (TableFolder.above settings.warehouse ++ t.name.kept) := by
  have hcut : ∀ t : PlannedTable settings.warehouse, tablePrefix t.files = some scope ↔
      t.files ≠ [] ∧ scope = folder '/' (TableFolder.above settings.warehouse ++ t.name.kept) := by
    intro t
    cases hfiles : t.files with
    | nil => simp [tablePrefix]
    | cons file more =>
      obtain ⟨rest, hfile⟩ := t.placed file (by rw [hfiles]; exact mem_cons_self)
      rw [hfile, tablePrefix_file t.name rest more hbucket, Option.some.injEq]
      constructor
      · intro h
        exact ⟨cons_ne_nil _ _, h.symm⟩
      · intro h
        exact h.2.symm
  rw [mem_scopesOf]
  unfold prefixesOf
  rw [mem_filterMap]
  simp only [hcut]

theorem bucket_of_inWarehouse {tables : List (PlannedTable settings.warehouse)}
    (hin : (scopesOf (prefixesOf tables)).all (inWarehouse settings) = true)
    {t : PlannedTable settings.warehouse} (ht : t ∈ tables) (hfiles : t.files ≠ []) :
    settings.warehouse ≠ TableFolder.dataName := by
  intro hbucket
  obtain ⟨file, more, hcons⟩ := exists_cons_of_ne_nil hfiles
  obtain ⟨rest, hfile⟩ := t.placed file (by rw [hcons]; exact mem_cons_self)
  have hcut : tablePrefix t.files = some ['s', '3', ':', '/', '/'] := by
    rw [hcons, hfile]
    simp [tablePrefix, TableFolder.file, TableFolder.above, hbucket, TableFolder.dataName,
      folder, before?]
  have hmem : ['s', '3', ':', '/', '/'] ∈ scopesOf (prefixesOf tables) :=
    mem_scopesOf.mpr (mem_filterMap.mpr ⟨t, ht, hcut⟩)
  have hstart := all_eq_true.mp hin _ hmem
  rw [inWarehouse, hbucket] at hstart
  revert hstart
  decide

/-- Whatever statements asked before, and however the store's answers came in between,
credentials that a statement gets have the scopes it asked for, and each of its files lies
below one of them. No file of another table does, as long as no table of the statement has a
catalog, schema or name `data` that it shares with the other table's folder. -/
theorem vended_scopes {v : Vendor}
    (hrun : Steps (Vendor.step settings) Vendor.allowed Vendor.empty v) {action : VendorStep}
    (hallowed : v.allowed action) {vended : Vended}
    (hreply : v.reply settings action = some (.ok (some vended)))
    (tables : List (PlannedTable settings.warehouse))
    (hasked : action.scopes = scopesOf (prefixesOf tables))
    (stored : Set (TableFolder × Path)) :
    vended.scopes = action.scopes ∧ Covered tables vended.scopes ∧
      (Confined tables stored vended.scopes ↔ ∀ file ∈ stored, (∀ t ∈ tables, t.name ≠ file.1) →
          ∀ t ∈ tables, t.files ≠ [] → ¬ t.name.Widened file.1) := by
  obtain ⟨hscopes, hin⟩ := (Vendor.sound_of_run hrun).reply hallowed hreply
  refine ⟨hscopes, ?_⟩
  rw [hscopes, hasked] at hin ⊢
  have hbucket : ∀ t ∈ tables, t.files ≠ [] → settings.warehouse ≠ TableFolder.dataName :=
    fun t ht hfiles => bucket_of_inWarehouse hin ht hfiles
  constructor
  · intro t ht file hfile
    have hfiles : t.files ≠ [] := ne_nil_of_mem hfile
    obtain ⟨rest, rfl⟩ := t.placed file hfile
    refine ⟨_, (mem_scopes_iff (hbucket t ht hfiles)).mpr ⟨t, ht, hfiles, rfl⟩, ?_⟩
    rw [scope_above_iff]
    exact .inr (.inr (.inr rfl))
  · constructor
    · intro hconfined file hfile hunread t ht hfiles hwide
      have hmem := (mem_scopes_iff (hbucket t ht hfiles)).mpr ⟨t, ht, hfiles, rfl⟩
      apply hconfined file hfile hunread _ hmem
      rw [scope_above_iff]
      rcases hwide with h | h | h
      · exact .inl h
      · exact .inr (.inl h)
      · exact .inr (.inr (.inl h))
    · intro hnarrow file hfile hunread scope hscope habove
      have hsome : ∃ t ∈ tables, t.files ≠ [] := by
        obtain ⟨t, ht, hcut⟩ := mem_filterMap.mp (mem_scopesOf.mp hscope)
        refine ⟨t, ht, ?_⟩
        intro hnil
        rw [hnil] at hcut
        cases hcut
      obtain ⟨some, hin, hsomeFiles⟩ := hsome
      obtain ⟨t, ht, hfiles, rfl⟩ := (mem_scopes_iff (hbucket some hin hsomeFiles)).mp hscope
      have hwide := hnarrow file hfile hunread t ht hfiles
      rw [scope_above_iff] at habove
      rcases habove with h | h | h | h
      · exact hwide (.inl h)
      · exact hwide (.inr (.inl h))
      · exact hwide (.inr (.inr h))
      · exact hunread t ht h

end Vendor

def lake : VendorSettings := ⟨"reader", 900, ['l', 'a', 'k', 'e'], by decide⟩

def ordersFolder : TableFolder :=
  ⟨⟨['m'], by decide⟩, ⟨TableFolder.dataName, by decide⟩, ⟨['o'], by decide⟩⟩

def staffFolder : TableFolder := ⟨⟨['m'], by decide⟩, ⟨['h', 'r'], by decide⟩, ⟨['s'], by decide⟩⟩

def ordersPlanned : PlannedTable lake.warehouse :=
  ⟨ordersFolder, [ordersFolder.file lake.warehouse ['p']], by
    intro file hfile
    exact ⟨['p'], mem_singleton.mp hfile⟩⟩

def issuedOnce : Issued := ⟨"key", "secret", "token", 900⟩

theorem asked_orders : Steps (Vendor.step lake) Vendor.allowed Vendor.empty
    ⟨[], [scopesOf (prefixesOf [ordersPlanned])]⟩ := by
  have hlookup : lookup lake 0 [] (prefixesOf [ordersPlanned]) =
      .absent (scopesOf (prefixesOf [ordersPlanned])) := rfl
  have hstep : Vendor.step lake (.ask 0 (prefixesOf [ordersPlanned])) Vendor.empty =
      ⟨[], [scopesOf (prefixesOf [ordersPlanned])]⟩ := by
    simp only [Vendor.step, Vendor.empty, hlookup]
  rw [← hstep]
  exact Steps.single _ trivial

theorem vended_scopes_orders :
    let scopes := scopesOf (prefixesOf [ordersPlanned])
    Covered [ordersPlanned] scopes ∧
      (Confined [ordersPlanned] {(ordersFolder, ['q'])} scopes ↔ True) := by
  have hallowed : Vendor.allowed ⟨[], [scopesOf (prefixesOf [ordersPlanned])]⟩
      (.answer (scopesOf (prefixesOf [ordersPlanned])) (some issuedOnce)) := mem_cons_self
  obtain ⟨-, hcovered, hconfined⟩ := vended_scopes asked_orders hallowed rfl [ordersPlanned] rfl
    {(ordersFolder, ['q'])}
  refine ⟨hcovered, hconfined.trans ⟨fun _ => trivial, ?_⟩⟩
  intro _ file hfile hunread
  rw [Set.mem_singleton_iff] at hfile
  subst hfile
  exact absurd rfl (hunread ordersPlanned mem_cons_self)

/-- The statement reads `m.data.o`. Its credentials read all of the catalog `m`. -/
theorem data_schema_widens : ∃ v vended, Steps (Vendor.step lake) Vendor.allowed Vendor.empty v ∧
      v.reply lake (.answer (scopesOf (prefixesOf [ordersPlanned])) (some issuedOnce)) =
        some (.ok (some vended)) ∧
      v.allowed (.answer (scopesOf (prefixesOf [ordersPlanned])) (some issuedOnce)) ∧
      ¬ Confined [ordersPlanned] {(staffFolder, ['q'])} vended.scopes := by
  refine ⟨_, _, asked_orders, rfl, mem_cons_self, ?_⟩
  intro hconfined
  have hunread : ∀ t ∈ [ordersPlanned], t.name ≠ staffFolder := by
    intro t ht
    rw [mem_singleton.mp ht]
    decide
  have hscope : ['s', '3', ':', '/', '/', 'l', 'a', 'k', 'e', '/', 'm', '/'] ∈
      scopesOf (prefixesOf [ordersPlanned]) := by
    decide
  exact hconfined _ (Set.mem_singleton _) hunread _ hscope (by decide)

end Substrate.Sql
