import Mathlib.Data.Char
import Mathlib.Data.List.DropRight
import Mathlib.Data.List.Lex
import Substrate.Files.Catalog
import Substrate.Files.Paths
import Substrate.Lib.Paging

/-!
The two file stores that a document library can keep its bundles in: a table of keys
(`stores/file_tables.py`) and the volumes of the tenants (`documents/volume.py`). The
first keeps every key as it is; the second takes a key apart into a tenant and a path, and
brings the path to normal form.
-/

namespace Substrate.Documents

open Files Lib

inductive Call where
  | upload (key : Path) (data : List UInt8) (now : Nat)
  | download (key : Path)
  | delete (key : Path) (now : Nat)
  | listPrefix (start : Path)
  | deletePrefix (start : Path) (now : Nat)
  deriving DecidableEq, Repr

structure Entry where
  key : Path
  size : Nat
  mtime : Nat
  deriving DecidableEq, Repr

inductive Answer where
  | done
  | bytes (data : List UInt8)
  | entries (found : List Entry)
  | removed (files : Nat)
  deriving DecidableEq, Repr

inductive Failure where
  | workspacePath (text : String)
  | quotaExceeded (tenant : Path) (used quota : Nat)
  | keyError (text : String)
  | objectNotFound (key : Path)
  | problem (problem : Problem)
  deriving DecidableEq, Repr

inductive Kind where
  | missing | tooMuch | refused
  deriving DecidableEq, Repr

def Failure.kind : Failure → Kind
  | .keyError _ | .objectNotFound _ => .missing
  | .quotaExceeded _ _ _ => .tooMuch
  | .problem p => if p.code = "quota-exceeded" then .tooMuch else .refused
  | .workspacePath _ => .refused

/-- What is set up around the stores: the normal form of texts, the tenants with a volume
and the quotas of the tenants. -/
structure Setting where
  nfc : Path → Path
  provisioned : Path → Bool
  quota : Path → Option Nat

/-- A row of `file_objects`. -/
structure FileObject where
  tenant : Option Path
  data : List UInt8
  mtime : Nat
  deriving DecidableEq, Repr

/-- `Files`. -/
abbrev FileTable := Table Path FileObject

namespace FileTable

local instance lawfulText : LawfulBEq (List Char) := inferInstance

def check (key : Path) : Except Failure Unit :=
  if key = [] ∨ key.head? = some '/' ∨ Char.ofNat 0 ∈ key ∨ ['.', '.'] ∈ key.splitOn '/' then
    let name := String.ofList key
    .error (.workspacePath s!"Invalid workspace key: '{name}'")
  else .ok ()

def tenantOf (key : Path) : Option Path :=
  match key.splitOn '/' with
  | first :: tenant :: _ => if first = "tenants".toList ∧ tenant ≠ [] then some tenant else none
  | _ => none

/-- `prefix.rstrip("/") or prefix`. -/
def stem (start : Path) : Path :=
  let bare := start.rdropWhile fun c => c = '/'
  if bare = [] then start else bare

/-- `_under`. -/
def inside (start key : Path) : Bool := (stem start ++ ['/']).isPrefixOf key

variable (setting : Setting) (files : FileTable)

def used (tenant : Path) : Nat :=
  ((files.rows.filter fun row => row.2.tenant = some tenant).map fun row =>
    row.2.data.length).sum

def enforce (tenant : Option Path) (adding replacing : Nat) : Except Failure Unit :=
  match tenant.bind fun t => (setting.quota t).map fun quota => (t, quota) with
  | none => .ok ()
  | some (t, quota) =>
    if (quota : Int) < (files.used t : Int) - replacing + adding then
      .error (.quotaExceeded t (files.used t) quota)
    else .ok ()

def upload (key : Path) (data : List UInt8) (now : Nat) :
    Except Failure (Answer × FileTable) := do
  check key
  let replacing := ((files.get? key).map fun row => row.data.length).getD 0
  files.enforce setting (tenantOf key) data.length replacing
  .ok (.done, files.set key (some ⟨tenantOf key, data, now⟩))

def download (key : Path) : Except Failure (Answer × FileTable) := do
  check key
  match files.get? key with
  | none =>
    let name := String.ofList key
    .error (.keyError s!"Object not found: {name}")
  | some row => .ok (.bytes row.data, files)

def delete (key : Path) : Except Failure (Answer × FileTable) := do
  check key
  .ok (.done, files.erase key)

def listPrefix (start : Path) : Except Failure (Answer × FileTable) :=
  match check start with
  | .error _ => .ok (.entries [], files)
  | .ok _ =>
    let found := inOrder (files.rows.filter fun row => inside start row.1)
    .ok (.entries (found.map fun row => ⟨row.1, row.2.data.length, row.2.mtime⟩), files)

/-- The rows that `delete_prefix` is about: those under the prefix, and the file of its
name. -/
def chosen (start key : Path) : Bool := key = stem start || inside start key

def deletePrefix (start : Path) : Except Failure (Answer × FileTable) := do
  check start
  let found := files.rows.filter fun row => chosen start row.1
  .ok (.removed found.length, files.filter fun key _ => !chosen start key)

def perform (files : FileTable) : Call → Except Failure (Answer × FileTable)
  | .upload key data now => files.upload setting key data now
  | .download key => files.download key
  | .delete key _ => files.delete key
  | .listPrefix start => files.listPrefix start
  | .deletePrefix start _ => files.deletePrefix start

end FileTable

structure VolumeFile where
  data : List UInt8
  mtime : Nat
  deletedAt : Option Nat
  deriving DecidableEq, Repr

def VolumeFile.live (file : VolumeFile) : Bool := file.deletedAt.isNone

abbrev Volumes := Table (Path × Path) VolumeFile

def tenantPrefix : Path := "tenants/".toList

def keyOf (tenant path : Path) : Path := tenantPrefix ++ tenant ++ '/' :: path

namespace Volumes

/-- `str.partition("/")`, without the separator. -/
def partition (text : Path) : Path × Path :=
  (text.takeWhile fun c => c ≠ '/', (text.dropWhile fun c => c ≠ '/').drop 1)

def splitKey (key : Path) : Except Failure (Path × Path) :=
  let name := String.ofList key
  if tenantPrefix.isPrefixOf key then
    let parts := partition (key.drop tenantPrefix.length)
    if parts.1 = [] ∨ parts.2 = [] then .error (.workspacePath s!"invalid key '{name}'")
    else .ok parts
  else
    .error (.workspacePath s!"invalid key '{name}': keys start with 'tenants/<tenant>/'")

def splitPrefix (start : Path) : Except Failure (Path × Path) :=
  let name := String.ofList start
  if tenantPrefix.isPrefixOf start then
    let parts := partition (start.drop tenantPrefix.length)
    if parts.1 = [] then .error (.workspacePath s!"invalid prefix '{name}': no tenant")
    else .ok parts
  else
    .error (.workspacePath s!"invalid prefix '{name}': prefixes start with 'tenants/<tenant>/'")

def raised {α : Type} : Except Problem α → Except Failure α
  | .ok a => .ok a
  | .error p => .error (.problem p)

variable (setting : Setting) (volumes : Volumes)

/-- `volume`, and `tenant_volume`. -/
def volume (tenant : Path) : Except Failure Unit :=
  if setting.provisioned tenant then .ok ()
  else
    .error (.problem ⟨409, "tenant-not-provisioned", "The tenant has no workspace volume yet", []⟩)

/-- The live file under a path (`head`). -/
def head (tenant path : Path) : Option VolumeFile :=
  (volumes.get? (tenant, path)).filter VolumeFile.live

def liveBytes (tenant : Path) : Nat :=
  ((volumes.rows.filter fun row => row.1.1 = tenant ∧ row.2.live = true).map fun row =>
    row.2.data.length).sum

def upload (key : Path) (data : List UInt8) (now : Nat) :
    Except Failure (Answer × Volumes) := do
  let (tenant, raw) ← splitKey key
  let path ← raised (normalizePath setting.nfc raw)
  volume setting tenant
  let replacing := ((volumes.head tenant path).map fun file => file.data.length).getD 0
  raised (checkQuota (volumes.liveBytes tenant) data.length (setting.quota tenant) replacing)
  .ok (.done, volumes.set (tenant, path) (some ⟨data, now, none⟩))

def download (key : Path) : Except Failure (Answer × Volumes) := do
  let (tenant, raw) ← splitKey key
  let path ← raised (normalizePath setting.nfc raw)
  volume setting tenant
  match volumes.head tenant path with
  | none => .error (.objectNotFound key)
  | some file => .ok (.bytes file.data, volumes)

def delete (key : Path) (now : Nat) : Except Failure (Answer × Volumes) := do
  let (tenant, raw) ← splitKey key
  volume setting tenant
  let path ← raised (normalizePath setting.nfc raw)
  .ok (.done, volumes.modify (tenant, path) fun file =>
    if file.live then { file with deletedAt := some now } else file)

def within (tenant start : Path) : List (Path × VolumeFile) :=
  (volumes.rows.filter fun row =>
    row.1.1 = tenant ∧ row.2.live = true ∧ under start row.1.2 = true).map
      fun row => (row.1.2, row.2)

def pageSize : Nat := 1000

def listPrefix (start : Path) : Except Failure (Answer × Volumes) := do
  let (tenant, raw) ← splitPrefix start
  volume setting tenant
  let path ← raised (normalizePrefix setting.nfc raw)
  let rows := inOrder (volumes.within tenant path)
  let found := pages pageSize rows (rows.length + 1) []
  .ok (.entries (found.map fun row =>
    ⟨keyOf tenant row.1, row.2.data.length, row.2.mtime⟩), volumes)

def deletePrefix (start : Path) (now : Nat) : Except Failure (Answer × Volumes) := do
  let (tenant, raw) ← splitPrefix start
  volume setting tenant
  let path ← raised (normalizePrefix setting.nfc raw)
  .ok (.removed (volumes.within tenant path).length, volumes.map fun place file =>
    if place.1 = tenant ∧ file.live = true ∧ under path place.2 = true then
      { file with deletedAt := some now }
    else file)

def perform (volumes : Volumes) : Call → Except Failure (Answer × Volumes)
  | .upload key data now => volumes.upload setting key data now
  | .download key => volumes.download setting key
  | .delete key now => volumes.delete setting key now
  | .listPrefix start => volumes.listPrefix setting start
  | .deletePrefix start now => volumes.deletePrefix setting start now

end Volumes

end Substrate.Documents
