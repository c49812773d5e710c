import Substrate.Documents.Stores
import Substrate.Lib.Process

/-!
Keyed bytes, as a table of names beside a folder of contents (`stores/file_tables.py`). A
row names a file in the folder. Each operation writes and removes files of the folder
around one transaction, which can be run again when the database asks for it.
-/

namespace Substrate.Blobs

open Documents Files Lib

structure Blob where
  bytes : List UInt8
  mtime : Nat
  deriving DecidableEq, Repr

/-- A row of `file_objects`, but for its key. -/
structure BlobRow where
  tenant : Option Path
  blob : String
  size : Nat
  contentType : String
  mtime : Nat
  deriving DecidableEq, Repr

abbrev Rows := Table Path BlobRow

structure Store where
  rows : Rows
  blobs : Table String Blob

/-- What is raised: by the operation itself, by a database that aborts a transaction, by
anything else that fails, or by whoever cancels the call. -/
inductive Trouble where
  | refused (failure : Failure)
  | locked
  | broken
  | cancelled
  deriving DecidableEq, Repr

/-- `is_retryable`. -/
def Trouble.retryable : Trouble → Bool
  | .locked => true
  | _ => false

/-- What the surroundings decide of a step: that it fails, that the call is cancelled
once it is done, a new name and the time. -/
structure Chance where
  fault : Option Trouble
  late : Bool
  fresh : String
  now : Nat

structure Copied where
  source : Path
  target : Path
  row : BlobRow
  deriving DecidableEq, Repr

/-- What a transaction does to the rows. With a row that is put stand the bytes that
were uploaded. -/
inductive Change where
  | nothing
  | put (key : Path) (row : BlobRow) (data : List UInt8)
  | drop (keys : List Path)
  | copy (files : List Copied)

local instance lawfulText : LawfulBEq (List Char) := inferInstance

def Change.apply : Change → Rows → Rows
  | .nothing, rows => rows
  | .put key row _, rows => rows.set key (some row)
  | .drop keys, rows => rows.filter fun key _ => key ∉ keys
  | .copy files, rows => files.foldl (fun rows file => rows.set file.target (some file.row)) rows

inductive Deed where
  | look
  | issue
  | write (blob : String) (data : List UInt8)
  | begin_
  | link (source destination : String)
  | commit (change : Change)
  | rollback
  | remove (blob : String)
  | collect (blob : String)

/-- What a step does to the rows and the folder. A link keeps the time of its source. -/
def Deed.effect : Deed → Chance → Store → Store
  | .write blob data, c, s => { s with blobs := s.blobs.set blob (some ⟨data, c.now⟩) }
  | .link source destination, _, s =>
    match s.blobs.get? source with
    | none => s
    | some found => { s with blobs := s.blobs.set destination (some found) }
  | .commit change, _, s => { s with rows := change.apply s.rows }
  | .remove blob, _, s => { s with blobs := s.blobs.erase blob }
  | .collect blob, _, s => { s with blobs := s.blobs.erase blob }
  | _, _, s => s

def Deed.fails : Deed → Bool
  | .look | .issue | .rollback | .remove _ | .collect _ => false
  | _ => true

def Deed.fault (deed : Deed) (c : Chance) (s : Store) : Option Trouble :=
  match deed with
  | .link source _ =>
    c.fault.or (if s.blobs.get? source = none then some .broken else none)
  | _ => if deed.fails then c.fault else none

def Deed.apply (deed : Deed) (c : Chance) (s : Store) : Store :=
  match deed.fault c s with
  | some _ => s
  | none => deed.effect c s

def Deed.result (deed : Deed) (c : Chance) (s : Store) : Except Trouble Unit :=
  match deed.fault c s with
  | some trouble => .error trouble
  | none => if deed.fails && c.late then .error .cancelled else .ok ()

abbrev Op (α : Type) := Process Chance Store Deed Trouble α

def look {α : Type} (query : Store → α) : Op α := .perform .look fun _ s => .ok (query s)

/-- `time.time()`. -/
def clock : Op Nat := .perform .look fun c _ => .ok c.now

/-- `uuid.uuid4().hex`. -/
def issue : Op String := .perform .issue fun c _ => .ok c.fresh

def act (deed : Deed) : Op Unit := .perform deed deed.result

def tried (deed : Deed) : Op (Except Trouble Unit) := .perform deed fun c s => .ok (deed.result c s)

/-- What is done within a transaction, given the links made so far: those made since, and
the change and the answer. -/
abbrev Body (α : Type) := List String → Op (List String × Except Trouble (Change × α))

/-- `async with transaction() as tx: return await fn(tx)`. -/
def once {α : Type} (body : Body α) (linked : List String) :
    Op (List String × Except Trouble α) := do
  match ← tried .begin_ with
  | .error trouble => pure (linked, .error trouble)
  | .ok () =>
    match ← body linked with
    | (linked, .error trouble) =>
      act .rollback
      pure (linked, .error trouble)
    | (linked, .ok (change, answer)) =>
      match ← tried (.commit change) with
      | .error trouble =>
        act .rollback
        pure (linked, .error trouble)
      | .ok () => pure (linked, .ok answer)

def attempts : Nat := 4

/-- `run`, with the number of times that it may still be run again. -/
def run {α : Type} (body : Body α) : Nat → List String → Op (List String × Except Trouble α)
  | 0, linked => once body linked
  | again + 1, linked => do
      match ← once body linked with
      | (linked, .error trouble) =>
        if trouble.retryable then run body again linked else pure (linked, .error trouble)
      | done => pure done

def used (rows : Rows) (tenant : Path) : Nat := rows.weight fun _ row =>
  if row.tenant = some tenant then row.size else 0

def enforce (quota : Path → Option Nat) (rows : Rows) (tenant : Option Path)
    (adding replacing : Nat) : Except Trouble Unit :=
  match tenant.bind fun t => (quota t).map fun limit => (t, limit) with
  | none => .ok ()
  | some (t, limit) =>
    if (limit : Int) < (used rows t : Int) - replacing + adding then
      .error (.refused (.quotaExceeded t (used rows t) limit))
    else .ok ()

def checked (key : Path) : Op Unit :=
  match FileTable.check key with
  | .error failure => .raise (.refused failure)
  | .ok () => pure ()

def removeAll : List String → Op Unit
  | [] => pure ()
  | blob :: rest => do
      act (.remove blob)
      removeAll rest

/-- The transaction of `upload`. -/
def uploadBody (quota : Path → Option Nat) (key : Path) (data : List UInt8)
    (contentType blob : String) : Body (Option String) := fun linked => do
  let rows ← look Store.rows
  let previous := rows.get? key
  match enforce quota rows (FileTable.tenantOf key) data.length
      ((previous.map BlobRow.size).getD 0) with
  | .error trouble => pure (linked, .error trouble)
  | .ok () => do
      let now ← clock
      let row : BlobRow := ⟨FileTable.tenantOf key, blob, data.length, contentType, now⟩
      pure (linked, .ok (.put key row data, previous.map BlobRow.blob))

def upload (quota : Path → Option Nat) (key : Path) (data : List UInt8) (contentType : String) :
    Op Unit := do
  checked key
  let blob ← issue
  act (.write blob data)
  match ← run (uploadBody quota key data contentType blob) (attempts - 1) [] with
  | (_, .error trouble) =>
    act (.remove blob)
    .raise trouble
  | (_, .ok replaced) => removeAll replaced.toList

/-- The transaction of `delete`. -/
def deleteBody (key : Path) : Body (Option String) := fun linked => do
  let rows ← look Store.rows
  match rows.get? key with
  | none => pure (linked, .ok (.nothing, none))
  | some row => pure (linked, .ok (.drop [key], some row.blob))

def delete (key : Path) : Op Unit := do
  checked key
  match ← run (deleteBody key) (attempts - 1) [] with
  | (_, .error trouble) => .raise trouble
  | (_, .ok gone) => removeAll gone.toList

/-- The transaction of `delete_prefix`. -/
def deletePrefixBody (start : Path) : Body (List String) := fun linked => do
  let rows ← look Store.rows
  let found := rows.rows.filter fun row => FileTable.chosen start row.1
  pure (linked, .ok (.drop (found.map Prod.fst), found.map fun row => row.2.blob))

def deletePrefix (start : Path) : Op Nat := do
  checked start
  match ← run (deletePrefixBody start) (attempts - 1) [] with
  | (_, .error trouble) => .raise trouble
  | (_, .ok blobs) => do
      removeAll blobs
      pure blobs.length

def inside (rows : Rows) (start : Path) : List (Path × BlobRow) :=
  inOrder (rows.rows.filter fun row => FileTable.inside start row.1)

def targetOf (source destination key : Path) : Path := destination ++ key.drop source.length

/-- The loop of `copy_prefix`. -/
def linkAll (source destination : Path) : List (Path × BlobRow) → List Copied → Body Nat
  | [], copied, linked => pure (linked, .ok (.copy copied, copied.length))
  | (key, row) :: rest, copied, linked => do
      let blob ← issue
      match ← tried (.link row.blob blob) with
      | .error trouble => pure (linked, .error trouble)
      | .ok () => do
          let now ← clock
          let target := targetOf source destination key
          let new : BlobRow := ⟨FileTable.tenantOf target, blob, row.size, row.contentType, now⟩
          linkAll source destination rest (copied ++ [⟨key, target, new⟩]) (linked ++ [blob])

def replaced (rows : Rows) (source destination : Path) (found : List (Path × BlobRow)) : Nat :=
  (found.map fun entry =>
    ((rows.get? (targetOf source destination entry.1)).map BlobRow.size).getD 0).sum

/-- The transaction of `copy_prefix`. -/
def copyBody (quota : Path → Option Nat) (source destination : Path) : Body Nat := fun linked => do
  let rows ← look Store.rows
  let found := inside rows source
  match enforce quota rows (FileTable.tenantOf destination)
      (found.map fun entry => entry.2.size).sum (replaced rows source destination found) with
  | .error trouble => pure (linked, .error trouble)
  | .ok () => linkAll source destination found [] linked

def copyPrefix (quota : Path → Option Nat) (sourcePrefix destPrefix : Path) : Op Nat := do
  let source := FileTable.stem sourcePrefix
  let destination := FileTable.stem destPrefix
  checked source
  checked destination
  match ← run (copyBody quota source destination) (attempts - 1) [] with
  | (linked, .error trouble) => do
      removeAll linked
      .raise trouble
  | (_, .ok copied) => pure copied

/-- The loop of `sweep`, in `collect_garbage`. -/
def sweep (referenced : List String) (cutoff : Nat → Bool) : List String → Op Nat
  | [] => pure 0
  | blob :: rest =>
    if blob ∈ referenced then sweep referenced cutoff rest
    else do
      let found ← look fun s => s.blobs.get? blob
      if found.any fun blob => cutoff blob.mtime then do
        act (.collect blob)
        let removed ← sweep referenced cutoff rest
        pure (removed + 1)
      else sweep referenced cutoff rest

/-- The transaction of `collect_garbage`. -/
def referencedBody : Body (List String) := fun linked => do
  let rows ← look Store.rows
  pure (linked, .ok (.nothing, rows.rows.map fun row => row.2.blob))

def collectGarbage (minAge : Nat) : Op Nat := do
  match ← run referencedBody (attempts - 1) [] with
  | (_, .error trouble) => .raise trouble
  | (_, .ok referenced) => do
      let now ← clock
      let names ← look fun s => s.blobs.rows.map Prod.fst
      sweep referenced (fun mtime => mtime + minAge < now) names

end Substrate.Blobs
