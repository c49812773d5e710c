import Substrate.Files.Catalog

/-!
The operations of `FileCatalog` that take rows away (`files/repo.py`): purging old
versions, erasing a folder, pending uploads and unregistered volumes. Those that find
objects which nothing names any more return their keys.
-/

namespace Substrate.Files

open Lib

/-- A version that is due: superseded before the cutoff, or of a file deleted before
it. -/
def due (t : Tables) (cutoff : Nat) (place : String × Nat) (row : VersionRow) : Bool :=
  row.purgedAt.isNone && (t.fileById place.1).any fun head =>
    (place.2 < head.version &&
        (t.versions.get? (place.1, place.2 + 1)).any fun successor => successor.createdAt < cutoff) ||
      head.deletedAt.any fun deletedAt => deletedAt < cutoff

def dueVersions (t : Tables) (cutoff : Nat) : List ((String × Nat) × VersionRow) :=
  t.versions.rows.filter fun row => due t cutoff row.1 row.2

def markPurged (stamp : Nat) : List ((String × Nat) × VersionRow) → Transaction Unit
  | [] => pure ()
  | row :: rest => do
      let _ ← update (.purge row.1.1 row.1.2 stamp)
      markPurged stamp rest

def Tables.names (t : Tables) (key : ObjectKey) : Bool :=
  t.versions.rows.any fun row => row.2.objectKey = key && row.2.purgedAt.isNone

def unnamed (query : Tables → ObjectKey → Bool) : List ObjectKey → Transaction (List ObjectKey)
  | [] => pure []
  | key :: rest => do
      let found ← Tx.select .versions fun t => query t key
      let garbage ← unnamed query rest
      pure (if found then garbage else key :: garbage)

/-- `purge_versions`, with the cutoff in place of the days. `order` is the order in
which the database comes upon the rows. -/
def purgeVersions (cutoff limit : Nat)
    (order : List ((String × Nat) × VersionRow) → List ((String × Nat) × VersionRow))
    (stamp : Nat) : Transaction (List ObjectKey) := do
  let rows ← Tx.select .versions fun t => (order (dueVersions t cutoff)).take limit
  markPurged stamp rows
  let garbage ← unnamed Tables.names ((rows.map fun row => row.2.objectKey).dedup)
  let _ ← update .forgetFiles
  let _ ← update .forgetVersions
  pure garbage

def Tables.filesUnder (t : Tables) (volume : String) (start : Path) : List (Path × FileRow) :=
  (t.files.rows.filter fun row => row.1.1 = volume ∧ under start row.1.2 = true).map
    fun row => (row.1.2, row.2)

def Tables.versionsOf (t : Tables) (fileId : String) : List VersionRow :=
  (t.versions.rows.filter fun row => row.1.1 = fileId).map Prod.snd

/-- Drop files with all their versions; the keys of the objects these name. -/
def dropFiles (volume : String) : List (Path × FileRow) → Transaction (List ObjectKey)
  | [] => pure []
  | (path, row) :: rest => do
      let versions ← Tx.select .versions fun t => t.versionsOf row.id
      let _ ← update (.dropVersions row.id)
      let _ ← update (.dropFile volume path row.id)
      let keys ← dropFiles volume rest
      pure (versions.map VersionRow.objectKey ++ keys)

def Tables.mentions (t : Tables) (key : ObjectKey) : Bool :=
  t.versions.rows.any fun row => row.2.objectKey = key

structure Erased where
  files : Nat
  versions : Nat
  objects : Nat
  garbage : List ObjectKey
  deriving DecidableEq, Repr

def erasePrefix (volume : String) (start : Path) : Transaction Erased := do
  let files ← Tx.select (.files volume start) fun t => t.filesUnder volume start
  let keys ← dropFiles volume files
  let garbage ← unnamed Tables.mentions keys.dedup
  pure ⟨files.length, keys.length, garbage.length, garbage⟩

def createUpload (id : String) (row : UploadRow) : Transaction Unit := do
  let _ ← update (.insertUpload id row)
  pure ()

def moveUpload (id : String) (expected state : UploadState) : Transaction Bool := do
  let moved ← update (.moveUpload id expected state)
  pure (moved ≠ 0)

def forgetUpload (id : String) : Transaction Unit := do
  let _ ← update (.dropUpload id)
  pure ()

def expiredUploads (now limit : Nat) : Transaction (List (String × UploadRow)) :=
  Tx.select (.upload "") fun t =>
    (t.uploads.rows.filter fun row => row.2.expiresAt < now).take limit

/-- `erase_uploads`, of one principal or of one volume. -/
def eraseUploads (chosen : UploadRow → Bool) : Transaction (List (String × UploadRow)) := do
  let rows ← Tx.select (.upload "") fun t => t.uploads.rows.filter fun row => chosen row.2
  let _ ← update (.dropUploads chosen)
  pure rows

def dropVolume (volume : String) : Transaction Unit := do
  let _ ← update (.dropVolume volume)
  pure ()

end Substrate.Files
