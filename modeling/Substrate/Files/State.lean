import Substrate.Lib.Transaction
import Substrate.Lib.Weight

/-!
The tables of the files domain (`catalog/store.py`) and the statements that `FileCatalog`
makes (`files/repo.py`). A volume has files, of which one row is the head: the current
version, its contents and whether the file is deleted. Every version has a row of its own
that names the stored object.
-/

namespace Substrate.Files

open Lib List

abbrev Path := List Char

structure Problem where
  status : Nat
  code : String
  detail : String
  extensions : List (String × Nat) := []
  deriving DecidableEq, Repr

def notFound (what : String) : Problem := ⟨404, "not-found", s!"{what} was not found", []⟩

structure Content where
  size : Nat
  sha256 : String
  verified : Bool
  contentType : String
  deriving DecidableEq, Repr

/-- A row of `volume_files`. -/
structure FileRow where
  id : String
  content : Content
  version : Nat
  createdBy : String
  createdAt : Nat
  updatedAt : Nat
  deletedAt : Option Nat
  deriving DecidableEq, Repr

def FileRow.live (row : FileRow) : Bool := row.deletedAt.isNone

/-- Where an object is stored (`object_key` and `session_key`). -/
inductive ObjectKey where
  | object (volume name : String)
  | session (session name : String)
  deriving DecidableEq, Repr

/-- A row of `volume_file_versions`. -/
structure VersionRow where
  volume : String
  objectKey : ObjectKey
  content : Content
  createdBy : String
  createdAt : Nat
  purgedAt : Option Nat
  deriving DecidableEq, Repr

inductive UploadState where
  | pending | completing | completed | failed | promoted
  deriving DecidableEq, Repr

def UploadState.text : UploadState → String
  | .pending => "pending"
  | .completing => "completing"
  | .completed => "completed"
  | .failed => "failed"
  | .promoted => "promoted"

/-- A row of `volume_uploads`. An upload session has no volume and no path. -/
structure UploadRow where
  target : Option (String × Path)
  objectKey : ObjectKey
  uploadId : Option String
  size : Nat
  contentType : String
  sha256 : String
  createdBy : String
  expiresAt : Nat
  state : UploadState
  deriving DecidableEq, Repr

/-- The tables. Files are under their volume and path, which are unique, and versions
under their file's id and number. -/
structure Tables where
  files : Table (String × Path) FileRow
  versions : Table (String × Nat) VersionRow
  quotas : Table String Nat
  uploads : Table String UploadRow

/-- `prefix_clause`. -/
def under (start path : Path) : Bool := start.isPrefixOf path

namespace Tables

variable (t : Tables)

def liveUnder (volume : String) (start : Path) : List (Path × FileRow) :=
  (t.files.rows.filter fun row =>
    row.1.1 = volume ∧ under start row.1.2 = true ∧ row.2.live = true).map
      fun row => (row.1.2, row.2)

def liveSize (volume : String) (start : Path) (place : String × Path) (row : FileRow) : Nat :=
  if place.1 = volume ∧ under start place.2 = true ∧ row.live = true then row.content.size else 0

def liveBytes (volume : String) (start : Path) : Nat := t.files.weight (liveSize volume start)

def fileById (id : String) : Option FileRow :=
  (t.files.rows.find? fun row => row.2.id = id).map Prod.snd

end Tables

section

variable {volume : String} {t : Tables}

theorem liveUnder_nodup (source : Path) : ((t.liveUnder volume source).map Prod.fst).Nodup := by
  unfold Tables.liveUnder
  rw [List.map_map]
  have hrows : ((t.files.rows.filter fun row =>
      row.1.1 = volume ∧ under source row.1.2 = true ∧ row.2.live = true).map Prod.fst).Nodup :=
    (filter_sublist.map Prod.fst).nodup t.files.nodup
  rw [List.Nodup, pairwise_map] at hrows ⊢
  apply hrows.imp_of_mem
  intro row row' hmem hmem' hne heq
  have hvolume : row.1.1 = volume := (of_decide_eq_true (mem_filter.mp hmem).2).1
  have hvolume' : row'.1.1 = volume := (of_decide_eq_true (mem_filter.mp hmem').2).1
  exact hne (Prod.ext (hvolume.trans hvolume'.symm) heq)

theorem under_of_mem_liveUnder {source : Path} {entry : Path × FileRow}
    (h : entry ∈ t.liveUnder volume source) : under source entry.1 = true := by
  obtain ⟨row, hrow, rfl⟩ := mem_map.mp h
  exact (of_decide_eq_true (mem_filter.mp hrow).2).2.1

end

inductive Read where
  | quota (volume : String)
  | file (volume : String) (path : Path)
  | files (volume : String) (start : Path)
  | liveBytes (volume : String)
  | version (fileId : String) (number : Nat)
  | versions
  | upload (id : String)
  deriving DecidableEq, Repr

inductive Write where
  | touchQuota (volume : String)
  | updateQuota (volume : String) (maxBytes : Nat)
  | insertQuota (volume : String) (maxBytes : Nat)
  | deleteQuota (volume : String)
  | insertFile (volume : String) (path : Path) (row : FileRow)
  | updateFile (volume : String) (path : Path) (id : String) (change : FileRow → FileRow)
  | deletePrefix (volume : String) (start : Path) (at_ : Nat)
  | insertVersion (fileId : String) (number : Nat) (row : VersionRow)
  | purge (fileId : String) (number : Nat) (at_ : Nat)
  | forgetFiles
  | forgetVersions
  | dropFile (volume : String) (path : Path) (id : String)
  | dropVersions (fileId : String)
  | insertUpload (id : String) (row : UploadRow)
  | moveUpload (id : String) (expected state : UploadState)
  | dropUpload (id : String)
  | dropUploads (chosen : UploadRow → Bool)
  | dropVolume (volume : String)

inductive Image where
  | file (volume : String) (path : Path) (row : Option FileRow)
  | version (fileId : String) (number : Nat) (row : Option VersionRow)
  | quota (volume : String) (maxBytes : Option Nat)
  | upload (id : String) (row : Option UploadRow)

inductive Key where
  | file (volume : String) (path : Path)
  | version (fileId : String) (number : Nat)
  | quota (volume : String)
  | upload (id : String)
  deriving DecidableEq

def Image.key : Image → Key
  | .file volume path _ => .file volume path
  | .version fileId number _ => .version fileId number
  | .quota volume _ => .quota volume
  | .upload id _ => .upload id

def Image.put : Image → Tables → Tables
  | .file volume path row, t => { t with files := t.files.set (volume, path) row }
  | .version fileId number row, t => { t with versions := t.versions.set (fileId, number) row }
  | .quota volume maxBytes, t => { t with quotas := t.quotas.set volume maxBytes }
  | .upload id row, t => { t with uploads := t.uploads.set id row }

def integrity : Problem := ⟨500, "internal-error", "UNIQUE constraint failed", []⟩

def Tables.kept (t : Tables) (id : String) : Bool :=
  t.versions.rows.any fun row => row.1.1 = id ∧ row.2.purgedAt.isNone = true

/-- The row images that a statement makes. -/
def Write.exec : Write → Tables → Except Problem (List Image)
  | .touchQuota volume, t =>
    .ok ((t.quotas.get? volume).toList.map fun maxBytes => .quota volume (some maxBytes))
  | .updateQuota volume maxBytes, t =>
    .ok ((t.quotas.get? volume).toList.map fun _ => .quota volume (some maxBytes))
  | .insertQuota volume maxBytes, t =>
    if (t.quotas.get? volume).isSome then .error integrity
    else .ok [.quota volume (some maxBytes)]
  | .deleteQuota volume, t =>
    .ok ((t.quotas.get? volume).toList.map fun _ => .quota volume none)
  | .insertFile volume path row, t =>
    if (t.files.get? (volume, path)).isSome then .error integrity
    else .ok [.file volume path (some row)]
  | .updateFile volume path id change, t =>
    .ok (((t.files.get? (volume, path)).filter fun old => old.id = id).toList.map
      fun old => .file volume path (some (change old)))
  | .deletePrefix volume start at_, t =>
    .ok ((t.liveUnder volume start).map fun entry =>
      .file volume entry.1 (some { entry.2 with deletedAt := some at_ }))
  | .insertVersion fileId number row, t =>
    if (t.versions.get? (fileId, number)).isSome then .error integrity
    else .ok [.version fileId number (some row)]
  | .purge fileId number at_, t =>
    .ok ((t.versions.get? (fileId, number)).toList.map fun row =>
      .version fileId number (some { row with purgedAt := some at_ }))
  | .forgetFiles, t =>
    .ok ((t.files.rows.filter fun row => !row.2.live && !t.kept row.2.id).map
      fun row => .file row.1.1 row.1.2 none)
  | .forgetVersions, t =>
    .ok ((t.versions.rows.filter fun row =>
      row.2.purgedAt.isSome && (t.fileById row.1.1).isNone).map
        fun row => .version row.1.1 row.1.2 none)
  | .dropFile volume path id, t =>
    .ok (((t.files.get? (volume, path)).filter fun old => old.id = id).toList.map
      fun _ => .file volume path none)
  | .dropVersions fileId, t =>
    .ok ((t.versions.rows.filter fun row => row.1.1 = fileId).map
      fun row => .version row.1.1 row.1.2 none)
  | .insertUpload id row, t =>
    if (t.uploads.get? id).isSome then .error integrity else .ok [.upload id (some row)]
  | .moveUpload id expected state, t =>
    .ok (((t.uploads.get? id).filter fun row => row.state = expected).toList.map
      fun row => .upload id (some { row with state := state }))
  | .dropUpload id, t =>
    .ok ((t.uploads.get? id).toList.map fun _ => .upload id none)
  | .dropUploads chosen, t =>
    .ok ((t.uploads.rows.filter fun row => chosen row.2).map fun row => .upload row.1 none)
  | .dropVolume volume, t =>
    .ok ((t.versions.rows.filter fun row => row.2.volume = volume).map
        (fun row => .version row.1.1 row.1.2 none) ++
      (t.files.rows.filter fun row => row.1.1 = volume).map
        (fun row => .file row.1.1 row.1.2 none) ++
      [.quota volume none])

def database : Engine Tables Write Image Key Problem := ⟨Write.exec, Image.put, Image.key⟩

abbrev Transaction (α : Type) := Tx Tables Read Write Problem α

def after {α : Type} (t : Transaction α) (tables : Tables) : Tables :=
  match database.run t tables with
  | .ok (_, tables') => tables'
  | .error _ => tables

end Substrate.Files
