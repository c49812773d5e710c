import Substrate.Files.Cleaning
import Substrate.Lib.Process

/-!
The files service (`files/service.py`) and the erasure of files (`routes/erasure.py`).
Each operation is a process: a sequence of transactions and of steps in the object store,
any of which may fail. The state is the tables, the stored objects and the volumes of the
catalog.
-/

namespace Substrate.Files

open Lib

/-- A stored object: its bytes, and their SHA-256 where the store keeps one. -/
structure Blob where
  bytes : List UInt8
  checksum : Option String
  deriving DecidableEq, Repr

structure Store where
  tables : Tables
  objects : Table ObjectKey Blob
  assets : List String
  issued : List String

/-- What the surroundings decide: whether a step fails, what a client has sent, a new
name and the time. -/
structure Chance where
  fault : Bool
  incomplete : Bool
  blob : Blob
  fresh : String
  now : Nat

/-- `Principal`, as far as the files domain reads it. -/
structure Principal where
  id : String
  subject : String
  actor : Option String
  isAdmin : Bool
  groups : List String
  deriving DecidableEq, Repr

structure Settings where
  maxFileBytes : Nat
  sessionTtl : Nat
  retention : Nat
  sweepLimit : Nat := 500
  purgeLimit : Nat := 1000

inductive Call where
  | commit (volume : String) (path : Path) (key : ObjectKey) (content : Content) (by_ : String)
      (ifMatch : Option Nat) (ifNoneMatch : Bool) (id : String) (stamp : Nat)
  | softDelete (volume : String) (path : Path) (ifMatch : Option Nat) (stamp : Nat)
  | deletePrefix (volume : String) (start : Path) (stamp : Nat)
  | copyPrefix (volume : String) (source destination : Path) (by_ : String) (overwrite : Bool)
      (order : List (Path × FileRow) → List (Path × FileRow)) (newId : Path → String)
      (stamp : Nat)
  | restore (volume : String) (path : Path) (version : Option Nat) (by_ : String)
      (ifMatch : Option Nat) (id : String) (stamp : Nat)
  | purge (cutoff limit : Nat)
      (order : List ((String × Nat) × VersionRow) → List ((String × Nat) × VersionRow))
      (stamp : Nat)
  | erase (volume : String) (start : Path)
  | createUpload (id : String) (row : UploadRow)
  | moveUpload (id : String) (expected state : UploadState)
  | forgetUpload (id : String)
  | eraseUploads (chosen : UploadRow → Bool)
  | dropVolume (volume : String)

def Call.apply : Call → Tables → Tables
  | .commit volume path key content by_ ifMatch ifNoneMatch id stamp =>
    after (commitVersion volume path key content by_ ifMatch ifNoneMatch id stamp)
  | .softDelete volume path ifMatch stamp => after (Files.softDelete volume path ifMatch stamp)
  | .deletePrefix volume start stamp => after (Files.deletePrefix volume start stamp)
  | .copyPrefix volume source destination by_ overwrite order newId stamp =>
    after (Files.copyPrefix volume source destination by_ overwrite order newId stamp)
  | .restore volume path version by_ ifMatch id stamp =>
    after (Files.restore volume path version by_ ifMatch id stamp)
  | .purge cutoff limit order stamp => after (purgeVersions cutoff limit order stamp)
  | .erase volume start => after (erasePrefix volume start)
  | .createUpload id row => after (Files.createUpload id row)
  | .moveUpload id expected state => after (Files.moveUpload id expected state)
  | .forgetUpload id => after (Files.forgetUpload id)
  | .eraseUploads chosen => after (Files.eraseUploads chosen)
  | .dropVolume volume => after (Files.dropVolume volume)

inductive Reason where
  | rejected (upload : String)
  | discarded (upload : String)
  | copied
  | expired (upload : String)
  | erased (upload : String)
  | garbage
  deriving DecidableEq, Repr

inductive Deed where
  | look
  | issue
  | call (call : Call)
  | put (key : ObjectKey)
  | write (key : ObjectKey) (blob : Blob)
  | copy (source destination : ObjectKey)
  | delete (why : Reason) (keys : List ObjectKey)
  | deleteVolume (volume : String)
  | unregister (volume : String)

def ObjectKey.within (volume : String) : ObjectKey → Bool
  | .object owner _ => owner = volume
  | .session _ _ => false

/-- What a deed does. A step in the object store that fails does nothing. -/
def Deed.apply : Deed → Chance → Store → Store
  | .look, _, s => s
  | .issue, c, s => { s with issued := c.fresh :: s.issued }
  | .call request, _, s => { s with tables := request.apply s.tables }
  | .put key, c, s =>
    if c.fault ∨ c.incomplete then s else { s with objects := s.objects.set key (some c.blob) }
  | .write key blob, c, s =>
    if c.fault then s else { s with objects := s.objects.set key (some blob) }
  | .copy source destination, c, s =>
    if c.fault then s
    else
      match s.objects.get? source with
      | none => s
      | some blob => { s with objects := s.objects.set destination (some blob) }
  | .delete _ keys, c, s =>
    if c.fault then s else { s with objects := s.objects.filter fun key _ => key ∉ keys }
  | .deleteVolume volume, c, s =>
    if c.fault then s
    else { s with objects := s.objects.filter fun key _ => !key.within volume }
  | .unregister volume, _, s => { s with assets := s.assets.filter (· ≠ volume) }

abbrev Op (α : Type) := Process Chance Store Deed Problem α

def fail {α : Type} (problem : Problem) : Op α := .raise problem

def storageUnavailable : Problem := ⟨503, "storage-unavailable", "Object storage is unavailable", []⟩

def look {α : Type} (query : Store → α) : Op α := Process.perform .look fun _ s => .ok (query s)

def clock : Op Nat := Process.perform .look fun c _ => .ok c.now

/-- A new name (`uuid4`). -/
def issue : Op String := Process.perform .issue fun c _ => .ok c.fresh

def transact {α : Type} (call : Call) (t : Transaction α) : Op α :=
  Process.perform (.call call) fun _ s => (database.run t s.tables).map Prod.fst

/-- `VolumeStorage.head`. -/
def headObject (key : ObjectKey) : Op (Option Blob) :=
  Process.perform .look fun c s =>
    if c.fault then .error storageUnavailable else .ok (s.objects.get? key)

/-- `VolumeStorage.delete`. -/
def deleteObjects (why : Reason) (keys : List ObjectKey) : Op Unit :=
  Process.perform (.delete why keys) fun c _ =>
    if c.fault then .error storageUnavailable else .ok ()

/-- `VolumeStorage.complete_multipart`: the object is there once its parts are put
together. -/
def completeMultipart (key : ObjectKey) : Op Unit :=
  Process.perform (.put key) fun c _ =>
    if c.fault then .error storageUnavailable
    else if c.incomplete then
      .error ⟨409, "upload-incomplete", "The upload is missing parts or a part is wrong", []⟩
    else .ok ()

/-- `VolumeStorage.copy`. -/
def copyObject (source destination : ObjectKey) : Op Unit :=
  Process.perform (.copy source destination) fun c s =>
    if c.fault then .error storageUnavailable
    else if (s.objects.get? source).isNone then
      .error ⟨409, "upload-incomplete", "The source object is missing", []⟩
    else .ok ()

def upload (id : String) : Op UploadRow :=
  Process.perform .look fun _ s =>
    match s.tables.uploads.get? id with
    | none => .error (notFound "Upload")
    | some row => .ok row

def head (volume : String) (path : Path) : Op (Option FileRow) :=
  look fun s => (s.tables.files.get? (volume, path)).filter FileRow.live

def move (id : String) (expected state : UploadState) : Op Bool :=
  transact (.moveUpload id expected state) (moveUpload id expected state)

def suppress (p : Op Unit) : Op Unit := p.catching fun _ => .ret ()

/-- The access rule of paths (`PathPolicy.authorize`), for a caller that writes. -/
abbrev WriteRule := Principal → Path → Except Problem Unit

def allow (r : Except Problem Unit) : Op Unit :=
  match r with
  | .ok () => .ret ()
  | .error problem => .raise problem

def failFast (volume : String) (path : Path) (size : Nat) (ifMatch : Option Nat)
    (ifNoneMatch : Bool) : Op Unit := do
  let found ← head volume path
  allow (writeGuard found ifMatch ifNoneMatch)
  let used ← look fun s => s.tables.liveBytes volume []
  let quota ← look fun s => s.tables.quotas.get? volume
  allow (checkQuota used size quota (liveSizeOf found))

def maxPending : Nat := 1000

def pendingAllowed (caller : Principal) : Op Unit := do
  let count ← look fun s =>
    s.tables.uploads.count fun row => row.createdBy = caller.id && row.state = .pending
  if count + 1 > maxPending then
    fail ⟨429, "rate-limited", "Too many unfinished uploads; finish or wait for them to expire",
      [("retry_after", 60)]⟩
  else .ret ()

/-- `VolumeStorage.begin_upload`: the id of a multipart upload. -/
def beginUpload : Op String :=
  Process.perform .issue fun c _ => if c.fault then .error storageUnavailable else .ok c.fresh

/-- The row of a new upload, and the rest of `initiate_upload` and `create_session`. -/
def openUpload (settings : Settings) (caller : Principal) (target : Option (String × Path))
    (key : ObjectKey) (size : Nat) (contentType sha256 : String) (multipart : Bool) :
    Op String := do
  let uploadId ← beginUpload
  let id ← issue
  let now ← clock
  let row : UploadRow := ⟨target, key, if multipart then some uploadId else none, size,
    contentType, sha256, caller.id, now + settings.sessionTtl, .pending⟩
  transact (.createUpload id row) (createUpload id row)
  pure id

def singlePutMax : Nat := 64 * 1024 * 1024

def initiateUpload (settings : Settings) (volume : String) (caller : Principal) (path : Path)
    (size : Nat) (contentType sha256 : String) (ifMatch : Option Nat) (ifNoneMatch : Bool) :
    Op String := do
  if size > settings.maxFileBytes then
    fail ⟨413, "payload-too-large", "The file exceeds the maximum file size", []⟩
  else do
    failFast volume path size ifMatch ifNoneMatch
    pendingAllowed caller
    let name ← issue
    openUpload settings caller (some (volume, path)) (.object volume name) size contentType sha256
      (singlePutMax < size)

def createSession (settings : Settings) (caller : Principal) (size : Nat)
    (contentType sha256 : String) : Op String := do
  if size > settings.maxFileBytes then
    fail ⟨413, "payload-too-large", "The file exceeds the maximum file size", []⟩
  else do
    pendingAllowed caller
    let session ← issue
    let name ← issue
    openUpload settings caller none (.session session name) size contentType sha256
      (singlePutMax < size)

def claim (id : String) (row : UploadRow) (caller : Principal) : Op Unit := do
  if row.createdBy ≠ caller.id ∧ caller.isAdmin = false then
    fail (notFound "Upload")
  else do
    let now ← clock
    if row.expiresAt < now ∧ row.state ≠ .completed then
      fail ⟨410, "upload-expired", "The upload expired; start again", []⟩
    else do
      let moved ← move id .pending .completing
      if moved then .ret ()
      else do
        let current ← upload id
        fail ⟨409, "conflict", s!"The upload is already {current.state.text}", []⟩

/-- The multipart half of `_verified_object`. -/
def assembled (row : UploadRow) (parts : Bool) : Op Unit :=
  if row.uploadId.isSome then
    if parts = false then
      fail ⟨400, "invalid-request", "Part ETags are required to complete", []⟩
    else completeMultipart row.objectKey
  else .ret ()

/-- The other half of `_verified_object`: size and checksum of what has arrived. -/
def checkedObject (id : String) (row : UploadRow) : Op (String × Bool) := do
  match (← headObject row.objectKey) with
  | none => fail ⟨409, "upload-incomplete", "The upload is missing or incomplete", []⟩
  | some blob =>
    if blob.bytes.length ≠ row.size then do
      deleteObjects (.rejected id) [row.objectKey]
      fail ⟨409, "upload-size-mismatch",
        s!"{blob.bytes.length} bytes arrived, {row.size} were declared", []⟩
    else if row.sha256 ≠ "" ∧ blob.checksum.isSome ∧ blob.checksum ≠ some row.sha256 then do
      deleteObjects (.rejected id) [row.objectKey]
      fail ⟨409, "checksum-mismatch", "The uploaded bytes do not match the SHA-256", []⟩
    else
      pure (if row.sha256 ≠ "" then row.sha256 else blob.checksum.getD "", blob.checksum.isSome)

def verifiedObject (id : String) (row : UploadRow) (parts : Bool) : Op (String × Bool) := do
  assembled row parts
  checkedObject id row

def Problem.again (problem : Problem) : Bool :=
  problem.status = 503 || problem.code = "upload-incomplete"

/-- What becomes of an upload that could not be completed. -/
def giveUp (id : String) (row : UploadRow) (problem : Problem) : Op Unit := do
  if problem.again then do
    let _ ← move id .completing .pending
    pure ()
  else do
    let _ ← move id .completing .failed
    suppress (deleteObjects (.discarded id) [row.objectKey])

/-- The upload's version, of an object under a key. -/
def commitUpload (volume : String) (path : Path) (key : ObjectKey) (row : UploadRow)
    (verified : String × Bool) (caller : Principal) (ifMatch : Option Nat) (ifNoneMatch : Bool) :
    Op FileRow := do
  let content : Content := ⟨row.size, verified.1, verified.2, row.contentType⟩
  let id ← issue
  let now ← clock
  transact (.commit volume path key content caller.id ifMatch ifNoneMatch id now)
    (commitVersion volume path key content caller.id ifMatch ifNoneMatch id now)

def completeUpload (rule : WriteRule) (volume : String) (caller : Principal) (id : String)
    (parts : Bool) (ifMatch : Option Nat) (ifNoneMatch : Bool) : Op FileRow := do
  let row ← upload id
  match row.target with
  | none => fail (notFound "Upload")
  | some (owner, path) =>
    if owner ≠ volume ∨ (row.createdBy ≠ caller.id ∧ caller.isAdmin = false) then
      fail (notFound "Upload")
    else do
      allow (rule caller path)
      let found ← (if row.state = .completed then head volume path else .ret none)
      match found with
      | some found => pure found
      | none => do
          claim id row caller
          let head ← ((do
              let verified ← verifiedObject id row parts
              commitUpload volume path row.objectKey row verified caller ifMatch ifNoneMatch) :
                Op FileRow).catching fun problem => do
              giveUp id row problem
              fail problem
          let _ ← move id .completing .completed
          pure head

def promote (rule : WriteRule) (volume : String) (caller : Principal) (id : String)
    (path : Path) (parts : Bool) (ifMatch : Option Nat) (ifNoneMatch : Bool) : Op FileRow := do
  let row ← upload id
  if row.target.isSome ∨ (row.createdBy ≠ caller.id ∧ caller.isAdmin = false) then
    fail (notFound "Upload session")
  else do
    allow (rule caller path)
    claim id row caller
    let name ← issue
    let newKey := ObjectKey.object volume name
    let verified ← ((do
        let verified ← verifiedObject id row parts
        failFast volume path row.size ifMatch ifNoneMatch
        copyObject row.objectKey newKey
        pure verified) : Op (String × Bool)).catching fun problem => do
        giveUp id row problem
        fail problem
    let head ← (commitUpload volume path newKey row verified caller ifMatch ifNoneMatch).catching
      fun problem => do
        suppress (deleteObjects .copied [newKey])
        giveUp id row problem
        fail problem
    let _ ← move id .completing .promoted
    suppress (deleteObjects (.discarded id) [row.objectKey])
    pure head

def putBytes (key : ObjectKey) (blob : Blob) : Op Unit :=
  Process.perform (.write key blob) fun c _ =>
    if c.fault then .error storageUnavailable else .ok ()

def writer : String := "service:documents"

/-- `VolumeFileStore._upload`, with the SHA-256 of the bytes. -/
def uploadBytes (volume : String) (path : Path) (data : List UInt8)
    (sha256 contentType : String) : Op Unit := do
  let name ← issue
  let key := ObjectKey.object volume name
  putBytes key ⟨data, some sha256⟩
  let id ← issue
  let now ← clock
  let content : Content := ⟨data.length, sha256, true, contentType⟩
  let _ ← (transact (.commit volume path key content writer none false id now)
    (commitVersion volume path key content writer none false id now)).catching fun problem => do
      deleteObjects .copied [key]
      fail problem
  pure ()

/-- One expired upload, in `sweep`. -/
def sweepUpload (entry : String × UploadRow) : Op Unit := do
  if entry.2.state = .pending ∨ entry.2.state = .completing ∨ entry.2.state = .failed then
    deleteObjects (.expired entry.1) [entry.2.objectKey]
  transact (.forgetUpload entry.1) (forgetUpload entry.1)

/-- One unregistered volume, in `sweep`. -/
def sweepVolume (volume : String) : Op Unit := do
  Process.perform (.deleteVolume volume) fun c _ =>
    if c.fault then .error storageUnavailable else .ok ()
  transact (.dropVolume volume) (dropVolume volume)

def Store.orphanedVolumes (s : Store) : List String :=
  ((s.tables.files.rows.map fun row => row.1.1).filter fun volume => volume ∉ s.assets).dedup

/-- The uploads of `sweep`. -/
def sweepUploads (settings : Settings) : Op Unit := do
  let now ← clock
  let expired ← look fun s =>
    (s.tables.uploads.rows.filter fun row => row.2.expiresAt < now).take settings.sweepLimit
  Process.each sweepUpload expired

def deleteGarbage (garbage : List ObjectKey) : Op Unit :=
  if garbage = [] then .ret () else deleteObjects .garbage garbage

/-- The old versions of `sweep`. `order` is the order in which the database comes upon
them. -/
def sweepVersions (settings : Settings)
    (order : List ((String × Nat) × VersionRow) → List ((String × Nat) × VersionRow)) :
    Op Unit := do
  if settings.retention = 0 then .ret ()
  else do
    let now ← clock
    let garbage ← transact (.purge (now - settings.retention) settings.purgeLimit order now)
      (purgeVersions (now - settings.retention) settings.purgeLimit order now)
    deleteGarbage garbage

/-- The unregistered volumes of `sweep`. -/
def sweepVolumes : Op Unit := do
  let volumes ← look Store.orphanedVolumes
  Process.each sweepVolume volumes

def sweep (settings : Settings)
    (order : List ((String × Nat) × VersionRow) → List ((String × Nat) × VersionRow)) :
    Op Unit := do
  sweepUploads settings
  sweepVersions settings order
  sweepVolumes

/-- One unfinished upload, in `erase`. -/
def eraseUpload (entry : String × UploadRow) : Op Unit :=
  deleteObjects (.erased entry.1) [entry.2.objectKey]

/-- The rows of the uploads that `erase` forgets: of some principals, or of a volume. -/
def forgetUploads : List (UploadRow → Bool) → Op (List (String × UploadRow))
  | [] => .ret []
  | chosen :: rest => do
      let rows ← transact (.eraseUploads chosen) (eraseUploads chosen)
      let more ← forgetUploads rest
      pure (rows ++ more)

/-- The files and uploads of `erase`: the files under a prefix of a volume, and the
chosen uploads. -/
def eraseFiles (volume : String) (start : Path) (chosen : List (UploadRow → Bool)) :
    Op Unit := do
  let erased ← transact (.erase volume start) (erasePrefix volume start)
  deleteGarbage erased.garbage
  let pending ← forgetUploads chosen
  Process.each eraseUpload pending

end Substrate.Files
