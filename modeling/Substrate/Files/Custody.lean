import Substrate.Files.Forgetting
import Substrate.Files.Versions
import Substrate.Lib.Turns

/-!
The files service with all its operations at work at once, each a process that may stop
anywhere.
-/

namespace Substrate.Files

open Lib

/-- What is done with files. `send` is a client that has been given the address of an
object and sends bytes to it, whatever has become of the upload. -/
inductive Work where
  | operation (op : Operation)
  | send (key : ObjectKey)
  | write (volume : String) (path : Path) (data : List UInt8) (sha256 contentType : String)
  | sweep (settings : Settings)
      (order : List ((String × Nat) × VersionRow) → List ((String × Nat) × VersionRow))
      (horder : ∀ rows, (order rows).Perm rows)
  | unregister (volume : String)

namespace Work

def process : Work → Op Unit
  | .operation op => op.process
  | .send key => Process.perform (.put key) fun _ _ => .ok ()
  | .write volume path data sha256 contentType =>
    uploadBytes volume path data sha256 contentType
  | .sweep settings order _ => Files.sweep settings order
  | .unregister volume => Process.perform (.unregister volume) fun _ _ => .ok ()

def IsClient : Work → Prop
  | .operation (.put _) => True
  | .send _ => True
  | _ => False

end Work

def ObjectKey.ofVolume : ObjectKey → Bool
  | .object _ _ => true
  | .session _ _ => false

def Reason.ofRow : Reason → Bool
  | .expired _ => true
  | .erased _ => true
  | _ => false

structure Fits (blob : Blob) (content : Content) : Prop where
  size : blob.bytes.length = content.size
  sha256 : content.verified = true → blob.checksum = some content.sha256

structure Custody (ι : Type) where
  store : Store
  holder : ObjectKey → Option ι
  committed : ObjectKey → Option Blob
  keys : List ObjectKey
  ids : List String

namespace Custody

variable {ι : Type} [DecidableEq ι]

/-- `i` has the object in hand. -/
def take (i : ι) (key : ObjectKey) (s : Custody ι) : Custody ι :=
  { s with holder := Function.update s.holder key (some i) }

/-- `i` has nothing in hand any more. -/
def release (i : ι) (s : Custody ι) : Custody ι :=
  { s with holder := fun key => if s.holder key = some i then none else s.holder key }

def commit (key : ObjectKey) (s : Custody ι) : Custody ι :=
  { s with committed := Function.update s.committed key (s.store.objects.get? key) }

/-- A completion that finds its upload pending has the object in hand until it has
finished or given up. -/
def remember (i : ι) (deed : Deed) (s : Custody ι) : Custody ι :=
  match deed with
  | .write key _ => { s with keys := key :: s.keys }.take i key
  | .copy _ destination => { s with keys := destination :: s.keys }.take i destination
  | .call (.commit volume path key content by_ ifMatch ifNoneMatch id stamp) =>
    match database.run (commitVersion volume path key content by_ ifMatch ifNoneMatch id stamp)
        s.store.tables with
    | .ok _ => s.commit key
    | .error _ => s
  | .call (.createUpload id row) => { s with keys := row.objectKey :: s.keys, ids := id :: s.ids }
  | .call (.moveUpload id .pending .completing) =>
    match (s.store.tables.uploads.get? id).filter fun row => row.state = .pending with
    | some row => s.take i row.objectKey
    | none => s
  | .call (.moveUpload _ .completing _) => s.release i
  | _ => s

def apply (i : ι) (_ : Work) (deed : Deed) (c : Chance) (s : Custody ι) : Custody ι :=
  { s.remember i deed with store := deed.apply c s.store }

variable (s : Custody ι)

/-- The object is there, with the bytes of its commit, and they are what is said of
them. -/
def Good (key : ObjectKey) (content : Content) : Prop :=
  ∃ blob, s.committed key = some blob ∧ s.store.objects.get? key = some blob ∧ Fits blob content

/-- No version that is not purged names the object, and no completion has it in hand. -/
def Spares (key : ObjectKey) : Prop := ¬Named s.store.tables key ∧ s.holder key = none

structure Spent (key : ObjectKey) : Prop where
  known : key ∈ s.keys
  unnamed : ¬Named s.store.tables key
  ended : s.committed key ≠ none ∨ s.holder key = none ∧
    ∀ id row, s.store.tables.uploads.get? id = some row → row.objectKey = key → row.state ≠ .pending

/-- `i` has the object in hand and has not committed it. -/
structure Mine (i : ι) (key : ObjectKey) : Prop where
  held : s.holder key = some i
  uncommitted : s.committed key = none

structure Inv : Prop where
  coherent : Coherent (fun key => s.committed key ≠ none) s.Good s.store.tables
  committed : ∀ key, s.committed key ≠ none → key ∈ s.keys ∧ key.ofVolume = true
  holder : ∀ key, s.holder key ≠ none → key ∈ s.keys
  uploads : ∀ id row, s.store.tables.uploads.get? id = some row →
    id ∈ s.ids ∧ row.objectKey ∈ s.keys ∧ (row.target.isSome = true → row.objectKey.ofVolume = true)
  distinct : ∀ id id' row row', s.store.tables.uploads.get? id = some row →
    s.store.tables.uploads.get? id' = some row' → row.objectKey = row'.objectKey → id = id'
  pending : ∀ id row, s.store.tables.uploads.get? id = some row → row.state = .pending →
    s.holder row.objectKey = none ∧ s.committed row.objectKey = none

/-- What a process can rely on. What it has in hand stays as it is, apart from the
object of a session, which may be deleted; and an upload stays the same but for its
state. -/
structure Rely (i : ι) (s s' : Custody ι) : Prop where
  held : ∀ key, s.holder key = some i → s'.holder key = some i
  mine : ∀ key, s.Mine i key → s'.committed key = none ∧
    (s'.store.objects.get? key = s.store.objects.get? key ∨
      key.ofVolume = false ∧ s'.store.objects.get? key = none)
  spent : ∀ key, s.Spent key → s'.Spent key
  uploads : ∀ id ∈ s.ids, id ∈ s'.ids ∧ ∀ row', s'.store.tables.uploads.get? id = some row' →
      ∃ row, s.store.tables.uploads.get? id = some row ∧ row' = { row with state := row'.state }

/-- The names and orders that the surroundings make up: new names are new. -/
def Ordinary (deed : Deed) : Prop :=
  match deed with
  | .write key _ => key ∉ s.keys
  | .copy _ destination => destination ∉ s.keys
  | .call (.commit _ _ _ _ _ _ _ id _) => Unused s.store.tables id
  | .call (.copyPrefix _ _ _ _ _ order newId _) => (∀ rows, (order rows).Perm rows) ∧
      Function.Injective newId ∧ ∀ path, Unused s.store.tables (newId path)
  | .call (.createUpload id row) => id ∉ s.ids ∧ row.objectKey ∉ s.keys
  | _ => True

/-- The bytes of an object are left alone from the claim of its upload on, as long as a
version names it: by clients that send bytes, and by what deletes objects for the rows of
uploads or for a whole volume. A deleted file is brought back only while its current
version is not purged. -/
def Careful (what : Work) (deed : Deed) : Prop :=
  match deed with
  | .put key => what.IsClient → s.Spares key
  | .delete why keys => why.ofRow = true → ∀ key ∈ keys, key.ofVolume = true → s.Spares key
  | .deleteVolume volume => ∀ key, key.within volume = true → s.Spares key
  | .call (.restore volume path version _ _ _ _) =>
    Restorable s.store.tables volume path version
  | _ => True

/-- What a process has to make sure of before a deed. -/
def InOrder (i : ι) (what : Work) (deed : Deed) : Prop :=
  match deed with
  | .put key => what.IsClient ∨ s.Mine i key
  | .delete why keys => why.ofRow = true ∨ ∀ key ∈ keys, s.Spent key ∨ s.Mine i key
  | .call (.commit _ _ key content _ _ _ _ _) => key.ofVolume = true ∧ s.Mine i key ∧
      ∃ blob, s.store.objects.get? key = some blob ∧ Fits blob content
  | .call (.createUpload _ row) => row.state = .pending ∧
      (row.target.isSome = true → row.objectKey.ofVolume = true)
  | .call (.moveUpload id expected state) => expected = .pending ∧ state = .completing ∨
      expected = .completing ∧ (state = .pending → ∀ row,
        s.store.tables.uploads.get? id = some row → s.Mine i row.objectKey)
  | .call (.purge _ _ order _) => ∀ rows, (order rows).Perm rows
  | _ => True

end Custody

def stage (ι : Type) [DecidableEq ι] : Stage ι Chance Store (Custody ι) Deed Work where
  real := Custody.store
  apply := Custody.apply
  leave := Custody.release

def discipline (ι : Type) [DecidableEq ι] (met : Custody ι → Work → Deed → Prop) :
    Discipline ι Chance (Custody ι) Deed Work where
  inv := Custody.Inv
  rely := Custody.Rely
  allowed _ what deed _ s := s.Ordinary deed ∧ met s what deed
  inOrder i what deed _ s := s.InOrder i what deed

end Substrate.Files
