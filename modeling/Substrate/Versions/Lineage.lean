import Mathlib.Logic.Function.Basic
import Substrate.Lib.Transition
import Substrate.Versions.Layout

/-!
File versions (`file_versioning.py`). A history is one manifest that is read, extended
and written back; each operation of the file store is one step, and between two steps
other calls take theirs. How a manifest is written and what a checksum is are left open.
-/

namespace Substrate.Versions

open Lib Function

structure VersionEntry where
  seq : Nat
  author : String
  checksumSha256 : String
  sizeBytes : Nat
  createdAt : Nat
  versionKey : Path
  restoredFromSeq : Option Nat
  deriving DecidableEq, Repr

/-- Bytes as this module sees them: a manifest reads back as it was written. -/
structure Format (Bytes : Type) where
  sha256Hex : Bytes → String
  length : Bytes → Nat
  dumps : List VersionEntry → Bytes
  loads : Bytes → Option (List VersionEntry)
  loads_dumps : ∀ entries, loads (dumps entries) = some entries

abbrev Objects (Bytes : Type) := Path → Option Bytes

variable {Bytes : Type}

def history (format : Format Bytes) (store : Objects Bytes) (dir : Path) : List VersionEntry :=
  match store (manifestIn dir) with
  | none => []
  | some raw => (format.loads raw).getD []

def listVersions (format : Format Bytes) (store : Objects Bytes) (objectKey : Path) :
    Except String (List VersionEntry) :=
  (versionDir objectKey).map (history format store)

def latestVersion (format : Format Bytes) (store : Objects Bytes) (objectKey : Path) :
    Except String (Option VersionEntry) :=
  (listVersions format store objectKey).map List.getLast?

def nextSeq (versions : List VersionEntry) : Nat :=
  match versions.getLast? with
  | some last => last.seq + 1
  | none => 1

inductive Request (Bytes : Type) where
  | recordVersion (objectKey : Path) (data : Bytes) (author : String)
      (restoredFromSeq : Option Nat)
  | captureBytes (objectKey : Path) (data : Bytes) (changeAuthor : String)

def Request.objectKey : Request Bytes → Path
  | .recordVersion objectKey _ _ _ => objectKey
  | .captureBytes objectKey _ _ => objectKey

def Request.data : Request Bytes → Bytes
  | .recordVersion _ data _ _ => data
  | .captureBytes _ data _ => data

inductive Stage where
  /-- `latest_version` in `capture_bytes`. -/
  | checking (changeAuthor : String)
  /-- `list_versions` in `record_version`. -/
  | reading (author : String) (restoredFromSeq : Option Nat)
  /-- The upload of the snapshot. -/
  | saving (versions : List VersionEntry) (entry : VersionEntry)
  /-- The upload of the manifest. -/
  | listing (versions : List VersionEntry) (entry : VersionEntry)

def Request.stage : Request Bytes → Stage
  | .recordVersion _ _ author restoredFromSeq => .reading author restoredFromSeq
  | .captureBytes _ _ changeAuthor => .checking changeAuthor

structure Call (Bytes : Type) where
  objectKey : Path
  data : Bytes
  stage : Stage

/-- What a step of a call leaves: its next stage, or that it has ended, and then the
version it has recorded, if any. -/
inductive Next where
  | goes (stage : Stage)
  | ends (recorded : Option VersionEntry)

section Operations

variable (format : Format Bytes) (now : Nat) (objectKey : Path) (data : Bytes)
  (store : Objects Bytes)

/-- `capture_bytes`, up to what it does about the bytes it was given. -/
def check (changeAuthor : String) (dir : Path) : Next :=
  match (history format store dir).getLast? with
  | none => .goes (.reading "initial" none)
  | some latest =>
    if latest.checksumSha256 ≠ format.sha256Hex data then .goes (.reading changeAuthor none)
    else .ends none

/-- The entry that `record_version` makes once it has read the history. -/
def entryOf (author : String) (restoredFromSeq : Option Nat) (dir : Path)
    (versions : List VersionEntry) : VersionEntry where
  seq := nextSeq versions
  author := author
  checksumSha256 := format.sha256Hex data
  sizeBytes := format.length data
  createdAt := now
  versionKey := snapshotIn dir objectKey (nextSeq versions)
  restoredFromSeq := restoredFromSeq

end Operations

/-- One operation on the file store. A key that has no directory raises before the first. -/
def advance (format : Format Bytes) (now : Nat) (call : Call Bytes) (store : Objects Bytes) :
    Next × Objects Bytes :=
  match versionDir call.objectKey with
  | .error _ => (.ends none, store)
  | .ok dir =>
    match call.stage with
    | .checking changeAuthor => (check format call.data store changeAuthor dir, store)
    | .reading author restoredFromSeq =>
      let versions := history format store dir
      (.goes (.saving versions
        (entryOf format now call.objectKey call.data author restoredFromSeq dir versions)),
        store)
    | .saving versions entry =>
      (.goes (.listing versions entry),
        update store entry.versionKey (some call.data))
    | .listing versions entry =>
      (.ends (some entry),
        update store (manifestIn dir)
          (some (format.dumps (versions ++ [entry]))))

structure Returned (Bytes : Type) where
  objectKey : Path
  entry : VersionEntry
  data : Bytes

structure State (ι Bytes : Type) where
  store : Objects Bytes
  calls : ι → Option (Call Bytes)
  returned : List (Returned Bytes)

inductive Move (ι Bytes : Type) where
  | start (i : ι) (request : Request Bytes)
  | step (i : ι) (now : Nat)
  | crash (i : ι)

variable {ι : Type} [DecidableEq ι]

def initial (store : Objects Bytes) : State ι Bytes := ⟨store, fun _ => none, []⟩

/-- A call takes the step that leaves this. -/
def State.settle (s : State ι Bytes) (i : ι) (call : Call Bytes) :
    Next × Objects Bytes → State ι Bytes
  | (.goes stage, store) =>
    { s with store := store, calls := update s.calls i (some { call with stage }) }
  | (.ends none, store) => { s with store := store, calls := update s.calls i none }
  | (.ends (some entry), store) =>
    { store := store
      calls := update s.calls i none
      returned := ⟨call.objectKey, entry, call.data⟩ :: s.returned }

def move (format : Format Bytes) : Move ι Bytes → State ι Bytes → State ι Bytes
  | .start i request, s =>
    { s with
      calls := update s.calls i
        (some ⟨request.objectKey, request.data, request.stage⟩) }
  | .step i now, s =>
    match s.calls i with
    | none => s
    | some call => s.settle i call (advance format now call s.store)
  | .crash i, s => { s with calls := update s.calls i none }

def Possible (files : Set Path) (s : State ι Bytes) : Move ι Bytes → Prop
  | .start i request => s.calls i = none ∧ request.objectKey ∈ files
  | .step i _ => s.calls i ≠ none
  | .crash _ => True

def Move.file (s : State ι Bytes) : Move ι Bytes → Option Path
  | .start _ request => some request.objectKey
  | .step i _ | .crash i => (s.calls i).map Call.objectKey

end Substrate.Versions
