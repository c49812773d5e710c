import Substrate.Files.State

/-!
The operations of `FileCatalog` (`files/repo.py`), each one transaction, and the
quota rule (`files/quota.py`). The time and the ids of new rows are arguments.
-/

namespace Substrate.Files

open Lib

def projectedBytes (used adding replacing : Nat) : Nat := (used - replacing) + adding

def checkQuota (used adding : Nat) (quota : Option Nat) (replacing : Nat) : Except Problem Unit :=
  match quota with
  | none => .ok ()
  | some quota =>
    let after := projectedBytes used adding replacing
    if after > quota then
      .error ⟨413, "quota-exceeded",
        s!"The volume's storage quota is exceeded: {after} bytes would be stored, quota is {quota}",
        [("used_bytes", used), ("requested_bytes", adding), ("quota_bytes", quota)]⟩
    else .ok ()

def preconditionFailed (detail : String := "The file changed; reload and retry") : Problem :=
  ⟨412, "precondition-failed", detail, []⟩

def raise {α : Type} (problem : Problem) : Transaction α := .raise problem

def check : Except Problem Unit → Transaction Unit
  | .ok () => pure ()
  | .error problem => raise problem

def selectQuota (volume : String) : Transaction (Option Nat) :=
  Tx.select (.quota volume) fun t => t.quotas.get? volume

def selectFile (volume : String) (path : Path) : Transaction (Option FileRow) :=
  Tx.select (.file volume path) fun t => t.files.get? (volume, path)

def selectVersion (fileId : String) (number : Nat) : Transaction (Option VersionRow) :=
  Tx.select (.version fileId number) fun t => t.versions.get? (fileId, number)

def selectLiveBytes (volume : String) : Transaction Nat :=
  Tx.select (.liveBytes volume) fun t => t.liveBytes volume []

def update (w : Write) : Transaction Nat := Tx.execute w

def guardQuota (volume : String) : Transaction (Option Nat) := do
  let _ ← update (.touchQuota volume)
  selectQuota volume

def guardBytes (volume : String) (quota : Option Nat) (adding replacing : Nat) :
    Transaction Unit := do
  if quota.isSome then
    let used ← selectLiveBytes volume
    check (checkQuota used adding quota replacing)

def FileRow.superseded (content : Content) (stamp : Nat) (old : FileRow) : FileRow :=
  { old with
    content := content
    version := old.version + 1
    updatedAt := stamp
    deletedAt := none }

/-- `_put_version`. `id` is the id of a file that is new. -/
def putVersion (volume : String) (path : Path) (existing : Option FileRow) (objectKey : ObjectKey)
    (content : Content) (by_ id : String) (stamp : Nat) : Transaction FileRow := do
  let head ← (match existing with
    | none => do
        let head : FileRow := ⟨id, content, 1, by_, stamp, stamp, none⟩
        let _ ← update (.insertFile volume path head)
        pure head
    | some existing => do
        let head := existing.superseded content stamp
        let _ ← update (.updateFile volume path existing.id fun row =>
          { row with
            content := content
            version := head.version
            updatedAt := stamp
            deletedAt := none })
        pure head)
  let _ ← update (.insertVersion head.id head.version ⟨volume, objectKey, content, by_, stamp, none⟩)
  pure head

def liveSizeOf (existing : Option FileRow) : Nat :=
  match existing with
  | some row => if row.live then row.content.size else 0
  | none => 0

/-- The preconditions of a write, as `commit_version` checks them. -/
def writeGuard (existing : Option FileRow) (ifMatch : Option Nat) (ifNoneMatch : Bool) :
    Except Problem Unit :=
  let live := existing.any FileRow.live
  if ifNoneMatch ∧ live then .error (preconditionFailed "The file already exists")
  else
    match ifMatch with
    | none => .ok ()
    | some expected =>
      if existing.any fun row => row.live ∧ row.version = expected then .ok ()
      else .error preconditionFailed

def commitVersion (volume : String) (path : Path) (objectKey : ObjectKey) (content : Content)
    (by_ : String) (ifMatch : Option Nat) (ifNoneMatch : Bool) (id : String) (stamp : Nat) :
    Transaction FileRow := do
  let quota ← guardQuota volume
  let existing ← selectFile volume path
  check (writeGuard existing ifMatch ifNoneMatch)
  guardBytes volume quota content.size (liveSizeOf existing)
  putVersion volume path existing objectKey content by_ id stamp

def softDelete (volume : String) (path : Path) (ifMatch : Option Nat) (stamp : Nat) :
    Transaction (Option FileRow) := do
  match (← selectFile volume path) with
  | none => if ifMatch.isSome then raise preconditionFailed else pure none
  | some row =>
    if row.live = false then
      if ifMatch.isSome then raise preconditionFailed else pure none
    else if ifMatch.any (· ≠ row.version) then
      raise preconditionFailed
    else do
      let _ ← update (.updateFile volume path row.id fun row => { row with deletedAt := some stamp })
      pure (some row)

def deletePrefix (volume : String) (start : Path) (stamp : Nat) : Transaction (Nat × Nat) := do
  let total ← Tx.select (.files volume start) fun t =>
    ((t.liveUnder volume start).length, t.liveBytes volume start)
  let _ ← update (.deletePrefix volume start stamp)
  pure total

def maxCopyFiles : Nat := 50000

def copyTarget (source destination path : Path) : Path := destination ++ path.drop source.length

/-- One file of a prefix copy: its row, where it goes and what is there. -/
structure Copy where
  row : FileRow
  target : Path
  existing : Option FileRow

/-- The plan of `copy_prefix`, and how many files it skips. -/
def planCopy (volume : String) (source destination : Path) (overwrite : Bool) :
    List (Path × FileRow) → Transaction (List Copy × Nat)
  | [] => pure ([], 0)
  | (path, row) :: rest => do
      let target := copyTarget source destination path
      let existing ← selectFile volume target
      let (plan, skipped) ← planCopy volume source destination overwrite rest
      if existing.any FileRow.live && !overwrite then
        pure (plan, skipped + 1)
      else
        pure (⟨row, target, existing⟩ :: plan, skipped)

/-- The writing half of `copy_prefix`. `newId` makes the id of a file that is new. -/
def writeCopies (volume by_ : String) (newId : Path → String) (stamp : Nat) :
    List Copy → Transaction Unit
  | [] => pure ()
  | copy :: rest => do
      match (← selectVersion copy.row.id copy.row.version) with
      | none => raise ⟨500, "internal-error", "'NoneType' object is not subscriptable", []⟩
      | some version => do
          let _ ← putVersion volume copy.target copy.existing version.objectKey copy.row.content by_
            (newId copy.target) stamp
          writeCopies volume by_ newId stamp rest

structure CopyResult where
  copied : Nat
  skipped : Nat
  bytes : Nat
  deriving DecidableEq, Repr

/-- `copy_prefix`. `order` puts the files into the order of their paths. -/
def copyPrefix (volume : String) (source destination : Path) (by_ : String) (overwrite : Bool)
    (order : List (Path × FileRow) → List (Path × FileRow)) (newId : Path → String)
    (stamp : Nat) : Transaction CopyResult := do
  let quota ← guardQuota volume
  let found ← Tx.select (.files volume source) fun t =>
    (order (t.liveUnder volume source)).take (maxCopyFiles + 1)
  if found.length > maxCopyFiles then
    raise ⟨413, "too-many-files",
      s!"A prefix copy handles at most {maxCopyFiles} files; copy sub-folders", []⟩
  else do
    let (plan, skipped) ← planCopy volume source destination overwrite found
    let adding := (plan.map fun copy => copy.row.content.size).sum
    let replacing := (plan.map fun copy => liveSizeOf copy.existing).sum
    guardBytes volume quota adding replacing
    writeCopies volume by_ newId stamp plan
    pure ⟨plan.length, skipped, adding⟩

def restore (volume : String) (path : Path) (version : Option Nat) (by_ : String)
    (ifMatch : Option Nat) (id : String) (stamp : Nat) : Transaction FileRow := do
  let quota ← guardQuota volume
  match (← selectFile volume path) with
  | none => raise (notFound "File")
  | some head =>
    if ifMatch.any (· ≠ head.version) then
      raise preconditionFailed
    else if version = none ∨ version = some head.version then
      if head.live then
        pure head
      else do
        guardBytes volume quota head.content.size 0
        let _ ← update (.updateFile volume path head.id fun row =>
          { row with deletedAt := none, updatedAt := stamp })
        pure { head with deletedAt := none }
    else do
      match (← selectVersion head.id (version.getD 0)) with
      | none => raise (notFound "File version")
      | some old =>
        if old.purgedAt.isSome then
          raise (notFound "File version")
        else do
          guardBytes volume quota old.content.size (liveSizeOf (some head))
          putVersion volume path (some head) old.objectKey old.content by_ id stamp

def setQuota (volume : String) (maxBytes : Option Nat) : Transaction Unit := do
  match maxBytes with
  | none => do
      let _ ← update (.deleteQuota volume)
      pure ()
  | some maxBytes => do
      let changed ← update (.updateQuota volume maxBytes)
      if changed = 0 then
        let _ ← update (.insertQuota volume maxBytes)

end Substrate.Files
