import Substrate.Lib.Transaction
import Substrate.Lib.Weight

/-!
Snapshot trees and their branch heads (`workspace/tables.py`). A snapshot is a row; the
head of a branch is a row that names one. A commit moves the head by compare-and-swap: an
insert for a branch with no head, and an update with the expected parent for one that has
a head.

Each call is one transaction.
-/

namespace Substrate.Workspace

open Lib List

/-- `WorkspaceSnapshot`, with its manifest as its content. -/
structure Snapshot (Content : Type) where
  id : String
  sessionId : String
  branchId : String
  parentSnapshotId : Option String
  createdAt : String
  content : Content
  deriving DecidableEq, Repr

/-- A row of `workspace_snapshots`, but for its id. -/
structure Row (Content : Type) where
  sessionId : String
  branchId : String
  createdAt : String
  snapshot : Snapshot Content
  deriving DecidableEq, Repr

abbrev Branch := String × String

structure Tables (Content : Type) where
  snapshots : Table String (Row Content)
  heads : Table Branch String

inductive Failure where
  | session (snapshot given : String)
  | branch (snapshot given : String)
  | parent (snapshot expected : Option String)
  | conflict (session branch : String) (expected actual : Option String)
  | taken (session branch : String)
  | absent (id : String)
  deriving DecidableEq, Repr

inductive Read where
  | head (branch : Branch)
  | snapshot (id : String)
  deriving DecidableEq, Repr

inductive Write (Content : Type) where
  | insertHead (branch : Branch) (id : String)
  | moveHead (branch : Branch) (id expected : String)
  | putSnapshot (snapshot : Snapshot Content)
  | deleteHeads (session : String)
  | deleteSnapshots (session : String)

inductive Image (Content : Type) where
  | head (branch : Branch) (id : Option String)
  | snapshot (id : String) (row : Option (Row Content))

inductive Key where
  | head (branch : Branch)
  | snapshot (id : String)
  deriving DecidableEq, Repr

variable {Content : Type}

def Image.key : Image Content → Key
  | .head branch _ => .head branch
  | .snapshot id _ => .snapshot id

def Image.put : Image Content → Tables Content → Tables Content
  | .head branch id, t => { t with heads := t.heads.set branch id }
  | .snapshot id row, t => { t with snapshots := t.snapshots.set id row }

def rowOf (snapshot : Snapshot Content) : Option (Row Content) → Row Content
  | none => ⟨snapshot.sessionId, snapshot.branchId, snapshot.createdAt, snapshot⟩
  | some row => { row with snapshot := snapshot }

/-- The row images that a statement makes. -/
def Write.exec : Write Content → Tables Content → Except Failure (List (Image Content))
  | .insertHead branch id, t =>
    .ok (if t.heads.get? branch = none then [.head branch (some id)] else [])
  | .moveHead branch id expected, t =>
    .ok (if t.heads.get? branch = some expected then [.head branch (some id)] else [])
  | .putSnapshot snapshot, t =>
    .ok [.snapshot snapshot.id (some (rowOf snapshot (t.snapshots.get? snapshot.id)))]
  | .deleteHeads session, t =>
    .ok ((t.heads.rows.filter fun row => row.1.1 = session).map fun row => .head row.1 none)
  | .deleteSnapshots session, t =>
    .ok ((t.snapshots.rows.filter fun row => row.2.sessionId = session).map fun row =>
      .snapshot row.1 none)

def database : Engine (Tables Content) (Write Content) (Image Content) Key Failure :=
  ⟨Write.exec, Image.put, Image.key⟩

abbrev Transaction (Content α : Type) := Tx (Tables Content) Read (Write Content) Failure α

def head (branch : Branch) : Transaction Content (Option String) :=
  .select (.head branch) fun t => t.heads.get? branch

def readSnapshot (id : String) : Transaction Content (Option (Snapshot Content)) :=
  .select (.snapshot id) fun t => (t.snapshots.get? id).map Row.snapshot

def firstHead (branch : Branch) (id : String) : Transaction Content Unit := do
  let created ← Tx.execute (.insertHead branch id)
  if created = 0 then .raise (.taken branch.1 branch.2) else pure ()

def getBranchSnapshotHead (session branch : String) :
    Transaction Content (Option (Snapshot Content)) := do
  match ← head (session, branch) with
  | some id => if id = "" then pure none else readSnapshot id
  | none => pure none

def swap (branch : Branch) (id : String) : Option String → Write Content
  | none => .insertHead branch id
  | some expected => .moveHead branch id expected

/-- A commit after its compare-and-swap, which has moved so many heads. -/
def swapped (session branch : String) (snapshot : Snapshot Content) (expected : Option String)
    (moved : Nat) : Transaction Content (Option (Snapshot Content)) :=
  if moved = 0 then do
    let actual ← head (session, branch)
    .raise (.conflict session branch expected actual)
  else do
    let _ ← Tx.execute (.putSnapshot snapshot)
    pure (some snapshot)

def commitSnapshot (session branch : String) (snapshot : Snapshot Content)
    (expected : Option String) : Transaction Content (Option (Snapshot Content)) :=
  if snapshot.sessionId ≠ session then .raise (.session snapshot.sessionId session)
  else if snapshot.branchId ≠ branch then .raise (.branch snapshot.branchId branch)
  else if snapshot.parentSnapshotId ≠ expected then
    .raise (.parent snapshot.parentSnapshotId expected)
  else do
    let moved ← Tx.execute (swap (session, branch) snapshot.id expected)
    swapped session branch snapshot expected moved

def forkAt (session new : String) : Option String → Transaction Content (Option (Snapshot Content))
  | none => pure none
  | some id => do
      firstHead (session, new) id
      readSnapshot id

def forkBranchSnapshot (session source new : String) :
    Transaction Content (Option (Snapshot Content)) := do
  match ← head (session, new) with
  | some _ => .raise (.taken session new)
  | none =>
    let id ← head (session, source)
    forkAt session new id

def setAt (session branch id : String) :
    Option (Snapshot Content) → Transaction Content (Option (Snapshot Content))
  | none => .raise (.absent id)
  | some snapshot => do
      firstHead (session, branch) id
      pure (some snapshot)

def setBranchSnapshotHead (session branch id : String) :
    Transaction Content (Option (Snapshot Content)) := do
  match ← head (session, branch) with
  | some _ => .raise (.taken session branch)
  | none =>
    let snapshot ← readSnapshot id
    setAt session branch id snapshot

def deleteSession (session : String) : Transaction Content (Option (Snapshot Content)) := do
  let _ ← Tx.execute (.deleteHeads session)
  let _ ← Tx.execute (.deleteSnapshots session)
  pure none

inductive Request (Content : Type) where
  | commitSnapshot (session branch : String) (snapshot : Snapshot Content)
      (expected : Option String)
  | forkBranchSnapshot (session source new : String)
  | setBranchSnapshotHead (session branch id : String)
  | deleteSession (session : String)

def Request.transaction : Request Content → Transaction Content (Option (Snapshot Content))
  | .commitSnapshot session branch snapshot expected =>
    Workspace.commitSnapshot session branch snapshot expected
  | .forkBranchSnapshot session source new => Workspace.forkBranchSnapshot session source new
  | .setBranchSnapshotHead session branch id => Workspace.setBranchSnapshotHead session branch id
  | .deleteSession session => Workspace.deleteSession session

@[simp] theorem putAll_nil (t : Tables Content) : database.putAll [] t = t := rfl

@[simp] theorem putAll_cons (image : Image Content) (images : List (Image Content))
    (t : Tables Content) :
    database.putAll (image :: images) t = database.putAll images (image.put t) := rfl

variable {images : List (Image Content)} {branch : Branch} {id : String}

theorem heads_of_not_mem (h : .head branch ∉ images.map Image.key) (t : Tables Content) :
    (database.putAll images t).heads.get? branch = t.heads.get? branch := by
  induction images generalizing t with
  | nil => rfl
  | cons image rest ih =>
    rw [map_cons, mem_cons, not_or] at h
    rw [putAll_cons, ih h.2]
    cases image with
    | head branch' id =>
      have hne : branch ≠ branch' := fun heq => h.1 (by rw [heq]; rfl)
      simp [Image.put, hne]
    | snapshot id row => rfl

theorem snapshots_of_not_mem (h : .snapshot id ∉ images.map Image.key) (t : Tables Content) :
    (database.putAll images t).snapshots.get? id = t.snapshots.get? id := by
  induction images generalizing t with
  | nil => rfl
  | cons image rest ih =>
    rw [map_cons, mem_cons, not_or] at h
    rw [putAll_cons, ih h.2]
    cases image with
    | head branch id => rfl
    | snapshot id' row =>
      have hne : id ≠ id' := fun heq => h.1 (by rw [heq]; rfl)
      simp [Image.put, hne]

def Image.Drops : Image Content → Prop
  | .head _ id => id = none
  | .snapshot _ row => row = none

theorem heads_dropped (hdrops : ∀ image ∈ images, image.Drops)
    (h : .head branch ∈ images.map Image.key) (t : Tables Content) :
    (database.putAll images t).heads.get? branch = none := by
  induction images generalizing t with
  | nil => cases h
  | cons image rest ih =>
    rw [putAll_cons]
    by_cases hrest : .head branch ∈ rest.map Image.key
    · exact ih (fun other hother => hdrops other (mem_cons_of_mem _ hother)) hrest _
    · rw [heads_of_not_mem hrest]
      rcases mem_cons.mp h with heq | hmem
      · cases image with
        | head branch' id =>
          cases heq
          have hnone : id = none := hdrops _ mem_cons_self
          simp [Image.put, hnone]
        | snapshot id row => cases heq
      · exact absurd hmem hrest

theorem snapshots_dropped (hdrops : ∀ image ∈ images, image.Drops)
    (h : .snapshot id ∈ images.map Image.key) (t : Tables Content) :
    (database.putAll images t).snapshots.get? id = none := by
  induction images generalizing t with
  | nil => cases h
  | cons image rest ih =>
    rw [putAll_cons]
    by_cases hrest : .snapshot id ∈ rest.map Image.key
    · exact ih (fun other hother => hdrops other (mem_cons_of_mem _ hother)) hrest _
    · rw [snapshots_of_not_mem hrest]
      rcases mem_cons.mp h with heq | hmem
      · cases image with
        | head branch id => cases heq
        | snapshot id' row =>
          cases heq
          have hnone : row = none := hdrops _ mem_cons_self
          simp [Image.put, hnone]
      · exact absurd hmem hrest

end Substrate.Workspace
