import Substrate.Blobs.Store

/-!
The transactions of keyed bytes, statement by statement (`stores/file_tables.py`). A lock
on a tenant's quota is taken with what is used, after what is replaced has been read. The
contents are in the folder by then, or they are linked between two statements; here a row
only names them.
-/

namespace Substrate.Blobs.Statements

open Documents Files Lib

inductive Read where
  | previous (key : Path)
  | row (key : Path)
  | used (tenant : Path)
  | rows (start : Path)
  deriving DecidableEq, Repr

inductive Write where
  | put (key : Path) (row : BlobRow)
  | drop (key : Path)
  | lock (tenant : Path)

/-- The row under a key as a statement leaves it, or a lock that is held. -/
inductive Image where
  | row (key : Path) (row : Option BlobRow)
  | lock (tenant : Path)

inductive Key where
  | row (key : Path)
  | lock (tenant : Path)
  deriving DecidableEq, Repr

def Image.key : Image → Key
  | .row key _ => .row key
  | .lock tenant => .lock tenant

def Image.put : Image → Rows → Rows
  | .row path value, rows => rows.set path value
  | .lock _, rows => rows

def Write.exec : Write → Rows → Except Failure (List Image)
  | .put key row, _ => .ok [.row key (some row)]
  | .drop key, rows => .ok ((rows.get? key).toList.map fun _ => .row key none)
  | .lock tenant, _ => .ok [.lock tenant]

def database : Engine Rows Write Image Key Failure := ⟨Write.exec, Image.put, Image.key⟩

abbrev Transaction (α : Type) := Tx Rows Read Write Failure α

/-- What a transaction returns: the contents that no row names any more, or how many files
it has copied. -/
inductive Answer where
  | blobs (names : List String)
  | copied (files : Nat)
  deriving DecidableEq, Repr

variable (quota : Path → Option Nat)

def enforce (tenant : Option Path) (adding replacing : Nat) : Transaction Unit :=
  match tenant.bind fun t => (quota t).map fun limit => (t, limit) with
  | none => pure ()
  | some (t, limit) => do
      let _ ← Tx.execute (.lock t)
      let taken ← Tx.select (.used t) fun rows => used rows t
      if (limit : Int) < (taken : Int) - replacing + adding then
        .raise (.quotaExceeded t taken limit)
      else pure ()

def checked (key : Path) (t : Transaction Answer) : Transaction Answer :=
  match FileTable.check key with
  | .error failure => .raise failure
  | .ok () => t

def sizeAt (rows : Rows) (key : Path) : Nat := ((rows.get? key).map BlobRow.size).getD 0

def upload (key : Path) (data : List UInt8) (contentType blob : String) (now : Nat) :
    Transaction Answer :=
  checked key do
    let previous ← Tx.select (.previous key) fun rows => rows.get? key
    enforce quota (FileTable.tenantOf key) data.length ((previous.map BlobRow.size).getD 0)
    let _ ← Tx.execute (.put key ⟨FileTable.tenantOf key, blob, data.length, contentType, now⟩)
    pure (.blobs (previous.map BlobRow.blob).toList)

def delete (key : Path) : Transaction Answer :=
  checked key do
    match ← Tx.select (.row key) fun rows => rows.get? key with
    | none => pure (.blobs [])
    | some row => do
        let _ ← Tx.execute (.drop key)
        pure (.blobs [row.blob])

/-- The deletes of `delete_prefix`. -/
def dropAll : List Path → Transaction Unit
  | [] => pure ()
  | key :: rest => do
      let _ ← Tx.execute (.drop key)
      dropAll rest

def deletePrefix (start : Path) : Transaction Answer :=
  checked start do
    let found ← Tx.select (.rows start) fun rows =>
      rows.rows.filter fun row => FileTable.chosen start row.1
    dropAll (found.map Prod.fst)
    pure (.blobs (found.map fun row => row.2.blob))

/-- The first loop of `copy_prefix`: the bytes that the copies replace. -/
def replacing : List Path → Nat → Transaction Nat
  | [], sum => pure sum
  | target :: rest, sum => do
      let previous ← Tx.select (.previous target) fun rows => sizeAt rows target
      replacing rest (sum + previous)

/-- The second loop of `copy_prefix`. -/
def putRows : List (Path × BlobRow) → Transaction Unit
  | [] => pure ()
  | (key, row) :: rest => do
      let _ ← Tx.execute (.put key row)
      putRows rest

def copyOf (fresh : Path → String) (now : Nat) (target : Path) (row : BlobRow) : BlobRow :=
  ⟨FileTable.tenantOf target, fresh target, row.size, row.contentType, now⟩

/-- The transaction of `copy_prefix`, whose prefixes have been stripped. -/
def copyInside (source destination : Path) (fresh : Path → String) (now : Nat) :
    Transaction Answer := do
  let found ← Tx.select (.rows source) fun rows => inside rows source
  let targets := found.map fun entry => (targetOf source destination entry.1, entry.2)
  let replaced ← replacing (targets.map Prod.fst) 0
  enforce quota (FileTable.tenantOf destination) (targets.map fun entry => entry.2.size).sum
    replaced
  putRows (targets.map fun entry => (entry.1, copyOf fresh now entry.1 entry.2))
  pure (.copied targets.length)

def copyPrefix (sourcePrefix destPrefix : Path) (fresh : Path → String) (now : Nat) :
    Transaction Answer :=
  let source := FileTable.stem sourcePrefix
  let destination := FileTable.stem destPrefix
  checked source (checked destination (copyInside quota source destination fresh now))

inductive Request where
  | upload (key : Path) (data : List UInt8) (contentType blob : String) (now : Nat)
  | delete (key : Path)
  | deletePrefix (start : Path)
  | copyPrefix (sourcePrefix destPrefix : Path) (fresh : Path → String) (now : Nat)

def Request.transaction : Request → Transaction Answer
  | .upload key data contentType blob now =>
    Statements.upload quota key data contentType blob now
  | .delete key => Statements.delete key
  | .deletePrefix start => Statements.deletePrefix start
  | .copyPrefix sourcePrefix destPrefix fresh now =>
    Statements.copyPrefix quota sourcePrefix destPrefix fresh now

end Substrate.Blobs.Statements
