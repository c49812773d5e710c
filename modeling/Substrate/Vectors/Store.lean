import Substrate.Lib.Transition
import Substrate.Lib.Weight
import Substrate.Threads.State

/-!
Documents with embeddings, by collection (`stores/vector_tables.py`). One table has the
documents; another says which embedder a collection's vectors came from, if a writer has
named one. Each operation is a transaction, and a failed one leaves both as they were.

What a search ranks by (the text, the norm, the index) is left out.
-/

namespace Substrate.Vectors

open Lib

/-- The values of metadata: Python's `None`, and what `==` says of two of them. -/
structure Values (Value : Type) where
  missing : Value
  same : Value → Value → Bool

structure Document (Content Value Number : Type) where
  id : String
  content : Content
  metadata : List (String × Value)
  embedding : Option (List Number)

/-- A row of `vector_docs`, but for its key. No column keeps the name of the embedder
that its writer gave. -/
structure DocRow (Content Value Number : Type) where
  content : Content
  metadata : List (String × Value)
  embedding : Option (List Number)
  dims : Nat
  writer : Option String
  wide : dims = (embedding.map List.length).getD 0

/-- A row of `vector_spaces`, but for its key. -/
structure Space where
  space : String
  dims : Nat
  deriving DecidableEq, Repr

abbrev Docs (Content Value Number : Type) := Table (String × String) (DocRow Content Value Number)

structure Store (Content Value Number : Type) where
  docs : Docs Content Value Number
  spaces : Table String Space

/-- `VectorSpaceError` with what its message names, and a broken unique constraint. -/
inductive Failure where
  | width (collection : String) (width : Nat) (id : String) (length : Nat)
  | space (collection : String) (row : Space) (width : Nat) (space : String)
  | integrity
  deriving DecidableEq, Repr

inductive Call (Content Value Number : Type) where
  | add (documents : List (Document Content Value Number)) (collection : String)
      (space : Option String)
  | upsert (documents : List (Document Content Value Number)) (collection : String)
      (space : Option String)
  | delete (ids : List String) (collection : String)
  | deleteWhere (collection : String) (filter : List (String × Value))
  | deleteCollection (collection : String)
  | renameCollection (old new : String)
  | eraseUnder (name : String)

/-- What a call returns: the ids that were written, or how many documents it was about. -/
inductive Reply where
  | written (ids : List String)
  | counted (n : Nat)
  deriving DecidableEq, Repr

variable {Content Value Number : Type}

def DocRow.matches (values : Values Value) (filter : List (String × Value))
    (row : DocRow Content Value Number) : Bool :=
  filter.all fun wanted =>
    values.same ((row.metadata.lookup wanted.1).getD values.missing) wanted.2

namespace Store

def fresh : Store Content Value Number := ⟨.empty, .empty⟩

variable (s : Store Content Value Number)

def known (collection : String) : Option Nat :=
  (s.docs.rows.find? fun row => row.1.1 = collection ∧ 0 < row.2.dims).map fun row => row.2.dims

/-- The next document of a batch, after others of this width. -/
def widen (collection : String) (width : Option Nat) (doc : Document Content Value Number) :
    Except Failure (Option Nat) :=
  match doc.embedding, width with
  | none, _ => .ok width
  | some vector, none => .ok (some vector.length)
  | some vector, some width =>
    if vector.length ≠ width then .error (.width collection width doc.id vector.length)
    else .ok (some vector.length)

def checkSpace (collection space : String) (width : Nat) (record : Bool) :
    Except Failure (Store Content Value Number) :=
  match s.spaces.get? collection with
  | none =>
    .ok (if record then { s with spaces := s.spaces.insert collection ⟨space, width⟩ } else s)
  | some row =>
    if row.space ≠ space ∨ row.dims ≠ width then .error (.space collection row width space)
    else .ok s

def checked (collection : String) (space : Option String) (width : Option Nat) :
    Except Failure (Store Content Value Number) :=
  match space, width with
  | some space, some width => s.checkSpace collection space width true
  | _, _ => .ok s

/-- The row that a document becomes. -/
def rowOf (space : Option String) (doc : Document Content Value Number) :
    DocRow Content Value Number where
  content := doc.content
  metadata := doc.metadata
  embedding := doc.embedding
  dims := (doc.embedding.map List.length).getD 0
  writer := space
  wide := rfl

def place (replace : Bool) (collection : String) (space : Option String)
    (docs : Docs Content Value Number) (doc : Document Content Value Number) :
    Docs Content Value Number :=
  if replace then docs.upsert (collection, doc.id) (rowOf space doc) fun _ => rowOf space doc
  else docs.insert (collection, doc.id) (rowOf space doc)

def write (documents : List (Document Content Value Number)) (collection : String)
    (replace : Bool) (space : Option String) :
    Except Failure (Store Content Value Number × List String) := do
  let width ← documents.foldlM (widen collection) (s.known collection)
  let s ← s.checked collection space width
  .ok ({ s with docs := documents.foldl (place replace collection space) s.docs },
    documents.map Document.id)

def spaceOf (collection : String) : Option (String × Nat) :=
  (s.spaces.get? collection).map fun row => (row.space, row.dims)

def remove (collection : String) (removed : Docs Content Value Number × Nat) (id : String) :
    Docs Content Value Number × Nat :=
  (removed.1.erase (collection, id),
    removed.2 + if (removed.1.get? (collection, id)).isSome then 1 else 0)

def delete (ids : List String) (collection : String) : Store Content Value Number × Nat :=
  let removed := ids.foldl (remove collection) (s.docs, 0)
  ({ s with docs := removed.1 }, removed.2)

def deleteWhere (values : Values Value) (collection : String) (filter : List (String × Value)) :
    Store Content Value Number × Nat :=
  let rows := s.docs.rows.filter fun row => row.1.1 = collection
  let ids := (rows.filter fun row => row.2.matches values filter).map fun row => row.1.2
  ({ s with docs := (ids.foldl (remove collection) (s.docs, 0)).1 }, ids.length)

def size (docs : Docs Content Value Number) (p : String → Bool) : Nat :=
  docs.rows.countP fun row => p row.1.1

def deleteCollection (collection : String) : Store Content Value Number × Nat :=
  ({ docs := s.docs.filter fun key _ => key.1 ≠ collection, spaces := s.spaces.erase collection },
    size s.docs fun name => name = collection)

/-- A collection's name once `old` is called `new`. -/
def renamed (old new name : String) : String := if name = old then new else name

def renameCollection (old new : String) : Except Failure (Store Content Value Number × Nat) :=
  let docs := s.docs.filter fun key _ =>
    ¬ (key.1 = new ∧ (s.docs.get? (old, key.2)).isSome)
  let moved := size docs fun name => name = old
  match docs.rekey (fun key => (renamed old new key.1, key.2)),
      (s.spaces.erase new).rekey (renamed old new) with
  | some docs, some spaces => .ok (⟨docs, spaces⟩, moved)
  | _, _ => .error .integrity

def eraseUnder (name : String) : Store Content Value Number × Nat :=
  ({ docs := s.docs.filter fun key _ => ¬ Threads.under key.1 name
     spaces := s.spaces.filter fun collection _ => ¬ Threads.under collection name },
    size s.docs fun collection => Threads.under collection name)

def perform (values : Values Value) :
    Call Content Value Number → Except Failure (Store Content Value Number × Reply)
  | .add documents collection space => do
      let (s, ids) ← s.write documents collection false space
      .ok (s, .written ids)
  | .upsert documents collection space => do
      let (s, ids) ← s.write documents collection true space
      .ok (s, .written ids)
  | .delete ids collection => .ok ((s.delete ids collection).map id .counted)
  | .deleteWhere collection filter => .ok ((s.deleteWhere values collection filter).map id .counted)
  | .deleteCollection collection => .ok ((s.deleteCollection collection).map id .counted)
  | .renameCollection old new => do
      let (s, moved) ← s.renameCollection old new
      .ok (s, .counted moved)
  | .eraseUnder name => .ok ((s.eraseUnder name).map id .counted)

def after (values : Values Value) (call : Call Content Value Number)
    (s : Store Content Value Number) : Store Content Value Number :=
  match s.perform values call with
  | .ok (s', _) => s'
  | .error _ => s

end Store

end Substrate.Vectors
