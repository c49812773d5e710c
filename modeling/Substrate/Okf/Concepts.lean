import Substrate.Frontmatter.RoundTrip

/-!
Concept documents (`documents/okf.py`): a mapping between two fences, and a body after them.
What the module knows by name are fields, and what it does not is kept.
-/

namespace Substrate.Okf

open Lib PyText Frontmatter

abbrev Entries := List (Text × Value)

def typeKey : Text := ['t', 'y', 'p', 'e']
def titleKey : Text := ['t', 'i', 't', 'l', 'e']
def descriptionKey : Text := ['d', 'e', 's', 'c', 'r', 'i', 'p', 't', 'i', 'o', 'n']
def resourceKey : Text := ['r', 'e', 's', 'o', 'u', 'r', 'c', 'e']
def tagsKey : Text := ['t', 'a', 'g', 's']
def statusKey : Text := ['s', 't', 'a', 't', 'u', 's']
def staleAfterKey : Text := ['s', 't', 'a', 'l', 'e', '_', 'a', 'f', 't', 'e', 'r']
def generatedKey : Text := ['g', 'e', 'n', 'e', 'r', 'a', 't', 'e', 'd']
def verifiedKey : Text := ['v', 'e', 'r', 'i', 'f', 'i', 'e', 'd']
def sourcesKey : Text := ['s', 'o', 'u', 'r', 'c', 'e', 's']

def knownKeys : List Text :=
  [typeKey, titleKey, descriptionKey, resourceKey, tagsKey, statusKey, staleAfterKey,
    generatedKey, verifiedKey, sourcesKey]

def draft : Text := ['d', 'r', 'a', 'f', 't']
def stable : Text := ['s', 't', 'a', 'b', 'l', 'e']
def deprecated : Text := ['d', 'e', 'p', 'r', 'e', 'c', 'a', 't', 'e', 'd']

def validStatuses : List Text := [draft, stable, deprecated]

/-- `_FRONTMATTER_FENCE`. -/
def fence : Text := ['-', '-', '-']

structure Concept where
  type : Text
  body : Text
  title : Value
  description : Value
  resource : Value
  tags : List Text
  status : Text
  staleAfter : Value
  generated : Value
  verified : List Entries
  sources : List Entries
  extra : Entries

/-- Why there is no concept: the document does not conform, or an exception or a loop that
never ends. -/
inductive Failure where
  | nonconforming (message : String)
  | halted (why : Halt)
  deriving DecidableEq, Repr

/-- The truth of a value. -/
def truthy : Value → Bool
  | .null => false
  | .bool b => b
  | .int n => n ≠ 0
  | .float (.finite d) => d.digits ≠ []
  | .float (.infinite _) => true
  | .str text => text ≠ []
  | .list items => ¬ items.isEmpty
  | .map entries => ¬ entries.isEmpty

/-- `loaded.get(key)`. -/
def get (loaded : Entries) (key : Text) : Value :=
  ((loaded.find? fun entry => entry.1 = key).map Prod.snd).getD .null

/-- `value or other`. -/
def orElse (value other : Value) : Value := if truthy value then value else other

def iterated : Value → Except Failure (List Value)
  | .list items => .ok items
  | .map entries => .ok (entries.map fun entry => .str entry.1)
  | .str text => .ok (text.map fun c => .str [c])
  | _ => .error (.halted .raised)

def asMap? : Value → Option Entries
  | .map entries => some entries
  | _ => none

def cutAtFence : Text → Option (Text × Text)
  | [] => none
  | c :: rest =>
    if ('\n' :: fence).isPrefixOf (c :: rest) then some ([], rest.drop fence.length)
    else (cutAtFence rest).map fun (before, after) => (c :: before, after)

local instance lawfulText : LawfulBEq (List Char) := inferInstance

/-- The concept that a mapping stands for; `shown` is what `str` makes of a value that is no
string. -/
def conceptOf (shown : Value → Text) (loaded : Entries) (body : Text) : Except Failure Concept :=
  match get loaded typeKey with
  | .str type =>
    if strip type = [] then .error (.nonconforming "frontmatter has no non-empty 'type'")
    else do
      let verified ← match orElse (get loaded verifiedKey) (.list []) with
        | .map entries => .ok [.map entries]
        | raw => iterated raw
      let tags ← match orElse (get loaded tagsKey) (.list []) with
        | .str text => .ok [.str text]
        | raw => iterated raw
      let status ← match orElse (get loaded statusKey) (.str stable) with
        | .str text => .ok (if text ∈ validStatuses then text else stable)
        | .list _ | .map _ => .error (.halted .raised)
        | _ => .ok stable
      let sources ← iterated (orElse (get loaded sourcesKey) (.list []))
      .ok
        { type := strip type
          body := body
          title := get loaded titleKey
          description := get loaded descriptionKey
          resource := get loaded resourceKey
          tags := tags.map fun
            | .str text => text
            | v => shown v
          status := status
          staleAfter := get loaded staleAfterKey
          generated := get loaded generatedKey
          verified := verified.filterMap asMap?
          sources := sources.filterMap asMap?
          extra := loaded.filter fun entry => entry.1 ∉ knownKeys }
  | _ => .error (.nonconforming "frontmatter has no non-empty 'type'")

def parse (py : Interpreter) (shown : Value → Text) (text : Text) : Except Failure Concept :=
  let stripped := text.dropWhile fun c => c = Char.ofNat 0xFEFF
  if ¬ fence.isPrefixOf stripped then .error (.nonconforming "missing YAML frontmatter block")
  else
    let rest := (stripped.drop fence.length).dropWhile fun c => c = '\r' ∨ c = '\n'
    match cutAtFence rest with
    | none => .error (.nonconforming "unterminated YAML frontmatter block")
    | some (front, after) =>
      match (loadMapping py front).outcome with
      | .error why => .error (.halted why)
      | .ok loaded => conceptOf shown loaded (strip after)

def Concept.optional (c : Concept) : Entries :=
  [(titleKey, c.title), (descriptionKey, c.description), (resourceKey, c.resource),
    (tagsKey, .list (c.tags.map .str)),
    (statusKey, if c.status = stable then .null else .str c.status),
    (staleAfterKey, c.staleAfter), (generatedKey, c.generated),
    (verifiedKey, .list (c.verified.map .map)), (sourcesKey, .list (c.sources.map .map))]

/-- What is written of the fields that have names; an optional one is left out if it is
empty. -/
def Concept.fields (c : Concept) : Entries :=
  (typeKey, .str c.type) :: c.optional.filter fun entry => truthy entry.2

def Concept.front (c : Concept) : Entries :=
  c.extra.foldl (fun data entry => put data entry.1 entry.2) c.fields

def serialize (py : Interpreter) (c : Concept) : Except Halt Text := do
  let front ← dumpMapping py c.front
  .ok (fence ++ '\n' :: (front ++ '\n' :: (fence ++ '\n' :: '\n' :: (strip c.body ++ ['\n']))))

end Substrate.Okf
