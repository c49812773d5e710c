import Mathlib.Data.List.Dedup
import Mathlib.Data.List.Sort
import Mathlib.Data.String.Basic
import Substrate.Lib.Weight

/-!
The topic tree of one collection (`documents/library.py`): the table of what is filed
where, and the pages under `_topics` that show it. A call rewrites the pages of the topics
it touched and of their parents, and removes those that became empty.
-/

namespace Substrate.Topics

open Lib

abbrev Text := List Char

/-- One level of a topic, as `topic_path` makes it. -/
structure Name where
  text : Text
  nonempty : text ≠ []
  plain : '/' ∉ text
  deriving DecidableEq

abbrev Topic := List Name

def Topic.text (topic : Topic) : Text := ['/'].intercalate (topic.map Name.text)

/-- `str.lower` of one character, as far as ASCII letters come of it. -/
def lower (c : Char) : List Char :=
  if c = '\u212a' then ['k'] else if c = '\u0130' then ['i', '\u0307'] else [c.toLower]

def isSlugChar (c : Char) : Bool := ('a' ≤ c ∧ c ≤ 'z') ∨ ('0' ≤ c ∧ c ≤ '9')

/-- `_SLUG.sub("-", ...)`: each run of other characters is one dash. -/
def dashed : Bool → Text → Text
  | _, [] => []
  | inRun, c :: rest =>
    if isSlugChar c then c :: dashed false rest
    else if inRun then dashed true rest
    else '-' :: dashed true rest

/-- `strip("-")`. -/
def stripDashes (text : Text) : Text :=
  ((text.dropWhile fun c => c = '-').reverse.dropWhile fun c => c = '-').reverse

def slug (text : Text) (limit : Nat := 40) : Text :=
  let cut := stripDashes ((stripDashes (dashed false (text.flatMap lower))).take limit)
  if cut = [] then "untitled".toList else cut

/-- What is known of a document, the card a model wrote included. -/
structure DocumentInfo where
  title : Text
  filename : Text
  pages : Nat
  description : Option Text
  deriving DecidableEq

structure Entry where
  name : Text
  link : Text
  count : Nat
  deriving DecidableEq

structure Line where
  title : Text
  link : Text
  blurb : Text
  deriving DecidableEq

structure Page where
  title : Text
  total : Nat
  topics : List Entry
  documents : List Line
  deriving DecidableEq

/-- What one `set_topics` changed: for each document the topics before and after. -/
abbrev Change := List (Text × List Topic × List Topic)

inductive File where
  | page (page : Page)
  | log (changes : List Change)
  deriving DecidableEq

structure Library where
  documents : Table Text DocumentInfo
  topics : Table (Text × Topic) Unit
  files : Table Text File

/-- `_blurb`. `shorten` makes one short line of a card. -/
def blurb (shorten : Text → Text) (document : Text) (info : DocumentInfo) : Text :=
  let counted := (if info.filename = [] then document else info.filename) ++ ", ".toList ++
    (toString info.pages).toList ++ (if info.pages = 1 then " page" else " pages").toList
  match info.description with
  | none => counted
  | some card => if card = [] then counted else shorten card

def folder (topic : Topic) : Text := topic.flatMap fun name => slug name.text ++ ['/']

/-- `index.md`. -/
def indexName : Text := ['i', 'n', 'd', 'e', 'x', '.', 'm', 'd']

/-- `log.md`. -/
def logKey : Text := ['l', 'o', 'g', '.', 'm', 'd']

def pageKey (topic : Topic) : Text := folder topic ++ indexName

def Library.rows (lib : Library) : List (Text × Topic) := lib.topics.rows.map Prod.fst

def Library.here (lib : Library) (path : Topic) : List Text :=
  (lib.rows.filter fun row => row.2 = path).map Prod.fst

def Library.below (lib : Library) (path : Topic) : List (Text × Topic) :=
  lib.rows.filter fun row => path.isPrefixOf row.2 ∧ row.2 ≠ path

def Library.children (lib : Library) (path : Topic) : List Topic :=
  ((lib.below path).map fun row => row.2.take (path.length + 1)).dedup.insertionSort
    fun (a b : Topic) => a.text ≤ b.text

def Library.documentsUnder (lib : Library) (path : Topic) : List Text :=
  ((lib.rows.filter fun row => path.isPrefixOf row.2).map Prod.fst).dedup

def nameOf (topic : Topic) : Text := (topic.getLast?.map Name.text).getD "Topics".toList

def entryOf (lib : Library) (child : Topic) : Entry :=
  ⟨nameOf child, slug (nameOf child) ++ '/' :: indexName, (lib.documentsUnder child).length⟩

def lineOf (shorten : Text → Text) (path : Topic) (document : Text) (info : DocumentInfo) : Line :=
  ⟨info.title,
    (List.replicate (path.length + 1) "../".toList).flatten ++ document ++ '/' :: indexName,
    blurb shorten document info⟩

/-- The page of a topic, which has none if nothing is filed at it or below. -/
def pageOf (shorten : Text → Text) (lib : Library) (path : Topic) : Option Page :=
  if lib.here path = [] ∧ lib.below path = [] then none
  else
    some
      { title := nameOf path
        total := (lib.documentsUnder path).length
        topics := (lib.children path).map (entryOf lib)
        documents := (lib.here path).filterMap fun document =>
          (lib.documents.get? document).map (lineOf shorten path document) }

def affected (changed : List Topic) : List Topic :=
  ([] :: changed.flatMap List.inits).dedup.insertionSort fun (a b : Topic) => a.text ≤ b.text

def writeTopicPages (shorten : Text → Text) (lib : Library) (changed : List Topic) : Library :=
  if changed = [] then lib
  else
    { lib with
      files := (affected changed).foldl
        (fun files path => files.set (pageKey path) ((pageOf shorten lib path).map .page))
        lib.files }

def Library.topicsOf (lib : Library) (document : Text) : List Topic :=
  (lib.rows.filter fun row => row.1 = document).map Prod.snd

def Library.refile (lib : Library) (document : Text) (topics : List Topic) : Library :=
  { lib with
    topics := topics.foldl (fun table topic => table.insert (document, topic) ())
      (lib.topics.filter fun key _ => key.1 ≠ document) }

/-- `annotate`, which raises for a document that is not there. -/
def annotate (shorten : Text → Text) (lib : Library) (document card : Text)
    (topics : List Topic) : Library :=
  if lib.documents.get? document = none then lib
  else
    let filed := lib.refile document topics
    let saved := { filed with
      documents := filed.documents.modify document fun info =>
        { info with description := some card } }
    writeTopicPages shorten saved (lib.topicsOf document ++ topics)

/-- The loop of `set_topics`. It ends at a document whose index is not there, which raises
after its rows were replaced. -/
def refileAll : List (Text × List Topic) → Library → Library × Bool
  | [], lib => (lib, true)
  | (document, topics) :: rest, lib =>
    let lib := lib.refile document topics
    if lib.documents.get? document = none then (lib, false) else refileAll rest lib

/-- `_log_reorganisation`. -/
def logged (change : Change) : Option File → File
  | some (.log changes) => .log (changes ++ [change])
  | _ => .log [change]

def setTopics (shorten : Text → Text) (lib : Library) (plan : Table Text (List Topic)) :
    Library :=
  let change := plan.rows.map fun row => (row.1, lib.topicsOf row.1, row.2)
  match refileAll plan.rows lib with
  | (lib, false) => lib
  | (lib, true) =>
    let lib := writeTopicPages shorten lib (change.flatMap fun row => row.2.1 ++ row.2.2)
    { lib with files := lib.files.set logKey (logged change (lib.files.get? logKey)) }

def delete (shorten : Text → Text) (lib : Library) (document : Text) : Library :=
  let removed : Library :=
    { lib with
      documents := lib.documents.erase document
      topics := lib.topics.filter fun key _ => key.1 ≠ document }
  if lib.documents.get? document = none then removed
  else writeTopicPages shorten removed (lib.topicsOf document)

inductive Call where
  | annotate (document card : Text) (topics : List Topic)
  | setTopics (plan : Table Text (List Topic))
  | delete (document : Text)

def Library.perform (shorten : Text → Text) (lib : Library) : Call → Library
  | .annotate document card topics => annotate shorten lib document card topics
  | .setTopics plan => setTopics shorten lib plan
  | .delete document => delete shorten lib document

end Substrate.Topics
