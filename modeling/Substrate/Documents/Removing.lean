import Substrate.Documents.Bundles
import Substrate.Lib.Folders
import Substrate.Topics.Tree

/-!
Removing a document from a library (`Library.delete`). What belongs to the document is
found in three ways: its files by the beginning of their keys, its rows by two columns,
its vectors by a value in their metadata. The files go before it is known whether there is
such a document.
-/

namespace Substrate.Documents

open Files Lib List

/-- The tables with rows about a document, apart from its own and its topics. -/
inductive PartTable where
  | sections | images | enrichment | enrichmentState
  deriving DecidableEq, Repr

structure Part where
  table : PartTable
  collection : Path
  document : Path
  data : String
  deriving DecidableEq, Repr

/-- A row of `vector_docs`. `document` is the value under that key of its metadata, if it is
a text. -/
structure VectorRow where
  collection : Path
  id : Path
  document : Option Path
  data : String
  deriving DecidableEq, Repr

structure TopicRow where
  collection : Path
  document : Path
  topic : Topics.Topic
  deriving DecidableEq

def topicsDir : Path := ['_', 't', 'o', 'p', 'i', 'c', 's']

/-- The ids of documents: `add` makes them from a slug, and `reindex` takes the names of
folders. -/
structure IsDocument (document : Path) : Prop where
  ne_nil : document ≠ []
  plain : '/' ∉ document
  not_topics : document ≠ topicsDir

/-- What a library keeps: its files, the rows of the catalog and the vectors. -/
structure Shelf where
  files : FileTable
  documents : Table (Path × Path) String
  parts : List Part
  topics : List TopicRow
  vectors : List VectorRow
  named : ∀ row ∈ documents.rows, IsDocument row.1.2

/-- What is set up around a library: whether documents are filed by topic, and the texts of
the pages. -/
structure Desk where
  setting : Setting
  fileTopics : Bool
  topicPage : Shelf → Path → Topics.Topic → List UInt8
  indexPage : Shelf → Path → List UInt8

/-- `collection.strip("/")`. -/
def stripSlashes (text : Path) : Path :=
  (text.dropWhile fun c => c = '/').rdropWhile fun c => c = '/'

namespace Shelf

variable (shelf : Shelf)

/-- `_exists`. -/
def has (collection document : Path) : Bool := (shelf.documents.get? (collection, document)).isSome

def topicsOf (collection document : Path) : List Topics.Topic :=
  (shelf.topics.filter fun row => row.collection = collection ∧ row.document = document).map
    TopicRow.topic

def inUse (collection : Path) (topic : Topics.Topic) : Bool :=
  shelf.topics.any fun row => row.collection = collection ∧ topic.isPrefixOf row.topic

end Shelf

def topicsFolder (collection : Path) : Path := collection ++ '/' :: (topicsDir ++ ['/'])

def topicKey (collection : Path) (topic : Topics.Topic) : Path :=
  topicsFolder collection ++ Topics.pageKey topic

def indexKey (collection : Path) : Path := collection ++ '/' :: Topics.indexName

abbrev PageWrite := Path × Option (List UInt8)

def putPage (setting : Setting) (now : Nat) (files : FileTable) :
    PageWrite → Except Failure FileTable
  | (key, none) => (files.delete key).map Prod.snd
  | (key, some data) => (files.upload setting key data now).map Prod.snd

/-- One write after the other, up to the first that raises. -/
def putPages (setting : Setting) (now : Nat) : FileTable → List PageWrite →
    FileTable × Option Failure
  | files, [] => (files, none)
  | files, write :: rest =>
    match putPage setting now files write with
    | .error failure => (files, some failure)
    | .ok files => putPages setting now files rest

namespace Desk

variable (desk : Desk)

def listing (shelf : Shelf) (collection document : Path) : List Topics.Topic :=
  if desk.fileTopics = false ∨ shelf.topicsOf collection document = [] then []
  else Topics.affected (shelf.topicsOf collection document)

/-- `_write_topic_pages` and `_write_collection_index`. -/
def pageWrites (shelf : Shelf) (collection : Path) (topics : List Topics.Topic) : List PageWrite :=
  (topics.map fun topic =>
    (topicKey collection topic,
      if shelf.inUse collection topic then some (desk.topicPage shelf collection topic)
      else none)) ++
    [(indexKey collection, some (desk.indexPage shelf collection))]

/-- The rows, files and vectors that are left. -/
def without (shelf : Shelf) (collection document : Path) (files : FileTable) : Shelf where
  files := files
  documents := shelf.documents.erase (collection, document)
  parts := shelf.parts.filter fun row =>
    ¬ (row.collection = collection ∧ row.document = document)
  topics := shelf.topics.filter fun row =>
    ¬ (row.collection = collection ∧ row.document = document)
  vectors := shelf.vectors.filter fun row =>
    ¬ (row.collection = collection ∧ row.document = some document)
  named := by
    intro row hrow
    exact shelf.named row (mem_filter.mp hrow).1

def delete (shelf : Shelf) (name document : Path) (now : Nat) : Except Failure Bool × Shelf :=
  let collection := stripSlashes name
  let existed := shelf.has collection document
  let before := desk.listing shelf collection document
  match shelf.files.deletePrefix (bundle collection document) with
  | .error failure => (.error failure, shelf)
  | .ok (_, files) =>
    let left := without shelf collection document files
    if existed then
      match putPages desk.setting now left.files
        (desk.pageWrites left collection before) with
      | (files, some failure) => (.error failure, { left with files := files })
      | (files, none) => (.ok true, { left with files := files })
    else (.ok false, left)

end Desk

/-- The document that a vector was written for: the ids of a document's vectors begin with
its own and a colon. -/
def VectorRow.owner (row : VectorRow) : Path := row.id.takeWhile fun c => c ≠ ':'

def OwnPage (collection key : Path) : Prop :=
  key = indexKey collection ∨ topicsFolder collection <+: key

/-- A key in the bundle of another document, or of a topic page that does not list this
one. -/
def Bystander (desk : Desk) (shelf : Shelf) (collection document key : Path) : Prop :=
  (¬ OwnPage collection key ∧ ∃ other, other ≠ (collection, document) ∧
      shelf.documents.get? other ≠ none ∧ bundle other.1 other.2 <+: key) ∨
    (topicsFolder collection <+: key ∧
      ∀ topic ∈ desk.listing shelf collection document, key ≠ topicKey collection topic)

/-- The deletion of a document has done what it is to do: if there was the document, nothing
of it is left; what belongs to others is as it was; and if it returns that there was no such
document nothing has changed. -/
structure Deletes (desk : Desk) (shelf : Shelf) (collection document : Path)
    (outcome : Except Failure Bool × Shelf) : Prop where
  goneFiles : shelf.has collection document = true → ∀ key row,
    outcome.2.files.get? key = some row → ¬ bundle collection document <+: key
  goneRows : shelf.has collection document = true →
    outcome.2.documents.get? (collection, document) = none ∧
      (∀ row ∈ outcome.2.parts, ¬ (row.collection = collection ∧ row.document = document)) ∧
      ∀ row ∈ outcome.2.topics, ¬ (row.collection = collection ∧ row.document = document)
  goneVectors : shelf.has collection document = true → ∀ row ∈ outcome.2.vectors,
    ¬ (row.collection = collection ∧ row.owner = document)
  files : ∀ key, Bystander desk shelf collection document key →
    outcome.2.files.get? key = shelf.files.get? key
  documents : ∀ other, other ≠ (collection, document) →
    outcome.2.documents.get? other = shelf.documents.get? other
  parts : ∀ row, ¬ (row.collection = collection ∧ row.document = document) →
    (row ∈ outcome.2.parts ↔ row ∈ shelf.parts)
  topics : ∀ row, ¬ (row.collection = collection ∧ row.document = document) →
    (row ∈ outcome.2.topics ↔ row ∈ shelf.topics)
  vectors : ∀ row, ¬ (row.collection = collection ∧ row.owner = document) →
    (row ∈ outcome.2.vectors ↔ row ∈ shelf.vectors)
  unchanged : outcome.1 = .ok false → outcome.2 = shelf

/-- What a document must be for its deletion to be right: if there is one, the beginning of
its keys begins no key of another, and the metadata of the vectors name the documents they
were written for; if there is none, nothing has such a key, and no row or vector names it. -/
structure Deletable (desk : Desk) (shelf : Shelf) (collection document : Path) : Prop where
  accepted : shelf.has collection document = true →
    FileTable.check (bundle collection document) = .ok ()
  apart : shelf.has collection document = true → ∀ key row,
    shelf.files.get? key = some row → FileTable.chosen (bundle collection document) key = true →
      ¬ Bystander desk shelf collection document key
  named : shelf.has collection document = true → ∀ row ∈ shelf.vectors,
    row.collection = collection → (row.document = some document ↔ row.owner = document)
  absent : shelf.has collection document = false →
    FileTable.check (bundle collection document) = .ok () →
      (∀ key row, shelf.files.get? key = some row →
        FileTable.chosen (bundle collection document) key = false) ∧
      (∀ row ∈ shelf.parts, ¬ (row.collection = collection ∧ row.document = document)) ∧
      (∀ row ∈ shelf.topics, ¬ (row.collection = collection ∧ row.document = document)) ∧
      ∀ row ∈ shelf.vectors, ¬ (row.collection = collection ∧ row.document = some document)

theorem FileTable.deletePrefix_ok {files : FileTable} {start : Path}
    (hcheck : FileTable.check start = .ok ()) :
    files.deletePrefix start = .ok (.removed (files.rows.filter fun row =>
      FileTable.chosen start row.1).length, files.filter fun key _ => !FileTable.chosen start key) := by
  unfold FileTable.deletePrefix
  rw [hcheck]
  rfl

theorem FileTable.deletePrefix_error {files : FileTable} {start : Path} {failure : Failure}
    (hcheck : FileTable.check start = .error failure) :
    files.deletePrefix start = .error failure := by
  unfold FileTable.deletePrefix
  rw [hcheck]
  rfl

theorem chosen_of_bundle {collection document key : Path} (h : IsDocument document)
    (hkey : bundle collection document <+: key) :
    FileTable.chosen (bundle collection document) key = true := by
  have hstem : FileTable.stem (bundle collection document) = collection ++ '/' :: document := by
    obtain ⟨front, last, rfl⟩ := eq_nil_or_concat' document |>.resolve_left h.ne_nil
    have hlast : last ≠ '/' := by
      rintro rfl
      exact h.plain (by simp)
    have hbare : (bundle collection (front ++ [last])).rdropWhile (fun c => c = '/') =
        collection ++ '/' :: (front ++ [last]) := by
      unfold bundle
      rw [← cons_append, ← append_assoc, rdropWhile_concat_pos _ _ _ (by simp)]
      exact rdropWhile_concat_neg _ _ _ (by simpa using hlast)
    unfold FileTable.stem
    dsimp only
    rw [hbare, if_neg (by simp)]
  unfold FileTable.chosen FileTable.inside
  rw [hstem]
  have hinside : ((collection ++ '/' :: document) ++ ['/']).isPrefixOf key = true := by
    rw [ isPrefixOf_iff_prefix]
    have hshape : (collection ++ '/' :: document) ++ ['/'] = bundle collection document := by
      simp [bundle]
    rw [hshape]
    exact hkey
  rw [hinside]
  simp

theorem not_bundle_of_ownPage {collection document key : Path} (h : IsDocument document)
    (hpage : OwnPage collection key) : ¬ bundle collection document <+: key := by
  intro hkey
  unfold bundle at hkey
  have hcut : ∀ rest, collection ++ '/' :: document ++ ['/'] <+: collection ++ '/' :: rest →
      document ++ ['/'] <+: rest := by
    intro rest hstart
    rw [append_assoc, prefix_append_right_inj, cons_append, cons_prefix_cons] at hstart
    exact hstart.2
  rcases hpage with rfl | ⟨rest, rfl⟩
  · have hin := (hcut _ hkey).subset (by simp : '/' ∈ document ++ ['/'])
    revert hin
    decide
  · have hshape : topicsFolder collection ++ rest =
        collection ++ '/' :: (topicsDir ++ '/' :: rest) := by
      simp [topicsFolder]
    rw [hshape] at hkey
    have hstart := hcut _ hkey
    have hboth := (start_iff h.plain (by decide : '/' ∉ topicsDir) [] rest).mp
      (by simpa using hstart)
    exact h.not_topics hboth.1

theorem indexKey_not_topics (collection : Path) :
    ¬ topicsFolder collection <+: indexKey collection := by
  intro h
  unfold topicsFolder indexKey at h
  rw [prefix_append_right_inj] at h
  revert h
  decide

theorem putPage_get? {setting : Setting} {now : Nat} {files files' : FileTable}
    {write : PageWrite} (h : putPage setting now files write = .ok files') {key : Path}
    (hkey : key ≠ write.1) : files'.get? key = files.get? key := by
  obtain ⟨target, data⟩ := write
  cases data with
  | none =>
    unfold putPage FileTable.delete at h
    dsimp only at h
    cases hcheck : FileTable.check target with
    | error failure =>
      rw [hcheck] at h
      cases h
    | ok _ =>
      rw [hcheck] at h
      cases h
      rw [Table.get?_erase, if_neg hkey]
  | some data =>
    unfold putPage FileTable.upload at h
    dsimp only at h
    cases hcheck : FileTable.check target with
    | error failure =>
      rw [hcheck] at h
      cases h
    | ok _ =>
      rw [hcheck] at h
      dsimp only [bind, Except.bind] at h
      split at h
      · cases h
      · cases h
        rw [Table.get?_set, if_neg hkey]

theorem putPages_get? {setting : Setting} {now : Nat} (writes : List PageWrite)
    {files : FileTable} {key : Path} (hkey : ∀ write ∈ writes, key ≠ write.1) :
    (putPages setting now files writes).1.get? key = files.get? key := by
  induction writes generalizing files with
  | nil => rfl
  | cons write rest ih =>
    have hrest := fun w hw => hkey w (mem_cons_of_mem write hw)
    unfold putPages
    cases hput : putPage setting now files write with
    | error failure => rfl
    | ok files' =>
      dsimp only
      rw [ih hrest, putPage_get? hput (hkey write mem_cons_self)]

section Delete

variable {desk : Desk} {shelf : Shelf} {collection document : Path} {now : Nat}

theorem pageWrites_keys {left : Shelf} {topics : List Topics.Topic} {write : PageWrite}
    (h : write ∈ desk.pageWrites left collection topics) :
    write.1 = indexKey collection ∨ ∃ topic ∈ topics, write.1 = topicKey collection topic := by
  rcases mem_append.mp h with h | h
  · obtain ⟨topic, htopic, rfl⟩ := mem_map.mp h
    exact .inr ⟨topic, htopic, rfl⟩
  · rw [mem_singleton.mp h]
    exact .inl rfl

theorem bystander_not_written {key : Path} (h : Bystander desk shelf collection document key)
    {left : Shelf} : ∀ write ∈ desk.pageWrites left collection
      (desk.listing shelf collection document), key ≠ write.1 := by
  intro write hwrite heq
  rcases pageWrites_keys hwrite with hindex | ⟨topic, htopic, hpage⟩
  · rw [hindex] at heq
    rcases h with ⟨hown, -⟩ | ⟨htopics, -⟩
    · exact hown (.inl heq)
    · rw [heq] at htopics
      exact indexKey_not_topics collection htopics
  · rw [hpage] at heq
    rcases h with ⟨hown, -⟩ | ⟨-, hnone⟩
    · exact hown (.inr (by rw [heq]; exact prefix_append _ _))
    · exact hnone topic htopic heq

abbrev leftFiles (shelf : Shelf) (collection document : Path) : FileTable :=
  shelf.files.filter fun key _ => !FileTable.chosen (bundle collection document) key

theorem leftFiles_get? (key : Path) : (leftFiles shelf collection document).get? key =
      if FileTable.chosen (bundle collection document) key then none
      else shelf.files.get? key := by
  unfold leftFiles
  rw [Table.get?_filter]
  cases hget : shelf.files.get? key with
  | none => simp
  | some row => cases FileTable.chosen (bundle collection document) key <;> simp

theorem delete_existing (name : Path) (hhas : shelf.has (stripSlashes name) document = true)
    (hcheck : FileTable.check (bundle (stripSlashes name) document) = .ok ()) :
    ∃ reply files, desk.delete shelf name document now =
        (reply, Desk.without shelf (stripSlashes name) document files) ∧ reply ≠ .ok false ∧
      ∀ key, (∀ left : Shelf, ∀ write ∈ desk.pageWrites left (stripSlashes name)
          (desk.listing shelf (stripSlashes name) document), key ≠ write.1) →
        files.get? key = (leftFiles shelf (stripSlashes name) document).get? key := by
  unfold Desk.delete
  generalize stripSlashes name = collection at *
  simp only [FileTable.deletePrefix_ok hcheck, hhas, if_true]
  have hkept : ∀ key, (∀ left : Shelf, ∀ write ∈ desk.pageWrites left collection
      (desk.listing shelf collection document), key ≠ write.1) → ∀ left : Shelf,
      (putPages desk.setting now (leftFiles shelf collection document) (desk.pageWrites left
        collection (desk.listing shelf collection document))).1.get? key =
        (leftFiles shelf collection document).get? key := by
    intro key hkey left
    exact putPages_get? _ (hkey left)
  cases hput : putPages desk.setting now (leftFiles shelf collection document) (desk.pageWrites
      (Desk.without shelf collection document (leftFiles shelf collection document)) collection
        (desk.listing shelf collection document)) with
  | mk files failed =>
    have hput' := hput
    unfold leftFiles at hput'
    have hfiles := fun key hkey => hkept key hkey
      (Desk.without shelf collection document (leftFiles shelf collection document))
    rw [hput] at hfiles
    cases failed with
    | some failure =>
      refine ⟨.error failure, files, ?_, by simp, hfiles⟩
      simp only [Desk.without] at hput' ⊢
      rw [hput']
    | none =>
      refine ⟨.ok true, files, ?_, by simp, hfiles⟩
      simp only [Desk.without] at hput' ⊢
      rw [hput']

theorem delete_absent (name : Path) (hhas : shelf.has (stripSlashes name) document = false)
    (hcheck : FileTable.check (bundle (stripSlashes name) document) = .ok ()) :
    desk.delete shelf name document now = (.ok false,
      Desk.without shelf (stripSlashes name) document
        (leftFiles shelf (stripSlashes name) document)) := by
  unfold Desk.delete
  simp only [FileTable.deletePrefix_ok hcheck, hhas]
  rfl

theorem delete_unaccepted (name : Path) {failure : Failure}
    (hcheck : FileTable.check (bundle (stripSlashes name) document) = .error failure) :
    desk.delete shelf name document now = (.error failure, shelf) := by
  unfold Desk.delete
  simp only [FileTable.deletePrefix_error hcheck]

theorem has_eq_false {collection document : Path} (h : shelf.has collection document = false) :
    shelf.documents.get? (collection, document) = none := by
  simpa [Shelf.has] using h

theorem without_eq {collection document : Path} (hhas : shelf.has collection document = false)
    (hfiles : ∀ key row, shelf.files.get? key = some row →
      FileTable.chosen (bundle collection document) key = false)
    (hparts : ∀ row ∈ shelf.parts, ¬ (row.collection = collection ∧ row.document = document))
    (htopics : ∀ row ∈ shelf.topics, ¬ (row.collection = collection ∧ row.document = document))
    (hvectors : ∀ row ∈ shelf.vectors,
      ¬ (row.collection = collection ∧ row.document = some document)) :
    Desk.without shelf collection document (leftFiles shelf collection document) = shelf := by
  have hfilter : leftFiles shelf collection document = shelf.files := by
    unfold leftFiles Table.filter
    have hrows : (shelf.files.rows.filter fun row =>
        !FileTable.chosen (bundle collection document) row.1) = shelf.files.rows := by
      rw [filter_eq_self]
      intro row hrow
      rw [hfiles row.1 row.2 (Table.mem_rows_iff.mp hrow)]
      rfl
    simp only [hrows]
  have hdocuments : shelf.documents.erase (collection, document) = shelf.documents := by
    have hnone := Table.get?_eq_none_iff.mp (has_eq_false hhas)
    unfold Table.erase Table.filter
    have hrows : (shelf.documents.rows.filter fun row =>
        decide (row.1 ≠ (collection, document))) = shelf.documents.rows := by
      rw [filter_eq_self]
      intro row hrow
      rw [decide_eq_true_eq]
      intro heq
      exact hnone (heq ▸ mem_map_of_mem hrow)
    simp only [hrows]
  have hpartsSame : (shelf.parts.filter fun row =>
      ¬ (row.collection = collection ∧ row.document = document)) = shelf.parts :=
    filter_eq_self.mpr fun row hrow => decide_eq_true (hparts row hrow)
  have htopicsSame : (shelf.topics.filter fun row =>
      ¬ (row.collection = collection ∧ row.document = document)) = shelf.topics :=
    filter_eq_self.mpr fun row hrow => decide_eq_true (htopics row hrow)
  have hvectorsSame : (shelf.vectors.filter fun row =>
      ¬ (row.collection = collection ∧ row.document = some document)) = shelf.vectors :=
    filter_eq_self.mpr fun row hrow => decide_eq_true (hvectors row hrow)
  unfold Desk.without
  simp only [hfilter, hdocuments, hpartsSame, htopicsSame, hvectorsSame]

theorem mem_without {files : FileTable} {collection document : Path} :
    (∀ row, row ∈ (Desk.without shelf collection document files).parts ↔
        row ∈ shelf.parts ∧ ¬ (row.collection = collection ∧ row.document = document)) ∧
      (∀ row, row ∈ (Desk.without shelf collection document files).topics ↔
        row ∈ shelf.topics ∧ ¬ (row.collection = collection ∧ row.document = document)) ∧
      ∀ row, row ∈ (Desk.without shelf collection document files).vectors ↔
        row ∈ shelf.vectors ∧ ¬ (row.collection = collection ∧ row.document = some document) := by
  refine ⟨fun row => ?_, fun row => ?_, fun row => ?_⟩
  · simp only [Desk.without, mem_filter, decide_eq_true_eq]
  · simp only [Desk.without, mem_filter, decide_eq_true_eq]
  · simp only [Desk.without, mem_filter, decide_eq_true_eq]

theorem isDocument_of_has {collection document : Path} (h : shelf.has collection document = true) :
    IsDocument document := by
  have hrow : (collection, document) ∈ shelf.documents.rows.map Prod.fst := by
    by_contra hno
    have hnone := Table.get?_eq_none_iff.mpr hno
    rw [Shelf.has, hnone] at h
    cases h
  obtain ⟨row, hin, heq⟩ := mem_map.mp hrow
  have hnamed := shelf.named row hin
  rw [heq] at hnamed
  exact hnamed

theorem bystander_of_bundle {collection document : Path} {key : Path}
    (hdoc : IsDocument document) (hkey : bundle collection document <+: key) (left : Shelf) :
    ∀ write ∈ desk.pageWrites left collection (desk.listing shelf collection document),
      key ≠ write.1 := by
  intro write hwrite heq
  refine not_bundle_of_ownPage hdoc ?_ hkey
  rcases pageWrites_keys hwrite with hindex | ⟨topic, -, hpage⟩
  · exact .inl (heq.trans hindex)
  · refine .inr ?_
    rw [heq, hpage]
    exact prefix_append _ _

theorem deletes_existing {collection document : Path} {files : FileTable}
    {reply : Except Failure Bool} (hhas : shelf.has collection document = true)
    (hreply : reply ≠ .ok false)
    (hfiles : ∀ key, (∀ left : Shelf, ∀ write ∈ desk.pageWrites left collection
      (desk.listing shelf collection document), key ≠ write.1) →
        files.get? key = (leftFiles shelf collection document).get? key) :
    Deletes desk shelf collection document (reply, Desk.without shelf collection document files) ↔
      (∀ key row, shelf.files.get? key = some row →
        FileTable.chosen (bundle collection document) key = true →
          ¬ Bystander desk shelf collection document key) ∧
      ∀ row ∈ shelf.vectors, row.collection = collection →
        (row.document = some document ↔ row.owner = document) := by
  obtain ⟨hparts, htopics, hvectors⟩ := @mem_without shelf files collection document
  have hbystander : ∀ key, Bystander desk shelf collection document key →
      files.get? key = if FileTable.chosen (bundle collection document) key then none
        else shelf.files.get? key := by
    intro key hkey
    rw [hfiles key fun left => bystander_not_written hkey, leftFiles_get?]
  constructor
  · intro h
    refine ⟨fun key row hget hchosen hkey => ?_, fun row hrow hcollection => ⟨fun hnamed => ?_,
      fun howner => ?_⟩⟩
    · have hsame := h.files key hkey
      have hgone := hbystander key hkey
      rw [if_pos hchosen] at hgone
      rw [show (reply, Desk.without shelf collection document files).2.files = files from rfl,
        hgone, hget] at hsame
      cases hsame
    · by_contra howner
      have hkept := (h.vectors row fun hboth => howner hboth.2).mpr hrow
      exact ((hvectors row).mp hkept).2 ⟨hcollection, hnamed⟩
    · by_contra hnamed
      have hkept := (hvectors row).mpr ⟨hrow, fun hboth => hnamed hboth.2⟩
      exact h.goneVectors hhas row hkept ⟨hcollection, howner⟩
  · rintro ⟨hapart, hnamed⟩
    constructor
    · intro _ key row hget hkey
      have hdoc := isDocument_of_has hhas
      have hnone := hfiles key (bystander_of_bundle hdoc hkey)
      rw [leftFiles_get?, if_pos (chosen_of_bundle hdoc hkey)] at hnone
      have hsome : files.get? key = some row := hget
      rw [hnone] at hsome
      cases hsome
    · intro _
      refine ⟨?_, fun row hrow => ((hparts row).mp hrow).2, fun row hrow => ((htopics row).mp hrow).2⟩
      simp [Desk.without, Table.get?_erase]
    · rintro _ row hrow ⟨hcollection, howner⟩
      obtain ⟨hin, hother⟩ := (hvectors row).mp hrow
      exact hother ⟨hcollection, (hnamed row hin hcollection).mpr howner⟩
    · intro key hkey
      have hget := hbystander key hkey
      cases hchosen : FileTable.chosen (bundle collection document) key with
      | false =>
        rw [hchosen] at hget
        simpa [Desk.without] using hget
      | true =>
        rw [if_pos hchosen] at hget
        have hnone : shelf.files.get? key = none := by
          cases hrow : shelf.files.get? key with
          | none => rfl
          | some row => exact absurd hkey (hapart key row hrow hchosen)
        simpa [Desk.without, hnone] using hget
    · intro other hother
      simp [Desk.without, Table.get?_erase, hother]
    · intro row hrow
      rw [hparts row]
      exact ⟨fun h => h.1, fun h => ⟨h, hrow⟩⟩
    · intro row hrow
      rw [htopics row]
      exact ⟨fun h => h.1, fun h => ⟨h, hrow⟩⟩
    · intro row hrow
      rw [hvectors row]
      refine ⟨fun h => h.1, fun h => ⟨h, ?_⟩⟩
      rintro ⟨hcollection, hdocument⟩
      exact hrow ⟨hcollection, (hnamed row h hcollection).mp hdocument⟩
    · intro hfalse
      exact absurd hfalse hreply

theorem deletes_absent {collection document : Path} (hhas : shelf.has collection document = false) :
    Deletes desk shelf collection document (.ok false,
        Desk.without shelf collection document (leftFiles shelf collection document)) ↔
      (∀ key row, shelf.files.get? key = some row →
        FileTable.chosen (bundle collection document) key = false) ∧
      (∀ row ∈ shelf.parts, ¬ (row.collection = collection ∧ row.document = document)) ∧
      (∀ row ∈ shelf.topics, ¬ (row.collection = collection ∧ row.document = document)) ∧
      ∀ row ∈ shelf.vectors, ¬ (row.collection = collection ∧ row.document = some document) := by
  obtain ⟨hparts, htopics, hvectors⟩ :=
    @mem_without shelf (leftFiles shelf collection document) collection document
  constructor
  · intro h
    have hsame : Desk.without shelf collection document (leftFiles shelf collection document) =
        shelf := h.unchanged rfl
    rw [hsame] at hparts htopics hvectors
    refine ⟨fun key row hget => ?_, fun row hrow => ((hparts row).mp hrow).2,
      fun row hrow => ((htopics row).mp hrow).2, fun row hrow => ((hvectors row).mp hrow).2⟩
    have hfiles : leftFiles shelf collection document = shelf.files := congrArg Shelf.files hsame
    have hleft := @leftFiles_get? shelf collection document key
    rw [hfiles, hget] at hleft
    cases hchosen : FileTable.chosen (bundle collection document) key with
    | false => rfl
    | true =>
      rw [if_pos hchosen] at hleft
      cases hleft
  · rintro ⟨hfiles, hparts, htopics, hvectors⟩
    rw [without_eq hhas hfiles hparts htopics hvectors]
    have habsurd : ∀ {p : Prop}, shelf.has collection document = true → p := by
      intro p h
      rw [hhas] at h
      cases h
    exact ⟨fun h => habsurd h, fun h => habsurd h, fun h => habsurd h, fun _ _ => rfl,
      fun _ _ => rfl, fun _ _ => Iff.rfl, fun _ _ => Iff.rfl, fun _ _ => Iff.rfl, fun _ => rfl⟩

end Delete

/-- A deletion removes the document, and nothing else, exactly when the document can be told
from everything else by its keys and its name. -/
theorem delete_deletes_iff (desk : Desk) (shelf : Shelf) (name document : Path) (now : Nat) :
    Deletes desk shelf (stripSlashes name) document (desk.delete shelf name document now) ↔
      Deletable desk shelf (stripSlashes name) document := by
  cases hhas : shelf.has (stripSlashes name) document with
  | true =>
    cases hcheck : FileTable.check (bundle (stripSlashes name) document) with
    | error failure =>
      rw [delete_unaccepted name hcheck]
      constructor
      · intro h
        have hgone := (h.goneRows hhas).1
        rw [Shelf.has] at hhas
        rw [hgone] at hhas
        cases hhas
      · intro h
        have haccepted := h.accepted hhas
        rw [hcheck] at haccepted
        cases haccepted
    | ok _ =>
      obtain ⟨reply, files, hdelete, hreply, hfiles⟩ :=
        @delete_existing desk shelf document now name hhas hcheck
      rw [hdelete, deletes_existing hhas hreply hfiles]
      constructor
      · rintro ⟨hapart, hnamed⟩
        refine ⟨fun _ => hcheck, fun _ => hapart, fun _ => hnamed, fun habsent => ?_⟩
        rw [hhas] at habsent
        cases habsent
      · intro h
        exact ⟨h.apart hhas, h.named hhas⟩
  | false =>
    cases hcheck : FileTable.check (bundle (stripSlashes name) document) with
    | error failure =>
      rw [delete_unaccepted name hcheck]
      have hno : ∀ {p : Prop}, shelf.has (stripSlashes name) document = true → p := by
        intro p h
        rw [hhas] at h
        cases h
      constructor
      · intro _
        refine ⟨fun h => hno h, fun h => hno h, fun h => hno h, fun _ haccepted => ?_⟩
        rw [hcheck] at haccepted
        cases haccepted
      · intro _
        exact ⟨fun h => hno h, fun h => hno h, fun h => hno h, fun _ _ => rfl,
          fun _ _ => rfl, fun _ _ => Iff.rfl, fun _ _ => Iff.rfl, fun _ _ => Iff.rfl,
          fun _ => rfl⟩
    | ok _ =>
      rw [delete_absent name hhas hcheck, deletes_absent hhas]
      constructor
      · intro habsent
        refine ⟨fun h => ?_, fun h => ?_, fun h => ?_, fun _ _ => habsent⟩ <;>
          · rw [hhas] at h
            cases h
      · intro h
        exact h.absent hhas hcheck

/-- The first page of the document `a` in the collection `k`. -/
def onlyPage : Path := ['k', '/', 'a', '/', 'i', 'n', 'd', 'e', 'x', '.', 'm', 'd']

def onlyRow : FileObject := ⟨none, [], 0⟩

/-- A library with one document. -/
def oneDocument : Shelf where
  files := (Table.empty : FileTable).set onlyPage onlyRow
  documents := Table.empty.set (['k'], ['a']) "A"
  parts := []
  topics := []
  vectors := []
  named := by
    intro row hrow
    rw [mem_singleton.mp (show row ∈ [((['k'], ['a']), "A")] from hrow)]
    exact ⟨by decide, by decide, by decide⟩

def plainDesk : Desk where
  setting := ⟨id, fun _ => true, fun _ => none⟩
  fileTopics := true
  topicPage := fun _ _ _ => []
  indexPage := fun _ _ => []

/-- To delete the document with the empty name takes the file of another document, and
returns that there was none. -/
theorem nameless_takes_all :
    ¬ Deletes plainDesk oneDocument ['k'] [] (plainDesk.delete oneDocument ['k'] [] 0) := by
  intro h
  have hreply : (plainDesk.delete oneDocument ['k'] [] 0).1 = .ok false := rfl
  have hgone : (plainDesk.delete oneDocument ['k'] [] 0).2.files.get? onlyPage = none := rfl
  have hthere : oneDocument.files.get? onlyPage = some onlyRow := rfl
  rw [h.unchanged hreply, hthere] at hgone
  cases hgone

end Substrate.Documents
