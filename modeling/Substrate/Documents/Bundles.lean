import Substrate.Documents.Stores

/-!
Where a library keeps what (`documents/library.py`), and which names of collections the
routes accept (`api/routes/documents.py`). The files of a document are under the name of
its collection and its own; the library lists a bundle by that prefix and cuts the prefix
off by its length.
-/

namespace Substrate.Documents

open Files Lib List

def maxName : Nat := 512

def maxSegment : Nat := 128

/-- `path_of`: what a collection is called within its tenant. -/
def pathOf (tenant name : Path) : Except Problem Path :=
  let start := keyOf tenant []
  if start.isPrefixOf name = false ∨ maxName < name.length then .error (notFound "Collection")
  else
    let rest := name.drop start.length
    if rest = [] ∨ (rest.splitOn '/').any (fun p =>
        p = [] ∨ p = ['.'] ∨ p = ['.', '.'] ∨ maxSegment < p.length ∨
          (p.any fun c => c.toNat = 0x5C) ∨ p.any fun c => c.toNat < 32) then
      .error ⟨400, "invalid-request", "Invalid collection name", []⟩
    else .ok rest

def bundle (collection document : Path) : Path := collection ++ '/' :: document ++ ['/']

/-- The names of a bundle's files, cut out of listed keys (`index`). -/
def names (collection document : Path) (found : List Entry) : List Path :=
  found.map fun entry => entry.key.drop (bundle collection document).length

/-- One of two collections is in a document of the other, by their names. -/
def Within (collection document other : Path) : Prop :=
  bundle collection document <+: other ++ ['/']

theorem bundle_eq (collection document : Path) :
    bundle collection document = (collection ++ ['/']) ++ (document ++ ['/']) := by
  simp [bundle]

variable {document collection other document' : Path}

theorem eq_of_isPrefix_slash {start : Path} (hdocument : '/' ∉ document)
    (h : start ++ ['/'] <+: document ++ ['/']) : start = document := by
  rcases prefix_concat_iff.mp h with heq | hshort
  · exact append_cancel_right heq
  · exact absurd (hshort.subset (by simp)) hdocument

theorem within_of_isPrefix (hdocument' : '/' ∉ document')
    (h : bundle collection document <+: bundle other document') :
    collection ++ '/' :: document = other ++ '/' :: document' ∨
      Within collection document other := by
  rw [bundle_eq other document'] at h
  rcases prefix_or_prefix_of_prefix h (prefix_append _ _) with hin | hout
  · exact .inr hin
  · obtain ⟨rest, hrest⟩ := hout
    rw [← hrest, prefix_append_right_inj] at h
    have hend : bundle collection document = (collection ++ '/' :: document) ++ ['/'] := by
      simp [bundle]
    rcases eq_nil_or_concat rest with rfl | ⟨start, last, rfl⟩
    · rw [append_nil] at hrest
      exact .inr ⟨[], by rw [append_nil, ← hrest]⟩
    · rw [hend, concat_eq_append, ← append_assoc] at hrest
      obtain ⟨hinit, hlast⟩ := append_inj' hrest rfl
      cases hlast
      rw [concat_eq_append] at h
      rw [eq_of_isPrefix_slash hdocument' h] at hinit
      exact .inl (by rw [← hinit]; simp)

theorem collection_eq (hdocument : '/' ∉ document) (hdocument' : '/' ∉ document')
    (h : collection ++ '/' :: document = other ++ '/' :: document') : collection = other := by
  have hnone : ∀ {d d' extra : Path}, '/' ∉ d → '/' :: d = extra ++ '/' :: d' → extra = [] := by
    intro d d' extra hd heq
    cases extra with
    | nil => rfl
    | cons c rest =>
      have hrest := (List.cons.inj heq).2
      exact absurd (by rw [hrest]; simp) hd
  rcases append_eq_append_iff.mp h with ⟨extra, hother, htail⟩ | ⟨extra, hcoll, htail⟩
  · rw [hnone hdocument htail, append_nil] at hother
    exact hother.symm
  · rw [hnone hdocument' htail, append_nil] at hcoll
    exact hcoll

theorem bundle_apart {key : Path} (hdocument : '/' ∉ document) (hdocument' : '/' ∉ document')
    (h : bundle collection document <+: key) (h' : bundle other document' <+: key) :
    collection = other ∨ Within collection document other ∨ Within other document' collection := by
  rcases prefix_or_prefix_of_prefix h h' with hle | hge
  · rcases within_of_isPrefix hdocument' hle with heq | hin
    · exact .inl (collection_eq hdocument hdocument' heq)
    · exact .inr (.inl hin)
  · rcases within_of_isPrefix hdocument hge with heq | hin
    · exact .inl (collection_eq hdocument' hdocument heq).symm
    · exact .inr (.inr hin)

end Substrate.Documents
