import Substrate.Blobs.Store
import Substrate.Lib.Turns

/-!
Operations on files and collections of garbage at work at once, each a process that may
stop anywhere. Beside the rows and the folder it is remembered which bytes each key
should have, who has a name in hand that no row has yet, whose transaction is open and
which names were ever made up.
-/

namespace Substrate.Blobs

open Documents Files Lib List Function Option

inductive Work where
  | upload (quota : Path → Option Nat) (key : Path) (data : List UInt8) (contentType : String)
  | delete (key : Path)
  | deletePrefix (start : Path)
  | copyPrefix (quota : Path → Option Nat) (source destination : Path)
  | collectGarbage (minAge : Nat)

def discard {α : Type} (p : Op α) : Op Unit := do
  let _ ← p
  pure ()

def Work.process : Work → Op Unit
  | .upload quota key data contentType => Blobs.upload quota key data contentType
  | .delete key => Blobs.delete key
  | .deletePrefix start => discard (Blobs.deletePrefix start)
  | .copyPrefix quota source destination => discard (Blobs.copyPrefix quota source destination)
  | .collectGarbage minAge => discard (Blobs.collectGarbage minAge)

local instance lawfulName : LawfulBEq (List Char) := inferInstance

def Change.contents : Change → (Path → Option (List UInt8)) → Path → Option (List UInt8)
  | .nothing, m => m
  | .put key _ data, m => update m key (some data)
  | .drop keys, m => fun key => if key ∈ keys then none else m key
  | .copy files, m =>
    files.foldl (fun m' file => update m' file.target (m file.source)) m

def Change.names : Change → Bool
  | .put _ _ _ => true
  | .copy _ => true
  | _ => false

structure Custody (ι : Type) where
  store : Store
  contents : Path → Option (List UInt8)
  holder : String → Option ι
  owner : Option ι
  issued : List String

namespace Custody

variable {ι : Type} [DecidableEq ι]

/-- `i` has nothing in hand any more. -/
def release (i : ι) (s : Custody ι) : Custody ι :=
  { s with holder := fun blob => if s.holder blob = some i then none else s.holder blob }

/-- The transaction of `i` is not open any more. -/
def close (i : ι) (s : Custody ι) : Custody ι :=
  { s with owner := if s.owner = some i then none else s.owner }

/-- What a step that does not fail is remembered for. -/
def remember (i : ι) (deed : Deed) (c : Chance) (s : Custody ι) : Custody ι :=
  match deed with
  | .issue =>
    { s with
      holder := update s.holder c.fresh (some i)
      issued := c.fresh :: s.issued }
  | .begin_ => { s with owner := some i }
  | .commit change =>
    let s := { s with contents := change.contents s.contents }.close i
    if change.names then s.release i else s
  | .rollback => s.close i
  | .remove blob => { s with holder := update s.holder blob none }
  | _ => s

def apply (i : ι) (_ : Work) (deed : Deed) (c : Chance) (s : Custody ι) : Custody ι :=
  match deed.fault c s.store with
  | some _ => s
  | none => { s.remember i deed c with store := deed.effect c s.store }

/-- A crash of `i`, or an end of it. -/
def leave (i : ι) (s : Custody ι) : Custody ι := (s.release i).close i

variable (s : Custody ι)

def Unnamed (blob : String) : Prop := ∀ key row, s.store.rows.get? key = some row → row.blob ≠ blob

structure Spent (blob : String) : Prop where
  issued : blob ∈ s.issued
  free : s.holder blob = none
  unnamed : s.Unnamed blob

def Has (blob : String) (data : List UInt8) : Prop :=
  ∃ found, s.store.blobs.get? blob = some found ∧ found.bytes = data

/-- The file of the row has the bytes that the key should have. -/
def Good (key : Path) (row : BlobRow) : Prop := ∃ data, s.contents key = some data ∧ s.Has row.blob data

/-- What a transaction of `i` names it has in hand, with the right bytes. -/
def Lawful (i : ι) : Change → Prop
  | .put _ row data => s.holder row.blob = some i ∧ s.Has row.blob data
  | .copy files => (files.map fun file => file.row.blob).Nodup ∧ ∀ file ∈ files,
      s.holder file.row.blob = some i ∧
        ∃ data, s.contents file.source = some data ∧ s.Has file.row.blob data
  | _ => True

structure Inv : Prop where
  good : ∀ key row, s.store.rows.get? key = some row → s.Good key row
  absent : ∀ key, s.store.rows.get? key = none → s.contents key = none
  distinct : ∀ key key' row row', s.store.rows.get? key = some row →
    s.store.rows.get? key' = some row' → row.blob = row'.blob → key = key'
  unheld : ∀ key row, s.store.rows.get? key = some row → s.holder row.blob = none
  rows : ∀ key row, s.store.rows.get? key = some row → row.blob ∈ s.issued
  holder : ∀ blob, s.holder blob ≠ none → blob ∈ s.issued

/-- What a process can rely on: what it has in hand stays as it is, and so do the rows
while its transaction is open. -/
structure Rely (i : ι) (s s' : Custody ι) : Prop where
  held : ∀ blob, s.holder blob = some i →
    s'.holder blob = some i ∧ s'.store.blobs.get? blob = s.store.blobs.get? blob
  rows : s.owner = some i →
    s'.owner = some i ∧ s'.store.rows = s.store.rows ∧ s'.contents = s.contents
  spent : ∀ blob, s.Spent blob → s'.Spent blob

/-- Names that are made up are new, and transactions are serialised. -/
def Ordinary (deed : Deed) (c : Chance) : Prop :=
  match deed with
  | .issue => c.fresh ∉ s.issued
  | .begin_ => s.owner = none
  | _ => True

/-- An upload or a copy is not cancelled between its commit and its end, and no file is
collected that a row names or that an operation still has in hand. -/
def Careful (deed : Deed) (c : Chance) : Prop :=
  match deed with
  | .commit change => change.names = true → c.late = false
  | .collect blob => s.holder blob = none ∧ s.Unnamed blob
  | _ => True

/-- What a process has to make sure of before a step. -/
def InOrder (i : ι) (deed : Deed) : Prop :=
  match deed with
  | .write blob _ => s.holder blob = some i
  | .link _ destination => s.holder destination = some i
  | .commit change => s.owner = some i ∧ s.Lawful i change
  | .remove blob => s.holder blob = some i ∨ s.Spent blob
  | _ => True

end Custody

def stage (ι : Type) [DecidableEq ι] : Stage ι Chance Store (Custody ι) Deed Work where
  real := Custody.store
  apply := Custody.apply
  leave := Custody.leave

def discipline (ι : Type) [DecidableEq ι] (met : Custody ι → Deed → Chance → Prop) :
    Discipline ι Chance (Custody ι) Deed Work where
  inv := Custody.Inv
  rely := Custody.Rely
  allowed _ _ deed c s := s.Ordinary deed c ∧ met s deed c
  inOrder i _ deed _ s := s.InOrder i deed

namespace Custody

variable {ι : Type} [DecidableEq ι] {i j : ι} {s s' s₁ s₂ s₃ : Custody ι}

omit [DecidableEq ι] in
theorem Rely.refl (i : ι) (s : Custody ι) : s.Rely i s where
  held _ h := ⟨h, rfl⟩
  rows h := ⟨h, rfl, rfl⟩
  spent _ h := h

omit [DecidableEq ι] in
theorem Rely.trans (h : s₁.Rely i s₂) (h' : s₂.Rely i s₃) : s₁.Rely i s₃ where
  held blob hheld := by
    obtain ⟨hheld₂, hsame⟩ := h.held blob hheld
    obtain ⟨hheld₃, hsame'⟩ := h'.held blob hheld₂
    exact ⟨hheld₃, hsame'.trans hsame⟩
  rows howner := by
    obtain ⟨howner₂, hrows, hcontents⟩ := h.rows howner
    obtain ⟨howner₃, hrows', hcontents'⟩ := h'.rows howner₂
    exact ⟨howner₃, hrows'.trans hrows, hcontents'.trans hcontents⟩
  spent blob hspent := h'.spent blob (h.spent blob hspent)

omit [DecidableEq ι] in
theorem Rely.has (h : s.Rely i s') {blob : String} (hheld : s.holder blob = some i)
    {data : List UInt8} (hhas : s.Has blob data) : s'.Has blob data := by
  obtain ⟨found, hget, hbytes⟩ := hhas
  exact ⟨found, (h.held blob hheld).2.trans hget, hbytes⟩

omit [DecidableEq ι] in
theorem Lawful.rely {change : Change} (h : s.Lawful i change) (howner : s.owner = some i)
    (hrely : s.Rely i s') : s'.Lawful i change := by
  cases change with
  | nothing | drop keys => trivial
  | put key row data => exact ⟨(hrely.held _ h.1).1, hrely.has h.1 h.2⟩
  | copy files =>
    refine ⟨h.1, fun file hfile => ?_⟩
    obtain ⟨hheld, data, hcontents, hhas⟩ := h.2 file hfile
    refine ⟨(hrely.held _ hheld).1, data, ?_, hrely.has hheld hhas⟩
    rw [(hrely.rows howner).2.2]
    exact hcontents

omit [DecidableEq ι] in
theorem Inv.unnamed (h : s.Inv) {blob : String} (hheld : s.holder blob ≠ none) :
    s.Unnamed blob := by
  intro key row hget heq
  exact hheld (heq ▸ h.unheld key row hget)

theorem release_keeps (i : ι) (h : s.Inv) :
    (s.release i).Inv ∧ ∀ j, j ≠ i → s.Rely j (s.release i) := by
  have hfree : ∀ blob, s.holder blob = none → (s.release i).holder blob = none := by
    intro blob hnone
    simp [release, hnone]
  refine ⟨⟨h.good, h.absent, h.distinct, fun key row hget => hfree _ (h.unheld key row hget),
    h.rows, fun blob hheld => ?_⟩, fun j hj => ⟨fun blob hheld => ⟨?_, rfl⟩,
    fun howner => ⟨howner, rfl, rfl⟩, fun blob hspent =>
      ⟨hspent.issued, hfree _ hspent.free, hspent.unnamed⟩⟩⟩
  · exact h.holder blob fun hnone => hheld (hfree _ hnone)
  · have hne : some j ≠ some i := fun heq => hj (Option.some.inj heq)
    simp [release, hheld, hne]

theorem close_keeps (i : ι) (h : s.Inv) : (s.close i).Inv ∧ ∀ j, j ≠ i → s.Rely j (s.close i) := by
  refine ⟨⟨h.good, h.absent, h.distinct, h.unheld, h.rows, h.holder⟩, fun j hj =>
    ⟨fun blob hheld => ⟨hheld, rfl⟩, fun howner => ⟨?_, rfl, rfl⟩, fun blob hspent =>
      ⟨hspent.issued, hspent.free, hspent.unnamed⟩⟩⟩
  have hne : some j ≠ some i := fun heq => hj (Option.some.inj heq)
  simp [close, howner, hne]

theorem leave_keeps (i : ι) (h : s.Inv) : (s.leave i).Inv ∧ ∀ j, j ≠ i → s.Rely j (s.leave i) := by
  obtain ⟨hinv, hrely⟩ := release_keeps i h
  obtain ⟨hinv', hrely'⟩ := close_keeps i hinv
  exact ⟨hinv', fun j hj => (hrely j hj).trans (hrely' j hj)⟩

def withBlobs (s : Custody ι) (blobs : Table String Blob) : Custody ι :=
  { s with store := { s.store with blobs := blobs } }

omit [DecidableEq ι] in
theorem blobs_keeps {blobs : Table String Blob} (h : s.Inv)
    (hsame : ∀ blob, blobs.get? blob ≠ s.store.blobs.get? blob →
      s.Unnamed blob ∧ ∀ j, j ≠ i → s.holder blob ≠ some j) :
    (s.withBlobs blobs).Inv ∧ ∀ j, j ≠ i → s.Rely j (s.withBlobs blobs) := by
  have hkept : ∀ {blob : String}, ¬s.Unnamed blob → blobs.get? blob = s.store.blobs.get? blob := by
    intro blob hnamed
    by_contra hne
    exact hnamed (hsame blob hne).1
  refine ⟨⟨fun key row hget => ?_, h.absent, h.distinct, h.unheld, h.rows, h.holder⟩,
    fun j hj => ⟨fun blob hheld => ⟨hheld, ?_⟩, fun howner => ⟨howner, rfl, rfl⟩,
      fun blob hspent => ⟨hspent.issued, hspent.free, hspent.unnamed⟩⟩⟩
  · obtain ⟨data, hcontents, found, hfound, hbytes⟩ := h.good key row hget
    have hnamed : ¬s.Unnamed row.blob := fun hun => hun key row hget rfl
    exact ⟨data, hcontents, found, (hkept hnamed).trans hfound, hbytes⟩
  · change blobs.get? blob = s.store.blobs.get? blob
    by_contra hne
    exact (hsame blob hne).2 j hj hheld

omit [DecidableEq ι] in
theorem issue_keeps {fresh : String} (h : s.Inv) (hfresh : fresh ∉ s.issued) :
    Inv { s with
        holder := update s.holder fresh (some i)
        issued := fresh :: s.issued } ∧
      ∀ j, j ≠ i → s.Rely j { s with
        holder := update s.holder fresh (some i)
        issued := fresh :: s.issued } := by
  have hnone : s.holder fresh = none := by
    by_contra hheld
    exact hfresh (h.holder fresh hheld)
  have hother : ∀ blob, blob ∈ s.issued →
      update s.holder fresh (some i) blob = s.holder blob := by
    intro blob hissued
    have hne : blob ≠ fresh := by
      intro heq
      rw [heq] at hissued
      exact hfresh hissued
    exact update_of_ne hne _ _
  refine ⟨⟨h.good, h.absent, h.distinct, fun key row hget => ?_,
    fun key row hget => mem_cons_of_mem _ (h.rows key row hget), fun blob hheld => ?_⟩,
    fun j hj => ⟨fun blob hheld => ⟨?_, rfl⟩, fun howner => ⟨howner, rfl, rfl⟩,
      fun blob hspent => ⟨mem_cons_of_mem _ hspent.issued, ?_, hspent.unnamed⟩⟩⟩
  · rw [← h.unheld key row hget]
    exact hother _ (h.rows key row hget)
  · by_cases heq : blob = fresh
    · rw [heq]
      exact mem_cons_self
    · refine mem_cons_of_mem _ (h.holder blob ?_)
      simpa [update_of_ne heq] using hheld
  · have hissued : blob ∈ s.issued := h.holder blob (by rw [hheld]; exact some_ne_none _)
    exact (hother blob hissued).trans hheld
  · exact (hother blob hspent.issued).trans hspent.free

omit [DecidableEq ι] in
theorem drop_keeps {blob : String} (h : s.Inv) (hin : s.holder blob = some i ∨ s.Spent blob) :
    Inv { s with holder := update s.holder blob none } ∧
      ∀ j, j ≠ i → s.Rely j { s with holder := update s.holder blob none } := by
  have hfree : ∀ other, s.holder other = none →
      update s.holder blob none other = none := by
    intro other hnone
    by_cases heq : other = blob
    · simp [heq]
    · simpa [update_of_ne heq] using hnone
  refine ⟨⟨h.good, h.absent, h.distinct, fun key row hget => hfree _ (h.unheld key row hget),
    h.rows, fun other hheld => h.holder other fun hnone => hheld (hfree _ hnone)⟩,
    fun j hj => ⟨fun other hheld => ⟨?_, rfl⟩, fun howner => ⟨howner, rfl, rfl⟩,
      fun other hspent => ⟨hspent.issued, hfree _ hspent.free, hspent.unnamed⟩⟩⟩
  have hne : other ≠ blob := by
    intro heq
    subst heq
    rcases hin with hmine | hspent
    · exact hj (Option.some.inj (hheld.symm.trans hmine))
    · rw [hspent.free] at hheld
      cases hheld
  exact (update_of_ne hne _ _).trans hheld

def withRows (s : Custody ι) (rows : Rows) (contents : Path → Option (List UInt8))
    (holder : String → Option ι) : Custody ι :=
  { s with store := { s.store with rows := rows }, contents := contents, holder := holder }

omit [DecidableEq ι] in
theorem rows_keeps {rows : Rows} {contents : Path → Option (List UInt8)}
    (holder : String → Option ι) (h : s.Inv) (howner : s.owner = some i)
    (hfree : ∀ blob, s.holder blob = none → holder blob = none)
    (hothers : ∀ blob j, j ≠ i → s.holder blob = some j → holder blob = some j)
    (hrows : ∀ key row, rows.get? key = some row →
      s.store.rows.get? key = some row ∧ contents key = s.contents key ∨
        holder row.blob = none ∧ s.holder row.blob = some i ∧
          (∃ data, contents key = some data ∧ s.Has row.blob data) ∧
          ∀ key' row', rows.get? key' = some row' → row.blob = row'.blob → key = key')
    (habsent : ∀ key, rows.get? key = none → contents key = none) :
    (s.withRows rows contents holder).Inv ∧
      ∀ j, j ≠ i → s.Rely j (s.withRows rows contents holder) := by
  have hheld : ∀ blob, holder blob ≠ none → s.holder blob ≠ none :=
    fun blob hne hnone => hne (hfree blob hnone)
  have hnew : ∀ {blob : String}, s.holder blob = some i → s.holder blob ≠ none := by
    intro blob hmine
    rw [hmine]
    exact some_ne_none i
  refine ⟨⟨fun key row hget => ?_, habsent, fun key key' row row' hget hget' heq => ?_,
    fun key row hget => ?_, fun key row hget => ?_, fun blob hne => h.holder blob (hheld blob hne)⟩,
    fun j hj => ⟨fun blob hmine => ⟨hothers blob j hj hmine, rfl⟩, fun hother => ?_,
      fun blob hspent => ⟨hspent.issued, hfree blob hspent.free, fun key row hget heq => ?_⟩⟩⟩
  · rcases hrows key row hget with ⟨hold, hcontents⟩ | ⟨_, _, hgood, _⟩
    · obtain ⟨data, hdata, hhas⟩ := h.good key row hold
      exact ⟨data, hcontents.trans hdata, hhas⟩
    · exact hgood
  · rcases hrows key row hget with ⟨hold, _⟩ | ⟨_, _, _, honly⟩
    · rcases hrows key' row' hget' with ⟨hold', _⟩ | ⟨_, _, _, honly'⟩
      · exact h.distinct key key' row row' hold hold' heq
      · exact (honly' key row hget heq.symm).symm
    · exact honly key' row' hget' heq
  · rcases hrows key row hget with ⟨hold, _⟩ | ⟨hgone, _⟩
    · exact hfree _ (h.unheld key row hold)
    · exact hgone
  · rcases hrows key row hget with ⟨hold, _⟩ | ⟨_, hmine, _⟩
    · exact h.rows key row hold
    · exact h.holder _ (hnew hmine)
  · exact absurd (Option.some.inj (howner.symm.trans hother)).symm hj
  · rcases hrows key row hget with ⟨hold, _⟩ | ⟨_, hmine, _⟩
    · exact hspent.unnamed key row hold heq
    · exact hnew hmine (heq ▸ hspent.free)

theorem copied (files : List Copied) (rows : Rows) (m m' : Path → Option (List UInt8))
    (key : Path) :
    let rows' := files.foldl (fun rows file => rows.set file.target (some file.row)) rows
    let contents := files.foldl (fun m' file => update m' file.target (m file.source)) m'
    (∃ file ∈ files, file.target = key ∧ rows'.get? key = some file.row ∧
        contents key = m file.source) ∨
      rows'.get? key = rows.get? key ∧ contents key = m' key := by
  induction files using List.reverseRecOn with
  | nil => exact .inr ⟨rfl, rfl⟩
  | append_singleton files file ih =>
    simp only [foldl_append, foldl_cons, foldl_nil]
    by_cases hkey : key = file.target
    · refine .inl ⟨file, mem_append_right _ mem_cons_self, hkey.symm, ?_, ?_⟩
      · rw [Table.get?_set, if_pos hkey]
      · rw [hkey, update_self]
    · rw [Table.get?_set, if_neg hkey, update_of_ne hkey]
      rcases ih with ⟨other, hmem, hsame⟩ | hsame
      · exact .inl ⟨other, mem_append_left _ hmem, hsame⟩
      · exact .inr hsame

theorem commit_keeps {change : Change} {c : Chance} {what : Work} (h : s.Inv)
    (howner : s.owner = some i) (hlawful : s.Lawful i change) :
    (s.apply i what (.commit change) c).Inv ∧
      ∀ j, j ≠ i → s.Rely j (s.apply i what (.commit change) c) := by
  unfold apply
  split
  · exact ⟨h, fun j _ => .refl j s⟩
  · have hfree : ∀ blob, s.holder blob = none →
        (if s.holder blob = some i then none else s.holder blob) = none := by
      intro blob hnone
      simp [hnone]
    have hgone : ∀ blob, s.holder blob = some i →
        (if s.holder blob = some i then none else s.holder blob) = none := by
      intro blob hheld
      simp [hheld]
    have hothers : ∀ blob j, j ≠ i → s.holder blob = some j →
        (if s.holder blob = some i then none else s.holder blob) = some j := by
      intro blob j hj hheld
      have hne : some j ≠ some i := fun heq => hj (Option.some.inj heq)
      simp [hheld, hne]
    have hfinish : ∀ {holder : String → Option ι},
        (s.withRows (change.apply s.store.rows) (change.contents s.contents) holder).Inv ∧
          (∀ j, j ≠ i → s.Rely j
            (s.withRows (change.apply s.store.rows) (change.contents s.contents) holder)) →
        ((s.withRows (change.apply s.store.rows) (change.contents s.contents) holder).close i).Inv ∧
          ∀ j, j ≠ i → s.Rely j ((s.withRows (change.apply s.store.rows)
            (change.contents s.contents) holder).close i) := by
      intro holder hkeeps
      obtain ⟨hinv, hrely⟩ := close_keeps i hkeeps.1
      exact ⟨hinv, fun j hj => (hkeeps.2 j hj).trans (hrely j hj)⟩
    cases change with
    | nothing =>
      refine hfinish (rows_keeps s.holder h howner (fun _ h => h)
        (fun _ _ _ h => h) (fun key row hget => .inl ⟨hget, rfl⟩) h.absent)
    | drop keys =>
      refine hfinish (rows_keeps s.holder h howner (fun _ h => h)
        (fun _ _ _ h => h) (fun key row hget => ?_) fun key hget => ?_)
      · simp only [Change.apply, Table.get?_filter, filter_eq_some_iff] at hget
        have hkey : key ∉ keys := of_decide_eq_true hget.2
        exact .inl ⟨hget.1, by simp [Change.contents, hkey]⟩
      · by_cases hkey : key ∈ keys
        · simp [Change.contents, hkey]
        · simp only [Change.contents, if_neg hkey]
          refine h.absent key ?_
          cases hrow : s.store.rows.get? key with
          | none => rfl
          | some row =>
            simp [Change.apply, Table.get?_filter, hrow, hkey] at hget
    | put key row data =>
      refine hfinish (rows_keeps _ h howner hfree hothers (fun key' row' hget => ?_)
        fun key' hget => ?_)
      · simp only [Change.apply, Table.get?_set] at hget
        split at hget
        · next hkey =>
            cases hget
            refine .inr ⟨hgone _ hlawful.1, hlawful.1, ⟨data, ?_, hlawful.2⟩, ?_⟩
            · rw [hkey]
              exact update_self _ _ _
            · intro key₁ row₁ hget₁ heq
              simp only [Change.apply, Table.get?_set] at hget₁
              split at hget₁
              · next hkey₁ => rw [hkey, hkey₁]
              · have hnone := h.unheld key₁ row₁ hget₁
                rw [← heq, hlawful.1] at hnone
                cases hnone
        · next hkey => exact .inl ⟨hget, update_of_ne hkey _ _⟩
      · simp only [Change.apply, Table.get?_set] at hget
        split at hget
        · cases hget
        · next hkey =>
            exact (update_of_ne hkey _ _).trans (h.absent key' hget)
    | copy files =>
      have hplace := fun key => copied files s.store.rows s.contents s.contents key
      refine hfinish (rows_keeps _ h howner hfree hothers (fun key row hget => ?_)
        fun key hget => ?_)
      · rcases hplace key with ⟨file, hfile, hkey, hrow, hcontents⟩ | ⟨hrow, hcontents⟩
        · obtain rfl := Option.some.inj (hget.symm.trans hrow)
          obtain ⟨hheld, data, hdata, hhas⟩ := hlawful.2 file hfile
          refine .inr ⟨hgone _ hheld, hheld, ⟨data, hcontents.trans hdata, hhas⟩, ?_⟩
          intro key' row' hget' heq
          rcases hplace key' with ⟨file', hfile', hkey', hrow', _⟩ | ⟨hrow', _⟩
          · obtain rfl := Option.some.inj (hget'.symm.trans hrow')
            have hsame := inj_on_of_nodup_map hlawful.1 hfile hfile' heq
            rw [← hkey, ← hkey', hsame]
          · have hnone := h.unheld key' row' (hrow'.symm.trans hget')
            rw [← heq, hheld] at hnone
            cases hnone
        · exact .inl ⟨hrow.symm.trans hget, hcontents⟩
      · rcases hplace key with ⟨file, _, _, hrow, _⟩ | ⟨hrow, hcontents⟩
        · have hnone := hget.symm.trans hrow
          cases hnone
        · exact hcontents.trans (h.absent key (hrow.symm.trans hget))

theorem act_keeps (what : Work) {deed : Deed} {c : Chance} (h : s.Inv)
    (hordinary : s.Ordinary deed c) (hcareful : s.Careful deed c) (hin : s.InOrder i deed) :
    (s.apply i what deed c).Inv ∧ ∀ j, j ≠ i → s.Rely j (s.apply i what deed c) := by
  have hset : ∀ {blob : String} {found : Blob}, s.holder blob = some i →
      (s.withBlobs (s.store.blobs.set blob (some found))).Inv ∧
        ∀ j, j ≠ i → s.Rely j (s.withBlobs (s.store.blobs.set blob (some found))) := by
    intro blob found hmine
    refine blobs_keeps h fun other hne => ?_
    rw [Table.get?_set] at hne
    have hother : other = blob := by
      by_contra hother
      exact hne (if_neg hother)
    subst hother
    refine ⟨h.unnamed ?_, fun j hj hheld => hj ?_⟩
    · rw [hmine]
      exact some_ne_none i
    · exact (Option.some.inj (hmine.symm.trans hheld)).symm
  have herase : ∀ {blob : String} {s : Custody ι}, s.Inv → s.Unnamed blob →
      (∀ j, j ≠ i → s.holder blob ≠ some j) →
      (s.withBlobs (s.store.blobs.erase blob)).Inv ∧
        ∀ j, j ≠ i → s.Rely j (s.withBlobs (s.store.blobs.erase blob)) := by
    intro blob s h hunnamed hfree
    refine blobs_keeps h fun other hne => ?_
    rw [Table.get?_erase] at hne
    have hother : other = blob := by
      by_contra hother
      exact hne (if_neg hother)
    subst hother
    exact ⟨hunnamed, hfree⟩
  cases deed with
  | commit change => exact commit_keeps h hin.1 hin.2
  | look => exact ⟨h, fun j _ => .refl j s⟩
  | issue => exact issue_keeps h hordinary
  | write blob data =>
    unfold apply
    split
    · exact ⟨h, fun j _ => .refl j s⟩
    · exact hset hin
  | begin_ =>
    unfold apply
    split
    · exact ⟨h, fun j _ => .refl j s⟩
    · refine ⟨⟨h.good, h.absent, h.distinct, h.unheld, h.rows, h.holder⟩, fun j _ =>
        ⟨fun blob hheld => ⟨hheld, rfl⟩, fun hother => ?_, fun blob hspent =>
          ⟨hspent.issued, hspent.free, hspent.unnamed⟩⟩⟩
      have hnone : s.owner = none := hordinary
      rw [hnone] at hother
      cases hother
  | link source destination =>
    unfold apply
    split
    · exact ⟨h, fun j _ => .refl j s⟩
    · simp only [Deed.effect, remember]
      split
      · exact ⟨h, fun j _ => .refl j s⟩
      · exact hset hin
  | rollback => exact close_keeps i h
  | remove blob =>
    obtain ⟨hinv, hrely⟩ := drop_keeps (i := i) h hin
    have hunnamed : s.Unnamed blob := by
      rcases hin with hmine | hspent
      · refine h.unnamed ?_
        rw [hmine]
        exact some_ne_none i
      · exact hspent.unnamed
    have hfree : ∀ j, j ≠ i → update s.holder blob none blob ≠ some j := by
      intro j _ hheld
      rw [update_self] at hheld
      cases hheld
    obtain ⟨hinv', hrely'⟩ := herase hinv hunnamed hfree
    exact ⟨hinv', fun j hj => (hrely j hj).trans (hrely' j hj)⟩
  | collect blob =>
    refine herase h hcareful.2 fun j _ hheld => ?_
    rw [hcareful.1] at hheld
    cases hheld

end Custody

theorem stage_keeps (ι : Type) [DecidableEq ι] :
    (stage ι).Keeps (discipline ι Custody.Careful) where
  refl := Custody.Rely.refl
  trans _ _ _ _ := Custody.Rely.trans
  act _ what _ _ _ h hallowed hin := Custody.act_keeps what h hallowed.1 hallowed.2 hin
  leave i _ h := Custody.leave_keeps i h

end Substrate.Blobs
