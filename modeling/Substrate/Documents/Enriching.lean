import Substrate.Documents.Removing

/-!
Having documents described (`enrich`), and the lists of those that still need it
(`pending`, `pending_all`). One caller at a time describes a document.

What a description changes besides the rows of its document (the files, the vectors and the
pages) is one value, which an outcome replaces.
-/

namespace Substrate.Documents.Enriching

open Files Lib Option

@[ext] structure Enricher where
  name : String
  version : String
  deriving DecidableEq

/-- `FirstSentenceEnricher`. -/
def firstSentence : Enricher := ⟨"first-sentence", "1"⟩

/-- `STALE_RUNNING_S`. -/
def staleRunning : Int := 600

/-- `MIN_ENRICH_TOKENS`. -/
def minEnrichTokens : Nat := 1000

inductive State where
  | running | done | failed
  deriving DecidableEq

/-- A row of `library_enrichment_state`. -/
structure StateRow (υ : Type) where
  state : State
  enricher : String
  version : String
  attempts : Nat
  error : Option String
  usage : υ
  updatedAt : Int

/-- What `validate` makes of a description, with its topics and its cost. -/
structure Described (υ : Type) where
  card : String
  sections : Nat
  topics : List String
  usage : υ
  warnings : List String

/-- What becomes of an attempt. The rows of the description are saved before the rest is
written, so a failure or the end of the process can come before or after. -/
inductive Outcome (υ ρ : Type) where
  | unwritten (late : Bool)
  | unsaved (described : Described υ) (saved : Bool) (rest : ρ)
  | stopped (saved : Option (Described υ)) (rest : ρ)
  | described (described : Described υ) (rest : ρ)

/-- The times at which the row is looked at, claimed and written last. -/
structure Times where
  checked : Int
  claimed : Int
  ended : Int

inductive Verdict where
  | done | skipped | failed | missing
  deriving DecidableEq

structure Enriched (υ : Type) where
  document : Path
  state : Verdict
  card : String := ""
  sections : Nat := 0
  topics : List String := []
  usage : υ
  warnings : List String := []
  error : Option String := none

/-- The catalog with the tokens of the sections of each document, oldest first. -/
structure Library (υ ρ : Type) where
  documents : Table (Path × Path) (List Nat)
  states : Table (Path × Path) (StateRow υ)
  notes : Table (Path × Path) (String × List String)
  enricher : Option Enricher
  rest : ρ

namespace Library

variable {υ ρ : Type} [Inhabited υ] (L : Library υ ρ)

def setState (key : Path × Path) (state : State) (by_ : Enricher) (attempts : Nat)
    (error : Option String) (usage : υ) (now : Int) : Library υ ρ :=
  { L with
    states := L.states.set key (some ⟨state, by_.name, by_.version, attempts, error, usage, now⟩) }

/-- `_save_enrichment`. -/
def save (key : Path × Path) (by_ : Enricher) (attempts : Nat) (d : Described υ) (now : Int) :
    Library υ ρ :=
  { L.setState key .done by_ attempts none d.usage now with
    notes := L.notes.set key (some (d.card, d.topics)) }

/-- The answer that needs no attempt, if the document is described already or someone is at
it. -/
def settled (key : Path × Path) (sections : List Nat) (e : Enricher) (force : Bool)
    (now : Int) : Option (Enriched υ) :=
  if force then none
  else
    match L.states.get? key with
    | none => none
    | some row =>
      if row.state = .done ∧ row.enricher = e.name ∧ row.version = e.version then
        let notes := (L.notes.get? key).getD ("", [])
        some
          { document := key.2, state := .done, card := notes.1, sections := sections.length
            topics := notes.2, usage := default }
      else if row.state = .running ∧ now - row.updatedAt < staleRunning then
        some
          { document := key.2, state := .skipped, usage := default
            error := some "it is already being described" }
      else none

def used (sections : List Nat) (e : Enricher) : Enricher :=
  if sections.sum < minEnrichTokens then firstSentence else e

/-- The attempt. Nothing is returned when the caller is cancelled. -/
def attempt (key : Path × Path) (used : Enricher) (t : Times) (how : Outcome υ ρ) :
    Option (Enriched υ) × Library υ ρ :=
  let attempts := (L.states.get? key).elim 1 fun row => row.attempts + 1
  let claimed := L.setState key .running used attempts none default t.claimed
  let failed (library : Library υ ρ) (reason : String) : Option (Enriched υ) × Library υ ρ :=
    (some { document := key.2, state := .failed, usage := default, error := some reason },
      library.setState key .failed used attempts (some reason) default t.ended)
  match how with
  | .unwritten late =>
    failed claimed (if late then "the description took too long"
      else "the description could not be written")
  | .unsaved d saved rest =>
    failed { (if saved then claimed.save key used attempts d t.ended else claimed) with
      rest := rest } "the description could not be saved"
  | .stopped saved rest =>
    (none, { saved.elim claimed fun d => claimed.save key used attempts d t.ended with
      rest := rest })
  | .described d rest =>
    (some
        { document := key.2, state := .done, card := d.card, sections := d.sections
          topics := d.topics, usage := d.usage, warnings := d.warnings },
      { claimed.save key used attempts d t.ended with rest := rest })

/-- `enrich`, with the enricher that is called. -/
def enrich (collection document : Path) (enricher : Option Enricher) (force : Bool) (t : Times)
    (how : Outcome υ ρ) : Option (Enriched υ) × Library υ ρ × Option Enricher :=
  match enricher.or L.enricher with
  | none =>
    (some
        { document := document, state := .skipped, usage := default
          error := some "no enricher is configured" },
      L, none)
  | some e =>
    let key := (stripSlashes collection, document)
    match L.documents.get? key with
    | none => (some { document := document, state := .missing, usage := default }, L, none)
    | some sections =>
      match L.settled key sections e force t.checked with
      | some result => (some result, L, none)
      | none =>
        let (result, after) := L.attempt key (used sections e) t how
        (result, after, some (used sections e))

/-- The condition of the queries. -/
def due (key : Path × Path) (e : Option Enricher) (now : Int) : Bool :=
  match L.states.get? key with
  | none => true
  | some row =>
    match row.state with
    | .failed => row.attempts < 3
    | .running => row.updatedAt < now - staleRunning
    | .done => row.enricher ≠ e.elim "" Enricher.name ∨ row.version ≠ e.elim "" Enricher.version

def pending (collection : Path) (enricher : Option Enricher) (now : Int) (limit : Nat) :
    List Path :=
  ((L.documents.rows.filter fun row =>
    row.1.1 = stripSlashes collection ∧ L.due row.1 (enricher.or L.enricher) now).map
      fun row => row.1.2).take limit

/-- `pending_all`: the patterns on the collection are given as what they match. -/
def pendingAll (enricher : Option Enricher) (now : Int) (limit : Nat) (matching : Path → Bool)
    (excluding : Option (Path → Bool)) : List (Path × Path) :=
  ((L.documents.rows.filter fun row =>
    matching row.1.1 ∧ ¬ excluding.any (fun p => p row.1.1) ∧
      L.due row.1 (enricher.or L.enricher) now).map Prod.fst).take limit

end Library

inductive Action (υ ρ : Type) where
  | enrich (collection document : Path) (enricher : Option Enricher) (force : Bool) (t : Times)
      (how : Outcome υ ρ)
  | catalog (collection document : Path) (sections : List Nat) (rest : ρ)
  | delete (collection document : Path) (rest : ρ)

variable {υ ρ : Type} [Inhabited υ]

/-- The rows of a document are put anew at the end, and leave its state as it is; a deletion
takes them all. -/
def step : Action υ ρ → Library υ ρ → Library υ ρ
  | .enrich collection document enricher force t how, L =>
    (L.enrich collection document enricher force t how).2.1
  | .catalog collection document sections rest, L =>
    let key := (stripSlashes collection, document)
    { L with documents := (L.documents.erase key).set key (some sections), rest := rest }
  | .delete collection document rest, L =>
    let key := (stripSlashes collection, document)
    { L with
      documents := L.documents.erase key
      states := L.states.erase key
      notes := L.notes.erase key
      rest := rest }

section Calls

variable {L L' : Library υ ρ} {key : Path × Path} {e by_ : Enricher} {sections : List Nat}
  {force : Bool} {now : Int} {t : Times} {how : Outcome υ ρ} {collection document : Path}
  {enricher : Option Enricher} {result : Enriched υ}

def Library.DescribedBy (L : Library υ ρ) (key : Path × Path) (e : Enricher) : Prop :=
  ∃ row, L.states.get? key = some row ∧ row.state = .done ∧ row.enricher = e.name ∧
    row.version = e.version

omit [Inhabited υ] in
theorem Library.DescribedBy.of_row (h : L.DescribedBy key e)
    (heq : L'.states.get? key = L.states.get? key) : L'.DescribedBy key e := by
  obtain ⟨row, hrow, hdone⟩ := h
  exact ⟨row, heq.trans hrow, hdone⟩

theorem settled_iff_done :
    (∃ result, L.settled key sections e force now = some result ∧ result.state = .done) ↔
      force = false ∧ L.DescribedBy key e := by
  unfold Library.settled Library.DescribedBy
  cases force with
  | true => simp
  | false =>
    cases L.states.get? key with
    | none => simp
    | some row =>
      by_cases hdone : row.state = .done ∧ row.enricher = e.name ∧ row.version = e.version
      · simp [hdone]
      · by_cases hfresh : row.state = .running ∧ now - row.updatedAt < staleRunning
        · simp [hfresh]
        · simp [hdone, hfresh]

theorem DescribedBy.settled (h : L.DescribedBy key e) (sections : List Nat) (now : Int) :
    ∃ result, L.settled key sections e false now = some result ∧ result.state = .done :=
  settled_iff_done.mpr ⟨rfl, h⟩

theorem settled_ne_failed (h : L.settled key sections e force now = some result) :
    result.state ≠ .failed := by
  unfold Library.settled at h
  split at h
  · cases h
  · split at h
    · cases h
    · split at h
      · cases h
        rintro ⟨⟩
      · split at h
        · cases h
          rintro ⟨⟩
        · cases h

theorem enrich_cases (L : Library υ ρ) (collection document : Path) (enricher : Option Enricher)
    (force : Bool) (t : Times) (how : Outcome υ ρ) :
    (∃ result, L.enrich collection document enricher force t how = (some result, L, none) ∧
        result.state ≠ .failed) ∨
      ∃ e sections, enricher.or L.enricher = some e ∧
        L.documents.get? (stripSlashes collection, document) = some sections ∧
        L.settled (stripSlashes collection, document) sections e force t.checked = none ∧
        L.enrich collection document enricher force t how =
          ((L.attempt (stripSlashes collection, document) (Library.used sections e) t how).1,
            (L.attempt (stripSlashes collection, document) (Library.used sections e) t how).2,
            some (Library.used sections e)) := by
  unfold Library.enrich
  cases henricher : enricher.or L.enricher with
  | none => exact .inl ⟨_, rfl, nofun⟩
  | some e =>
    dsimp only
    cases hsections : L.documents.get? (stripSlashes collection, document) with
    | none => exact .inl ⟨_, rfl, nofun⟩
    | some sections =>
      dsimp only
      cases hsettled : L.settled (stripSlashes collection, document) sections e force t.checked with
      | some result => exact .inl ⟨result, rfl, settled_ne_failed hsettled⟩
      | none => exact .inr ⟨e, sections, rfl, rfl, hsettled, rfl⟩

theorem attempt_frame (L : Library υ ρ) (key : Path × Path) (by_ : Enricher) (t : Times)
    (how : Outcome υ ρ) :
    (L.attempt key by_ t how).2.documents = L.documents ∧ ∀ other, other ≠ key →
        (L.attempt key by_ t how).2.states.get? other = L.states.get? other := by
  constructor
  · cases how with
    | unwritten late | described d rest => rfl
    | unsaved d saved rest | stopped saved rest => cases saved <;> rfl
  · intro other hother
    cases how with
    | unwritten late => simp [Library.attempt, Library.setState, hother]
    | unsaved d saved rest | stopped saved rest =>
      cases saved <;> simp [Library.attempt, Library.save, Library.setState, hother]
    | described d rest => simp [Library.attempt, Library.save, Library.setState, hother]

theorem attempt_row (h : (L.attempt key by_ t how).1 = some result) :
    ∃ row, (L.attempt key by_ t how).2.states.get? key = some row ∧
      row.enricher = by_.name ∧ row.version = by_.version ∧
      row.attempts = (L.states.get? key).elim 1 (fun row => row.attempts + 1) ∧
      (result.state = .done ∧ row.state = .done ∨ result.state = .failed ∧ row.state = .failed) := by
  cases how with
  | unwritten late | unsaved d saved rest =>
    cases h
    simp [Library.attempt, Library.setState]
  | stopped saved rest => cases h
  | described d rest =>
    cases h
    simp [Library.attempt, Library.save, Library.setState]

theorem enrich_documents (L : Library υ ρ) (collection document : Path)
    (enricher : Option Enricher) (force : Bool) (t : Times) (how : Outcome υ ρ) :
    (L.enrich collection document enricher force t how).2.1.documents = L.documents := by
  rcases enrich_cases L collection document enricher force t how with
    ⟨_, heq, _⟩ | ⟨e, sections, _, _, _, heq⟩
  · rw [heq]
  · rw [heq]
    exact (attempt_frame L _ _ t how).1

theorem enrich_states (hne : (stripSlashes collection, document) ≠ key) :
    (L.enrich collection document enricher force t how).2.1.states.get? key =
      L.states.get? key := by
  rcases enrich_cases L collection document enricher force t how with
    ⟨_, heq, _⟩ | ⟨e, sections, _, _, _, heq⟩
  · rw [heq]
  · rw [heq]
    exact (attempt_frame L _ _ t how).2 key hne.symm

theorem enrich_failed (h : (L.enrich collection document enricher force t how).1 = some result)
    (hfailed : result.state = .failed) :
    ∃ row, (L.enrich collection document enricher force t how).2.1.states.get?
        (stripSlashes collection, document) = some row ∧ row.state = .failed ∧
      row.attempts = (L.states.get? (stripSlashes collection, document)).elim 1
        fun row => row.attempts + 1 := by
  rcases enrich_cases L collection document enricher force t how with
    ⟨_, heq, hne⟩ | ⟨e, sections, _, _, _, heq⟩
  · rw [heq] at h
    cases h
    exact absurd hfailed hne
  · rw [heq] at h ⊢
    obtain ⟨row, hrow, _, _, hattempts, ⟨hdone, _⟩ | ⟨_, hstate⟩⟩ := attempt_row h
    · rw [hfailed] at hdone
      cases hdone
    · exact ⟨row, hrow, hstate, hattempts⟩

/-- Another call with the enricher has nothing to do, and the document is in neither list. -/
structure Settled (L : Library υ ρ) (collection document : Path) (e : Enricher) : Prop where
  again : ∀ t how, ∃ result, result.state = .done ∧
    L.enrich collection document (some e) false t how = (some result, L, none)
  unlisted : ∀ now limit, document ∉ L.pending collection (some e) now limit
  unlistedAll : ∀ now limit matching excluding,
    (stripSlashes collection, document) ∉ L.pendingAll (some e) now limit matching excluding

omit [Inhabited υ] in
theorem due_of_describedBy (h : L.DescribedBy key e) (now : Int) :
    L.due key (some e) now = false := by
  obtain ⟨row, hrow, hstate, hname, hversion⟩ := h
  simp [Library.due, hrow, hstate, hname, hversion]

theorem settled_iff (hsections : L.documents.get? (stripSlashes collection, document) =
    some sections) : Settled L collection document e ↔
      L.DescribedBy (stripSlashes collection, document) e := by
  constructor
  · intro h
    obtain ⟨result, hdone, heq⟩ := h.again ⟨0, 0, 0⟩ (.unwritten false)
    cases hsettled : L.settled (stripSlashes collection, document) sections e false 0 with
    | none => simp [Library.enrich, hsections, hsettled] at heq
    | some found =>
      simp only [Library.enrich, some_or, hsections, hsettled, Prod.mk.injEq,
        Option.some.injEq] at heq
      rw [← heq.1] at hdone
      exact (settled_iff_done.mp ⟨found, hsettled, hdone⟩).2
  · intro h
    have hdue := due_of_describedBy h
    refine ⟨fun t how => ?_, fun now limit hmem => ?_, fun now limit matching excluding hmem => ?_⟩
    · obtain ⟨result, hresult, hdone⟩ := DescribedBy.settled h sections t.checked
      exact ⟨result, hdone, by simp [Library.enrich, hsections, hresult]⟩
    · obtain ⟨row, hrow, rfl⟩ := List.mem_map.mp (List.mem_of_mem_take hmem)
      have hlisted := of_decide_eq_true (List.mem_filter.mp hrow).2
      rw [← hlisted.1] at hdue
      rw [some_or, hdue] at hlisted
      cases hlisted.2
    · obtain ⟨row, hrow, heq⟩ := List.mem_map.mp (List.mem_of_mem_take hmem)
      have hlisted := of_decide_eq_true (List.mem_filter.mp hrow).2
      rw [heq, some_or, hdue] at hlisted
      cases hlisted.2.2

/-- What may happen while the text of the document stays: only the enricher describes it, and
it is not forced to. -/
def Spares (key : Path × Path) (e : Enricher) (L : Library υ ρ) : Action υ ρ → Prop
  | .enrich collection document enricher force _ _ =>
    (stripSlashes collection, document) = key → enricher.or L.enricher = some e ∧ force = false
  | .catalog _ _ _ _ => True
  | .delete collection document _ => (stripSlashes collection, document) ≠ key

/-- The document is there and described by the enricher. -/
def Finished (key : Path × Path) (e : Enricher) (L : Library υ ρ) : Prop :=
  (L.documents.get? key).isSome ∧ L.DescribedBy key e

theorem Finished.step {action : Action υ ρ} (h : Finished key e L) (hspares : Spares key e L action) :
    Finished key e (step action L) := by
  obtain ⟨hhas, hby⟩ := h
  cases action with
  | enrich collection document enricher force t how =>
    refine ⟨(enrich_documents L collection document enricher force t how).symm ▸ hhas, ?_⟩
    by_cases hkey : (stripSlashes collection, document) = key
    · obtain ⟨henricher, rfl⟩ := hspares hkey
      rcases enrich_cases L collection document enricher false t how with
        ⟨_, heq, _⟩ | ⟨e', sections, he, _, hsettled, _⟩
      · simp only [Enriching.step, heq]
        exact hby
      · rw [henricher] at he
        cases he
        rw [hkey] at hsettled
        obtain ⟨result, hresult, _⟩ := DescribedBy.settled hby sections t.checked
        rw [hsettled] at hresult
        cases hresult
    · exact hby.of_row (enrich_states hkey)
  | catalog collection document sections rest =>
    refine ⟨?_, hby⟩
    by_cases hkey : key = (stripSlashes collection, document)
    · simp [Enriching.step, hkey]
    · simpa [Enriching.step, hkey, Table.get?_erase] using hhas
  | delete collection document rest =>
    have hne : key ≠ (stripSlashes collection, document) := fun heq => hspares heq.symm
    refine ⟨?_, hby.of_row ?_⟩
    · simpa [Enriching.step, Table.get?_erase, hne] using hhas
    · simp [Enriching.step, Table.get?_erase, hne]

/-- Nothing that happens deletes the document, and no call describes it. -/
def Fails (key : Path × Path) (L : Library υ ρ) : Action υ ρ → Prop
  | .enrich collection document enricher force t how =>
    (stripSlashes collection, document) = key →
      ∃ result, (L.enrich collection document enricher force t how).1 = some result ∧
        result.state ≠ .done
  | .catalog _ _ _ _ => True
  | .delete collection document _ => (stripSlashes collection, document) ≠ key

/-- The document has been offered so often, each time to a call that failed. -/
inductive Offered (collection document : Path) (L : Library υ ρ) : Nat → Library υ ρ → Prop where
  | begins {L' : Library υ ρ}
      (hsteps : Steps step (Fails (stripSlashes collection, document)) L L') :
      Offered collection document L 0 L'
  | again {n : Nat} {L₁ L₂ : Library υ ρ} {asked enricher : Option Enricher} {now : Int}
      {limit : Nat} {force : Bool} {t : Times} {how : Outcome υ ρ} {result : Enriched υ}
      (h : Offered collection document L n L₁)
      (hlisted : document ∈ L₁.pending collection asked now limit)
      (hresult : (L₁.enrich collection document enricher force t how).1 = some result)
      (hfailed : result.state = .failed)
      (hsteps : Steps step (Fails (stripSlashes collection, document))
        (L₁.enrich collection document enricher force t how).2.1 L₂) :
      Offered collection document L (n + 1) L₂

/-- The row of the document is a failed one with so many attempts. -/
def Failed (key : Path × Path) (n : Nat) (L : Library υ ρ) : Prop :=
  ∃ row, L.states.get? key = some row ∧ row.state = .failed ∧ n ≤ row.attempts

theorem Failed.step {n : Nat} {action : Action υ ρ} (h : Failed key n L)
    (hfails : Fails key L action) : Failed key n (step action L) := by
  cases action with
  | enrich collection document enricher force t how =>
    by_cases hkey : (stripSlashes collection, document) = key
    · obtain ⟨result, hresult, hne⟩ := hfails hkey
      rcases enrich_cases L collection document enricher force t how with
        ⟨_, heq, _⟩ | ⟨e, sections, _, _, _, heq⟩
      · simp only [Enriching.step, heq]
        exact h
      · rw [heq] at hresult
        obtain ⟨row, _, _, _, _, ⟨hdone, _⟩ | ⟨hfailed, _⟩⟩ := attempt_row hresult
        · exact absurd hdone hne
        · obtain ⟨old, hold, _, hn⟩ := h
          obtain ⟨row, hrow, hstate, hattempts⟩ :=
            enrich_failed (by rw [heq]; exact hresult) hfailed
          rw [hkey, hold] at hattempts
          rw [hkey] at hrow
          refine ⟨row, hrow, hstate, ?_⟩
          rw [hattempts]
          exact Nat.le_succ_of_le hn
    · obtain ⟨row, hrow, hstate⟩ := h
      exact ⟨row, (enrich_states hkey).trans hrow, hstate⟩
  | catalog collection document sections rest => exact h
  | delete collection document rest =>
    have hne : key ≠ (stripSlashes collection, document) := fun heq => hfails heq.symm
    obtain ⟨row, hrow, hstate⟩ := h
    exact ⟨row, by simpa [Enriching.step, Table.get?_erase, hne] using hrow, hstate⟩

theorem Offered.failed {n : Nat} (h : Offered collection document L n L') :
    (n = 0 ∨ Failed (stripSlashes collection, document) n L') ∧ n ≤ 3 := by
  induction h with
  | begins hsteps => exact ⟨.inl rfl, Nat.zero_le _⟩
  | @again n L₁ L₂ asked enricher now limit force t how result h hlisted hresult hfailed hsteps ih =>
    obtain ⟨hbefore, _⟩ := ih
    obtain ⟨row, hrow, hstate, hattempts⟩ := enrich_failed hresult hfailed
    have hnow : n + 1 ≤ row.attempts ∧ n + 1 ≤ 3 := by
      rcases hbefore with rfl | ⟨old, hold, hold', hn⟩
      · refine ⟨?_, by omega⟩
        rw [hattempts]
        cases L₁.states.get? (stripSlashes collection, document) with
        | none => exact Nat.le_refl 1
        | some old => exact Nat.succ_le_succ (Nat.zero_le _)
      · rw [hold] at hattempts
        obtain ⟨entry, hentry, rfl⟩ := List.mem_map.mp (List.mem_of_mem_take hlisted)
        have hdue := of_decide_eq_true (List.mem_filter.mp hentry).2
        rw [← hdue.1] at hold
        have hlt : old.attempts < 3 := by simpa [Library.due, hold, hold'] using hdue.2
        rw [hattempts]
        exact ⟨Nat.succ_le_succ hn, by omega⟩
    refine ⟨.inr ?_, hnow.2⟩
    apply Steps.invariant (P := Failed _ (n + 1)) (fun _ _ hp hguard => hp.step hguard) hsteps
    exact ⟨row, hrow, hstate, hnow.1⟩

end Calls

/-- Once `enrich` has returned `done`, and until another enricher or a forced call describes
the document, further calls do nothing and the document is in neither list, exactly if it was
described by the enricher before, or it has enough tokens for a model, or the enricher is the
one for short documents. And no document is offered more than three times if all calls fail. -/
theorem enriching_settles {L L' : Library υ ρ} {collection document : Path} {e : Enricher}
    {force : Bool} {t : Times} {how : Outcome υ ρ} {result : Enriched υ} {called : Option Enricher}
    {sections : List Nat}
    (hsections : L.documents.get? (stripSlashes collection, document) = some sections)
    (h : L.enrich collection document (some e) force t how = (some result, L', called))
    (hdone : result.state = .done) :
    ((∀ L'', Steps step (Spares (stripSlashes collection, document) e) L' L'' →
        Settled L'' collection document e) ↔
      force = false ∧ L.DescribedBy (stripSlashes collection, document) e ∨
        minEnrichTokens ≤ sections.sum ∨ e = firstSentence) ∧
    ∀ (collection document : Path) (L₁ L₂ : Library υ ρ) (n : Nat),
      Offered collection document L₁ n L₂ → n ≤ 3 := by
  refine ⟨?_, fun _ _ _ _ _ hoffered => hoffered.failed.2⟩
  have hdocuments : L'.documents = L.documents := by
    have hsame := enrich_documents L collection document (some e) force t how
    rwa [h] at hsame
  have hruns : (∀ L'', Steps step (Spares (stripSlashes collection, document) e) L' L'' →
      Settled L'' collection document e) ↔
        L'.DescribedBy (stripSlashes collection, document) e := by
    constructor
    · intro hall
      exact (settled_iff (by rw [hdocuments, hsections])).mp (hall L' (Steps.refl L'))
    · intro hby L'' hsteps
      have hfinished : Finished (stripSlashes collection, document) e L'' := by
        apply Steps.invariant (P := Finished _ e) (fun _ _ hp hguard => hp.step hguard) hsteps
        exact ⟨by rw [hdocuments, hsections]; rfl, hby⟩
      obtain ⟨hhas, hby⟩ := hfinished
      obtain ⟨sections', hsections'⟩ := isSome_iff_exists.mp hhas
      exact (settled_iff hsections').mpr hby
  rw [hruns]
  cases hsettled : L.settled (stripSlashes collection, document) sections e force t.checked with
  | some found =>
    simp only [Library.enrich, some_or, hsections, hsettled, Prod.mk.injEq,
      Option.some.injEq] at h
    obtain ⟨rfl, rfl, _⟩ := h
    have hbefore := settled_iff_done.mp ⟨found, hsettled, hdone⟩
    exact iff_of_true hbefore.2 (.inl hbefore)
  | none =>
    have hnot : ¬ (force = false ∧ L.DescribedBy (stripSlashes collection, document) e) := by
      rintro ⟨rfl, hby⟩
      obtain ⟨_, hfound, _⟩ := DescribedBy.settled hby sections t.checked
      rw [hsettled] at hfound
      cases hfound
    simp only [Library.enrich, some_or, hsections, hsettled, Prod.mk.injEq] at h
    obtain ⟨hresult, rfl, _⟩ := h
    obtain ⟨row, hrow, hname, hversion, _, ⟨_, hstate⟩ | ⟨hfailed, _⟩⟩ := attempt_row hresult
    · have hby : (L.attempt (stripSlashes collection, document) (Library.used sections e) t
          how).2.DescribedBy (stripSlashes collection, document) e ↔
            Library.used sections e = e := by
        constructor
        · rintro ⟨row', hrow', _, hname', hversion'⟩
          rw [hrow] at hrow'
          cases hrow'
          obtain ⟨name, version⟩ := e
          rw [hname] at hname'
          rw [hversion] at hversion'
          exact Enricher.ext hname' hversion'
        · intro hsame
          rw [hsame] at hname hversion
          exact ⟨row, by rw [← hsame] at hrow ⊢; exact hrow, hstate, hname, hversion⟩
      rw [hby, or_iff_right hnot]
      unfold Library.used
      by_cases hshort : sections.sum < minEnrichTokens
      · rw [if_pos hshort, or_iff_right (by omega)]
        exact eq_comm
      · rw [if_neg hshort]
        exact iff_of_true rfl (.inl (by omega))
    · rw [hdone] at hfailed
      cases hfailed

def model : Enricher := ⟨"model", "1"⟩

/-- The document `d` in the collection `k`. -/
def filed (tokens : Nat) : Library Unit Unit :=
  ⟨Table.empty.set (['k'], ['d']) (some [tokens]), .empty, .empty, none, ()⟩

def writes : Outcome Unit Unit := .described ⟨"A report.", 1, [], (), []⟩ ()

theorem enriching_settles_long :
    ∃ result L' called, (filed 1000).enrich ['k'] ['d'] (some model) false ⟨0, 1, 2⟩ writes =
        (some result, L', called) ∧ result.state = .done ∧ Settled L' ['k'] ['d'] model := by
  obtain ⟨result, L', called, h, hdone⟩ : ∃ result L' called,
      (filed 1000).enrich ['k'] ['d'] (some model) false ⟨0, 1, 2⟩ writes =
        (some result, L', called) ∧ result.state = .done := ⟨_, _, _, rfl, rfl⟩
  have hsections : (filed 1000).documents.get? (stripSlashes ['k'], ['d']) = some [1000] := rfl
  refine ⟨result, L', called, h, hdone, ?_⟩
  exact (enriching_settles hsections h hdone).1.mpr (.inr (.inl (by decide))) _ (Steps.refl _)

/-- A short document stays in the list and is described again and again. -/
theorem short_document_again :
    ∃ result L' called, (filed 10).enrich ['k'] ['d'] (some model) false ⟨0, 1, 2⟩ writes =
        (some result, L', called) ∧ result.state = .done ∧
      ['d'] ∈ L'.pending ['k'] (some model) 3 50 ∧
        (L'.enrich ['k'] ['d'] (some model) false ⟨3, 4, 5⟩ writes).2.2 = some firstSentence ∧
          ¬ Settled L' ['k'] ['d'] model := by
  have hagain : ∀ L' : Library Unit Unit,
      (L'.enrich ['k'] ['d'] (some model) false ⟨3, 4, 5⟩ writes).2.2 = some firstSentence →
        ¬ Settled L' ['k'] ['d'] model := by
    intro L' hcalled hsettled
    obtain ⟨result, _, heq⟩ := hsettled.again ⟨3, 4, 5⟩ writes
    rw [heq] at hcalled
    cases hcalled
  exact ⟨_, _, _, rfl, rfl, by decide, rfl, hagain _ rfl⟩

end Substrate.Documents.Enriching
