import Substrate.Files.Alone
import Substrate.Files.Objects

/-!
What stays in the object store. Each operation runs to its end here. An object is
accounted for when a version that is not purged names it, or an upload that is not
finished and that no sweep has expired. Within an operation some objects can be
waiting for their deletion; at its end none is.
-/

namespace Substrate.Files

open Lib List

def UploadState.unfinished : UploadState → Bool
  | .pending => true
  | .completing => true
  | .failed => true
  | .completed => false
  | .promoted => false

/-- The object belongs to an upload that is not finished and has not been expired. -/
def Held (t : Tables) (key : ObjectKey) : Prop :=
  ∃ id row, t.uploads.get? id = some row ∧ row.objectKey = key ∧ row.state.unfinished = true

/-- Every stored object is accounted for, but those waiting to be deleted. -/
def KeptBut (waiting : List ObjectKey) (s : Store) : Prop :=
  ∀ key blob, s.objects.get? key = some blob →
    Named s.tables key ∨ Held s.tables key ∨ key ∈ waiting

def Kept (s : Store) : Prop :=
  ∀ key blob, s.objects.get? key = some blob → Named s.tables key ∨ Held s.tables key

theorem kept_iff {s : Store} : Kept s ↔ KeptBut [] s := by
  constructor
  · intro h key blob hget
    rcases h key blob hget with hnamed | hheld
    · exact .inl hnamed
    · exact .inr (.inl hheld)
  · intro h key blob hget
    rcases h key blob hget with hnamed | hheld | hwaiting
    · exact .inl hnamed
    · exact .inr hheld
    · cases hwaiting

section

variable {waiting : List ObjectKey} {s s' : Store}

theorem Kept.same (h : Kept s) (hsame : Same s s') : Kept s' := by
  intro key blob hget
  rw [hsame.objects] at hget
  rw [hsame.tables]
  exact h key blob hget

variable {waiting' : List ObjectKey} {t : Tables} {key : ObjectKey}

theorem KeptBut.tables (h : KeptBut waiting s) (hwaiting : waiting ⊆ waiting')
    (ht : ∀ key, Named s.tables key ∨ Held s.tables key →
      Named t key ∨ Held t key ∨ key ∈ waiting') : KeptBut waiting' { s with tables := t } := by
  intro key blob hget
  rcases h key blob hget with hnamed | hheld | hmem
  · exact ht key (.inl hnamed)
  · exact ht key (.inr hheld)
  · exact .inr (.inr (hwaiting hmem))

theorem KeptBut.kept (h : KeptBut waiting s)
    (hwaiting : ∀ key ∈ waiting, Named s.tables key ∨ Held s.tables key) : Kept s := by
  intro key blob hget
  rcases h key blob hget with hnamed | hheld | hmem
  · exact .inl hnamed
  · exact .inr hheld
  · exact hwaiting key hmem

theorem KeptBut.put (h : KeptBut waiting s) (blob : Blob)
    (hkey : Named s.tables key ∨ Held s.tables key ∨ key ∈ waiting) :
    KeptBut waiting { s with objects := s.objects.set key (some blob) } := by
  intro key' blob' hget
  rw [Table.get?_set] at hget
  split at hget
  · next heq =>
      subst heq
      exact hkey
  · exact h key' blob' hget

theorem KeptBut.delete {keys : List ObjectKey} (h : KeptBut waiting s)
    (hkeys : ∀ key ∈ waiting, key ∈ keys ∨ key ∈ waiting') :
    KeptBut waiting' { s with objects := s.objects.filter fun key _ => key ∉ keys } := by
  intro key blob hget
  rw [Table.get?_filter] at hget
  obtain ⟨hget, hkept⟩ := Option.filter_eq_some_iff.mp hget
  have hnot : key ∉ keys := of_decide_eq_true hkept
  rcases h key blob hget with hnamed | hheld | hmem
  · exact .inl hnamed
  · exact .inr (.inl hheld)
  · rcases hkeys key hmem with hdeleted | hwaits
    · exact absurd hdeleted hnot
    · exact .inr (.inr hwaits)

theorem Grows.held {t' : Tables} (h : Grows t t') (hheld : Held t key) : Held t' key := by
  obtain ⟨id, row, hget, hkey, hstate⟩ := hheld
  exact ⟨id, row, by rw [h.uploads, hget], hkey, hstate⟩

theorem Kept.grows (h : Kept s) (hgrows : Grows s.tables t) : Kept { s with tables := t } := by
  intro key blob hget
  rcases h key blob hget with hnamed | hheld
  · exact .inl (hgrows.named hnamed)
  · exact .inr (hgrows.held hheld)

end

def Claimed (id : String) (row : UploadRow) (s : Store) : Prop :=
  s.tables.uploads.get? id = some { row with state := .completing }

variable {id : String} {row : UploadRow} {s : Store}

theorem Claimed.held (h : Claimed id row s) : Held s.tables row.objectKey := ⟨id, _, h, rfl, rfl⟩

theorem Claimed.same {s' : Store} (h : Claimed id row s) (htables : s'.tables = s.tables) :
    Claimed id row s' := by
  unfold Claimed
  rw [htables]
  exact h

section

variable {from_ : Nat} {waiting : List ObjectKey} {s : Store} {id : String} {row : UploadRow}

theorem KeptBut.moved (h : KeptBut waiting s) (hget : s.tables.uploads.get? id = some row)
    (new : UploadRow) (waiting' : List ObjectKey)
    (hwaiting : waiting ⊆ waiting')
    (hobject : new.objectKey = row.objectKey ∧ new.state.unfinished = true ∨
      row.objectKey ∈ waiting') :
    KeptBut waiting'
      { s with tables := { s.tables with uploads := s.tables.uploads.set id (some new) } } := by
  apply h.tables hwaiting
  rintro key (hnamed | ⟨id', row', hget', hkey, hstate⟩)
  · exact .inl hnamed
  · right
    by_cases hid : id' = id
    · subst hid
      rw [hget] at hget'
      cases hget'
      rcases hobject with ⟨hsame, hunfinished⟩ | hmem
      · left
        refine ⟨id', new, ?_, hsame.trans hkey, hunfinished⟩
        rw [Table.get?_set, if_pos rfl]
      · right
        rw [← hkey]
        exact hmem
    · left
      refine ⟨id', row', ?_, hkey, hstate⟩
      rw [Table.get?_set, if_neg hid]
      exact hget'

variable {caller : Principal}

theorem alone_claim (hget : s.tables.uploads.get? id = some row) (h : Kept s) : Alone from_
      (fun r s' =>
        match r with 
        | .ok _ => Kept s' ∧ Claimed id row s'
        | .error _ => Kept s')
      (claim id row caller) s := by
  unfold claim
  split
  · exact h
  · apply Alone.seq
    apply Alone.clock
    intro now _
    dsimp only
    split
    · exact h
    · apply Alone.seq
      apply Alone.move
      · intro row' tables hget' hstate htables
        rw [hget] at hget'
        cases hget'
        subst htables
        constructor
        · exact kept_iff.mpr ((kept_iff.mp h).moved hget _ [] (List.Subset.refl _) (.inl ⟨rfl, rfl⟩))
        · unfold Claimed
          simp
      · intro _
        apply Alone.seq
        apply Alone.upload
        · exact fun _ _ => h
        · exact fun _ => h

theorem alone_checkedObject (hclaimed : Claimed id row s) (h : Kept s) :
    Alone from_ (fun _ s' => Kept s' ∧ Claimed id row s') (checkedObject id row) s := by
  have hdeleted : Kept { s with
      objects := s.objects.filter fun key _ => key ∉ [row.objectKey] } :=
    kept_iff.mpr ((kept_iff.mp h).delete nofun)
  apply Alone.seq
  apply Alone.headObject
  dsimp only
  split
  · exact ⟨h, hclaimed⟩
  · split
    · apply Alone.seq
      apply Alone.deleteObjects
      exact ⟨hdeleted, hclaimed⟩
    · split
      · apply Alone.seq
        apply Alone.deleteObjects
        exact ⟨hdeleted, hclaimed⟩
      · exact ⟨h, hclaimed⟩

theorem alone_verifiedObject {parts : Bool} (hclaimed : Claimed id row s) (h : Kept s) :
    Alone from_ (fun _ s' => Kept s' ∧ Claimed id row s') (verifiedObject id row parts) s := by
  apply Alone.seq
  unfold assembled
  split
  · split
    · exact ⟨h, hclaimed⟩
    · apply Alone.completeMultipart
      · intro blob
        have hput := (kept_iff.mp h).put blob (.inr (.inl hclaimed.held))
        exact alone_checkedObject (hclaimed.same rfl) (kept_iff.mpr hput)
      · exact fun _ => ⟨h, hclaimed⟩
  · exact alone_checkedObject hclaimed h

theorem alone_giveUp {problem : Problem} (hclaimed : Claimed id row s) (h : Kept s) :
    Alone from_ (fun _ s' => Kept s') (giveUp id row problem) s := by
  unfold giveUp
  split
  · apply Alone.seq
    apply Alone.move
    · rintro _ tables hget _ rfl
      rw [hclaimed] at hget
      cases hget
      exact kept_iff.mpr ((kept_iff.mp h).moved hclaimed _ [] (List.Subset.refl _) (.inl ⟨rfl, rfl⟩))
    · exact fun _ => h
  · have hdelete : ∀ {s' : Store}, Kept s' → Alone from_ (fun _ s' => Kept s')
          (suppress (deleteObjects (.discarded id) [row.objectKey])) s' := by
      intro s' h'
      apply Process.Ends.catching
      apply Alone.deleteObjects
      exact kept_iff.mpr ((kept_iff.mp h').delete nofun)
    apply Alone.seq
    apply Alone.move
    · rintro _ tables hget _ rfl
      rw [hclaimed] at hget
      cases hget
      apply hdelete
      exact kept_iff.mpr ((kept_iff.mp h).moved hclaimed _ [] (List.Subset.refl _) (.inl ⟨rfl, rfl⟩))
    · exact fun _ => hdelete h

theorem alone_commitUpload {volume : String} {path : Path} {key : ObjectKey}
    {verified : String × Bool} {ifMatch : Option Nat} {ifNoneMatch : Bool}
    (hclaimed : Claimed id row s) (h : KeptBut [key] s) :
    Alone from_ (fun r s' => Claimed id row s' ∧
        match r with 
        | .ok _ => Kept s' ∧ Named s'.tables key
        | .error _ => Same s s')
      (commitUpload volume path key row verified caller ifMatch ifNoneMatch) s := by
  apply Alone.seq
  apply Alone.issue
  intro name
  apply Alone.seq
  apply Alone.clock
  intro now _
  apply Alone.transact rfl
  · intro head tables hrun
    have hgrows := grows_run ((puts_commitVersion _ _ _ _ _ _ _ _).mono fun _ => Write.Puts.adds) hrun
    have hnamed := commitVersion_named hrun
    refine ⟨(hgrows.uploads id).trans hclaimed, ?_, hnamed⟩
    intro key' blob hget
    rcases h key' blob hget with hnamed' | hheld | hmem
    · exact .inl (hgrows.named hnamed')
    · exact .inr (hgrows.held hheld)
    · rw [mem_singleton.mp hmem]
      exact .inl hnamed
  · exact fun e _ => ⟨hclaimed, ⟨rfl, rfl⟩⟩

theorem alone_completed (hclaimed : Claimed id row s) (h : Kept s)
    (hnamed : Named s.tables row.objectKey) :
    Alone from_ (fun _ s' => Kept s') (move id .completing .completed) s := by
  apply Alone.move
  · rintro _ tables hget _ rfl
    rw [hclaimed] at hget
    cases hget
    have hmoved := (kept_iff.mp h).moved hclaimed
      { row with state := .completed } [row.objectKey] (nil_subset _)
      (.inr (mem_singleton.mpr rfl))
    apply hmoved.kept
    intro key hmem
    rw [mem_singleton.mp hmem]
    exact .inl hnamed
  · exact fun _ => h

end

section

variable {from_ : Nat} {s : Store}

variable {α : Type} {id volume contentType sha256 : String} {row : UploadRow}
    {problem : Problem} {path : Path} {caller : Principal} {parts ifNoneMatch : Bool}
    {ifMatch : Option Nat} {rule : WriteRule} {key : ObjectKey} {settings : Settings}
    {size : Nat}

theorem alone_failing {Q : Except Problem α → Store → Prop} (hclaimed : Claimed id row s)
    (h : Kept s) (hQ : ∀ e s', Kept s' → Q (.error e) s') :
    Alone from_ Q
      (do
        giveUp id row problem
        fail problem) s := by
  apply Alone.seq
  apply (alone_giveUp hclaimed h).mono
  intro r s' h'
  cases r with
  | ok _ => exact hQ _ s' h'
  | error e => exact hQ e s' h'

theorem alone_completing (hclaimed : Claimed id row s) (h : Kept s) :
    Alone from_ (fun _ s' => Kept s')
      (do
        let head ← ((do
            let verified ← verifiedObject id row parts
            commitUpload volume path row.objectKey row verified caller ifMatch ifNoneMatch) :
              Op FileRow).catching fun problem => do
            giveUp id row problem
            fail problem
        let _ ← move id .completing .completed
        pure head : Op FileRow) s := by
  apply Alone.seq
  apply Process.Ends.catching
  apply Alone.seq
  apply (alone_verifiedObject hclaimed h).mono
  rintro r s₁ ⟨h₁, hclaimed₁⟩
  cases r with
  | error e => exact alone_failing hclaimed₁ h₁ fun e s' h' => h'
  | ok verified =>
    have hbut : KeptBut [row.objectKey] s₁ := by
      intro key blob hget
      rcases h₁ key blob hget with hnamed | hheld
      · exact .inl hnamed
      · exact .inr (.inl hheld)
    apply (alone_commitUpload hclaimed₁ hbut).mono
    rintro r s₂ ⟨hclaimed₂, hcommit⟩
    cases r with
    | error e => exact alone_failing hclaimed₂ (h₁.same hcommit) fun e s' h' => h'
    | ok head =>
      obtain ⟨h₂, hnamed⟩ := hcommit
      apply Alone.seq
      apply (alone_completed hclaimed₂ h₂ hnamed).mono
      intro r s₃ h₃
      cases r with
      | ok _ | error e => exact h₃

theorem alone_completeUpload (h : Kept s) : Alone from_ (fun _ s' => Kept s')
      (completeUpload rule volume caller id parts ifMatch ifNoneMatch) s := by
  apply Alone.seq
  apply Alone.upload
  · intro row hget
    dsimp only
    split
    · exact h
    · split
      · exact h
      · apply Alone.seq
        apply (Idle.allow _).alone _ (Same.refl s)
        intro r s₁ hsame₁
        cases r with
        | error e => exact h.same hsame₁
        | ok _ =>
          have hfind : ∀ path, Idle (if row.state = .completed then head volume path
              else .ret none : Op (Option FileRow)) := by
            intro path
            split
            · exact Idle.look _
            · trivial
          apply Alone.seq
          apply (hfind _).alone _ hsame₁
          intro r s₂ hsame₂
          cases r with
          | error e => exact h.same hsame₂
          | ok found =>
            cases found with
            | some found => exact h.same hsame₂
            | none =>
              have hget₂ : s₂.tables.uploads.get? id = some row := by
                rw [hsame₂.tables]
                exact hget
              apply Alone.seq
              apply (alone_claim hget₂ (h.same hsame₂)).mono
              intro r s₃ hclaim
              cases r with
              | error e => exact hclaim
              | ok _ => exact alone_completing hclaim.2 hclaim.1
  · exact fun _ => h

theorem alone_uncopied {Q : Except Problem α → Store → Prop} (hclaimed : Claimed id row s)
    (h : KeptBut [key] s) (hQ : ∀ e s', Kept s' → Q (.error e) s') :
    Alone from_ Q
      (do
        suppress (deleteObjects .copied [key])
        giveUp id row problem
        fail problem) s := by
  apply Alone.seq
  apply Process.Ends.catching
  apply Alone.deleteObjects
  exact alone_failing (hclaimed.same rfl) (kept_iff.mpr (h.delete fun _ hmem => .inl hmem)) hQ

theorem alone_copied {Q : Except Problem (String × Bool) → Store → Prop}
    (hclaimed : Claimed id row s) (h : Kept s)
    (hok : ∀ verified s', Claimed id row s' → KeptBut [key] s' → Q (.ok verified) s')
    (herror : ∀ e s', Kept s' → Q (.error e) s') :
    Alone from_ Q
      (((do
        let verified ← verifiedObject id row parts
        failFast volume path row.size ifMatch ifNoneMatch
        copyObject row.objectKey key
        pure verified) : Op (String × Bool)).catching fun problem => do
        giveUp id row problem
        fail problem) s := by
  apply Process.Ends.catching
  apply Alone.seq
  apply (alone_verifiedObject hclaimed h).mono
  rintro r s₁ ⟨h₁, hclaimed₁⟩
  cases r with
  | error e => exact alone_failing hclaimed₁ h₁ herror
  | ok verified =>
    apply Alone.seq
    apply (Idle.failFast volume path row.size ifMatch ifNoneMatch).alone _ (Same.refl s₁)
    intro r s₂ hsame₂
    have h₂ := h₁.same hsame₂
    have hclaimed₂ := hclaimed₁.same hsame₂.tables
    cases r with
    | error e => exact alone_failing hclaimed₂ h₂ herror
    | ok _ =>
      apply Alone.seq
      apply Alone.copyObject
      · intro blob
        have hbut : KeptBut [key] s₂ := by
          intro key' blob' hget
          rcases h₂ key' blob' hget with hnamed | hheld
          · exact .inl hnamed
          · exact .inr (.inl hheld)
        have hput := hbut.put blob (.inr (.inr (mem_singleton.mpr rfl)))
        exact hok verified _ (hclaimed₂.same rfl) hput
      · exact fun e => alone_failing hclaimed₂ h₂ herror

theorem alone_promoted {head : FileRow} (hclaimed : Claimed id row s) (h : Kept s) :
    Alone from_ (fun (_ : Except Problem FileRow) s' => Kept s')
      (do
        let _ ← move id .completing .promoted
        suppress (deleteObjects (.discarded id) [row.objectKey])
        pure head) s := by
  apply Alone.seq
  apply Alone.move
  · rintro _ tables hget _ rfl
    rw [hclaimed] at hget
    cases hget
    have hmoved := (kept_iff.mp h).moved hclaimed
      { row with state := .promoted } [row.objectKey] (nil_subset _)
      (.inr (mem_singleton.mpr rfl))
    apply Alone.seq
    apply Process.Ends.catching
    apply Alone.deleteObjects
    exact kept_iff.mpr (hmoved.delete fun _ hmem => .inl hmem)
  · intro _
    apply Alone.seq
    apply Process.Ends.catching
    apply Alone.deleteObjects
    exact kept_iff.mpr ((kept_iff.mp h).delete nofun)

theorem alone_promote (h : Kept s) : Alone from_ (fun _ s' => Kept s')
      (promote rule volume caller id path parts ifMatch ifNoneMatch) s := by
  apply Alone.seq
  apply Alone.upload
  · intro row hget
    dsimp only
    split
    · exact h
    · apply Alone.seq
      apply (Idle.allow _).alone _ (Same.refl s)
      intro r s₁ hsame₁
      cases r with
      | error e => exact h.same hsame₁
      | ok _ =>
        have hget₁ : s₁.tables.uploads.get? id = some row := by
          rw [hsame₁.tables]
          exact hget
        apply Alone.seq
        apply (alone_claim hget₁ (h.same hsame₁)).mono
        intro r s₂ hclaim
        cases r with
        | error e => exact hclaim
        | ok _ =>
          obtain ⟨h₂, hclaimed₂⟩ := hclaim
          apply Alone.seq
          apply Alone.issue
          intro name
          have hissued : Same s₂ { s₂ with issued := name :: s₂.issued } := ⟨rfl, rfl⟩
          apply Alone.seq
          apply alone_copied (hclaimed₂.same hissued.tables) (h₂.same hissued)
          · intro verified s₃ hclaimed₃ h₃
            apply Alone.seq
            apply Process.Ends.catching
            apply (alone_commitUpload hclaimed₃ h₃).mono
            rintro r s₄ ⟨hclaimed₄, hcommit⟩
            cases r with
            | error e =>
              have h₄ : KeptBut [.object volume name] s₄ := by
                intro key blob hget
                rw [hcommit.objects] at hget
                rw [hcommit.tables]
                exact h₃ key blob hget
              exact alone_uncopied hclaimed₄ h₄ fun _ _ h' => h'
            | ok head => exact alone_promoted hclaimed₄ hcommit.1
          · exact fun _ _ h' => h'
  · exact fun _ => h

theorem alone_transact {call : Call} {t : Transaction α} (hcall : call.apply = after t)
    (hgrows : ∀ a tables, database.run t s.tables = .ok (a, tables) → Grows s.tables tables)
    (h : Kept s) : Alone from_ (fun _ s' => Kept s') (transact call t) s := by
  apply Alone.transact hcall
  · exact fun a tables hrun => h.grows (hgrows a tables hrun)
  · exact fun _ _ => h

theorem createUpload_ok {t t' : Tables} {a : Unit}
    (h : database.run (createUpload id row) t = .ok (a, t')) (hkey : Named t key ∨ Held t key) :
    Named t' key ∨ Held t' key := by
  obtain ⟨n, t₁, hinsert, h⟩ := (Engine.run_bind_ok _).mp h
  cases h
  obtain ⟨images, hexec, _, rfl⟩ := run_update_ok hinsert
  simp only [Write.exec] at hexec
  split at hexec
  · cases hexec
  · next hfree =>
      cases hexec
      rcases hkey with ⟨place, row', hget, hrow⟩ | ⟨id', row', hget, hrow⟩
      · left
        refine ⟨place, row', ?_, hrow⟩
        rw [versions_putAll]
        exact hget
      · right
        refine ⟨id', row', ?_, hrow⟩
        have hne : id' ≠ id := by
          rintro rfl
          rw [hget] at hfree
          exact hfree rfl
        rw [uploads_putAll]
        simpa [Image.onUpload, hne] using hget

theorem alone_openUpload {target : Option (String × Path)} {multipart : Bool} (h : Kept s) :
    Alone from_ (fun _ s' => Kept s')
      (openUpload settings caller target key size contentType sha256 multipart) s := by
  apply Alone.seq
  apply (Idle.perform (.inr rfl) _).alone _ (Same.refl s)
  intro r s₁ hsame₁
  cases r with
  | error e => exact h.same hsame₁
  | ok uploadId =>
    apply Alone.seq
    apply Alone.issue
    intro id
    apply Alone.seq
    apply Alone.clock
    intro now _
    apply Alone.seq
    have h₁ := h.same hsame₁
    apply Alone.transact rfl
    · intro a tables hrun key blob hget
      exact createUpload_ok hrun (h₁ key blob hget)
    · exact fun _ _ => h₁

theorem alone_initiateUpload (h : Kept s) : Alone from_ (fun _ s' => Kept s')
      (initiateUpload settings volume caller path size contentType sha256 ifMatch ifNoneMatch)
      s := by
  unfold initiateUpload
  split
  · exact h
  · apply Alone.seq
    apply (Idle.failFast volume path size ifMatch ifNoneMatch).alone _ (Same.refl s)
    intro r s₁ hsame₁
    cases r with
    | error e => exact h.same hsame₁
    | ok _ =>
      apply Alone.seq
      apply (Idle.pendingAllowed caller).alone _ hsame₁
      intro r s₂ hsame₂
      cases r with
      | error e => exact h.same hsame₂
      | ok _ =>
        apply Alone.seq
        apply Alone.issue
        intro name
        exact alone_openUpload (h.same ⟨hsame₂.tables, hsame₂.objects⟩)

theorem alone_createSession (h : Kept s) :
    Alone from_ (fun _ s' => Kept s') (createSession settings caller size contentType sha256)
      s := by
  unfold createSession
  split
  · exact h
  · apply Alone.seq
    apply (Idle.pendingAllowed caller).alone _ (Same.refl s)
    intro r s₁ hsame₁
    cases r with
    | error e => exact h.same hsame₁
    | ok _ =>
      apply Alone.seq
      apply Alone.issue
      intro session
      apply Alone.seq
      apply Alone.issue
      intro name
      exact alone_openUpload (h.same ⟨hsame₁.tables, hsame₁.objects⟩)

end

end Substrate.Files
