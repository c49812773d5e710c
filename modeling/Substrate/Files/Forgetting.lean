import Mathlib.Logic.Relation
import Substrate.Files.Residue

/-!
Operations that take rows away, and whole histories of operations. A sweep and a purge
leave every object accounted for. An erasure does so if it reports every object whose
last version it takes, which depends on the purged versions of other files.
-/

namespace Substrate.Files

open Lib List Option

theorem forgetUpload_run (id : String) (t : Tables) :
    ∃ t', database.run (forgetUpload id) t = .ok ((), t') ∧
      (∀ place, t'.versions.get? place = t.versions.get? place) ∧
      ∀ id', t'.uploads.get? id' = if id' = id then none else t.uploads.get? id' := by
  have hrun : database.run (forgetUpload id) t = .ok ((), database.putAll
        ((t.uploads.get? id).toList.map fun _ => Image.upload id none) t) := rfl
  refine ⟨_, hrun, ?_, ?_⟩
  · intro place
    rw [versions_putAll]
    apply foldl_eq_self
    intro image hmem
    obtain ⟨row, _, rfl⟩ := mem_map.mp hmem
    rfl
  · intro id'
    rw [uploads_putAll]
    cases hget : t.uploads.get? id with
    | none =>
      by_cases hid : id' = id
      · simp [hid, hget]
      · simp [hid]
    | some row => simp [Image.onUpload]

/-- Every upload of the second state is one of the first. -/
def Fewer (s s' : Store) : Prop :=
  ∀ id row, s'.tables.uploads.get? id = some row → s.tables.uploads.get? id = some row

section

variable {from_ : Nat} {s s₁ : Store}

theorem alone_forget {id : String} (h : Kept s)
    (hobject : ∀ row, s.tables.uploads.get? id = some row → row.state.unfinished = true →
      s.objects.get? row.objectKey = none) :
    Alone from_ (fun r s' => r = .ok () ∧ Kept s' ∧ Fewer s s' ∧ s'.tables.uploads.get? id = none)
      (transact (.forgetUpload id) (forgetUpload id)) s := by
  obtain ⟨t', hrun, hversions, huploads⟩ := forgetUpload_run id s.tables
  apply Alone.transact rfl
  · intro a tables hok
    rw [hrun] at hok
    cases hok
    refine ⟨rfl, ?_, ?_, by rw [huploads, if_pos rfl]⟩
    · intro key blob hget
      rcases h key blob hget with ⟨place, row, hrow, hkey⟩ | ⟨id', row, hrow, rfl, hstate⟩
      · exact .inl ⟨place, row, by rw [hversions, hrow], hkey⟩
      · right
        refine ⟨id', row, ?_, rfl, hstate⟩
        have hne : id' ≠ id := by
          rintro rfl
          have hnone := hobject row hrow hstate
          simp only at hget
          rw [hnone] at hget
          cases hget
        rw [huploads, if_neg hne, hrow]
    · intro id' row hrow
      simp only [huploads] at hrow
      split at hrow
      · cases hrow
      · exact hrow
  · intro e herror
    rw [hrun] at herror
    cases herror

theorem alone_sweepUpload {entry : String × UploadRow}
    (hentry : ∀ row, s.tables.uploads.get? entry.1 = some row → row = entry.2) (h : Kept s) :
    Alone from_
      (fun r s' => r = .ok () ∧ Kept s' ∧ Fewer s s' ∧ s'.tables.uploads.get? entry.1 = none)
      (sweepUpload entry) s := by
  unfold sweepUpload
  split
  · apply Alone.seq
    apply Alone.deleteObjects
    have hdeleted : Kept { s with
        objects := s.objects.filter fun key _ => key ∉ [entry.2.objectKey] } :=
      kept_iff.mpr ((kept_iff.mp h).delete fun _ h => by cases h)
    apply alone_forget hdeleted
    intro row hrow _
    rw [hentry row hrow, Table.get?_filter]
    simp
  · next hstate =>
      apply alone_forget h
      intro row hrow hunfinished
      rw [hentry row hrow] at hunfinished
      exfalso
      apply hstate
      cases hcase : entry.2.state with
      | pending => exact .inl rfl
      | completing => exact .inr (.inl rfl)
      | failed => exact .inr (.inr rfl)
      | completed | promoted =>
        rw [hcase] at hunfinished
        cases hunfinished

variable {items : List (String × UploadRow)} {settings : Settings} {t' t : Tables}
    {garbage : List ObjectKey} {ids : List String} {key : ObjectKey} {volume : String}
    {start : Path} {chosen : List (UploadRow → Bool)}

theorem alone_sweepEach : ∀ {s : Store},
      (∀ entry ∈ items, ∀ row, s.tables.uploads.get? entry.1 = some row → row = entry.2) →
      Kept s → Alone from_ (fun _ s' => Kept s' ∧ Fewer s s' ∧
          ∀ entry ∈ items, s'.tables.uploads.get? entry.1 = none)
        (Process.each sweepUpload items) s := by
  induction items with
  | nil => exact fun _ h => ⟨h, fun _ _ hrow => hrow, nofun⟩
  | cons entry rest ih =>
    intro s hitems h
    apply Process.Ends.bind
    apply (alone_sweepUpload (hitems entry mem_cons_self) h).mono
    rintro r s₁ ⟨rfl, h₁, hfewer, hgone⟩
    have hrest : ∀ other ∈ rest, ∀ row, s₁.tables.uploads.get? other.1 = some row →
        row = other.2 := fun other hmem row hrow =>
      hitems other (mem_cons_of_mem _ hmem) row (hfewer other.1 row hrow)
    apply (ih hrest h₁).mono
    rintro r s₂ ⟨h₂, hfewer₂, hgone₂⟩
    refine ⟨h₂, fun id row hrow => hfewer id row (hfewer₂ id row hrow), ?_⟩
    intro other hmem
    rcases mem_cons.mp hmem with rfl | hmem
    · cases hget : s₂.tables.uploads.get? other.1 with
      | none => rfl
      | some row =>
        have hback := hfewer₂ other.1 row hget
        rw [hgone] at hback
        cases hback
    · exact hgone₂ other hmem

theorem alone_sweepUploads (h : Kept s) : Alone from_
      (fun _ s' => Kept s' ∧ (s.tables.uploads.rows.length ≤ settings.sweepLimit →
        ∀ id row, s'.tables.uploads.get? id = some row → from_ ≤ row.expiresAt))
      (sweepUploads settings) s := by
  apply Alone.seq
  apply Alone.clock
  intro now hnow
  apply Alone.seq
  apply Alone.look
  have hitems : ∀ entry ∈ (s.tables.uploads.rows.filter fun row => row.2.expiresAt < now).take
      settings.sweepLimit, ∀ row, s.tables.uploads.get? entry.1 = some row → row = entry.2 := by
    intro entry hmem row hrow
    have hmem' := Table.mem_rows_iff.mp (mem_of_mem_filter (mem_of_mem_take hmem))
    rw [hrow] at hmem'
    cases hmem'
    rfl
  apply (alone_sweepEach hitems h).mono
  rintro r s' ⟨h', hfewer, hgone⟩
  refine ⟨h', ?_⟩
  intro hlimit id row hrow
  by_contra hexpired
  have hmem : (id, row) ∈ (s.tables.uploads.rows.filter fun row => row.2.expiresAt < now).take
      settings.sweepLimit := by
    rw [take_of_length_le ((length_filter_le _ _).trans hlimit)]
    apply mem_filter.mpr
    exact ⟨Table.mem_rows_iff.mpr (hfewer id row hrow), decide_eq_true (by simp only; omega)⟩
  have hnone := hgone (id, row) hmem
  simp only at hnone
  rw [hrow] at hnone
  cases hnone

theorem alone_deleteGarbage {garbage : List ObjectKey} {Q : Except Problem Unit → Store → Prop}
    (h : Q (.ok ()) { s with objects := s.objects.filter fun key _ => key ∉ garbage }) :
    Alone from_ Q (deleteGarbage garbage) s := by
  unfold deleteGarbage
  split
  · next hempty =>
      subst hempty
      have hall : (s.objects.filter fun key _ => key ∉ ([] : List ObjectKey)) = s.objects := by
        simp [Table.filter_true]
      rw [hall] at h
      exact h
  · exact Alone.deleteObjects h

theorem Purged.keptBut (hpurged : Purged s.tables t' garbage) (h : Kept s) :
    KeptBut garbage { s with tables := t' } := by
  intro key blob hget
  rcases h key blob hget with hnamed | ⟨id, row, hrow, hkey⟩
  · rcases hpurged.named key hnamed with hnamed' | hmem
    · exact .inl hnamed'
    · exact .inr (.inr hmem)
  · exact .inr (.inl ⟨id, row, by rw [hpurged.uploads, hrow], hkey⟩)

theorem alone_sweepVersions
    {order : List ((String × Nat) × VersionRow) → List ((String × Nat) × VersionRow)}
    (horder : ∀ rows, (order rows).Perm rows) (h : Kept s) :
    Alone from_ (fun _ s' => Kept s') (sweepVersions settings order) s := by
  unfold sweepVersions
  split
  · exact h
  · apply Alone.seq
    apply Alone.clock
    intro now _
    apply Alone.seq
    apply Alone.transact rfl
    · intro garbage tables hrun
      apply alone_deleteGarbage
      have hbut := (purgeVersions_ok horder hrun).keptBut h
      exact kept_iff.mpr (hbut.delete fun _ hmem => .inl hmem)
    · exact fun _ _ => h

/-- A file that an erasure takes has a version of the object that is not purged. -/
def NamedWithin (t : Tables) (ids : List String) (key : ObjectKey) : Prop :=
  ∃ place row, t.versions.get? place = some row ∧ row.objectKey = key ∧ row.purgedAt = none ∧
    place.1 ∈ ids

/-- Some other file has a version of the object that is not purged. -/
def NamedBeside (t : Tables) (ids : List String) (key : ObjectKey) : Prop :=
  ∃ place row, t.versions.get? place = some row ∧ row.objectKey = key ∧ row.purgedAt = none ∧
    place.1 ∉ ids

/-- Some other file has a version of the object, purged or not. -/
def MentionedBeside (t : Tables) (ids : List String) (key : ObjectKey) : Prop :=
  ∃ place row, t.versions.get? place = some row ∧ row.objectKey = key ∧ place.1 ∉ ids

/-- No stored object whose last version that is not purged is erased has a purged
version left. -/
def LeavesNoTrace (volume : String) (start : Path) (s : Store) : Prop :=
  ∀ key blob, s.objects.get? key = some blob → ¬Held s.tables key →
    NamedWithin s.tables (s.tables.erasedIds volume start) key →
      MentionedBeside s.tables (s.tables.erasedIds volume start) key →
        NamedBeside s.tables (s.tables.erasedIds volume start) key

theorem Emptied.named_iff (h : Emptied t t' ids garbage) :
    Named t' key ↔ NamedBeside t ids key := by
  constructor
  · rintro ⟨place, row, hget, hkey, hpurged⟩
    rw [h.versions] at hget
    split at hget
    · cases hget
    · next hplace => exact ⟨place, row, hget, hkey, hpurged, hplace⟩
  · rintro ⟨place, row, hget, hkey, hpurged, hplace⟩
    exact ⟨place, row, by rw [h.versions, if_neg hplace, hget], hkey, hpurged⟩

theorem Emptied.mentioned_iff (h : Emptied t t' ids garbage) :
    Mentioned t' key ↔ MentionedBeside t ids key := by
  constructor
  · rintro ⟨place, row, hget, hkey⟩
    rw [h.versions] at hget
    split at hget
    · cases hget
    · next hplace => exact ⟨place, row, hget, hkey, hplace⟩
  · rintro ⟨place, row, hget, hkey, hplace⟩
    exact ⟨place, row, by rw [h.versions, if_neg hplace, hget], hkey⟩

theorem Emptied.held_iff (h : Emptied t t' ids garbage) : Held t' key ↔ Held t key := by
  unfold Held
  simp only [h.uploads]

theorem Emptied.kept_iff
    (hemptied : Emptied s.tables t' (s.tables.erasedIds volume start) garbage) (h : Kept s) :
    Kept { s with
        tables := t'
        objects := s.objects.filter fun key _ => key ∉ garbage } ↔
      LeavesNoTrace volume start s := by
  have hstored : ∀ key blob, (s.objects.filter fun key _ => key ∉ garbage).get? key = some blob ↔
      s.objects.get? key = some blob ∧ key ∉ garbage := by
    intro key blob
    rw [Table.get?_filter, filter_eq_some_iff, decide_eq_true_eq]
  constructor
  · intro hkept key blob hget hheld _ hbeside
    have hnot : key ∉ garbage := fun hmem =>
      ((hemptied.reported key).mp hmem).2 (hemptied.mentioned_iff.mpr hbeside)
    rcases hkept key blob ((hstored key blob).mpr ⟨hget, hnot⟩) with hnamed | hheld'
    · exact hemptied.named_iff.mp hnamed
    · exact absurd (hemptied.held_iff.mp hheld') hheld
  · intro htrace key blob hget
    obtain ⟨hget, hnot⟩ := (hstored key blob).mp hget
    by_cases hheld : Held s.tables key
    · exact .inr (hemptied.held_iff.mpr hheld)
    · left
      rcases h key blob hget with ⟨place, row, hrow, hkey, hpurged⟩ | hheld'
      · apply hemptied.named_iff.mpr
        by_cases hplace : place.1 ∈ s.tables.erasedIds volume start
        · have hwithin : NamedWithin s.tables (s.tables.erasedIds volume start) key :=
            ⟨place, row, hrow, hkey, hpurged, hplace⟩
          apply htrace key blob hget hheld hwithin
          apply hemptied.mentioned_iff.mp
          by_contra hmentioned
          exact hnot ((hemptied.reported key).mpr ⟨⟨place, row, hrow, hkey, hplace⟩, hmentioned⟩)
        · exact ⟨place, row, hrow, hkey, hpurged, hplace⟩
      · exact absurd hheld' hheld

theorem eraseUploads_ok {chosen : UploadRow → Bool} {rows : List (String × UploadRow)}
    (h : database.run (eraseUploads chosen) t = .ok (rows, t')) :
    (∀ place, t'.versions.get? place = t.versions.get? place) ∧
      (∀ id row, t.uploads.get? id = some row →
        t'.uploads.get? id = some row ∨ (id, row) ∈ rows) := by
  obtain ⟨rows', t₁, hselect, h⟩ := (Engine.run_bind_ok _).mp h
  cases hselect
  obtain ⟨n, t₂, hdrop, h⟩ := (Engine.run_bind_ok _).mp h
  cases h
  obtain ⟨images, hexec, _, rfl⟩ := run_update_ok hdrop
  cases hexec
  constructor
  · intro place
    rw [versions_putAll]
    apply foldl_eq_self
    intro image hmem
    obtain ⟨row, _, rfl⟩ := mem_map.mp hmem
    rfl
  · intro id row hget
    by_cases hchosen : chosen row = true
    · exact .inr (mem_filter.mpr ⟨Table.mem_rows_iff.mpr hget, hchosen⟩)
    · left
      rw [uploads_putAll, hget]
      apply foldl_eq_self
      intro image hmem
      obtain ⟨⟨id', row'⟩, hrow', rfl⟩ := mem_map.mp hmem
      obtain ⟨hrow', hchosen'⟩ := mem_filter.mp hrow'
      have hne : id ≠ id' := by
        rintro rfl
        rw [Table.mem_rows_iff, hget] at hrow'
        cases hrow'
        exact hchosen hchosen'
      simp [Image.onUpload, hne]

theorem alone_forgetUploads : ∀ {s : Store} {waiting : List ObjectKey}, KeptBut waiting s →
      Alone from_
        (fun r s' =>
          match r with 
          | .ok rows => KeptBut (waiting ++ rows.map fun entry => entry.2.objectKey) s'
          | .error _ => False)
        (forgetUploads chosen) s := by
  induction chosen with
  | nil =>
    intro s waiting h
    simpa [forgetUploads, Process.Ends] using h
  | cons first rest ih =>
    intro s waiting h
    apply Alone.seq
    apply Alone.transact rfl
    · intro rows tables hrun
      obtain ⟨hversions, huploads⟩ := eraseUploads_ok hrun
      have hwaits : KeptBut (waiting ++ rows.map fun entry => entry.2.objectKey)
          { s with tables := tables } := by
        apply h.tables (subset_append_left _ _)
        rintro key (⟨place, row, hget, hkey⟩ | ⟨id, row, hget, hkey, hstate⟩)
        · exact .inl ⟨place, row, by rw [hversions, hget], hkey⟩
        · right
          rcases huploads id row hget with hsame | hmem
          · exact .inl ⟨id, row, hsame, hkey, hstate⟩
          · right
            apply mem_append_right
            exact mem_map.mpr ⟨(id, row), hmem, hkey⟩
      apply Alone.seq
      apply (ih hwaits).mono
      intro r s' h'
      cases r with
      | error e => exact h'
      | ok more =>
        simpa [Process.Ends, pure, append_assoc] using h'
    · intro e herror
      cases herror

theorem alone_eraseEach : ∀ {s : Store}, KeptBut (items.map fun entry => entry.2.objectKey) s →
      Alone from_ (fun _ s' => Kept s') (Process.each eraseUpload items) s := by
  induction items with
  | nil => exact fun h => kept_iff.mpr h
  | cons entry rest ih =>
    intro s h
    apply Process.Ends.bind
    apply Alone.deleteObjects
    apply ih
    apply h.delete
    intro key hmem
    rcases mem_cons.mp hmem with rfl | hmem
    · exact .inl (mem_singleton.mpr rfl)
    · exact .inr hmem

theorem alone_eraseFiles (h : Kept s) (htrace : LeavesNoTrace volume start s) :
    Alone from_ (fun _ s' => Kept s') (eraseFiles volume start chosen) s := by
  apply Alone.seq
  apply Alone.transact rfl
  · intro erased tables hrun
    have hemptied := erasePrefix_ok hrun
    have hkept := (hemptied.kept_iff h).mpr htrace
    apply Alone.seq
    apply alone_deleteGarbage
    apply Alone.seq
    apply (alone_forgetUploads (kept_iff.mp hkept)).mono
    intro r s' h'
    cases r with
    | error e => exact h'.elim
    | ok rows => exact alone_eraseEach h'
  · exact fun _ _ => h

end

/-- What is done with a volume. `put` is a client that sends the bytes of an upload
that is not finished. -/
inductive Operation where
  | initiate (settings : Settings) (volume : String) (caller : Principal) (path : Path)
      (size : Nat) (contentType sha256 : String) (ifMatch : Option Nat) (ifNoneMatch : Bool)
  | createSession (settings : Settings) (caller : Principal) (size : Nat)
      (contentType sha256 : String)
  | put (id : String)
  | complete (rule : WriteRule) (volume : String) (caller : Principal) (id : String)
      (parts : Bool) (ifMatch : Option Nat) (ifNoneMatch : Bool)
  | promote (rule : WriteRule) (volume : String) (caller : Principal) (id : String) (path : Path)
      (parts : Bool) (ifMatch : Option Nat) (ifNoneMatch : Bool)
  | softDelete (volume : String) (path : Path) (ifMatch : Option Nat) (stamp : Nat)
  | deletePrefix (volume : String) (start : Path) (stamp : Nat)
  | copyPrefix (volume : String) (source destination : Path) (by_ : String) (overwrite : Bool)
      (order : List (Path × FileRow) → List (Path × FileRow)) (newId : Path → String)
      (stamp : Nat)
  | restore (volume : String) (path : Path) (version : Option Nat) (by_ : String)
      (ifMatch : Option Nat) (id : String) (stamp : Nat)
  | expire (settings : Settings)
  | purge (settings : Settings)
      (order : List ((String × Nat) × VersionRow) → List ((String × Nat) × VersionRow))
      (horder : ∀ rows, (order rows).Perm rows)
  | erase (volume : String) (start : Path) (chosen : List (UploadRow → Bool))

def discard {α : Type} (p : Op α) : Op Unit := do
  let _ ← p
  pure ()

def sendBytes (id : String) : Op Unit := do
  let row ← upload id
  if row.state.unfinished then
    Process.perform (.put row.objectKey) fun _ _ => .ok ()
  else .ret ()

def Operation.process : Operation → Op Unit
  | .initiate settings volume caller path size contentType sha256 ifMatch ifNoneMatch =>
    discard (initiateUpload settings volume caller path size contentType sha256 ifMatch ifNoneMatch)
  | .createSession settings caller size contentType sha256 =>
    discard (Files.createSession settings caller size contentType sha256)
  | .put id => sendBytes id
  | .complete rule volume caller id parts ifMatch ifNoneMatch =>
    discard (completeUpload rule volume caller id parts ifMatch ifNoneMatch)
  | .promote rule volume caller id path parts ifMatch ifNoneMatch =>
    discard (Files.promote rule volume caller id path parts ifMatch ifNoneMatch)
  | .softDelete volume path ifMatch stamp =>
    discard (transact (.softDelete volume path ifMatch stamp)
      (Files.softDelete volume path ifMatch stamp))
  | .deletePrefix volume start stamp =>
    discard (transact (.deletePrefix volume start stamp) (Files.deletePrefix volume start stamp))
  | .copyPrefix volume source destination by_ overwrite order newId stamp =>
    discard (transact (.copyPrefix volume source destination by_ overwrite order newId stamp)
      (Files.copyPrefix volume source destination by_ overwrite order newId stamp))
  | .restore volume path version by_ ifMatch id stamp =>
    discard (transact (.restore volume path version by_ ifMatch id stamp)
      (Files.restore volume path version by_ ifMatch id stamp))
  | .expire settings => sweepUploads settings
  | .purge settings order _ => sweepVersions settings order
  | .erase volume start chosen => eraseFiles volume start chosen

def Operation.Traceless (s : Store) : Operation → Prop
  | .erase volume start _ => LeavesNoTrace volume start s
  | _ => True

section

variable {from_ : Nat} {s s' : Store}

theorem alone_discard {α : Type} {p : Op α} (h : Alone from_ (fun _ s' => Kept s') p s) :
    Alone from_ (fun _ s' => Kept s') (discard p) s := by
  apply Alone.seq
  apply h.mono
  intro r s' h'
  cases r with
  | ok _ | error e => exact h'

theorem alone_sendBytes {id : String} (h : Kept s) :
    Alone from_ (fun _ s' => Kept s') (sendBytes id) s := by
  apply Alone.seq
  apply Alone.upload
  · intro row hget
    dsimp only
    split
    · next hstate =>
        apply Process.Ends.perform
        intro c _
        simp only [Deed.apply]
        split
        · exact h
        · exact kept_iff.mpr ((kept_iff.mp h).put c.blob (.inr (.inl ⟨id, row, hget, rfl, hstate⟩)))
    · exact h
  · exact fun _ => h

theorem alone_operation {op : Operation} (h : Kept s) (htrace : op.Traceless s) :
    Alone from_ (fun _ s' => Kept s') op.process s := by
  cases op with
  | initiate settings volume caller path size contentType sha256 ifMatch ifNoneMatch =>
    exact alone_discard (alone_initiateUpload h)
  | createSession settings caller size contentType sha256 =>
    exact alone_discard (alone_createSession h)
  | put id => exact alone_sendBytes h
  | complete rule volume caller id parts ifMatch ifNoneMatch =>
    exact alone_discard (alone_completeUpload h)
  | promote rule volume caller id path parts ifMatch ifNoneMatch =>
    exact alone_discard (alone_promote h)
  | softDelete volume path ifMatch stamp =>
    apply alone_discard
    apply alone_transact rfl _ h
    exact fun _ _ => grows_run
      ((deletes_softDelete path ifMatch stamp).mono fun _ => Write.Deletes.adds)
  | deletePrefix volume start stamp =>
    apply alone_discard
    apply alone_transact rfl _ h
    exact fun _ _ => grows_run ((deletes_deletePrefix start stamp).mono fun _ => Write.Deletes.adds)
  | copyPrefix volume source destination by_ overwrite order newId stamp =>
    apply alone_discard
    apply alone_transact rfl _ h
    exact fun _ _ => grows_run
      ((puts_copyPrefix source destination by_ overwrite order newId stamp).mono
        fun _ => Write.Puts.adds)
  | restore volume path version by_ ifMatch id stamp =>
    apply alone_discard
    apply alone_transact rfl _ h
    exact fun _ _ => grows_run
      ((puts_restore path version by_ ifMatch id stamp).mono fun _ => Write.Puts.adds)
  | expire settings => exact (alone_sweepUploads h).mono fun _ _ h' => h'.1
  | purge settings order horder => exact alone_sweepVersions horder h
  | erase volume start chosen => exact alone_eraseFiles h htrace

end

def Store.fresh (assets : List String) : Store :=
  ⟨⟨.empty, .empty, .empty, .empty⟩, .empty, assets, []⟩

/-- One operation of a history. Nothing fails in it, and its time is not before
`from_`. -/
def Follows (from_ : Nat) (op : Operation) (s s' : Store) : Prop :=
  Process.Leads Deed.apply (Quiet from_) op.process s s'

def History (met : Store → Operation → Prop) : Store → Store → Prop :=
  Relation.ReflTransGen fun s s' => ∃ from_ op, met s op ∧ Follows from_ op s s'

theorem kept_history {assets : List String} {s : Store}
    (h : History Operation.Traceless (.fresh assets) s) : Kept s := by
  induction h with
  | refl =>
    intro key blob hget
    cases hget
  | tail _ hstep ih =>
    obtain ⟨from_, op, htrace, hfollows⟩ := hstep
    exact (alone_operation ih htrace).leads hfollows

/-- In a history whose erasures leave no trace, every stored object is named by a
version that is not purged, or belongs to an upload that is not finished and that no
sweep has expired. After a sweep that can take every upload, it is one whose time has
not come. -/
theorem objects_accounted {assets : List String} {s : Store}
    (h : History Operation.Traceless (.fresh assets) s) :
    Kept s ∧ ∀ from_ settings s', s.tables.uploads.rows.length ≤ settings.sweepLimit →
      Follows from_ (.expire settings) s s' → ∀ key blob, s'.objects.get? key = some blob →
        Named s'.tables key ∨ ∃ id row, s'.tables.uploads.get? id = some row ∧
          row.objectKey = key ∧ row.state.unfinished = true ∧ from_ ≤ row.expiresAt := by
  have hkept := kept_history h
  constructor
  · exact hkept
  · intro from_ settings s' hlimit hfollows key blob hget
    obtain ⟨hkept', hleft⟩ := (alone_sweepUploads hkept).leads hfollows
    rcases hkept' key blob hget with hnamed | ⟨id, row, hrow, hkey, hstate⟩
    · exact .inl hnamed
    · exact .inr ⟨id, row, hrow, hkey, hstate, hleft hlimit id row hrow⟩

/-- An operation at a time, with enough deeds for it. The names made up in it are
`tag` once, twice and so on. -/
structure Cue where
  op : Operation
  tag : Char
  now : Nat
  deeds : Nat

def Cue.chances (cue : Cue) : List Chance :=
  (List.range cue.deeds).map fun i =>
    ⟨false, false, ⟨[1], none⟩, String.ofList (List.replicate (i + 1) cue.tag), cue.now⟩

theorem Cue.chances_quiet (cue : Cue) : ∀ c ∈ cue.chances, Quiet 0 c := by
  intro c hmem
  obtain ⟨i, _, rfl⟩ := mem_map.mp hmem
  exact ⟨rfl, Nat.zero_le _⟩

def rehearse : List Cue → Store → Option Store
  | [], s => some s
  | cue :: rest, s => (Process.play Deed.apply cue.chances cue.op.process s).bind (rehearse rest)

theorem history_of_rehearse {met : Store → Operation → Prop} :
    ∀ {script : List Cue} {s s' : Store}, rehearse script s = some s' →
      (∀ cue ∈ script, ∀ s, met s cue.op) → History met s s'
  | [], s, s', h, _ => by
      cases h
      exact .refl
  | cue :: rest, s, s', h, hmet => by
      obtain ⟨s₁, hplay, hrest⟩ := bind_eq_some_iff.mp h
      apply Relation.ReflTransGen.head
      · exact ⟨0, cue.op, hmet cue mem_cons_self s, Process.leads_of_play cue.chances_quiet hplay⟩
      · exact history_of_rehearse hrest fun other hmem => hmet other (mem_cons_of_mem _ hmem)

namespace Rehearsal

def settings : Settings := ⟨100, 50, 5, 500, 1000⟩

def owner : Principal := ⟨"p", "s", none, false, []⟩

def copied : List Cue := [⟨.initiate settings "v" owner ['a'] 1 "" "" none false, 'a', 10, 9⟩,
    ⟨.put "aaaaaaa", 'b', 10, 2⟩,
    ⟨.complete (fun _ _ => .ok ()) "v" owner "aaaaaaa" true none false, 'c', 10, 9⟩,
    ⟨.copyPrefix "v" ['a'] ['b'] "p" false id (fun _ => "copy") 20, 'd', 20, 1⟩]

def purged : List Cue := [⟨.initiate settings "v" owner ['b'] 1 "" "" none false, 'e', 20, 9⟩,
    ⟨.put "eeeeeee", 'f', 20, 2⟩,
    ⟨.complete (fun _ _ => .ok ()) "v" owner "eeeeeee" true none false, 'g', 20, 9⟩,
    ⟨.purge settings id fun _ => .refl _, 'i', 80, 3⟩]

def expired : List Cue := [⟨.expire settings, 'h', 80, 6⟩]

def erased : List Cue := [⟨.erase "v" ['a'] [fun row => row.createdBy = "p"], 'j', 80, 3⟩]

end Rehearsal

theorem leavesNoTrace_of_unpurged {volume : String} {start : Path} {s : Store}
    (h : ∀ row ∈ s.tables.versions.rows, row.2.purgedAt = none) : LeavesNoTrace volume start s := by
  rintro key blob _ _ _ ⟨place, row, hget, hkey, hplace⟩
  exact ⟨place, row, hget, hkey, h (place, row) (Table.mem_rows_iff.mpr hget), hplace⟩

/-- The copy keeps the object when its folder is erased. -/
theorem objects_accounted_copied : ∃ s, History Operation.Traceless (.fresh ["v"]) s ∧
      (s.objects.get? (.object "v" "aaaaa")).isSome = true ∧
        (s.tables.files.get? ("v", ['a'])).isNone = true ∧ Kept s := by
  have hplay : ∃ s s', rehearse (Rehearsal.copied ++ Rehearsal.expired) (.fresh ["v"]) = some s ∧
      (∀ row ∈ s.tables.versions.rows, row.2.purgedAt = none) ∧
        rehearse Rehearsal.erased s = some s' ∧
          (s'.objects.get? (.object "v" "aaaaa")).isSome = true ∧
            (s'.tables.files.get? ("v", ['a'])).isNone = true :=
    ⟨_, _, rfl, by decide +kernel, rfl, by decide +kernel, by decide +kernel⟩
  obtain ⟨s, s', hcopied, hunpurged, herased, hstored, hgone⟩ := hplay
  have hmet : ∀ cue ∈ Rehearsal.copied ++ Rehearsal.expired, ∀ s, Operation.Traceless s cue.op := by
    unfold Rehearsal.copied Rehearsal.expired
    simp only [cons_append, nil_append, forall_mem_cons]
    refine ⟨fun _ => trivial, fun _ => trivial, fun _ => trivial, fun _ => trivial,
      fun _ => trivial, fun cue hmem => ?_⟩
    cases hmem
  obtain ⟨s₂, hplay, hlast⟩ := bind_eq_some_iff.mp herased
  cases hlast
  have hhistory := (history_of_rehearse hcopied hmet).tail
    ⟨0, .erase "v" ['a'] _, leavesNoTrace_of_unpurged hunpurged,
      Process.leads_of_play (Cue.chances_quiet _) hplay⟩
  exact ⟨s', hhistory, hstored, hgone, (objects_accounted hhistory).1⟩

/-- An erasure passes by the object of a purged copy, and nothing names it then. -/
theorem erased_leaves_object : ∃ s, History (fun _ _ => True) (.fresh ["v"]) s ∧
      (s.objects.get? (.object "v" "aaaaa")).isSome = true ∧ ¬Kept s := by
  have hplay : ∃ s, rehearse (Rehearsal.copied ++ Rehearsal.purged ++
          Rehearsal.expired ++ Rehearsal.erased)
        (.fresh ["v"]) = some s ∧
      (s.objects.get? (.object "v" "aaaaa")).isSome = true ∧
        s.tables.names (.object "v" "aaaaa") = false ∧
          (s.tables.uploads.rows.all fun row => row.2.objectKey ≠ .object "v" "aaaaa") = true :=
    ⟨_, rfl, by decide +kernel, by decide +kernel, by decide +kernel⟩
  obtain ⟨s, hplay, hstored, hnamed, hheld⟩ := hplay
  refine ⟨s, history_of_rehearse hplay fun _ _ _ => trivial, hstored, ?_⟩
  intro hkept
  obtain ⟨blob, hget⟩ := isSome_iff_exists.mp hstored
  rcases hkept _ blob hget with hname | ⟨id, row, hrow, hkey, _⟩
  · rw [names_iff.mpr hname] at hnamed
    cases hnamed
  · have hne := all_eq_true.mp hheld (id, row) (Table.mem_rows_iff.mpr hrow)
    exact of_decide_eq_true hne hkey

end Substrate.Files
