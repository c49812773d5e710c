import Substrate.Files.Numbers

/-!
Where files are put. A statement puts a file at the path it names or leaves it where it is,
so the paths of a transaction are those that were there and those it inserts. Only a commit, a
new upload and a copy insert any.
-/

namespace Substrate.Files

open Lib List Option

/-- All files are at paths of a kind, and so are the targets of uploads. -/
structure Placed (P : Path → Prop) (t : Tables) : Prop where
  files : ∀ volume path row, t.files.get? (volume, path) = some row → P path
  uploads : ∀ id row volume path, t.uploads.get? id = some row →
    row.target = some (volume, path) → P path

def Write.Plants (P : Path → Prop) : Write → Prop
  | .insertFile _ path _ => P path
  | .insertUpload _ row => ∀ volume path, row.target = some (volume, path) → P path
  | _ => True

def Image.Plants (P : Path → Prop) : Image → Prop
  | .file _ path row => row ≠ none → P path
  | .upload _ row => ∀ upload, row = some upload → ∀ volume path,
      upload.target = some (volume, path) → P path
  | _ => True

section

variable {P : Path → Prop} {t t' : Tables}

theorem Placed.put (h : Placed P t) {image : Image} (himage : image.Plants P) :
    Placed P (image.put t) := by
  cases image with
  | version fileId number row | quota volume maxBytes => exact ⟨h.files, h.uploads⟩
  | file volume path row =>
    refine ⟨fun volume' path' row' hget => ?_, h.uploads⟩
    simp only [Image.put, Table.get?_set] at hget
    split at hget
    · next heq =>
        cases heq
        exact himage (by simp [hget])
    · exact h.files volume' path' row' hget
  | upload id row =>
    refine ⟨h.files, fun id' row' volume path hget htarget => ?_⟩
    simp only [Image.put, Table.get?_set] at hget
    split at hget
    · exact himage row' hget volume path htarget
    · exact h.uploads id' row' volume path hget htarget

variable {images : List Image} {volume : String} {w : Write} {α : Type}
    {path source destination : Path} {overwrite : Bool}

theorem Placed.putAll (h : Placed P t) (himages : ∀ image ∈ images, image.Plants P) :
    Placed P (database.putAll images t) := by
  induction images generalizing t with
  | nil => exact h
  | cons image rest ih =>
    rw [putAll_cons]
    exact ih (h.put (himages image mem_cons_self)) fun other hmem =>
      himages other (mem_cons_of_mem _ hmem)

theorem Placed.liveUnder (h : Placed P t) {start : Path} {entry : Path × FileRow}
    (hentry : entry ∈ t.liveUnder volume start) : P entry.1 := by
  obtain ⟨⟨place, row⟩, hrow, rfl⟩ := mem_map.mp hentry
  exact h.files place.1 place.2 row (Table.mem_rows_iff.mp (mem_filter.mp hrow).1)

theorem Placed.exec (h : Placed P t) (hw : w.Plants P) (hexec : database.exec w t = .ok images) :
    ∀ image ∈ images, image.Plants P := by
  intro image hmem
  cases w with
  | insertFile volume path row =>
    obtain rfl := insert_ok hexec
    rw [mem_singleton.mp hmem]
    exact fun _ => hw
  | updateFile volume path id change =>
    cases hexec
    obtain ⟨old, hold, rfl⟩ := mem_map.mp hmem
    have hget := filter_eq_some_iff.mp (mem_toList.mp hold)
    exact fun _ => h.files volume path old hget.1
  | deletePrefix volume start stamp =>
    cases hexec
    obtain ⟨entry, hentry, rfl⟩ := mem_map.mp hmem
    exact fun _ => h.liveUnder hentry
  | insertUpload id row =>
    obtain rfl := insert_ok hexec
    rw [mem_singleton.mp hmem]
    rintro upload heq
    cases heq
    exact hw
  | moveUpload id expected state =>
    cases hexec
    obtain ⟨row, hrow, rfl⟩ := mem_map.mp hmem
    have hget := filter_eq_some_iff.mp (mem_toList.mp hrow)
    rintro upload heq volume path htarget
    cases heq
    exact h.uploads id row volume path hget.1 htarget
  | insertVersion fileId number row | insertQuota volume maxBytes =>
    obtain rfl := insert_ok hexec
    rw [mem_singleton.mp hmem]
    trivial
  | dropVolume volume =>
    cases hexec
    rcases mem_append.mp hmem with hmem | hmem
    · rcases mem_append.mp hmem with hmem | hmem
      · obtain ⟨row, _, rfl⟩ := mem_map.mp hmem
        trivial
      · obtain ⟨row, _, rfl⟩ := mem_map.mp hmem
        exact fun hne => absurd rfl hne
    · rw [mem_singleton.mp hmem]
      trivial
  | forgetFiles | dropFile volume path id =>
    cases hexec
    obtain ⟨row, _, rfl⟩ := mem_map.mp hmem
    exact fun hne => absurd rfl hne
  | dropUpload id | dropUploads chosen =>
    cases hexec
    obtain ⟨row, _, rfl⟩ := mem_map.mp hmem
    nofun
  | touchQuota volume | updateQuota volume maxBytes | deleteQuota volume
  | purge fileId number stamp | forgetVersions | dropVersions fileId =>
    cases hexec
    obtain ⟨row, _, rfl⟩ := mem_map.mp hmem
    trivial

theorem Placed.run {x : Transaction α} {a : α} (hx : x.Writes (Write.Plants P))
    (hrun : database.run x t = .ok (a, t')) (h : Placed P t) : Placed P t' := by
  have hall : Placed P t → Placed P t' :=
    database.run_writes (R := fun t t' => Placed P t → Placed P t') (fun _ h => h)
      (fun _ _ _ h₁ h₂ h => h₂ (h₁ h))
      (fun _ hw _ _ hexec h => h.putAll (h.exec hw hexec)) hx hrun
  exact hall h

theorem Placed.after {x : Transaction α} (hx : x.Writes (Write.Plants P)) (h : Placed P t) :
    Placed P (Files.after x t) := by
  unfold Files.after
  cases hrun : database.run x t with
  | error e => exact h
  | ok r => exact h.run hx hrun

theorem Write.Deletes.plants (h : w.Deletes volume) : w.Plants P := by
  cases w <;> trivial

theorem plants_update {f : Nat → Transaction α} (hw : w.Plants P)
    (hf : ∀ n, (f n).Writes (Write.Plants P)) :
    (update w >>= f).Writes (Write.Plants P) := ⟨hw, hf⟩

theorem plants_check (r : Except Problem Unit) : (check r).Writes (Write.Plants P) := by
  cases r with
  | ok _ | error problem => trivial

theorem plants_guardQuota (volume : String) : (guardQuota volume).Writes (Write.Plants P) :=
  plants_update trivial fun _ _ => trivial

theorem plants_guardBytes (volume : String) (quota : Option Nat) (adding replacing : Nat) :
    (guardBytes volume quota adding replacing).Writes (Write.Plants P) := by
  unfold guardBytes
  split
  · exact Tx.Writes.bind (fun _ => trivial) fun used => plants_check _
  · trivial

theorem plants_putVersion {existing : Option FileRow} (hpath : existing = none → P path)
    (key : ObjectKey) (content : Content) (by_ id : String) (stamp : Nat) :
    (putVersion volume path existing key content by_ id stamp).Writes (Write.Plants P) := by
  unfold putVersion
  apply Tx.Writes.bind
  · cases existing with
    | none => exact plants_update (hpath rfl) fun _ => trivial
    | some row => exact plants_update trivial fun _ => trivial
  · intro head
    exact plants_update trivial fun _ => trivial

theorem plants_commitVersion (hpath : P path) (key : ObjectKey) (content : Content) (by_ : String)
    (ifMatch : Option Nat) (ifNoneMatch : Bool) (id : String) (stamp : Nat) :
    (commitVersion volume path key content by_ ifMatch ifNoneMatch id stamp).Writes
      (Write.Plants P) := by
  apply (plants_guardQuota volume).bind
  intro quota tables
  apply (plants_check _).bind
  intro _
  apply (plants_guardBytes _ _ _ _).bind
  intro _
  exact plants_putVersion (fun _ => hpath) key content by_ id stamp

theorem plants_restore (volume : String) (path : Path) (version : Option Nat) (by_ : String)
    (ifMatch : Option Nat) (id : String) (stamp : Nat) :
    (restore volume path version by_ ifMatch id stamp).Writes (Write.Plants P) := by
  apply (plants_guardQuota volume).bind
  intro quota tables
  dsimp only [Tx.bind]
  split
  · trivial
  · split
    · trivial
    · split
      · split
        · trivial
        · exact (plants_guardBytes _ _ _ _).bind fun _ => plants_update trivial fun _ => trivial
      · intro tables'
        dsimp only [Tx.bind]
        split
        · trivial
        · split
          · trivial
          · exact (plants_guardBytes _ _ _ _).bind fun _ =>
              plants_putVersion (fun h => by cases h) _ _ _ _ _

theorem plants_unnamed (query : Tables → ObjectKey → Bool) :
    ∀ keys, (unnamed query keys).Writes (Write.Plants P)
  | [] => trivial
  | _ :: rest => fun _ => (plants_unnamed query rest).bind fun _ => trivial

theorem plants_markPurged (stamp : Nat) : ∀ rows, (markPurged stamp rows).Writes (Write.Plants P)
  | [] => trivial
  | _ :: rest => plants_update trivial fun _ => plants_markPurged stamp rest

theorem plants_purgeVersions (cutoff limit : Nat)
    (order : List ((String × Nat) × VersionRow) → List ((String × Nat) × VersionRow))
    (stamp : Nat) : (purgeVersions cutoff limit order stamp).Writes (Write.Plants P) := by
  intro tables
  apply (plants_markPurged stamp _).bind
  intro _
  apply (plants_unnamed _ _).bind
  intro garbage
  exact plants_update trivial fun _ => plants_update trivial fun _ => trivial

theorem plants_dropFiles (volume : String) : ∀ rows, (dropFiles volume rows).Writes (Write.Plants P)
  | [] => trivial
  | _ :: rest => fun _ => plants_update trivial fun _ => plants_update trivial fun _ =>
    (plants_dropFiles volume rest).bind fun _ => trivial

theorem plants_erasePrefix (volume : String) (start : Path) :
    (erasePrefix volume start).Writes (Write.Plants P) := by
  intro tables
  apply (plants_dropFiles volume _).bind
  intro keys
  exact (plants_unnamed _ _).bind fun _ => trivial

theorem plants_writeCopies (volume by_ : String) (newId : Path → String) (stamp : Nat) :
    ∀ plan : List Copy, (∀ copy ∈ plan, copy.existing = none → P copy.target) →
      (writeCopies volume by_ newId stamp plan).Writes (Write.Plants P)
  | [], _ => trivial
  | copy :: rest, hplan => by
      intro tables
      dsimp only [Tx.bind]
      split
      · trivial
      · apply (plants_putVersion (hplan copy mem_cons_self) _ _ _ _ _).bind
        intro _
        exact plants_writeCopies volume by_ newId stamp rest fun other hmem =>
          hplan other (mem_cons_of_mem _ hmem)

/-- Where the copies of a folder come to be is of the kind, unless they are skipped. -/
def Lands (P : Path → Prop) (volume : String) (source destination : Path) (overwrite : Bool)
    (t : Tables) : Prop :=
  ∀ entry ∈ t.liveUnder volume source, P (copyTarget source destination entry.1) ∨
    (t.files.get? (volume, copyTarget source destination entry.1)).any FileRow.live = true ∧
      overwrite = false

theorem Placed.copy (h : Placed P t) {by_ : String}
    {order : List (Path × FileRow) → List (Path × FileRow)}
    (horder : ∀ rows, (order rows).Perm rows) {newId : Path → String} {stamp : Nat}
    (hlands : Lands P volume source destination overwrite t) :
    Placed P (Files.after (copyPrefix volume source destination by_ overwrite order newId stamp)
      t) := by
  unfold Files.after
  cases hrun : database.run
      (copyPrefix volume source destination by_ overwrite order newId stamp) t with
  | error e => exact h
  | ok r =>
    obtain ⟨result, t'⟩ := r
    obtain ⟨quota, t₁, plan, a, hguard, hcopies, -, hplan⟩ := copyPrefix_run horder hrun
    have hfiles := guardQuota_ok hguard
    apply (h.run (plants_guardQuota volume) hguard).run (plants_writeCopies _ _ _ _ plan _) hcopies
    intro copy hmem _
    obtain ⟨hexisting, hkept, path, hlive, htarget⟩ := hplan copy hmem
    obtain ⟨⟨place, row⟩, hrow, heq⟩ := mem_map.mp hlive
    cases heq
    obtain ⟨hrow, hplace⟩ := mem_filter.mp hrow
    have hget : t.files.get? place = some copy.row := by
      rw [← hfiles]
      exact Table.mem_rows_iff.mp hrow
    have hbefore : (place.2, copy.row) ∈ t.liveUnder volume source :=
      mem_map.mpr ⟨(place, _), mem_filter.mpr ⟨Table.mem_rows_iff.mpr hget, hplace⟩, rfl⟩
    rw [htarget]
    rcases hlands _ hbefore with hpath | hskipped
    · exact hpath
    · refine absurd ?_ hkept
      rw [hexisting, htarget, hfiles]
      exact hskipped

end

end Substrate.Files
