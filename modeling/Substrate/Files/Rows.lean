import Substrate.Files.Cleaning

/-!
What statements do to the rows. A statement is read off its images, table by table;
from that follows what each transaction of the files domain leaves of versions and
uploads.
-/

namespace Substrate.Files

open Lib List

def Image.onVersion (place : String × Nat) (row : Option VersionRow) : Image → Option VersionRow
  | .version fileId number new => if place = (fileId, number) then new else row
  | _ => row

def Image.onFile (place : String × Path) (row : Option FileRow) : Image → Option FileRow
  | .file volume path new => if place = (volume, path) then new else row
  | _ => row

def Image.onUpload (id : String) (row : Option UploadRow) : Image → Option UploadRow
  | .upload other new => if id = other then new else row
  | _ => row

def Image.onQuota (volume : String) (row : Option Nat) : Image → Option Nat
  | .quota other new => if volume = other then new else row
  | _ => row

theorem putAll_cons (image : Image) (images : List Image) (t : Tables) :
    database.putAll (image :: images) t = database.putAll images (image.put t) := rfl

theorem insert_ok {c : Prop} [Decidable c] {image : Image} {images : List Image}
    (h : (if c then .error integrity else .ok [image] : Except Problem (List Image)) =
      .ok images) : images = [image] := by
  split at h
  · cases h
  · cases h
    rfl

theorem view_putAll {γ : Type} (view : Tables → γ) {on : γ → Image → γ}
    (hone : ∀ image t, view (image.put t) = on (view t) image) (images : List Image) (t : Tables) :
    view (database.putAll images t) = images.foldl on (view t) := by
  induction images generalizing t with
  | nil => rfl
  | cons image rest ih => rw [putAll_cons, ih, foldl_cons, hone]

theorem versions_putAll (images : List Image) (t : Tables) (place : String × Nat) :
    (database.putAll images t).versions.get? place =
      images.foldl (Image.onVersion place) (t.versions.get? place) := by
  refine view_putAll (fun t => t.versions.get? place) (fun image t => ?_) images t
  cases image with
  | version => exact Table.get?_set ..
  | _ => rfl

theorem files_putAll (images : List Image) (t : Tables) (place : String × Path) :
    (database.putAll images t).files.get? place =
      images.foldl (Image.onFile place) (t.files.get? place) := by
  refine view_putAll (fun t => t.files.get? place) (fun image t => ?_) images t
  cases image with
  | file => exact Table.get?_set ..
  | _ => rfl

theorem uploads_putAll (images : List Image) (t : Tables) (id : String) :
    (database.putAll images t).uploads.get? id =
      images.foldl (Image.onUpload id) (t.uploads.get? id) := by
  refine view_putAll (fun t => t.uploads.get? id) (fun image t => ?_) images t
  cases image with
  | upload => exact Table.get?_set ..
  | _ => rfl

theorem quotas_putAll (images : List Image) (t : Tables) (volume : String) :
    (database.putAll images t).quotas.get? volume =
      images.foldl (Image.onQuota volume) (t.quotas.get? volume) := by
  refine view_putAll (fun t => t.quotas.get? volume) (fun image t => ?_) images t
  cases image with
  | quota => exact Table.get?_set ..
  | _ => rfl

variable {α β : Type} {t : Tables} {key : ObjectKey} {volume : String} {w : Write}
    {images : List Image}

theorem foldl_eq_self {f : β → α → β} {b : β} {items : List α} (h : ∀ item ∈ items, f b item = b) :
    items.foldl f b = b := by
  induction items with
  | nil => rfl
  | cons item rest ih =>
    rw [foldl_cons, h item mem_cons_self]
    exact ih fun other hmem => h other (mem_cons_of_mem _ hmem)

theorem foldl_drop {κ : Type} [DecidableEq κ] {f : Option β → α → Option β} {key : α → κ} {k : κ}
    (hdrop : ∀ row item, f row item = if k = key item then none else row) (items : List α)
    (row : Option β) :
    items.foldl f row = if ∃ item ∈ items, k = key item then none else row := by
  induction items generalizing row with
  | nil => simp
  | cons item rest ih =>
    rw [foldl_cons, ih, hdrop]
    by_cases hk : k = key item
    · simp [hk]
    · simp [hk]

/-- A version that is not purged names the object. -/
def Named (t : Tables) (key : ObjectKey) : Prop :=
  ∃ place row, t.versions.get? place = some row ∧ row.objectKey = key ∧ row.purgedAt = none

def Mentioned (t : Tables) (key : ObjectKey) : Prop :=
  ∃ place row, t.versions.get? place = some row ∧ row.objectKey = key

theorem names_iff : t.names key = true ↔ Named t key := by
  unfold Tables.names Named
  rw [any_eq_true]
  constructor
  · rintro ⟨⟨place, row⟩, hmem, hrow⟩
    simp only [Bool.and_eq_true, decide_eq_true_eq, Option.isNone_iff_eq_none] at hrow
    exact ⟨place, row, Table.mem_rows_iff.mp hmem, hrow.1, hrow.2⟩
  · rintro ⟨place, row, hget, hkey, hpurged⟩
    refine ⟨(place, row), Table.mem_rows_iff.mpr hget, ?_⟩
    simp [hkey, hpurged]

theorem mentions_iff : t.mentions key = true ↔ Mentioned t key := by
  unfold Tables.mentions Mentioned
  rw [any_eq_true]
  constructor
  · rintro ⟨⟨place, row⟩, hmem, hrow⟩
    exact ⟨place, row, Table.mem_rows_iff.mp hmem, of_decide_eq_true hrow⟩
  · rintro ⟨place, row, hget, hkey⟩
    exact ⟨(place, row), Table.mem_rows_iff.mpr hget, decide_eq_true hkey⟩

/-- The statements of `commit_version`, `copy_prefix`, `restore` and the deletes. -/
def Write.Adds : Write → Prop
  | .touchQuota _ => True
  | .insertFile _ _ _ => True
  | .updateFile _ _ _ _ => True
  | .deletePrefix _ _ _ => True
  | .insertVersion _ _ _ => True
  | _ => False

/-- The statements of `commit_version`, `copy_prefix` and `restore` on a volume. -/
def Write.Puts (volume : String) : Write → Prop
  | .touchQuota owner => owner = volume
  | .insertFile owner _ _ => owner = volume
  | .updateFile owner _ _ _ => owner = volume
  | .insertVersion _ _ row => row.volume = volume
  | _ => False

def Write.Deletes (volume : String) : Write → Prop
  | .updateFile owner _ _ change => owner = volume ∧
      ∃ stamp, change = fun row => { row with deletedAt := some stamp }
  | .deletePrefix owner _ _ => owner = volume
  | _ => False

theorem Write.Puts.adds (h : w.Puts volume) : w.Adds := by
  cases w <;> trivial

theorem Write.Deletes.adds (h : w.Deletes volume) : w.Adds := by
  cases w <;> trivial

/-- Versions stay as they are, apart from new ones, and uploads stay. -/
structure Grows (t t' : Tables) : Prop where
  versions : ∀ place row, t.versions.get? place = some row → t'.versions.get? place = some row
  uploads : ∀ id, t'.uploads.get? id = t.uploads.get? id

theorem Grows.refl (t : Tables) : Grows t t := ⟨fun _ _ h => h, fun _ => rfl⟩

theorem Grows.trans {t₁ t₂ t₃ : Tables} (h₁ : Grows t₁ t₂) (h₂ : Grows t₂ t₃) : Grows t₁ t₃ where
  versions place row h := h₂.versions place row (h₁.versions place row h)
  uploads id := (h₂.uploads id).trans (h₁.uploads id)

theorem Grows.named {t' : Tables} (h : Grows t t') (hnamed : Named t key) : Named t' key := by
  obtain ⟨place, row, hget, hkey, hpurged⟩ := hnamed
  exact ⟨place, row, h.versions place row hget, hkey, hpurged⟩

theorem grows_of_files (h : ∀ image ∈ images, (∃ volume path row, image = .file volume path row) ∨
      ∃ volume maxBytes, image = .quota volume maxBytes) :
    Grows t (database.putAll images t) where
  versions place row hget := by
    rw [versions_putAll, hget]
    apply foldl_eq_self
    intro image hmem
    rcases h image hmem with ⟨volume, path, new, rfl⟩ | ⟨volume, maxBytes, rfl⟩
    · rfl
    · rfl
  uploads id := by
    rw [uploads_putAll]
    apply foldl_eq_self
    intro image hmem
    rcases h image hmem with ⟨volume, path, new, rfl⟩ | ⟨volume, maxBytes, rfl⟩
    · rfl
    · rfl

theorem grows_exec (hw : w.Adds) (hexec : database.exec w t = .ok images) :
    Grows t (database.putAll images t) := by
  cases w with
  | touchQuota volume =>
    cases hexec
    apply grows_of_files
    intro image hmem
    obtain ⟨maxBytes, _, rfl⟩ := mem_map.mp hmem
    exact .inr ⟨volume, some maxBytes, rfl⟩
  | insertFile volume path row =>
    obtain rfl := insert_ok hexec
    apply grows_of_files
    intro image hmem
    exact .inl ⟨volume, path, some row, mem_singleton.mp hmem⟩
  | updateFile volume path id change =>
    cases hexec
    apply grows_of_files
    intro image hmem
    obtain ⟨old, _, rfl⟩ := mem_map.mp hmem
    exact .inl ⟨volume, path, some (change old), rfl⟩
  | deletePrefix volume start stamp =>
    cases hexec
    apply grows_of_files
    intro image hmem
    obtain ⟨entry, _, rfl⟩ := mem_map.mp hmem
    exact .inl ⟨volume, entry.1, _, rfl⟩
  | insertVersion fileId number row =>
    simp only [database, Write.exec] at hexec
    split at hexec
    · cases hexec
    · next hfree =>
        cases hexec
        constructor
        · intro place old hget
          rw [versions_putAll, hget]
          have hne : place ≠ (fileId, number) := by
            rintro rfl
            rw [hget] at hfree
            exact hfree rfl
          simp [Image.onVersion, hne]
        · intro id
          rw [uploads_putAll]
          rfl
  | updateQuota volume maxBytes | insertQuota volume maxBytes | deleteQuota volume
  | purge fileId number stamp | forgetFiles | forgetVersions | dropFile volume path id
  | dropVersions fileId | insertUpload id row | moveUpload id expected state | dropUpload id
  | dropUploads chosen | dropVolume volume => exact hw.elim

theorem grows_run {t : Transaction α} (h : t.Writes Write.Adds) {tables tables' : Tables} {a : α}
    (hrun : database.run t tables = .ok (a, tables')) : Grows tables tables' :=
  database.run_writes Grows.refl (fun _ _ _ => Grows.trans)
    (fun _ hw _ _ hexec => grows_exec hw hexec) h hrun

end Substrate.Files
