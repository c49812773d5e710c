import Substrate.Files.Numbers

/-!
What the tables hold together. A live file has the row of its current version, and that
row is not purged. Every operation keeps this, except for a restore that brings back a
file whose current version is purged.
-/

namespace Substrate.Files

open Lib List

/-- Every file has the row of its current version, not purged while the file is live, and
its id for itself. The objects of all versions are `seen`, and those of versions that
are not purged are `good` for what the version says of them. -/
structure Coherent (seen : ObjectKey → Prop) (good : ObjectKey → Content → Prop) (t : Tables) :
    Prop where
  current : ∀ volume path row, t.files.get? (volume, path) = some row →
    ∃ version, t.versions.get? (row.id, row.version) = some version ∧
      version.volume = volume ∧ version.content = row.content ∧
        (row.live = true → version.purgedAt = none)
  distinct : ∀ place place' row row', t.files.get? place = some row →
    t.files.get? place' = some row' → row.id = row'.id → place = place'
  seen : ∀ place version, t.versions.get? place = some version → seen version.objectKey
  good : ∀ place version, t.versions.get? place = some version → version.purgedAt = none →
    good version.objectKey version.content

def Unused (t : Tables) (id : String) : Prop :=
  ∀ place row, t.files.get? place = some row → row.id ≠ id

section

variable {seen : ObjectKey → Prop} {good : ObjectKey → Content → Prop} {t t' : Tables}

theorem Coherent.of_same (h : Coherent seen good t)
    (hfiles : ∀ place, t'.files.get? place = t.files.get? place)
    (hversions : ∀ place, t'.versions.get? place = t.versions.get? place) :
    Coherent seen good t' where
  current volume path row hget := by
    rw [hversions]
    exact h.current volume path row (hfiles _ ▸ hget)
  distinct place place' row row' hget hget' :=
    h.distinct place place' row row' (hfiles _ ▸ hget) (hfiles _ ▸ hget')
  seen place version hget := h.seen place version (hversions _ ▸ hget)
  good place version hget := h.good place version (hversions _ ▸ hget)

theorem Coherent.mono {seen' : ObjectKey → Prop} {good' : ObjectKey → Content → Prop}
    (h : Coherent seen good t) (hseen : ∀ key, seen key → seen' key)
    (hgood : ∀ key content, good key content → Named t key → good' key content) :
    Coherent seen' good' t where
  current := h.current
  distinct := h.distinct
  seen place version hget := hseen _ (h.seen place version hget)
  good place version hget hpurged :=
    hgood _ _ (h.good place version hget hpurged) ⟨place, version, hget, rfl, hpurged⟩

variable {place : String × Path} {row head : FileRow} {images : List Image}
    {volume by_ id : String} {path source destination : Path} {existing : Option FileRow}
    {key : ObjectKey} {content : Content} {stamp n : Nat} {quota ifMatch : Option Nat}
    {overwrite : Bool} {newId : Path → String}

theorem Coherent.fileById (h : Coherent seen good t) (hget : t.files.get? place = some row) :
    t.fileById row.id = some row := by
  unfold Tables.fileById
  cases hfind : t.files.rows.find? fun other => other.2.id = row.id with
  | none =>
    have hnot := List.find?_eq_none.mp hfind (place, row) (Table.mem_rows_iff.mpr hget)
    exact absurd (decide_eq_true rfl) hnot
  | some other =>
    obtain ⟨place', row'⟩ := other
    have hfound := List.find?_some hfind
    have hid : row'.id = row.id := of_decide_eq_true hfound
    have hget' := Table.mem_rows_iff.mp (mem_of_find?_eq_some hfind)
    have hplace := h.distinct place' place row' row hget' hget hid
    rw [hplace, hget] at hget'
    cases hget'
    rfl

theorem versions_of_files (h : ∀ image ∈ images, ∃ volume path row, image = .file volume path row)
    (place : String × Nat) :
    (database.putAll images t).versions.get? place = t.versions.get? place := by
  rw [versions_putAll]
  apply foldl_eq_self
  intro image hmem
  obtain ⟨volume, path, row, rfl⟩ := h image hmem
  rfl

theorem files_of_versions
    (h : ∀ image ∈ images, ∃ fileId number row, image = .version fileId number row)
    (place : String × Path) :
    (database.putAll images t).files.get? place = t.files.get? place := by
  rw [files_putAll]
  apply foldl_eq_self
  intro image hmem
  obtain ⟨fileId, number, row, rfl⟩ := h image hmem
  rfl

theorem Coherent.uploads (h : Coherent seen good t)
    (himages : ∀ image ∈ images, (∃ id row, image = .upload id row) ∨
      ∃ volume maxBytes, image = .quota volume maxBytes) :
    Coherent seen good (database.putAll images t) := by
  apply h.of_same
  · intro place
    rw [files_putAll]
    apply foldl_eq_self
    intro image hmem
    rcases himages image hmem with ⟨id, row, rfl⟩ | ⟨volume, maxBytes, rfl⟩
    · rfl
    · rfl
  · intro place
    rw [versions_putAll]
    apply foldl_eq_self
    intro image hmem
    rcases himages image hmem with ⟨id, row, rfl⟩ | ⟨volume, maxBytes, rfl⟩
    · rfl
    · rfl

theorem Coherent.faded (h : Coherent seen good t) (hfiles : ∀ place, t'.files.get? place = none ∨
      Faded (t.files.get? place) (t'.files.get? place))
    (hversions : ∀ place, t'.versions.get? place = t.versions.get? place) :
    Coherent seen good t' := by
  have hold : ∀ place row, t'.files.get? place = some row →
      ∃ old, t.files.get? place = some old ∧ row.id = old.id ∧ row.version = old.version ∧
        row.content = old.content ∧ (row.live = true → old.live = true) := by
    intro place row hget
    rcases hfiles place with hnone | hsame | ⟨old, stamp, hold, hdeleted⟩
    · rw [hnone] at hget
      cases hget
    · exact ⟨row, by rw [← hsame, hget], rfl, rfl, rfl, fun hlive => hlive⟩
    · rw [hdeleted] at hget
      cases hget
      exact ⟨old, hold, rfl, rfl, rfl, nofun⟩
  constructor
  · intro volume path row hget
    obtain ⟨old, hget', hid, hnumber, hcontent, hlive⟩ := hold _ row hget
    obtain ⟨version, hversion, hvolume, hsame, hpurged⟩ := h.current volume path old hget'
    rw [hid, hnumber, hcontent, hversions]
    exact ⟨version, hversion, hvolume, hsame, fun hrow => hpurged (hlive hrow)⟩
  · intro place place' row row' hget hget' hsame
    obtain ⟨old, hold₁, hid, _⟩ := hold place row hget
    obtain ⟨old', hold₂, hid', _⟩ := hold place' row' hget'
    exact h.distinct place place' old old' hold₁ hold₂ (by rw [← hid, hsame, hid'])
  · exact fun place version hget => h.seen place version (hversions _ ▸ hget)
  · exact fun place version hget => h.good place version (hversions _ ▸ hget)

theorem putVersion_versions
    (h : database.run (putVersion volume path existing key content by_ id stamp) t =
      .ok (head, t')) :
    t.versions.get? (head.id, head.version) = none ∧ ∀ place, t'.versions.get? place =
      if place = (head.id, head.version) then some ⟨volume, key, content, by_, stamp, none⟩
      else t.versions.get? place := by
  unfold putVersion at h
  obtain ⟨head', t₁, hhead, h⟩ := (Engine.run_bind_ok _).mp h
  obtain ⟨n, t₂, hinsert, h⟩ := (Engine.run_bind_ok _).mp h
  cases h
  have hsame : ∀ place, t₁.versions.get? place = t.versions.get? place := by
    intro place
    cases existing with
    | none =>
      obtain ⟨n, t₃, hfile, hanswer⟩ := (Engine.run_bind_ok _).mp hhead
      cases hanswer
      obtain ⟨images, hexec, _, rfl⟩ := run_update_ok hfile
      simp only [Write.exec] at hexec
      split at hexec
      · cases hexec
      · cases hexec
        rw [versions_putAll]
        rfl
    | some old =>
      obtain ⟨n, t₃, hfile, hanswer⟩ := (Engine.run_bind_ok _).mp hhead
      cases hanswer
      obtain ⟨images, hexec, _, rfl⟩ := run_update_ok hfile
      cases hexec
      apply versions_of_files
      intro image hmem
      obtain ⟨row, _, rfl⟩ := mem_map.mp hmem
      exact ⟨_, _, _, rfl⟩
  obtain ⟨images, hexec, _, rfl⟩ := run_update_ok hinsert
  simp only [Write.exec] at hexec
  split at hexec
  · cases hexec
  · next hfree =>
      cases hexec
      refine ⟨?_, fun place => ?_⟩
      · rw [← hsame]
        exact Option.not_isSome_iff_eq_none.mp hfree
      · rw [versions_putAll, hsame]
        rfl

theorem Coherent.put (h : Coherent seen good t)
    (hexisting : existing = t.files.get? (volume, path)) (hunused : existing = none → Unused t id)
    (hseen : seen key) (hgood : good key content)
    (hrun : database.run (putVersion volume path existing key content by_ id stamp) t =
      .ok (head, t')) : Coherent seen good t' := by
  obtain ⟨hput, hfiles⟩ := putVersion_files hexisting hrun
  obtain ⟨hfree, hversions⟩ := putVersion_versions hrun
  have hother : ∀ place row, t.files.get? place = some row → row.id = head.id →
      place = (volume, path) := by
    intro place row hget hid
    cases hold : existing with
    | none =>
      rw [(hput.new hold).1] at hid
      exact absurd hid (hunused hold place row hget)
    | some old =>
      rw [(hput.next old hold).1] at hid
      exact h.distinct place (volume, path) row old hget (by rw [← hexisting, hold]) hid
  constructor
  · intro volume' path' row hget
    rw [hfiles] at hget
    split at hget
    · next hplace =>
        cases hget
        cases hplace
        rw [hversions, if_pos rfl]
        exact ⟨_, rfl, rfl, hput.content.symm, fun _ => rfl⟩
    · obtain ⟨version, hversion, hrest⟩ := h.current volume' path' row hget
      have hne : (row.id, row.version) ≠ (head.id, head.version) := by
        intro heq
        rw [heq, hfree] at hversion
        cases hversion
      rw [hversions, if_neg hne]
      exact ⟨version, hversion, hrest⟩
  · intro place place' row row' hget hget' hid
    rw [hfiles] at hget hget'
    split at hget
    · next hplace =>
        cases hget
        split at hget'
        · next hplace' => rw [hplace, hplace']
        · rw [hplace, hother place' row' hget' hid.symm]
    · split at hget'
      · next hplace' =>
          cases hget'
          rw [hplace', hother place row hget hid]
      · exact h.distinct place place' row row' hget hget' hid
  · intro place version hget
    rw [hversions] at hget
    split at hget
    · cases hget
      exact hseen
    · exact h.seen place version hget
  · intro place version hget hpurged
    rw [hversions] at hget
    split at hget
    · cases hget
      exact hgood
    · exact h.good place version hget hpurged

theorem guardQuota_versions (h : database.run (guardQuota volume) t = .ok (quota, t'))
    (place : String × Nat) : t'.versions.get? place = t.versions.get? place := by
  obtain ⟨n, t₁, htouch, h⟩ := (Engine.run_bind_ok _).mp h
  cases h
  obtain ⟨images, hexec, _, rfl⟩ := run_update_ok htouch
  cases hexec
  rw [versions_putAll]
  apply foldl_eq_self
  intro image hmem
  obtain ⟨_, _, rfl⟩ := mem_map.mp hmem
  rfl

theorem Coherent.guardQuota (h : Coherent seen good t)
    (hrun : database.run (guardQuota volume) t = .ok (quota, t')) : Coherent seen good t' :=
  h.of_same (guardQuota_ok hrun) (guardQuota_versions hrun)

theorem Coherent.commit (h : Coherent seen good t) {ifNoneMatch : Bool} (hunused : Unused t id)
    (hseen : seen key) (hgood : good key content)
    (hrun : database.run
      (commitVersion volume path key content by_ ifMatch ifNoneMatch id stamp) t =
        .ok (head, t')) : Coherent seen good t' := by
  obtain ⟨quota, t₁, hguard, -, hput⟩ := commitVersion_run hrun
  apply (h.guardQuota hguard).put rfl _ hseen hgood hput
  intro _ place row hget
  exact hunused place row (guardQuota_ok hguard place ▸ hget)

/-- A restore of this version, if it brings a deleted file back as it was, finds its
current version. -/
def Restorable (t : Tables) (volume : String) (path : Path) (version : Option Nat) : Prop :=
  ∀ row, t.files.get? (volume, path) = some row → row.live = false →
    version = none ∨ version = some row.version →
      ∀ current, t.versions.get? (row.id, row.version) = some current → current.purgedAt = none

theorem updateFile_files {change : FileRow → FileRow}
    (hget : t.files.get? (volume, path) = some row) (hid : row.id = id)
    (hrun : database.run (update (.updateFile volume path id change)) t = .ok (n, t')) :
    (∀ place, t'.files.get? place =
      if place = (volume, path) then some (change row) else t.files.get? place) ∧
      ∀ place, t'.versions.get? place = t.versions.get? place := by
  obtain ⟨images, hexec, _, rfl⟩ := run_update_ok hrun
  simp only [Write.exec, hget, Option.filter, hid, decide_true, if_true, Option.toList_some,
    map_cons, map_nil] at hexec
  cases hexec
  constructor
  · intro place
    rw [files_putAll]
    rfl
  · intro place
    rw [versions_putAll]
    rfl

theorem Coherent.restore (h : Coherent seen good t) {version : Option Nat}
    (hrestorable : Restorable t volume path version)
    (hrun : database.run (restore volume path version by_ ifMatch id stamp) t = .ok (head, t')) :
    Coherent seen good t' := by
  unfold Files.restore at hrun
  obtain ⟨quota, t₁, hguard, hrun⟩ := (Engine.run_bind_ok _).mp hrun
  have hcoherent := h.guardQuota hguard
  have hfiles := guardQuota_ok hguard
  have hversions := guardQuota_versions hguard
  obtain ⟨existing, t₂, hselect, hrun⟩ := (Engine.run_bind_ok _).mp hrun
  obtain ⟨hexisting, rfl⟩ := selectFile_ok hselect
  cases existing with
  | none => cases hrun
  | some row =>
    simp only at hrun
    split at hrun
    · cases hrun
    · split at hrun
      · next hversion =>
          split at hrun
          · cases hrun
            exact hcoherent
          · next hlive =>
              obtain ⟨_, t₃, hbytes, hrun⟩ := (Engine.run_bind_ok _).mp hrun
              rw [guardBytes_ok hbytes] at hrun
              obtain ⟨n, t₄, hupdate, hrun⟩ := (Engine.run_bind_ok _).mp hrun
              cases hrun
              obtain ⟨hfiles', hversions'⟩ := updateFile_files hexisting.symm rfl hupdate
              have hdeleted : row.live = false := by simpa using hlive
              have hpurged := hrestorable row (by rw [← hfiles, ← hexisting]) hdeleted hversion
              constructor
              · intro volume' path' row' hget
                rw [hfiles'] at hget
                rw [hversions']
                split at hget
                · next hplace =>
                    cases hget
                    cases hplace
                    obtain ⟨current, hcurrent, hvolume, hcontent, _⟩ :=
                      hcoherent.current _ _ _ hexisting.symm
                    exact ⟨current, hcurrent, hvolume, hcontent,
                      fun _ => hpurged current (hversions _ ▸ hcurrent)⟩
                · exact hcoherent.current volume' path' row' hget
              · intro place place' row₁ row₂ hget hget' hid
                rw [hfiles'] at hget hget'
                have hrow : ∀ place row', (if place = (volume, path)
                      then some { row with deletedAt := none, updatedAt := stamp }
                      else t₂.files.get? place) = some row' →
                    ∃ old, t₂.files.get? place = some old ∧ old.id = row'.id := by
                  intro place row' hget
                  split at hget
                  · next hplace =>
                      cases hget
                      exact ⟨row, by rw [hplace, ← hexisting], rfl⟩
                  · exact ⟨row', hget, rfl⟩
                obtain ⟨old₁, hold₁, hid₁⟩ := hrow place row₁ hget
                obtain ⟨old₂, hold₂, hid₂⟩ := hrow place' row₂ hget'
                exact hcoherent.distinct place place' old₁ old₂ hold₁ hold₂
                  (by rw [hid₁, hid, hid₂])
              · exact fun place other hget => hcoherent.seen place other (hversions' _ ▸ hget)
              · exact fun place other hget => hcoherent.good place other (hversions' _ ▸ hget)
      · obtain ⟨old, t₃, hold, hrun⟩ := (Engine.run_bind_ok _).mp hrun
        cases hold
        split at hrun
        · cases hrun
        · next old hold =>
            split at hrun
            · cases hrun
            · next hpurged =>
                obtain ⟨_, t₄, hbytes, hrun⟩ := (Engine.run_bind_ok _).mp hrun
                rw [guardBytes_ok hbytes] at hrun
                have hkept : old.purgedAt = none := Option.not_isSome_iff_eq_none.mp hpurged
                exact hcoherent.put hexisting (fun h => by cases h)
                  (hcoherent.seen _ old hold) (hcoherent.good _ old hold hkept) hrun

/-- A version that is not purged has the contents of the copy. -/
def Copy.Sourced (t : Tables) (copy : Copy) : Prop :=
  ∃ version, t.versions.get? (copy.row.id, copy.row.version) = some version ∧
    version.purgedAt = none ∧ version.content = copy.row.content

theorem Coherent.writeCopies (hinjective : Function.Injective newId) :
    ∀ {plan : List Copy} {t t' : Tables} {a : Unit}, Coherent seen good t →
      database.run (writeCopies volume by_ newId stamp plan) t = .ok (a, t') →
      (∀ copy ∈ plan, copy.existing = t.files.get? (volume, copy.target) ∧
        Unused t (newId copy.target) ∧ copy.Sourced t) →
      (plan.map Copy.target).Nodup → Coherent seen good t' 
  | [], t, t', a, h, hrun, _, _ => by
      cases hrun
      exact h
  | copy :: rest, t, t', a, h, hrun, hplan, hnodup => by
      unfold Files.writeCopies at hrun
      obtain ⟨version, t₁, hversion, hrun⟩ := (Engine.run_bind_ok _).mp hrun
      cases hversion
      obtain ⟨hexisting, hunused, version, hversion, hpurged, hcontent⟩ := hplan copy mem_cons_self
      simp only [hversion] at hrun
      obtain ⟨head, t₂, hput, hrun⟩ := (Engine.run_bind_ok _).mp hrun
      have hcoherent := h.put hexisting (fun _ => hunused) (h.seen _ version hversion)
        (hcontent ▸ h.good _ version hversion hpurged) hput
      obtain ⟨hhead, hfiles⟩ := putVersion_files hexisting hput
      obtain ⟨hfree, hversions⟩ := putVersion_versions hput
      rw [map_cons, nodup_cons] at hnodup
      apply Coherent.writeCopies hinjective hcoherent hrun _ hnodup.2
      intro other hmem
      obtain ⟨hexisting', hunused', version', hversion', hsourced⟩ :=
        hplan other (mem_cons_of_mem _ hmem)
      have htarget : other.target ≠ copy.target := by
        intro heq
        exact hnodup.1 (mem_map.mpr ⟨other, hmem, heq⟩)
      refine ⟨?_, ?_, version', ?_, hsourced⟩
      · have hne : ¬(volume, other.target) = (volume, copy.target) :=
          fun heq => htarget (Prod.mk.inj heq).2
        rw [hfiles, if_neg hne]
        exact hexisting'
      · intro place row hget hid
        rw [hfiles] at hget
        split at hget
        · cases hget
          cases hold : copy.existing with
          | none =>
            rw [(hhead.new hold).1] at hid
            exact htarget (hinjective hid).symm
          | some old =>
            rw [(hhead.next old hold).1] at hid
            exact hunused' _ old (by rw [← hexisting, hold]) hid
        · exact hunused' place row hget hid
      · have hne : (other.row.id, other.row.version) ≠ (head.id, head.version) := by
          intro heq
          rw [heq, hfree] at hversion'
          cases hversion'
        rw [hversions, if_neg hne]
        exact hversion'

theorem Coherent.copy (h : Coherent seen good t)
    {order : List (Path × FileRow) → List (Path × FileRow)}
    (horder : ∀ rows, (order rows).Perm rows) (hinjective : Function.Injective newId)
    (hunused : ∀ path, Unused t (newId path)) {result : CopyResult}
    (hrun : database.run (copyPrefix volume source destination by_ overwrite order newId stamp) t =
        .ok (result, t')) : Coherent seen good t' := by
  obtain ⟨quota, t₁, plan, a, hguard, hcopies, hnodup, hplan⟩ := copyPrefix_run horder hrun
  have hcoherent := h.guardQuota hguard
  apply hcoherent.writeCopies hinjective hcopies _ hnodup
  intro copy hmem
  obtain ⟨hexisting, -, path, hlive, -⟩ := hplan copy hmem
  refine ⟨hexisting, ?_, ?_⟩
  · exact fun place row hget => hunused copy.target place row (guardQuota_ok hguard place ▸ hget)
  · obtain ⟨⟨place, row⟩, hrow, heq⟩ := mem_map.mp hlive
    cases heq
    obtain ⟨hrow, hplace⟩ := mem_filter.mp hrow
    obtain ⟨hvolume, _, hlive⟩ := of_decide_eq_true hplace
    have hget : t₁.files.get? (volume, place.2) = some copy.row := by
      rw [← hvolume]
      exact Table.mem_rows_iff.mp hrow
    obtain ⟨version, hversion, _, hcontent, hpurged⟩ := hcoherent.current _ _ _ hget
    exact ⟨version, hversion, hpurged hlive, hcontent⟩

theorem Coherent.deletes_exec {w : Write} (hw : w.Deletes volume) (h : Coherent seen good t)
    (hexec : database.exec w t = .ok images) : Coherent seen good (database.putAll images t) := by
  apply h.faded
  · intro place
    right
    have hwithin : Within .deletes volume place.1 t (database.putAll images t) :=
      Within.deletes hw hexec
    have hfile := hwithin.files place.2
    unfold Request.Kind.OnFile at hfile
    split at hfile
    · exact hfile
    · exact .inl hfile.symm
  · apply versions_of_files
    intro image hmem
    cases w with
    | updateFile owner path id change =>
      cases hexec
      obtain ⟨row, _, rfl⟩ := mem_map.mp hmem
      exact ⟨_, _, _, rfl⟩
    | deletePrefix owner start stamp =>
      cases hexec
      obtain ⟨entry, _, rfl⟩ := mem_map.mp hmem
      exact ⟨_, _, _, rfl⟩
    | _ => exact hw.elim

theorem Coherent.deletes {α : Type} {x : Transaction α} (hx : x.Writes (Write.Deletes volume))
    (h : Coherent seen good t) {a : α} (hrun : database.run x t = .ok (a, t')) :
    Coherent seen good t' :=
  database.run_writes (R := fun t t' => Coherent seen good t → Coherent seen good t')
    (fun _ h => h) (fun _ _ _ h h' hcoherent => h' (h hcoherent))
    (fun _ hw _ _ hexec h => h.deletes_exec hw hexec) hx hrun h

theorem files_markPurged : ∀ {rows : List ((String × Nat) × VersionRow)} {t t' : Tables} {a : Unit},
      database.run (markPurged stamp rows) t = .ok (a, t') → ∀ place,
        t'.files.get? place = t.files.get? place 
  | [], t, t', a, h, place => by
      cases h
      rfl
  | row :: rest, t, t', a, h, place => by
      unfold markPurged at h
      obtain ⟨n, t₁, hupdate, h⟩ := (Engine.run_bind_ok _).mp h
      obtain ⟨images, hexec, _, rfl⟩ := run_update_ok hupdate
      rw [files_markPurged h place]
      cases hexec
      apply files_of_versions
      intro image hmem
      obtain ⟨old, _, rfl⟩ := mem_map.mp hmem
      exact ⟨_, _, _, rfl⟩

theorem forgetFiles_ok (h : database.run (update .forgetFiles) t = .ok (n, t')) :
    (∀ place, t'.files.get? place = none ∨ t'.files.get? place = t.files.get? place) ∧
      ∀ place, t'.versions.get? place = t.versions.get? place := by
  refine ⟨fun place => ?_, (versions_forgetFiles h).2⟩
  obtain ⟨images, hexec, _, rfl⟩ := run_update_ok h
  cases hexec
  have hdrop : ∀ (row : Option FileRow) (item : (String × Path) × FileRow),
      Image.onFile place row (.file item.1.1 item.1.2 none) =
        if place = item.1 then none else row := fun _ _ => rfl
  rw [files_putAll, foldl_map, foldl_drop hdrop]
  split
  · exact .inl rfl
  · exact .inr rfl

theorem forgetVersions_ok (h : database.run (update .forgetVersions) t = .ok (n, t')) :
    (∀ place, t'.files.get? place = t.files.get? place) ∧
      ∀ place, t'.versions.get? place = t.versions.get? place ∨
        t'.versions.get? place = none ∧ t.fileById place.1 = none := by
  obtain ⟨images, hexec, _, rfl⟩ := run_update_ok h
  cases hexec
  constructor
  · apply files_of_versions
    intro image hmem
    obtain ⟨row, _, rfl⟩ := mem_map.mp hmem
    exact ⟨_, _, _, rfl⟩
  · intro place
    rw [versions_dropped]
    split
    · next hmem =>
        right
        obtain ⟨⟨place', row⟩, hrow, rfl⟩ := hmem
        obtain ⟨_, hpurged⟩ := mem_filter.mp hrow
        simp only [Bool.and_eq_true, Option.isNone_iff_eq_none] at hpurged
        exact ⟨rfl, hpurged.2⟩
    · exact .inl rfl

theorem Coherent.not_due (h : Coherent seen good t) (hget : t.files.get? place = some row)
    (hlive : row.live = true) (cutoff : Nat) (version : VersionRow) :
    due t cutoff (row.id, row.version) version = false := by
  have hnone : row.deletedAt = none := Option.isNone_iff_eq_none.mp hlive
  unfold due
  rw [h.fileById hget]
  simp [hnone]

theorem Coherent.purge (h : Coherent seen good t) {cutoff limit : Nat}
    {order : List ((String × Nat) × VersionRow) → List ((String × Nat) × VersionRow)}
    (horder : ∀ rows, (order rows).Perm rows) {garbage : List ObjectKey}
    (hrun : database.run (purgeVersions cutoff limit order stamp) t = .ok (garbage, t')) :
    Coherent seen good t' := by
  obtain ⟨_, a, t₁, n, t₂, n', rfl, hmark, hforget, hforget', -⟩ := purgeVersions_run hrun
  have hfiles := files_markPurged hmark
  have hversions := versions_markPurged hmark
  have hmarked : Coherent seen good t₁ := by
    have hold : ∀ place version, t₁.versions.get? place = some version →
        ∃ old, t.versions.get? place = some old ∧ version.volume = old.volume ∧
          version.objectKey = old.objectKey ∧ version.content = old.content ∧
            (version.purgedAt = none → version = old) := by
      intro place version hget
      rw [hversions] at hget
      split at hget
      · obtain ⟨old, hold, rfl⟩ := Option.map_eq_some_iff.mp hget
        exact ⟨old, hold, rfl, rfl, rfl, fun h => by cases h⟩
      · exact ⟨version, hget, rfl, rfl, rfl, fun _ => rfl⟩
    constructor
    · intro volume path row hget
      rw [hfiles] at hget
      obtain ⟨version, hversion, hvolume, hcontent, hpurged⟩ := h.current volume path row hget
      rw [hversions]
      split
      · next hmem =>
          rw [hversion]
          refine ⟨_, rfl, hvolume, hcontent, fun hlive => ?_⟩
          obtain ⟨⟨place, row'⟩, hrow', heq⟩ := mem_map.mp hmem
          have hdue : (place, row') ∈ dueVersions t cutoff :=
            (horder _).subset (mem_of_mem_take hrow')
          have hnot := h.not_due hget hlive cutoff row'
          cases heq
          rw [(mem_filter.mp hdue).2] at hnot
          cases hnot
      · exact ⟨version, hversion, hvolume, hcontent, hpurged⟩
    · exact fun place place' row row' hget hget' =>
        h.distinct place place' row row' (hfiles _ ▸ hget) (hfiles _ ▸ hget')
    · intro place version hget
      obtain ⟨old, hold, _, hkey, _⟩ := hold place version hget
      rw [hkey]
      exact h.seen place old hold
    · intro place version hget hpurged
      obtain ⟨old, hold, _, _, _, hsame⟩ := hold place version hget
      obtain rfl := hsame hpurged
      exact h.good place version hold hpurged
  obtain ⟨hfiles₂, hversions₂⟩ := forgetFiles_ok hforget
  have hfaded : Coherent seen good t₂ := by
    apply hmarked.faded _ hversions₂
    intro place
    rcases hfiles₂ place with hnone | hsame
    · exact .inl hnone
    · exact .inr (.inl hsame)
  obtain ⟨hfiles₃, hversions₃⟩ := forgetVersions_ok hforget'
  have hkept : ∀ place version, t'.versions.get? place = some version →
      t₂.versions.get? place = some version := by
    intro place version hget
    rcases hversions₃ place with hsame | ⟨hnone, _⟩
    · rw [← hsame, hget]
    · rw [hnone] at hget
      cases hget
  constructor
  · intro volume path row hget
    rw [hfiles₃] at hget
    obtain ⟨version, hversion, hrest⟩ := hfaded.current volume path row hget
    rcases hversions₃ (row.id, row.version) with hsame | ⟨_, hnone⟩
    · exact ⟨version, by rw [hsame, hversion], hrest⟩
    · rw [hfaded.fileById hget] at hnone
      cases hnone
  · exact fun place place' row row' hget hget' =>
      hfaded.distinct place place' row row' (hfiles₃ _ ▸ hget) (hfiles₃ _ ▸ hget')
  · exact fun place version hget => hfaded.seen place version (hkept place version hget)
  · exact fun place version hget => hfaded.good place version (hkept place version hget)

theorem dropFile_files (h : database.run (update (.dropFile volume path id)) t = .ok (n, t'))
    (place : String × Path) :
    t'.files.get? place = if place = (volume, path) ∧ (t.files.get? place).any (·.id = id)
      then none else t.files.get? place := by
  obtain ⟨images, hexec, _, rfl⟩ := run_update_ok h
  cases hexec
  rw [files_putAll]
  by_cases hplace : place = (volume, path)
  · subst hplace
    cases hget : t.files.get? (volume, path) with
    | none => simp
    | some row =>
      by_cases hid : row.id = id
      · simp [Option.filter, hid, Image.onFile]
      · simp [Option.filter, hid]
  · have hsame : (((t.files.get? (volume, path)).filter fun old => old.id = id).toList.map
        fun _ => Image.file volume path none).foldl (Image.onFile place) (t.files.get? place) =
          t.files.get? place := by
      apply foldl_eq_self
      intro image hmem
      obtain ⟨_, _, rfl⟩ := mem_map.mp hmem
      simp only [Image.onFile, if_neg hplace]
    rw [hsame, if_neg fun hand => hplace hand.1]

theorem Coherent.dropFiles :
    ∀ {files : List (Path × FileRow)} {t t' : Tables} {keys : List ObjectKey},
      Coherent seen good t → database.run (dropFiles volume files) t = .ok (keys, t') →
      (∀ file ∈ files, ∀ place row, t.files.get? place = some row → row.id = file.2.id →
        place = (volume, file.1)) → Coherent seen good t' 
  | [], t, t', keys, h, hrun, _ => by
      cases hrun
      exact h
  | (path, file) :: rest, t, t', keys, h, hrun, hplaces => by
      unfold Files.dropFiles at hrun
      obtain ⟨versions, t₀, hselect, hrun⟩ := (Engine.run_bind_ok _).mp hrun
      cases hselect
      obtain ⟨n, t₁, hversions, hrun⟩ := (Engine.run_bind_ok _).mp hrun
      obtain ⟨n', t₂, hfile, hrun⟩ := (Engine.run_bind_ok _).mp hrun
      obtain ⟨keys', t₃, hrest, hrun⟩ := (Engine.run_bind_ok _).mp hrun
      cases hrun
      have hversions₁ := (dropVersions_ok hversions).1
      have hversions₂ := (dropFile_ok hfile).1
      have hfiles₁ : ∀ place, t₁.files.get? place = t.files.get? place := by
        obtain ⟨images, hexec, _, rfl⟩ := run_update_ok hversions
        cases hexec
        apply files_of_versions
        intro image hmem
        obtain ⟨row, _, rfl⟩ := mem_map.mp hmem
        exact ⟨_, _, _, rfl⟩
      have hfiles₂ := dropFile_files hfile
      have hkept : ∀ place row, t₂.files.get? place = some row →
          t.files.get? place = some row ∧ row.id ≠ file.id := by
        intro place row hget
        rw [hfiles₂] at hget
        split at hget
        · cases hget
        · next hnot =>
            rw [hfiles₁] at hget hnot
            refine ⟨hget, fun hid => ?_⟩
            have hplace := hplaces (path, file) mem_cons_self place row hget hid
            exact hnot ⟨hplace, by rw [hget]; exact decide_eq_true hid⟩
      have hcoherent : Coherent seen good t₂ := by
        have hold : ∀ place version, t₂.versions.get? place = some version →
            t.versions.get? place = some version := by
          intro place version hget
          rw [hversions₂, hversions₁] at hget
          split at hget
          · cases hget
          · exact hget
        constructor
        · intro owner path' row hget
          obtain ⟨hget', hid⟩ := hkept _ row hget
          rw [hversions₂, hversions₁, if_neg hid]
          exact h.current owner path' row hget'
        · exact fun place place' row row' hget hget' =>
            h.distinct place place' row row' (hkept _ _ hget).1 (hkept _ _ hget').1
        · exact fun place version hget => h.seen place version (hold place version hget)
        · exact fun place version hget => h.good place version (hold place version hget)
      apply hcoherent.dropFiles hrest
      intro other hmem place row hget hid
      exact hplaces other (mem_cons_of_mem _ hmem) place row (hkept place row hget).1 hid

theorem Coherent.erase (h : Coherent seen good t) {start : Path} {erased : Erased}
    (hrun : database.run (erasePrefix volume start) t = .ok (erased, t')) :
    Coherent seen good t' := by
  obtain ⟨keys, hdrop, -⟩ := erasePrefix_run hrun
  apply h.dropFiles hdrop
  intro file hmem place row hget hid
  obtain ⟨⟨place', row'⟩, hrow', rfl⟩ := mem_map.mp hmem
  obtain ⟨hrow', hplace'⟩ := mem_filter.mp hrow'
  have hplace := h.distinct place place' row row' hget (Table.mem_rows_iff.mp hrow') hid
  rw [hplace, ← (of_decide_eq_true hplace').1]

theorem Coherent.drop (h : Coherent seen good t) {a : Unit}
    (hrun : database.run (dropVolume volume) t = .ok (a, t')) : Coherent seen good t' := by
  obtain ⟨n, t₁, hdrop, hrun⟩ := (Engine.run_bind_ok _).mp hrun
  cases hrun
  obtain ⟨images, hexec, _, htables⟩ := run_update_ok hdrop
  cases hexec
  have hdropVersion : ∀ place (row : Option VersionRow) (item : (String × Nat) × VersionRow),
      Image.onVersion place row (.version item.1.1 item.1.2 none) =
        if place = item.1 then none else row := fun _ _ _ => rfl
  have hdropFile : ∀ place (row : Option FileRow) (item : (String × Path) × FileRow),
      Image.onFile place row (.file item.1.1 item.1.2 none) =
        if place = item.1 then none else row := fun _ _ _ => rfl
  have hsilent : ∀ place (row : Option FileRow) (items : List ((String × Nat) × VersionRow)),
      items.foldl (fun row item => Image.onFile place row (.version item.1.1 item.1.2 none)) row =
        row := fun _ _ _ => foldl_eq_self fun _ _ => rfl
  have hsilent' : ∀ place (row : Option VersionRow) (items : List ((String × Path) × FileRow)),
      items.foldl (fun row item => Image.onVersion place row (.file item.1.1 item.1.2 none)) row =
        row := fun _ _ _ => foldl_eq_self fun _ _ => rfl
  have hversions : ∀ place version, t'.versions.get? place = some version ↔
        t.versions.get? place = some version ∧ version.volume ≠ volume := by
    intro place version
    rw [htables, versions_putAll, foldl_append, foldl_append, foldl_map, foldl_map,
      foldl_drop (hdropVersion place), hsilent']
    change (if _ then none else t.versions.get? place) = some version ↔ _
    constructor
    · intro hget
      split at hget
      · cases hget
      · next hnot =>
          refine ⟨hget, fun hvolume => hnot ⟨(place, version), ?_, rfl⟩⟩
          exact mem_filter.mpr ⟨Table.mem_rows_iff.mpr hget, decide_eq_true hvolume⟩
    · rintro ⟨hget, hvolume⟩
      rw [if_neg, hget]
      rintro ⟨⟨place', row⟩, hrow, rfl⟩
      obtain ⟨hrow, hplace⟩ := mem_filter.mp hrow
      have hrow' := Table.mem_rows_iff.mp hrow
      rw [hget] at hrow'
      cases hrow'
      exact hvolume (of_decide_eq_true hplace)
  have hfiles : ∀ place row, t'.files.get? place = some row →
      t.files.get? place = some row ∧ place.1 ≠ volume := by
    intro place row hget
    rw [htables, files_putAll, foldl_append, foldl_append, foldl_map, foldl_map,
      hsilent, foldl_drop (hdropFile place)] at hget
    change (if _ then none else t.files.get? place) = some row at hget
    split at hget
    · cases hget
    · next hnot =>
        refine ⟨hget, fun hvolume => hnot ⟨(place, row), ?_, rfl⟩⟩
        exact mem_filter.mpr ⟨Table.mem_rows_iff.mpr hget, decide_eq_true hvolume⟩
  constructor
  · intro owner path row hget
    obtain ⟨hget', howner⟩ := hfiles _ row hget
    obtain ⟨version, hversion, hvolume, hrest⟩ := h.current owner path row hget'
    exact ⟨version, (hversions _ _).mpr ⟨hversion, hvolume ▸ howner⟩, hvolume, hrest⟩
  · exact fun place place' row row' hget hget' =>
      h.distinct place place' row row' (hfiles _ _ hget).1 (hfiles _ _ hget').1
  · exact fun place version hget => h.seen place version ((hversions _ _).mp hget).1
  · exact fun place version hget => h.good place version ((hversions _ _).mp hget).1

end

end Substrate.Files
