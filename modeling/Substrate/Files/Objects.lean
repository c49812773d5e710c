import Substrate.Files.Rows

/-!
What the transactions of the files domain write, and which objects they leave named.
Writes and deletes keep every name; a purge and an erasure report the objects that they
leave without one, the erasure only those that nothing mentions any more.
-/

namespace Substrate.Files

open Lib List

section

variable {volume : String}

theorem puts_update {α : Type} {w : Write} {f : Nat → Transaction α} (hw : w.Puts volume)
    (hf : ∀ n, (f n).Writes (Write.Puts volume)) :
    (update w >>= f).Writes (Write.Puts volume) := ⟨hw, hf⟩

theorem puts_check (r : Except Problem Unit) : (check r).Writes (Write.Puts volume) := by
  cases r with
  | ok _ | error problem => trivial

theorem puts_guardQuota : (guardQuota volume).Writes (Write.Puts volume) :=
  puts_update rfl fun _ _ => trivial

theorem puts_guardBytes (quota : Option Nat) (adding replacing : Nat) :
    (guardBytes volume quota adding replacing).Writes (Write.Puts volume) := by
  unfold guardBytes
  split
  · exact Tx.Writes.bind (fun _ => trivial) fun used => puts_check _
  · trivial

theorem puts_putVersion (path : Path) (existing : Option FileRow) (key : ObjectKey)
    (content : Content) (by_ id : String) (stamp : Nat) :
    (putVersion volume path existing key content by_ id stamp).Writes (Write.Puts volume) := by
  unfold putVersion
  apply Tx.Writes.bind
  · cases existing with
    | none | some row => exact puts_update rfl fun _ => trivial
  · intro head
    exact puts_update rfl fun _ => trivial

theorem puts_commitVersion (path : Path) (key : ObjectKey) (content : Content) (by_ : String)
    (ifMatch : Option Nat) (ifNoneMatch : Bool) (id : String) (stamp : Nat) :
    (commitVersion volume path key content by_ ifMatch ifNoneMatch id stamp).Writes
      (Write.Puts volume) := by
  apply puts_guardQuota.bind
  intro quota tables
  apply (puts_check _).bind
  intro _
  apply (puts_guardBytes _ _ _).bind
  intro _
  exact puts_putVersion path _ key content by_ id stamp

theorem puts_planCopy (source destination : Path) (overwrite : Bool) :
    ∀ found, (planCopy volume source destination overwrite found).Writes (Write.Puts volume)
  | [] => trivial
  | (path, row) :: rest => by
      intro tables
      apply (puts_planCopy source destination overwrite rest).bind
      rintro ⟨plan, skipped⟩
      simp only
      split
      · trivial
      · trivial

theorem puts_writeCopies (by_ : String) (newId : Path → String) (stamp : Nat) :
    ∀ plan, (writeCopies volume by_ newId stamp plan).Writes (Write.Puts volume)
  | [] => trivial
  | copy :: rest => by
      intro tables
      dsimp only [Tx.bind]
      split
      · trivial
      · exact (puts_putVersion _ _ _ _ _ _ _).bind fun _ =>
          puts_writeCopies by_ newId stamp rest

theorem puts_copyPrefix (source destination : Path) (by_ : String) (overwrite : Bool)
    (order : List (Path × FileRow) → List (Path × FileRow)) (newId : Path → String)
    (stamp : Nat) :
    (copyPrefix volume source destination by_ overwrite order newId stamp).Writes
      (Write.Puts volume) := by
  apply puts_guardQuota.bind
  intro quota tables
  change Tx.Writes (Write.Puts volume) (if _ then _ else _)
  split
  · trivial
  · apply (puts_planCopy _ _ _ _).bind
    rintro ⟨plan, skipped⟩
    apply (puts_guardBytes _ _ _).bind
    intro _
    exact (puts_writeCopies _ _ _ _).bind fun _ => trivial

theorem puts_restore (path : Path) (version : Option Nat) (by_ : String) (ifMatch : Option Nat)
    (id : String) (stamp : Nat) :
    (restore volume path version by_ ifMatch id stamp).Writes (Write.Puts volume) := by
  apply puts_guardQuota.bind
  intro quota tables
  dsimp only [Tx.bind]
  split
  · trivial
  · split
    · trivial
    · split
      · split
        · trivial
        · exact (puts_guardBytes _ _ _).bind fun _ => puts_update rfl fun _ => trivial
      · intro tables'
        dsimp only [Tx.bind]
        split
        · trivial
        · split
          · trivial
          · exact (puts_guardBytes _ _ _).bind fun _ => puts_putVersion _ _ _ _ _ _ _

theorem deletes_softDelete (path : Path) (ifMatch : Option Nat) (stamp : Nat) :
    (softDelete volume path ifMatch stamp).Writes (Write.Deletes volume) := by
  intro tables
  dsimp only [Tx.bind]
  split
  · split
    · trivial
    · trivial
  · split
    · split
      · trivial
      · trivial
    · split
      · trivial
      · exact ⟨⟨rfl, stamp, rfl⟩, fun _ => trivial⟩

theorem deletes_deletePrefix (start : Path) (stamp : Nat) :
    (deletePrefix volume start stamp).Writes (Write.Deletes volume) :=
  fun _ => ⟨rfl, fun _ => trivial⟩

end

variable {t t' : Tables} {n stamp : Nat} {volume by_ id : String} {path : Path}
    {key : ObjectKey} {content : Content} {head : FileRow}

theorem run_update_ok {w : Write} (h : database.run (update w) t = .ok (n, t')) :
    ∃ images, w.exec t = .ok images ∧ n = images.length ∧ t' = database.putAll images t := by
  unfold update at h
  rw [Engine.run_execute] at h
  split at h
  · cases h
  · next images hexec =>
      cases h
      exact ⟨images, hexec, rfl, rfl⟩

theorem run_check_ok {r : Except Problem Unit} {a : Unit}
    (h : database.run (check r) t = .ok (a, t')) : r = .ok () ∧ t' = t := by
  cases r with
  | ok _ =>
    cases h
    exact ⟨rfl, rfl⟩
  | error problem => cases h

theorem putVersion_ok {existing : Option FileRow}
    (h : database.run (putVersion volume path existing key content by_ id stamp) t =
      .ok (head, t')) :
    t'.versions.get? (head.id, head.version) = some ⟨volume, key, content, by_, stamp, none⟩ := by
  unfold putVersion at h
  obtain ⟨head', t₁, _, h⟩ := (Engine.run_bind_ok _).mp h
  obtain ⟨n, t₂, hinsert, h⟩ := (Engine.run_bind_ok _).mp h
  cases h
  obtain ⟨images, hexec, _, rfl⟩ := run_update_ok hinsert
  simp only [Write.exec] at hexec
  split at hexec
  · cases hexec
  · cases hexec
    rw [versions_putAll]
    simp [Image.onVersion]

theorem commitVersion_named {ifMatch : Option Nat} {ifNoneMatch : Bool} (h : database.run
      (commitVersion volume path key content by_ ifMatch ifNoneMatch id stamp) t =
        .ok (head, t')) : Named t' key := by
  unfold commitVersion at h
  obtain ⟨quota, t₁, _, h⟩ := (Engine.run_bind_ok _).mp h
  obtain ⟨existing, t₂, _, h⟩ := (Engine.run_bind_ok _).mp h
  obtain ⟨_, t₃, _, h⟩ := (Engine.run_bind_ok _).mp h
  obtain ⟨_, t₄, _, h⟩ := (Engine.run_bind_ok _).mp h
  exact ⟨_, _, putVersion_ok h, rfl, rfl⟩

theorem versions_markPurged :
    ∀ {rows : List ((String × Nat) × VersionRow)} {t t' : Tables} {a : Unit},
      database.run (markPurged stamp rows) t = .ok (a, t') → ∀ place, t'.versions.get? place =
          if place ∈ rows.map Prod.fst then
            (t.versions.get? place).map fun row => { row with purgedAt := some stamp }
          else t.versions.get? place
  | [], t, t', a, h, place => by
      cases h
      simp
  | row :: rest, t, t', a, h, place => by
      unfold markPurged at h
      obtain ⟨n, t₁, hupdate, h⟩ := (Engine.run_bind_ok _).mp h
      obtain ⟨images, hexec, _, rfl⟩ := run_update_ok hupdate
      rw [versions_markPurged h place, versions_putAll]
      cases hexec
      by_cases hplace : place = row.1
      · subst hplace
        cases hget : t.versions.get? row.1 with
        | none => simp
        | some old => simp [Image.onVersion]
      · have hsame : (((t.versions.get? (row.1.1, row.1.2)).toList.map fun old =>
            Image.version row.1.1 row.1.2 (some { old with purgedAt := some stamp })).foldl
              (Image.onVersion place) (t.versions.get? place)) = t.versions.get? place := by
          apply foldl_eq_self
          intro image hmem
          obtain ⟨old, _, rfl⟩ := mem_map.mp hmem
          simp [Image.onVersion, hplace]
        rw [hsame]
        simp only [map_cons, mem_cons, hplace, false_or]

theorem run_unnamed (query : Tables → ObjectKey → Bool) (keys : List ObjectKey) (t : Tables) :
    database.run (unnamed query keys) t = .ok (keys.filter fun key => !query t key, t) := by
  induction keys with
  | nil => rfl
  | cons key rest ih =>
    unfold unnamed
    rw [Engine.run_bind, Engine.run_select]
    simp only
    rw [Engine.run_bind, ih]
    cases hquery : query t key with
    | true | false => simp [hquery]

theorem versions_dropped (rows : List ((String × Nat) × VersionRow)) (t : Tables)
    (place : String × Nat) :
    (database.putAll (rows.map fun item => .version item.1.1 item.1.2 none) t).versions.get? place =
      if ∃ item ∈ rows, place = item.1 then none else t.versions.get? place := by
  rw [versions_putAll, foldl_map]
  exact foldl_drop (fun _ _ => rfl) rows _

theorem versions_forgetVersions (h : database.run (update .forgetVersions) t = .ok (n, t'))
    (place : String × Nat) :
    t'.versions.get? place = t.versions.get? place ∨ t'.versions.get? place = none ∧
        ∃ row, t.versions.get? place = some row ∧ row.purgedAt ≠ none := by
  obtain ⟨images, hexec, _, rfl⟩ := run_update_ok h
  cases hexec
  rw [versions_dropped]
  split
  · next hmem =>
      right
      obtain ⟨⟨place', row⟩, hrow, rfl⟩ := hmem
      obtain ⟨hrow, hpurged⟩ := mem_filter.mp hrow
      simp only [Bool.and_eq_true, Option.isSome_iff_ne_none] at hpurged
      exact ⟨rfl, row, Table.mem_rows_iff.mp hrow, hpurged.1⟩
  · exact .inl rfl

theorem versions_forgetFiles (h : database.run (update .forgetFiles) t = .ok (n, t')) :
    Grows t t' ∧ ∀ place, t'.versions.get? place = t.versions.get? place := by
  obtain ⟨images, hexec, _, rfl⟩ := run_update_ok h
  cases hexec
  constructor
  · apply grows_of_files
    intro image hmem
    obtain ⟨row, _, rfl⟩ := mem_map.mp hmem
    exact .inl ⟨row.1.1, row.1.2, none, rfl⟩
  · intro place
    rw [versions_putAll]
    apply foldl_eq_self
    intro image hmem
    obtain ⟨row, _, rfl⟩ := mem_map.mp hmem
    rfl

theorem uploads_of_versions {images : List Image}
    (h : ∀ image ∈ images, ∃ fileId number row, image = .version fileId number row) (id : String) :
    (database.putAll images t).uploads.get? id = t.uploads.get? id := by
  rw [uploads_putAll]
  apply foldl_eq_self
  intro image hmem
  obtain ⟨fileId, number, row, rfl⟩ := h image hmem
  rfl

theorem uploads_markPurged :
    ∀ {rows : List ((String × Nat) × VersionRow)} {t t' : Tables} {a : Unit},
      database.run (markPurged stamp rows) t = .ok (a, t') → ∀ id,
        t'.uploads.get? id = t.uploads.get? id 
  | [], t, t', a, h, id => by
      cases h
      rfl
  | row :: rest, t, t', a, h, id => by
      unfold markPurged at h
      obtain ⟨n, t₁, hupdate, h⟩ := (Engine.run_bind_ok _).mp h
      obtain ⟨images, hexec, _, rfl⟩ := run_update_ok hupdate
      rw [uploads_markPurged h id]
      cases hexec
      apply uploads_of_versions
      intro image hmem
      obtain ⟨old, _, rfl⟩ := mem_map.mp hmem
      exact ⟨_, _, _, rfl⟩

/-- What a purge leaves: every object that was named is named still or reported, and
none of those reported is named. -/
structure Purged (t t' : Tables) (garbage : List ObjectKey) : Prop where
  named : ∀ key, Named t key → Named t' key ∨ key ∈ garbage
  reported : ∀ key ∈ garbage, ¬Named t' key
  uploads : ∀ id, t'.uploads.get? id = t.uploads.get? id

theorem purgeVersions_run {cutoff limit : Nat}
    {order : List ((String × Nat) × VersionRow) → List ((String × Nat) × VersionRow)}
    {garbage : List ObjectKey}
    (h : database.run (purgeVersions cutoff limit order stamp) t = .ok (garbage, t')) :
    ∃ rows a t₁ n t₂ n', rows = (order (dueVersions t cutoff)).take limit ∧
      database.run (markPurged stamp rows) t = .ok (a, t₁) ∧
      database.run (update .forgetFiles) t₁ = .ok (n, t₂) ∧
      database.run (update .forgetVersions) t₂ = .ok (n', t') ∧
      garbage = ((rows.map fun row => row.2.objectKey).dedup).filter fun key => !t₁.names key := by
  unfold purgeVersions at h
  obtain ⟨rows, t₀, hselect, h⟩ := (Engine.run_bind_ok _).mp h
  cases hselect
  obtain ⟨a, t₁, hmark, h⟩ := (Engine.run_bind_ok _).mp h
  obtain ⟨found, t₂, hfound, h⟩ := (Engine.run_bind_ok _).mp h
  rw [run_unnamed] at hfound
  cases hfound
  obtain ⟨n, t₂, hfiles, h⟩ := (Engine.run_bind_ok _).mp h
  obtain ⟨n', t₃, hversions, h⟩ := (Engine.run_bind_ok _).mp h
  cases h
  exact ⟨_, a, t₁, n, t₂, n', rfl, hmark, hfiles, hversions, rfl⟩

theorem purgeVersions_ok {cutoff limit : Nat}
    {order : List ((String × Nat) × VersionRow) → List ((String × Nat) × VersionRow)}
    (horder : ∀ rows, (order rows).Perm rows) {garbage : List ObjectKey}
    (h : database.run (purgeVersions cutoff limit order stamp) t = .ok (garbage, t')) :
    Purged t t' garbage := by
  obtain ⟨_, a, t₁, n, t₂, n', rfl, hmark, hfiles, hversions, rfl⟩ := purgeVersions_run h
  have hmarked := versions_markPurged hmark
  obtain ⟨hgrows, hsame⟩ := versions_forgetFiles hfiles
  have hforget := versions_forgetVersions hversions
  have hlater : ∀ key, Named t₁ key ↔ Named t' key := by
    intro key
    constructor
    · rintro ⟨place, row, hget, hkey, hpurged⟩
      rcases hforget place with hkept | ⟨_, old, hold, hpurged'⟩
      · exact ⟨place, row, by rw [hkept, hsame, hget], hkey, hpurged⟩
      · rw [hsame, hget] at hold
        cases hold
        exact absurd hpurged hpurged'
    · rintro ⟨place, row, hget, hkey, hpurged⟩
      rcases hforget place with hkept | ⟨hgone, _⟩
      · rw [hkept, hsame] at hget
        exact ⟨place, row, hget, hkey, hpurged⟩
      · rw [hgone] at hget
        cases hget
  constructor
  · rintro key ⟨place, row, hget, hkey, hpurged⟩
    by_cases hmem : place ∈ ((order (dueVersions t cutoff)).take limit).map Prod.fst
    · by_cases hnamed : Named t₁ key
      · exact .inl ((hlater key).mp hnamed)
      · right
        apply mem_filter.mpr
        constructor
        · obtain ⟨⟨place', row'⟩, hrow', rfl⟩ := mem_map.mp hmem
          have hdue : (place', row') ∈ dueVersions t cutoff :=
            (horder _).subset (mem_of_mem_take hrow')
          have hget' := Table.mem_rows_iff.mp (mem_of_mem_filter hdue)
          rw [hget] at hget'
          cases hget'
          exact mem_dedup.mpr (mem_map.mpr ⟨_, hrow', hkey⟩)
        · simpa [← names_iff] using hnamed
    · left
      apply (hlater key).mp
      exact ⟨place, row, by rw [hmarked, if_neg hmem, hget], hkey, hpurged⟩
  · intro key hkey hnamed
    have hnot := (mem_filter.mp hkey).2
    rw [names_iff.mpr ((hlater key).mpr hnamed)] at hnot
    cases hnot
  · intro id
    obtain ⟨images, hexec, _, rfl⟩ := run_update_ok hversions
    cases hexec
    rw [uploads_of_versions, hgrows.uploads, uploads_markPurged hmark]
    intro image hmem
    obtain ⟨row, _, rfl⟩ := mem_map.mp hmem
    exact ⟨_, _, _, rfl⟩

theorem dropVersions_ok {fileId : String}
    (h : database.run (update (.dropVersions fileId)) t = .ok (n, t')) :
    (∀ place, t'.versions.get? place =
      if place.1 = fileId then none else t.versions.get? place) ∧
      ∀ id, t'.uploads.get? id = t.uploads.get? id := by
  obtain ⟨images, hexec, _, rfl⟩ := run_update_ok h
  cases hexec
  constructor
  · intro place
    rw [versions_dropped]
    split
    · next hmem =>
        obtain ⟨⟨place', row⟩, hrow, rfl⟩ := hmem
        rw [if_pos (of_decide_eq_true (mem_filter.mp hrow).2)]
    · next hmem =>
        split
        · next hfile =>
            cases hget : t.versions.get? place with
            | none => rfl
            | some row =>
              exfalso
              apply hmem
              exact ⟨(place, row), mem_filter.mpr
                ⟨Table.mem_rows_iff.mpr hget, decide_eq_true hfile⟩, rfl⟩
        · rfl
  · apply uploads_of_versions
    intro image hmem
    obtain ⟨row, _, rfl⟩ := mem_map.mp hmem
    exact ⟨_, _, _, rfl⟩

theorem dropFile_ok (h : database.run (update (.dropFile volume path id)) t = .ok (n, t')) :
    (∀ place, t'.versions.get? place = t.versions.get? place) ∧
      ∀ id, t'.uploads.get? id = t.uploads.get? id := by
  obtain ⟨images, hexec, _, rfl⟩ := run_update_ok h
  cases hexec
  constructor
  · intro place
    rw [versions_putAll]
    apply foldl_eq_self
    intro image hmem
    obtain ⟨row, _, rfl⟩ := mem_map.mp hmem
    rfl
  · intro id
    rw [uploads_putAll]
    apply foldl_eq_self
    intro image hmem
    obtain ⟨row, _, rfl⟩ := mem_map.mp hmem
    rfl

theorem dropFiles_ok : ∀ {files : List (Path × FileRow)} {t t' : Tables} {keys : List ObjectKey},
      database.run (dropFiles volume files) t = .ok (keys, t') → (∀ place, t'.versions.get? place =
          if place.1 ∈ files.map fun file => file.2.id then none else t.versions.get? place) ∧
        (∀ key, key ∈ keys ↔ ∃ place row, t.versions.get? place = some row ∧
          row.objectKey = key ∧ place.1 ∈ files.map fun file => file.2.id) ∧
        ∀ id, t'.uploads.get? id = t.uploads.get? id 
  | [], t, t', keys, h => by
      cases h
      simp
  | (path, file) :: rest, t, t', keys, h => by
      unfold dropFiles at h
      obtain ⟨versions, t₀, hselect, h⟩ := (Engine.run_bind_ok _).mp h
      cases hselect
      obtain ⟨n, t₁, hversions, h⟩ := (Engine.run_bind_ok _).mp h
      obtain ⟨n', t₂, hfile, h⟩ := (Engine.run_bind_ok _).mp h
      obtain ⟨keys', t₃, hrest, h⟩ := (Engine.run_bind_ok _).mp h
      cases h
      obtain ⟨hplaces, hkeys, huploads⟩ := dropFiles_ok hrest
      obtain ⟨hversions₁, huploads₁⟩ := dropVersions_ok hversions
      obtain ⟨hversions₂, huploads₂⟩ := dropFile_ok hfile
      refine ⟨?_, ?_, ?_⟩
      · intro place
        rw [hplaces, hversions₂, hversions₁]
        by_cases hid : place.1 = file.id
        · simp [hid]
        · simp only [map_cons, mem_cons, hid, false_or, if_false]
      · intro key
        rw [mem_append, hkeys]
        simp only [hversions₂, hversions₁, map_cons, mem_cons]
        constructor
        · rintro (hmem | ⟨place, row, hget, hkey, hfiles⟩)
          · obtain ⟨row, hrow, rfl⟩ := mem_map.mp hmem
            obtain ⟨⟨place, row'⟩, hrow', rfl⟩ := mem_map.mp hrow
            obtain ⟨hrow', hid⟩ := mem_filter.mp hrow'
            exact ⟨place, row', Table.mem_rows_iff.mp hrow', rfl, .inl (of_decide_eq_true hid)⟩
          · split at hget
            · cases hget
            · exact ⟨place, row, hget, hkey, .inr hfiles⟩
        · rintro ⟨place, row, hget, rfl, hid⟩
          by_cases hfile : place.1 = file.id
          · left
            apply mem_map_of_mem
            apply mem_map.mpr
            exact ⟨(place, row), mem_filter.mpr
              ⟨Table.mem_rows_iff.mpr hget, decide_eq_true hfile⟩, rfl⟩
          · right
            exact ⟨place, row, by rw [if_neg hfile, hget], rfl, hid.resolve_left hfile⟩
      · intro id
        rw [huploads, huploads₂, huploads₁]

def Tables.erasedIds (t : Tables) (volume : String) (start : Path) : List String :=
  (t.filesUnder volume start).map fun file => file.2.id

/-- What an erasure leaves: the versions of the erased files are gone, the others
are as they were, and an object of a dropped version is reported unless some version
mentions it still. -/
structure Emptied (t t' : Tables) (ids : List String) (garbage : List ObjectKey) : Prop where
  versions : ∀ place, t'.versions.get? place =
    if place.1 ∈ ids then none else t.versions.get? place
  reported : ∀ key, key ∈ garbage ↔ (∃ place row, t.versions.get? place = some row ∧
    row.objectKey = key ∧ place.1 ∈ ids) ∧ ¬Mentioned t' key
  uploads : ∀ id, t'.uploads.get? id = t.uploads.get? id

theorem erasePrefix_run {start : Path} {erased : Erased}
    (h : database.run (erasePrefix volume start) t = .ok (erased, t')) :
    ∃ keys, database.run (dropFiles volume (t.filesUnder volume start)) t = .ok (keys, t') ∧
      erased.garbage = keys.dedup.filter fun key => !t'.mentions key := by
  unfold erasePrefix at h
  obtain ⟨files, t₀, hselect, h⟩ := (Engine.run_bind_ok _).mp h
  cases hselect
  obtain ⟨keys, t₁, hdrop, h⟩ := (Engine.run_bind_ok _).mp h
  obtain ⟨garbage, t₂, hgarbage, h⟩ := (Engine.run_bind_ok _).mp h
  rw [run_unnamed] at hgarbage
  cases hgarbage
  cases h
  exact ⟨keys, hdrop, rfl⟩

theorem erasePrefix_ok {start : Path} {erased : Erased}
    (h : database.run (erasePrefix volume start) t = .ok (erased, t')) :
    Emptied t t' (t.erasedIds volume start) erased.garbage := by
  obtain ⟨keys, hdrop, hgarbage⟩ := erasePrefix_run h
  obtain ⟨hplaces, hkeys, huploads⟩ := dropFiles_ok hdrop
  refine ⟨hplaces, ?_, huploads⟩
  intro key
  rw [hgarbage, mem_filter, mem_dedup, hkeys, ← mentions_iff]
  simp only [Bool.not_eq_true', Bool.not_eq_true]
  rfl

end Substrate.Files
