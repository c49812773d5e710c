import Substrate.Documents.Bundles

/-!
Which keys and prefixes are the same to the volumes and to a table of keys, and what it
is for both stores to have the same files: a file under a key in one is the live file
under the tenant and path of that key in the other. Sizes, listings and what lies under a
prefix then agree as well.
-/

namespace Substrate.Documents

open Files Lib List

structure Proper (tenant path : Path) : Prop where
  tenant_ne : tenant ≠ []
  slash : '/' ∉ tenant
  path_ne : path ≠ []

theorem keyOf_append (tenant path more : Path) :
    keyOf tenant (path ++ more) = keyOf tenant path ++ more := by
  simp [keyOf]

variable {tenant path : Path}

theorem partition_eq (h : '/' ∉ tenant) :
    Volumes.partition (tenant ++ '/' :: path) = (tenant, path) := by
  have hplain : ∀ c ∈ tenant, decide (c ≠ '/') = true := by
    intro c hc
    exact decide_eq_true fun heq => h (heq ▸ hc)
  unfold Volumes.partition
  rw [takeWhile_append_of_pos hplain, dropWhile_append_of_pos hplain]
  simp

theorem partition_cases (text : Path) : '/' ∉ (Volumes.partition text).1 ∧
      (text = (Volumes.partition text).1 ++ '/' :: (Volumes.partition text).2 ∨
        text = (Volumes.partition text).1 ∧ (Volumes.partition text).2 = []) := by
  unfold Volumes.partition
  refine ⟨fun hmem => ?_, ?_⟩
  · have hslash := mem_takeWhile_imp hmem
    simp at hslash
  · have hwhole := takeWhile_append_dropWhile (p := fun c => decide (c ≠ '/')) (l := text)
    cases hrest : text.dropWhile fun c => decide (c ≠ '/') with
    | nil =>
      rw [hrest, append_nil] at hwhole
      exact .inr ⟨hwhole.symm, rfl⟩
    | cons c rest =>
      have hnot := List.head?_dropWhile_not (fun c : Char => decide (c ≠ '/')) text
      rw [hrest] at hnot
      have hslash : c = '/' := by simpa using hnot
      rw [hrest, hslash] at hwhole
      exact .inl hwhole.symm

theorem splitKey_ok {key : Path} (h : Volumes.splitKey key = .ok (tenant, path)) :
    key = keyOf tenant path ∧ Proper tenant path := by
  unfold Volumes.splitKey at h
  dsimp only at h
  split at h
  · next hstart =>
      obtain ⟨text, rfl⟩ := isPrefixOf_iff_prefix.mp hstart
      rw [drop_left] at h
      obtain ⟨hslash, hwhole⟩ := partition_cases text
      generalize Volumes.partition text = parts at h hslash hwhole
      split at h
      · cases h
      · next hne =>
          obtain ⟨htenant, hpath⟩ := not_or.mp hne
          cases h
          rcases hwhole with hwhole | ⟨_, hnil⟩
          · refine ⟨?_, htenant, hslash, hpath⟩
            rw [hwhole, keyOf, append_assoc]
          · exact absurd hnil hpath
  · cases h

theorem splitPrefix_ok {start : Path} (h : Volumes.splitPrefix start = .ok (tenant, path)) :
    tenant ≠ [] ∧ '/' ∉ tenant ∧
      (start = keyOf tenant path ∨ start = tenantPrefix ++ tenant ∧ path = []) := by
  unfold Volumes.splitPrefix at h
  dsimp only at h
  split at h
  · next hstart =>
      obtain ⟨text, rfl⟩ := isPrefixOf_iff_prefix.mp hstart
      rw [drop_left] at h
      obtain ⟨hslash, hwhole⟩ := partition_cases text
      generalize Volumes.partition text = parts at h hslash hwhole
      split at h
      · cases h
      · next htenant =>
          cases h
          refine ⟨htenant, hslash, ?_⟩
          rcases hwhole with hwhole | ⟨hwhole, hnil⟩
          · left
            rw [hwhole, keyOf, append_assoc]
          · exact .inr ⟨by rw [hwhole], hnil⟩
  · cases h

theorem keyOf_injective {tenant' path' : Path} (h : '/' ∉ tenant) (h' : '/' ∉ tenant')
    (heq : keyOf tenant path = keyOf tenant' path') : tenant = tenant' ∧ path = path' := by
  unfold keyOf at heq
  rw [append_assoc, append_assoc, append_cancel_left_eq] at heq
  have hparts := congrArg Volumes.partition heq
  rw [partition_eq h, partition_eq h'] at hparts
  exact Prod.mk.inj hparts

theorem tenantOf_keyOf (h : tenant ≠ []) (hslash : '/' ∉ tenant) :
    FileTable.tenantOf (keyOf tenant path) = some tenant := by
  have hkey : keyOf tenant path = "tenants".toList ++ '/' :: (tenant ++ '/' :: path) := by
    unfold keyOf tenantPrefix
    rw [append_assoc]
    rfl
  unfold FileTable.tenantOf
  rw [hkey, splitOn_append_cons_self_of_not_mem (by decide),
    splitOn_append_cons_self_of_not_mem hslash]
  exact if_pos ⟨rfl, h⟩

section Conditions

variable (setting : Setting)

/-- A key that both stores take, and that names a path in normal form. -/
structure Named (key tenant path : Path) : Prop where
  check : FileTable.check key = .ok ()
  split : Volumes.splitKey key = .ok (tenant, path)
  normal : normalizePath setting.nfc path = .ok path
  provisioned : setting.provisioned tenant = true

structure Refused (key : Path) : Prop where
  check : FileTable.check key ≠ .ok ()
  place : ∀ tenant raw path, Volumes.splitKey key = .ok (tenant, raw) →
    normalizePath setting.nfc raw = .ok path → setting.provisioned tenant = false

structure Spanning (start tenant path : Path) : Prop where
  check : FileTable.check start = .ok ()
  split : Volumes.splitPrefix start = .ok (tenant, path)
  normal : normalizePrefix setting.nfc path = .ok path
  folder : path = [] ∨ path.getLast? = some '/'
  provisioned : setting.provisioned tenant = true

structure RefusedAll (start : Path) : Prop where
  check : FileTable.check start ≠ .ok ()
  place : ∀ tenant raw path, Volumes.splitPrefix start = .ok (tenant, raw) →
    normalizePrefix setting.nfc raw = .ok path → setting.provisioned tenant = false

def Kept (key : Path) : Prop := (∃ tenant path, Named setting key tenant path) ∨ Refused setting key

end Conditions

section Named

variable {setting : Setting} {key tenant path : Path}

theorem Named.form (h : Named setting key tenant path) : key = keyOf tenant path :=
  (splitKey_ok h.split).1

theorem Named.proper (h : Named setting key tenant path) : Proper tenant path :=
  (splitKey_ok h.split).2

theorem stem_eq {bare : Path} (hne : bare ≠ []) (hlast : bare.getLast? ≠ some '/') :
    FileTable.stem bare = bare ∧ FileTable.stem (bare ++ ['/']) = bare := by
  have hbare : bare.rdropWhile (fun c => decide (c = '/')) = bare := by
    rw [rdropWhile_eq_self_iff]
    intro hl hslash
    apply hlast
    rw [List.getLast?_eq_some_getLast hl]
    exact congrArg some (of_decide_eq_true hslash)
  unfold FileTable.stem
  rw [rdropWhile_concat_pos _ _ _ (by simp), hbare]
  simp [hne]

theorem Spanning.stem {start : Path} (h : Spanning setting start tenant path) :
    FileTable.stem start ++ ['/'] = keyOf tenant path := by
  obtain ⟨htenant, hslash, hform⟩ := splitPrefix_ok h.split
  have hwhole : path = [] → FileTable.stem start ++ ['/'] = keyOf tenant path := by
    rintro rfl
    have hbare : (tenantPrefix ++ tenant).getLast? ≠ some '/' := by
      rw [List.getLast?_append_of_ne_nil _ htenant]
      exact fun hlast => hslash (mem_of_getLast? hlast)
    obtain ⟨hplain, hended⟩ := stem_eq (append_ne_nil_of_right_ne_nil _ htenant) hbare
    rcases hform with rfl | ⟨rfl, _⟩
    · rw [keyOf, hended]
    · rw [hplain, keyOf]
  rcases h.folder with hnil | hlast
  · exact hwhole hnil
  · rcases hform with rfl | ⟨_, hnil⟩
    · obtain ⟨inner, rfl⟩ := List.getLast?_eq_some_iff.mp hlast
      obtain ⟨hne, hend⟩ := normalizePrefix_slash h.normal
      have hbare : (keyOf tenant inner).getLast? ≠ some '/' := by
        have hkey : keyOf tenant inner = keyOf tenant [] ++ inner := keyOf_append tenant [] inner
        rwa [hkey, List.getLast?_append_of_ne_nil _ hne]
      have hkeyne : keyOf tenant inner ≠ [] := by simp [keyOf]
      rw [keyOf_append, (stem_eq hkeyne hbare).2]
    · exact hwhole hnil

end Named

def objectOf (tenant : Path) (file : VolumeFile) : FileObject :=
  ⟨some tenant, file.data, file.mtime⟩

structure Agree (files : FileTable) (volumes : Volumes) : Prop where
  same : ∀ tenant path, Proper tenant path →
    files.get? (keyOf tenant path) = (volumes.head tenant path).map (objectOf tenant)
  keys : ∀ key row, files.get? key = some row →
    ∃ tenant path, Proper tenant path ∧ key = keyOf tenant path
  places : ∀ place file, volumes.get? place = some file → Proper place.1 place.2

theorem agree_empty : Agree Table.empty Table.empty where
  same := fun _ _ _ => rfl
  keys := nofun
  places := nofun

section Rows

variable {files : FileTable} {volumes : Volumes}

def picked (volumes : Volumes) (tenant : Path) (wanted : Path → Bool) : List (Path × VolumeFile) :=
  (volumes.rows.filter fun row =>
    row.1.1 = tenant ∧ row.2.live = true ∧ wanted row.1.2 = true).map fun row => (row.1.2, row.2)

variable {tenant path start : Path}

theorem mem_picked {wanted : Path → Bool} {file : VolumeFile} :
    (path, file) ∈ picked volumes tenant wanted ↔
      volumes.head tenant path = some file ∧ wanted path = true := by
  unfold picked Volumes.head
  simp only [mem_map, Table.mem_filter_rows, Prod.exists, Prod.mk.injEq,
    Option.filter_eq_some_iff, decide_eq_true_eq]
  constructor
  · rintro ⟨tenant', path', file', ⟨hget, rfl, hlive, hwanted⟩, rfl, rfl⟩
    exact ⟨⟨hget, hlive⟩, hwanted⟩
  · rintro ⟨⟨hget, hlive⟩, hwanted⟩
    exact ⟨tenant, path, file, ⟨hget, rfl, hlive, hwanted⟩, rfl, rfl⟩

theorem nodup_picked (volumes : Volumes) (tenant : Path) (wanted : Path → Bool) :
    ((picked volumes tenant wanted).map Prod.fst).Nodup := by
  unfold picked
  rw [List.map_map]
  have hrows := (volumes.nodup.of_map _).filter fun row : (Path × Path) × VolumeFile =>
    decide (row.1.1 = tenant ∧ row.2.live = true ∧ wanted row.1.2 = true)
  refine hrows.map_on ?_
  rintro ⟨⟨t, p⟩, file⟩ hrow ⟨⟨t', p'⟩, file'⟩ hrow' heq
  obtain ⟨hmem, hchosen⟩ := mem_filter.mp hrow
  obtain ⟨hmem', hchosen'⟩ := mem_filter.mp hrow'
  simp only [decide_eq_true_eq] at hchosen hchosen'
  have hpath : p = p' := heq
  obtain ⟨rfl, _⟩ := hchosen
  obtain ⟨rfl, _⟩ := hchosen'
  subst hpath
  exact inj_on_of_nodup_map volumes.nodup hmem hmem' rfl

theorem Agree.perm (h : Agree files volumes) (hslash : '/' ∉ tenant)
    (chosen : Path × FileObject → Bool) (wanted : Path → Bool)
    (hchosen : ∀ t path row, Proper t path → files.get? (keyOf t path) = some row →
      (chosen (keyOf t path, row) = true ↔ t = tenant ∧ wanted path = true)) :
    (files.rows.filter chosen).Perm
      ((picked volumes tenant wanted).map fun row => (keyOf tenant row.1, objectOf tenant row.2)) := by
  have hleft : (files.rows.filter chosen).Nodup := (files.nodup.of_map _).filter _
  have hright : ((picked volumes tenant wanted).map fun row =>
      (keyOf tenant row.1, objectOf tenant row.2)).Nodup := by
    refine ((nodup_picked volumes tenant wanted).of_map _).map_on ?_
    rintro ⟨p, file⟩ hrow ⟨p', file'⟩ hrow' heq
    obtain ⟨_, rfl⟩ := keyOf_injective hslash hslash (Prod.mk.inj heq).1
    exact inj_on_of_nodup_map (nodup_picked volumes tenant wanted) hrow hrow' rfl
  rw [perm_ext_iff_of_nodup hleft hright]
  rintro ⟨key, row⟩
  rw [Table.mem_filter_rows, mem_map]
  constructor
  · rintro ⟨hget, hwant⟩
    obtain ⟨t, path, hproper, rfl⟩ := h.keys key row hget
    obtain ⟨rfl, hpath⟩ := (hchosen t path row hproper hget).mp hwant
    rw [h.same t path hproper] at hget
    obtain ⟨file, hhead, rfl⟩ := Option.map_eq_some_iff.mp hget
    exact ⟨(path, file), mem_picked.mpr ⟨hhead, hpath⟩, rfl⟩
  · rintro ⟨⟨path, file⟩, hmem, heq⟩
    obtain ⟨hhead, hpath⟩ := mem_picked.mp hmem
    obtain ⟨rfl, rfl⟩ := Prod.mk.inj heq
    have hproper : Proper tenant path :=
      h.places (tenant, path) file (Option.filter_eq_some_iff.mp hhead).1
    have hget : files.get? (keyOf tenant path) = some (objectOf tenant file) := by
      rw [h.same tenant path hproper, hhead]
      rfl
    exact ⟨hget, (hchosen tenant path _ hproper hget).mpr ⟨rfl, hpath⟩⟩

theorem Agree.used_eq (h : Agree files volumes) (hslash : '/' ∉ tenant) :
    files.used tenant = volumes.liveBytes tenant := by
  have hperm := h.perm hslash (fun row => row.2.tenant = some tenant) (fun _ => true) (by
      intro t path row hproper hget
      rw [h.same t path hproper] at hget
      obtain ⟨file, _, rfl⟩ := Option.map_eq_some_iff.mp hget
      simp [objectOf])
  have hsum := (hperm.map fun row => row.2.data.length).sum_eq
  unfold FileTable.used Volumes.liveBytes
  rw [hsum, List.map_map]
  unfold picked
  rw [List.map_map]
  simp [Function.comp_def, objectOf]

theorem replaced_le_used {files : FileTable} {key : Path} {row : FileObject}
    (hget : files.get? key = some row) (htenant : row.tenant = some tenant) :
    row.data.length ≤ files.used tenant := by
  unfold FileTable.used
  apply single_le_sum (fun _ _ => Nat.zero_le _)
  refine mem_map.mpr ⟨(key, row), Table.mem_filter_rows.mpr ⟨hget, ?_⟩, rfl⟩
  simpa using htenant

theorem inside_iff (hstem : FileTable.stem start ++ ['/'] = keyOf tenant path)
    (hslash : '/' ∉ tenant) {t p : Path} (ht : '/' ∉ t) :
    FileTable.inside start (keyOf t p) = true ↔ t = tenant ∧ under path p = true := by
  unfold FileTable.inside under
  rw [hstem, isPrefixOf_iff_prefix, isPrefixOf_iff_prefix]
  constructor
  · rintro ⟨rest, hrest⟩
    rw [← keyOf_append] at hrest
    obtain ⟨htenant, hpath⟩ := keyOf_injective hslash ht hrest
    exact ⟨htenant.symm, rest, hpath⟩
  · rintro ⟨rfl, rest, rfl⟩
    exact ⟨rest, (keyOf_append t path rest).symm⟩

theorem pages_within {volumes : Volumes}
    (hplaces : ∀ place file, volumes.get? place = some file → Proper place.1 place.2) :
    pages Volumes.pageSize (inOrder (volumes.within tenant path))
        ((inOrder (volumes.within tenant path)).length + 1) [] =
      inOrder (volumes.within tenant path) := by
  have hsorted := strict_inOrder (nodup_picked volumes tenant (under path))
  have hwithin : picked volumes tenant (under path) = volumes.within tenant path := rfl
  rw [hwithin] at hsorted
  have hlimit : 0 < Volumes.pageSize := by decide
  have hall : ∀ row ∈ inOrder (volumes.within tenant path), [] < row.1 := by
    rintro ⟨p, file⟩ hrow
    have hmem : (p, file) ∈ picked volumes tenant (under path) := (perm_inOrder _).mem_iff.mp hrow
    have hhead := (Option.filter_eq_some_iff.mp (mem_picked.mp hmem).1).1
    obtain ⟨c, rest, hp⟩ := exists_cons_of_ne_nil (hplaces (tenant, p) file hhead).path_ne
    dsimp only at hp
    subst hp
    exact nil_lt_cons c rest
  refine (pages_eq hlimit hsorted ?_).trans ?_
  · exact lt_of_le_of_lt (length_filter_le _ _) (Nat.lt_succ_self _)
  · exact filter_eq_self.mpr fun row hrow => by simpa using hall row hrow

theorem Agree.listing (h : Agree files volumes)
    (hstem : FileTable.stem start ++ ['/'] = keyOf tenant path) (hslash : '/' ∉ tenant) :
    ((inOrder (files.rows.filter fun row => FileTable.inside start row.1)).map fun row =>
        (⟨row.1, row.2.data.length, row.2.mtime⟩ : Entry)) =
      (inOrder (volumes.within tenant path)).map fun row =>
        ⟨keyOf tenant row.1, row.2.data.length, row.2.mtime⟩ := by
  have hperm := h.perm hslash (fun row => FileTable.inside start row.1) (under path)
    fun t p row hproper _ => inside_iff hstem hslash hproper.slash
  have hwithin : picked volumes tenant (under path) = volumes.within tenant path := rfl
  rw [hwithin] at hperm
  have hrows : inOrder (files.rows.filter fun row => FileTable.inside start row.1) =
      (inOrder (volumes.within tenant path)).map fun row =>
        (keyOf tenant row.1, objectOf tenant row.2) := by
    refine eq_of_inOrder ?_ ?_ (pairwise_inOrder _) ?_
    · exact (perm_inOrder _).trans (hperm.trans ((perm_inOrder _).symm.map _))
    · exact ((perm_inOrder _).map _).nodup_iff.mpr (files.nodup.sublist (filter_sublist.map _))
    · rw [pairwise_map]
      refine (pairwise_inOrder _).imp ?_
      intro a b hle
      rcases hle.lt_or_eq with hlt | heq
      · exact (append_left_lt (cons_lt_cons_iff.mpr (.inr ⟨rfl, hlt⟩))).le
      · exact le_of_eq (congrArg (keyOf tenant) heq)
  rw [hrows, List.map_map]
  rfl

end Rows

end Substrate.Documents
