import Substrate.Blobs.Residue
import Substrate.Blobs.Statements
import Substrate.Lib.Interference
import Substrate.Lib.Locks
import Substrate.Lib.Rehearsal

/-!
The quota of a tenant. A write takes the tenant's lock before it looks at what is used, so
that from then on no other write of the tenant commits. What it replaces it has read
before, without the lock: if that has shrunk since, it is taken off although it is not
there.
-/

namespace Substrate.Blobs.Statements

open Documents Files Lib List Function

def weigh (tenant : Path) (_ : Path) (row : BlobRow) : Nat :=
  if row.tenant = some tenant then row.size else 0

theorem used_eq (rows : Rows) (tenant : Path) : used rows tenant = rows.weight (weigh tenant) := rfl

/-- Each row is attributed to the tenant of its key. -/
def Attributed (rows : Rows) : Prop :=
  ∀ key row, rows.get? key = some row → row.tenant = FileTable.tenantOf key

variable {tenant : Path}

theorem weightAt_of_tenant {rows : Rows} (h : Attributed rows) {key : Path}
    (hkey : FileTable.tenantOf key = some tenant) :
    rows.weightAt (weigh tenant) key = sizeAt rows key := by
  unfold Table.weightAt sizeAt
  cases hget : rows.get? key with
  | none => rfl
  | some row => simp [weigh, h key row hget, hkey]

/-- What others may do to the rows while a write of a tenant has read so much: until it has
read what is used they shrink nothing that it replaces, and then they add nothing. -/
structure Allows (tenant : Path) (reads : List Read) (rows rows' : Rows) : Prop where
  attributed : Attributed rows → Attributed rows'
  seen : .used tenant ∉ reads → ∀ key, .previous key ∈ reads →
    rows.weightAt (weigh tenant) key ≤ rows'.weightAt (weigh tenant) key
  lowers : .used tenant ∈ reads → ∀ key,
    rows'.weightAt (weigh tenant) key ≤ rows.weightAt (weigh tenant) key

theorem Allows.refl (tenant : Path) (reads : List Read) (rows : Rows) :
    Allows tenant reads rows rows :=
  ⟨id, fun _ _ _ => le_refl _, fun _ _ => le_refl _⟩

theorem Allows.trans {reads : List Read} (rows₁ rows₂ rows₃ : Rows)
    (h : Allows tenant reads rows₁ rows₂) (h' : Allows tenant reads rows₂ rows₃) :
    Allows tenant reads rows₁ rows₃ where
  attributed hrows := h'.attributed (h.attributed hrows)
  seen hused key hkey := (h.seen hused key hkey).trans (h'.seen hused key hkey)
  lowers hused key := (h'.lowers hused key).trans (h.lowers hused key)

section

variable {tenant : Path} {reads : List Read} {rows rows' : Rows}

/-- There is room for some bytes in the place of the files under some keys. -/
def Room (tenant : Path) (limit : Nat) (keys : Finset Path) (adding : Nat) (rows : Rows) : Prop :=
  used rows tenant + adding ≤ limit + ∑ key ∈ keys, rows.weightAt (weigh tenant) key

variable {limit : Nat} {files : List (Path × BlobRow)}

theorem Room.lowers {adding : Nat} {keys : Finset Path} (h : Room tenant limit keys adding rows)
    (hlowers : ∀ key, rows'.weightAt (weigh tenant) key ≤ rows.weightAt (weigh tenant) key) :
    Room tenant limit keys adding rows' := by
  have hsum := Table.weight_add_sum keys fun key (_ : key ∉ keys) => hlowers key
  unfold Room at h ⊢
  rw [used_eq] at h ⊢
  omega

def puts (files : List (Path × BlobRow)) : List Image :=
  files.map fun file => .row file.1 (some file.2)

theorem putAll_cons (image : Image) (images : List Image) (rows : Rows) :
    database.putAll (image :: images) rows = database.putAll images (image.put rows) := rfl

theorem get?_puts_of_not_mem {key : Path} (h : key ∉ files.map Prod.fst) (rows : Rows) :
    (database.putAll (puts files) rows).get? key = rows.get? key := by
  induction files generalizing rows with
  | nil => rfl
  | cons file rest ih =>
    rw [map_cons, mem_cons, not_or] at h
    simp only [puts, map_cons, putAll_cons]
    have hrest := ih h.2 ((Image.row file.1 (some file.2)).put rows)
    simp only [puts] at hrest
    rw [hrest]
    simp [Image.put, h.1]

theorem get?_puts_of_mem (hnodup : (files.map Prod.fst).Nodup) {file : Path × BlobRow}
    (h : file ∈ files) (rows : Rows) :
    (database.putAll (puts files) rows).get? file.1 = some file.2 := by
  induction files generalizing rows with
  | nil => cases h
  | cons first rest ih =>
    rw [map_cons, nodup_cons] at hnodup
    simp only [puts, map_cons, putAll_cons]
    rcases mem_cons.mp h with rfl | hmem
    · have hrest := get?_puts_of_not_mem hnodup.1 ((Image.row file.1 (some file.2)).put rows)
      simp only [puts] at hrest
      rw [hrest]
      simp [Image.put]
    · exact ih hnodup.2 hmem _

theorem used_puts_le (hnodup : (files.map Prod.fst).Nodup)
    (htenant : ∀ file ∈ files, file.2.tenant = some tenant)
    (hroom : Room tenant limit (files.map Prod.fst).toFinset
      (files.map fun file => file.2.size).sum rows) :
    used (database.putAll (puts files) rows) tenant ≤ limit := by
  have houtside : ∀ key, key ∉ (files.map Prod.fst).toFinset →
      (database.putAll (puts files) rows).weightAt (weigh tenant) key ≤
        rows.weightAt (weigh tenant) key := by
    intro key hkey
    rw [mem_toFinset] at hkey
    unfold Table.weightAt
    rw [get?_puts_of_not_mem hkey]
  have hsum := Table.weight_add_sum _ houtside
  have hinside : ∑ key ∈ (files.map Prod.fst).toFinset,
      (database.putAll (puts files) rows).weightAt (weigh tenant) key =
        (files.map fun file => file.2.size).sum := by
    rw [sum_toFinset _ hnodup, List.map_map]
    congr 1
    apply map_congr_left
    intro file hfile
    simp only [comp_apply]
    rw [Table.weightAt_of_get? (get?_puts_of_mem hnodup hfile rows)]
    simp [weigh, htenant file hfile]
  unfold Room at hroom
  rw [used_eq] at hroom ⊢
  omega

end

section

variable {quota : Path → Option Nat} {tenant : Path} {limit : Nat} {images : List Image}
  {reads : List Read} {rows : Rows} {α : Type}

/-- The transaction keeps to `Q` while others do what is allowed. -/
abbrev Minds (tenant : Path) (Q : α → List Image → List Read → Rows → Prop) (t : Transaction α)
    (images : List Image) (reads : List Read) (rows : Rows) : Prop :=
  database.Keeps (Allows tenant) Q t images reads rows

/-- However others go on, the tenant stays within the quota. -/
def Settles (tenant : Path) (limit : Nat) (_ : Answer) (images : List Image) (reads : List Read)
    (rows : Rows) : Prop :=
  ∀ rows', Allows tenant reads rows rows' → used (database.putAll images rows') tenant ≤ limit

variable {Q : Unit → List Image → List Read → Rows → Prop} {key : Path}

theorem minds_enforce (keys : Finset Path) {adding replacing : Nat}
    (hquota : quota tenant = some limit) (hused : .used tenant ∉ reads)
    (hread : ∀ key ∈ keys, .previous key ∈ reads)
    (hreplacing : replacing ≤ ∑ key ∈ keys, rows.weightAt (weigh tenant) key)
    (h : ∀ rows', Room tenant limit keys adding rows' →
      Q () [.lock tenant] (.used tenant :: reads) rows') :
    Minds tenant Q (enforce quota (some tenant) adding replacing) [] reads rows := by
  unfold enforce
  simp only [Option.bind_some, hquota, Option.map_some]
  apply Engine.Keeps.bind
  apply Engine.Keeps.execute
  intro rows₁ hallows₁ new hexec
  cases hexec
  apply Engine.Keeps.bind
  apply Engine.Keeps.select
  intro rows₂ hallows₂
  have hseen : replacing ≤ ∑ key ∈ keys, rows₂.weightAt (weigh tenant) key := by
    apply hreplacing.trans
    apply Finset.sum_le_sum
    intro key hkey
    exact (hallows₁.trans _ _ _ hallows₂).seen hused key (hread key hkey)
  have htaken : used (database.putAll ([] ++ [Image.lock tenant]) rows₂) tenant =
      used rows₂ tenant := rfl
  rw [htaken]
  split
  · trivial
  · rename_i hfits
    apply h
    unfold Room
    omega

theorem minds_putRows (files : List (Path × BlobRow))
    (h : ∀ rows', Allows tenant reads rows rows' → Q () (images ++ puts files) reads rows') :
    Minds tenant Q (putRows files) images reads rows := by
  induction files generalizing images rows with
  | nil =>
    have hnil := h rows (.refl _ _ _)
    simp only [puts, map_nil, append_nil] at hnil
    exact hnil
  | cons file rest ih =>
    apply Engine.Keeps.bind
    apply Engine.Keeps.execute
    intro rows₁ hallows₁ new hexec
    cases hexec
    apply ih
    intro rows₂ hallows₂
    have hcons := h rows₂ (hallows₁.trans _ _ _ hallows₂)
    simp only [puts, map_cons, append_assoc, singleton_append] at hcons ⊢
    exact hcons

theorem minds_replacing {Q : Nat → List Image → List Read → Rows → Prop} {targets : List Path}
    (hattributed : Attributed rows) (hused : .used tenant ∉ reads)
    (htargets : ∀ target ∈ targets, FileTable.tenantOf target = some tenant)
    (done : List Path) (hdone : ∀ key ∈ done, .previous key ∈ reads) {sum : Nat}
    (hsum : sum ≤ (done.map (rows.weightAt (weigh tenant))).sum)
    (h : ∀ replaced reads' rows', Attributed rows' → .used tenant ∉ reads' →
      (∀ key ∈ done ++ targets, .previous key ∈ reads') →
        replaced ≤ ((done ++ targets).map (rows'.weightAt (weigh tenant))).sum →
          Q replaced [] reads' rows') :
    Minds tenant Q (replacing targets sum) [] reads rows := by
  induction targets generalizing reads rows done sum with
  | nil =>
    rw [append_nil] at h
    exact h sum reads rows hattributed hused hdone hsum
  | cons target rest ih =>
    apply Engine.Keeps.bind
    apply Engine.Keeps.select
    intro rows₁ hallows₁
    have hattributed₁ := hallows₁.attributed hattributed
    refine ih hattributed₁ ?_ ?_ (done ++ [target]) ?_ ?_ ?_
    · intro hmem
      rcases mem_cons.mp hmem with heq | hmem
      · cases heq
      · exact hused hmem
    · exact fun other hother => htargets other (mem_cons_of_mem _ hother)
    · intro key hkey
      rcases mem_append.mp hkey with hold | hnew
      · exact mem_cons_of_mem _ (hdone key hold)
      · rw [mem_singleton.mp hnew]
        exact mem_cons_self
    · have hgrown : (done.map (rows.weightAt (weigh tenant))).sum ≤
          (done.map (rows₁.weightAt (weigh tenant))).sum := by
        apply sum_le_sum
        intro key hkey
        exact hallows₁.seen hused key (hdone key hkey)
      have hsize : sizeAt (database.putAll [] rows₁) target =
          rows₁.weightAt (weigh tenant) target :=
        (weightAt_of_tenant hattributed₁ (htargets target mem_cons_self)).symm
      rw [map_append, sum_append, hsize]
      simp only [map_cons, map_nil, sum_cons, sum_nil]
      omega
    · intro replaced reads' rows' hrows' hused' hread hle
      rw [append_assoc, singleton_append] at hread hle
      exact h replaced reads' rows' hrows' hused' hread hle

theorem settles_of_room (files : List (Path × BlobRow)) (answer : Answer)
    (hused : .used tenant ∈ reads) (hnodup : (files.map Prod.fst).Nodup)
    (htenant : ∀ file ∈ files, file.2.tenant = some tenant)
    (hroom : Room tenant limit (files.map Prod.fst).toFinset
      (files.map fun file => file.2.size).sum rows) :
    Settles tenant limit answer ([.lock tenant] ++ puts files) reads rows := by
  intro rows' hallows
  exact used_puts_le hnodup htenant (hroom.lowers (hallows.lowers hused))

theorem minds_checked {Q : Answer → List Image → List Read → Rows → Prop} {t : Transaction Answer}
    (h : Minds tenant Q t images reads rows) :
    Minds tenant Q (checked key t) images reads rows := by
  unfold checked
  cases FileTable.check key with
  | error failure => trivial
  | ok _ => exact h

theorem minds_upload (hquota : quota tenant = some limit)
    (hkey : FileTable.tenantOf key = some tenant) (hattributed : Attributed rows)
    (data : List UInt8) (contentType blob : String) (now : Nat) :
    Minds tenant (Settles tenant limit) (upload quota key data contentType blob now) [] [] rows := by
  apply minds_checked
  apply Engine.Keeps.bind
  apply Engine.Keeps.select
  intro rows₁ hallows₁
  have hattributed₁ := hallows₁.attributed hattributed
  apply Engine.Keeps.bind
  rw [hkey]
  apply minds_enforce [key].toFinset hquota
  · intro hmem
    rcases mem_singleton.mp hmem with heq
    cases heq
  · intro other hother
    rw [mem_toFinset, mem_singleton] at hother
    rw [hother]
    exact mem_cons_self
  · have hsize : ((rows₁.get? key).map BlobRow.size).getD 0 =
        rows₁.weightAt (weigh tenant) key := (weightAt_of_tenant hattributed₁ hkey).symm
    rw [show (database.putAll [] rows₁).get? key = rows₁.get? key from rfl, hsize]
    simp
  · intro rows₂ hroom₂
    apply Engine.Keeps.bind
    apply Engine.Keeps.execute
    intro rows₃ hallows₃ new hexec
    cases hexec
    have hused : Read.used tenant ∈ [.used tenant, .previous key] := mem_cons_self
    apply settles_of_room [(key, ⟨some tenant, blob, data.length, contentType, now⟩)] _ hused
      (nodup_singleton key)
    · intro file hfile
      rw [mem_singleton.mp hfile]
    · simp only [map_cons, map_nil, sum_cons, sum_nil, Nat.add_zero]
      exact hroom₂.lowers (hallows₃.lowers hused)

end

variable {destination : Path}

theorem tenantOf_below (hne : destination ≠ "tenants".toList) (rest : Path) :
    FileTable.tenantOf (destination ++ '/' :: rest) = FileTable.tenantOf destination := by
  unfold FileTable.tenantOf
  rw [splitOn_append_cons_self]
  have hwhole : List.intercalate ['/'] (destination.splitOn '/') = destination :=
    intercalate_splitOn '/'
  cases hparts : destination.splitOn '/' with
  | nil => exact absurd hparts (splitOn_ne_nil '/' destination)
  | cons first more =>
    cases more with
    | cons tenant others => rfl
    | nil =>
      rw [hparts] at hwhole
      have hfirst : first ≠ "tenants".toList := by
        rintro rfl
        apply hne
        rw [← hwhole]
        simp
      cases hrest : rest.splitOn '/' with
      | nil => rfl
      | cons tenant others => exact if_neg fun h => hfirst h.1

theorem inside_below {rows : Rows} {start : Path} {entry : Path × BlobRow}
    (h : entry ∈ inside rows (FileTable.stem start)) :
    ∃ rest, entry.1.drop (FileTable.stem start).length = '/' :: rest := by
  have hfound := of_mem_filter ((perm_inOrder _).mem_iff.mp h)
  have hprefix := isPrefixOf_iff_prefix.mp hfound
  rw [stem_stem] at hprefix
  obtain ⟨rest, hkey⟩ := hprefix
  refine ⟨rest, ?_⟩
  rw [← hkey]
  simp

theorem nodup_inside (rows : Rows) (start : Path) : ((inside rows start).map Prod.fst).Nodup :=
  ((perm_inOrder _).map Prod.fst).nodup_iff.mpr (rows.nodup.sublist (filter_sublist.map Prod.fst))

theorem targets_spec (rows : Rows) (start destination : Path)
    (hne : destination ≠ "tenants".toList) :
    let targets := (inside rows (FileTable.stem start)).map fun entry =>
      (targetOf (FileTable.stem start) destination entry.1, entry.2)
    (targets.map Prod.fst).Nodup ∧
      ∀ entry ∈ targets, FileTable.tenantOf entry.1 = FileTable.tenantOf destination := by
  intro targets
  constructor
  · have hmap : targets.map Prod.fst = (inside rows (FileTable.stem start)).map
        fun entry => targetOf (FileTable.stem start) destination entry.1 := by
      simp [targets, comp_def]
    rw [hmap]
    apply List.Nodup.map_on _ (nodup_inside rows _).of_map
    intro entry hentry entry' hentry' heq
    exact inj_on_of_nodup_map (nodup_inside rows _) hentry hentry'
      (targetOf_inj destination hentry hentry' heq)
  · intro entry hentry
    obtain ⟨found, hfound, rfl⟩ := mem_map.mp hentry
    obtain ⟨rest, hrest⟩ := inside_below hfound
    unfold targetOf
    rw [hrest]
    exact tenantOf_below hne rest

theorem minds_copyInside {quota : Path → Option Nat} {tenant : Path} {limit : Nat} {rows : Rows}
    (hquota : quota tenant = some limit) {start : Path}
    (hdestination : FileTable.tenantOf destination = some tenant)
    (hne : destination ≠ "tenants".toList) (hattributed : Attributed rows) (fresh : Path → String)
    (now : Nat) :
    Minds tenant (Settles tenant limit)
      (copyInside quota (FileTable.stem start) destination fresh now) [] [] rows := by
  apply Engine.Keeps.bind
  apply Engine.Keeps.select
  intro rows₁ hallows₁
  have hattributed₁ := hallows₁.attributed hattributed
  obtain ⟨hnodup, htenants⟩ := targets_spec rows₁ start destination hne
  change Minds tenant _ _ [] _ rows₁
  rw [show database.putAll [] rows₁ = rows₁ from rfl]
  generalize ((inside rows₁ (FileTable.stem start)).map fun entry =>
    (targetOf (FileTable.stem start) destination entry.1, entry.2)) = targets at hnodup htenants ⊢
  rw [hdestination] at htenants ⊢
  apply Engine.Keeps.bind
  refine minds_replacing hattributed₁ ?_ ?_ [] ?_ (le_refl 0) ?_
  · intro hmem
    rcases mem_singleton.mp hmem with heq
    cases heq
  · intro target htarget
    obtain ⟨entry, hentry, rfl⟩ := mem_map.mp htarget
    exact htenants entry hentry
  · exact fun key hkey => absurd hkey not_mem_nil
  · intro replaced reads' rows₂ hattributed₂ hused hread hreplaced
    rw [nil_append] at hread hreplaced
    apply Engine.Keeps.bind
    apply minds_enforce (targets.map Prod.fst).toFinset hquota hused
    · exact fun key hkey => hread key (mem_toFinset.mp hkey)
    · rw [sum_toFinset _ hnodup]
      exact hreplaced
    · intro rows₃ hroom₃
      apply Engine.Keeps.bind
      apply minds_putRows
      intro rows₄ hallows₄
      have hkeys : (targets.map fun entry =>
          (entry.1, copyOf fresh now entry.1 entry.2)).map Prod.fst = targets.map Prod.fst := by
        simp [comp_def]
      have hsizes : ((targets.map fun entry =>
          (entry.1, copyOf fresh now entry.1 entry.2)).map fun file => file.2.size) =
            targets.map fun entry => entry.2.size := by
        simp [comp_def, copyOf]
      have hused' : Read.used tenant ∈ .used tenant :: reads' := mem_cons_self
      apply settles_of_room _ _ hused'
      · rw [hkeys]
        exact hnodup
      · intro file hfile
        obtain ⟨entry, hentry, rfl⟩ := mem_map.mp hfile
        exact htenants entry hentry
      · rw [hkeys, hsizes]
        exact hroom₃.lowers (hallows₄.lowers hused')

/-- Until it takes the lock of a tenant, the transaction does not look at what is used and
puts no file of the tenant. -/
def Bars (tenant : Path) {α : Type} : Transaction α → Prop
  | .ret _ => True
  | .raise _ => True
  | .read what next => what ≠ .used tenant ∧ ∀ rows, Bars tenant (next rows)
  | .write w next =>
    w = .lock tenant ∨
      (∀ key row, w = .put key row → row.tenant ≠ some tenant) ∧ ∀ n, Bars tenant (next n)

section

variable {quota : Path → Option Nat} {tenant : Path} {limit : Nat} {α β : Type}

theorem Bars.bind {t : Transaction α} {f : α → Transaction β} (h : Bars tenant t)
    (hf : ∀ a, Bars tenant (f a)) : Bars tenant (t >>= f) := by
  change Bars tenant (t.bind f)
  induction t with
  | ret a => exact hf a
  | raise e => trivial
  | read what next ih => exact ⟨h.1, fun rows => ih rows (h.2 rows)⟩
  | write w next ih =>
    rcases h with hlock | ⟨hputs, hnext⟩
    · exact .inl hlock
    · exact .inr ⟨hputs, fun n => ih n (hnext n)⟩

variable {key : Path} {t : Transaction Answer} {files : List (Path × BlobRow)} {what : Request}

theorem bars_checked (h : Bars tenant t) : Bars tenant (checked key t) := by
  unfold checked
  cases FileTable.check key with
  | error failure => trivial
  | ok _ => exact h

theorem bars_charged {charged : Option Path} {adding replaced : Nat} {f : Unit → Transaction α}
    (hquota : quota tenant = some limit)
    (h : charged ≠ some tenant → ∀ u, Bars tenant (f u)) :
    Bars tenant (enforce quota charged adding replaced >>= f) := by
  by_cases hcharged : charged = some tenant
  · rw [hcharged]
    unfold enforce
    simp only [Option.bind_some, hquota, Option.map_some]
    exact .inl rfl
  · apply Bars.bind _ (h hcharged)
    unfold enforce
    cases charged with
    | none => trivial
    | some t =>
      have hne : t ≠ tenant := fun heq => hcharged (by rw [heq])
      cases hlimit : quota t with
      | none =>
        simp only [Option.bind_some, hlimit, Option.map_none]
        trivial
      | some bound =>
        simp only [Option.bind_some, hlimit, Option.map_some]
        refine .inr ⟨fun key row heq => (nomatch heq), fun n => ⟨?_, fun rows => ?_⟩⟩
        · intro heq
          cases heq
          exact hne rfl
        · change Bars tenant (if _ then _ else _)
          split <;> trivial

theorem bars_replacing (targets : List Path) (sum : Nat) : Bars tenant (replacing targets sum) := by
  induction targets generalizing sum with
  | nil => trivial
  | cons target rest ih => exact ⟨fun heq => (nomatch heq), fun rows => ih _⟩

theorem bars_putRows (h : ∀ file ∈ files, file.2.tenant ≠ some tenant) :
    Bars tenant (putRows files) := by
  induction files with
  | nil => trivial
  | cons file rest ih =>
    refine .inr ⟨?_, fun n => ih fun other hother => h other (mem_cons_of_mem _ hother)⟩
    rintro key row heq
    cases heq
    exact h file mem_cons_self

theorem bars_dropAll (keys : List Path) : Bars tenant (dropAll keys) := by
  induction keys with
  | nil => trivial
  | cons key rest ih => exact .inr ⟨fun _ _ heq => (nomatch heq), fun _ => ih⟩

def Request.Proper : Request → Prop
  | .copyPrefix _ destPrefix _ _ => FileTable.stem destPrefix ≠ "tenants".toList
  | _ => True

def Request.charged : Request → Option Path
  | .upload key _ _ _ _ => FileTable.tenantOf key
  | .copyPrefix _ destPrefix _ _ => FileTable.tenantOf (FileTable.stem destPrefix)
  | _ => none

theorem bars_transaction (hquota : quota tenant = some limit) (hproper : what.Proper) :
    Bars tenant (what.transaction quota) := by
  cases what with
  | upload key data contentType blob now =>
    apply bars_checked
    refine ⟨fun heq => (by cases heq), fun rows => ?_⟩
    apply bars_charged hquota
    intro hcharged u
    refine .inr ⟨?_, fun _ => trivial⟩
    rintro key' row heq
    cases heq
    exact hcharged
  | delete key =>
    apply bars_checked
    refine ⟨fun heq => (by cases heq), fun rows => ?_⟩
    dsimp only
    cases rows.get? key with
    | none => trivial
    | some row => exact .inr ⟨fun _ _ heq => (by cases heq), fun _ => trivial⟩
  | deletePrefix start =>
    apply bars_checked
    refine ⟨fun heq => (by cases heq), fun rows => ?_⟩
    change Bars tenant (dropAll _ >>= fun _ => pure _)
    exact (bars_dropAll _).bind fun _ => trivial
  | copyPrefix sourcePrefix destPrefix fresh now =>
    apply bars_checked
    apply bars_checked
    refine ⟨fun heq => (by cases heq), fun rows => ?_⟩
    apply (bars_replacing _ 0).bind
    intro replaced
    apply bars_charged hquota
    intro hcharged u
    refine Bars.bind (bars_putRows ?_) fun _ => trivial
    intro file hfile
    obtain ⟨entry, hentry, rfl⟩ := mem_map.mp hfile
    have htenant := (targets_spec rows sourcePrefix _ hproper).2 entry hentry
    simp only [copyOf, htenant]
    exact hcharged

/-- A row that is put is of the tenant of its key, who is charged for it. -/
def Charges (charged : Option Path) (w : Write) : Prop :=
  ∀ key row, w = .put key row → row.tenant = charged ∧ row.tenant = FileTable.tenantOf key

theorem writes_checked {P : Write → Prop} (h : t.Writes P) : (checked key t).Writes P := by
  unfold checked
  cases FileTable.check key with
  | error failure => trivial
  | ok _ => exact h

theorem writes_enforce (charged : Option Path) (adding replaced : Nat) (who : Option Path) :
    (enforce quota charged adding replaced).Writes (Charges who) := by
  unfold enforce
  cases charged.bind fun t => (quota t).map fun limit => (t, limit) with
  | none => trivial
  | some entry =>
    refine ⟨fun _ _ heq => (nomatch heq), fun n rows => ?_⟩
    change Tx.Writes _ (if _ then _ else _)
    split <;> trivial

theorem writes_replacing (targets : List Path) (sum : Nat) (who : Option Path) :
    (replacing targets sum).Writes (Charges who) := by
  induction targets generalizing sum with
  | nil => trivial
  | cons target rest ih => exact fun rows => ih _

theorem writes_putRows {who : Option Path}
    (h : ∀ file ∈ files, file.2.tenant = who ∧ file.2.tenant = FileTable.tenantOf file.1) :
    (putRows files).Writes (Charges who) := by
  induction files with
  | nil => trivial
  | cons file rest ih =>
    refine ⟨?_, fun n => ih fun other hother => h other (mem_cons_of_mem _ hother)⟩
    rintro key row heq
    cases heq
    exact h file mem_cons_self

theorem writes_dropAll (keys : List Path) (who : Option Path) :
    (dropAll keys).Writes (Charges who) := by
  induction keys with
  | nil => trivial
  | cons key rest ih => exact ⟨fun _ _ heq => (nomatch heq), fun _ => ih⟩

theorem writes_transaction (hproper : what.Proper) :
    (what.transaction quota).Writes (Charges what.charged) := by
  cases what with
  | upload key data contentType blob now =>
    apply writes_checked
    intro rows
    apply (writes_enforce _ _ _ _).bind
    intro u
    refine ⟨?_, fun _ => trivial⟩
    rintro key' row heq
    cases heq
    exact ⟨rfl, rfl⟩
  | delete key =>
    apply writes_checked
    intro rows
    dsimp only
    cases rows.get? key with
    | none => trivial
    | some row => exact ⟨fun _ _ heq => (by cases heq), fun _ => trivial⟩
  | deletePrefix start =>
    apply writes_checked
    intro rows
    change Tx.Writes _ (dropAll _ >>= fun _ => pure _)
    exact (writes_dropAll _ _).bind fun _ => trivial
  | copyPrefix sourcePrefix destPrefix fresh now =>
    apply writes_checked
    apply writes_checked
    intro rows
    apply (writes_replacing _ 0 _).bind
    intro replaced
    apply (writes_enforce _ _ _ _).bind
    intro u
    refine Tx.Writes.bind (writes_putRows ?_) fun _ => trivial
    intro file hfile
    obtain ⟨entry, hentry, rfl⟩ := mem_map.mp hfile
    exact ⟨(targets_spec rows sourcePrefix _ hproper).2 entry hentry, rfl⟩

end

abbrev OpenRequest := Open Rows Read Write Image Key Failure Answer

abbrev Requests (ι : Type) := Sessions ι Rows Read Write Image Key Failure Answer Request

abbrev RequestMove (ι : Type) := Move ι Rows Read Write Failure Answer Request

def IsLock : Key → Prop
  | .lock _ => True
  | .row _ => False

section

variable {quota : Path → Option Nat} {rows : Rows}

/-- The row of each image that puts one is of this tenant, as its key is. -/
def Own (charged : Option Path) (images : List Image) : Prop :=
  ∀ key row, Image.row key (some row) ∈ images →
    row.tenant = charged ∧ row.tenant = FileTable.tenantOf key

variable {images : List Image} {key : Path} {row : BlobRow} {what : Request} {o : OpenRequest}

theorem get?_putAll (h : (database.putAll images rows).get? key = some row) :
    rows.get? key = some row ∨ Image.row key (some row) ∈ images := by
  induction images generalizing rows with
  | nil => exact .inl h
  | cons image rest ih =>
    rcases ih h with hfirst | hrest
    · cases image with
      | lock tenant => exact .inl hfirst
      | row path value =>
        change (rows.set path value).get? key = some row at hfirst
        rw [Table.get?_set] at hfirst
        split at hfirst
        · rename_i hpath
          right
          rw [hpath, hfirst]
          exact mem_cons_self
        · exact .inl hfirst
    · exact .inr (mem_cons_of_mem _ hrest)

theorem Own.attributed {charged : Option Path} (h : Own charged images) (hrows : Attributed rows) :
    Attributed (database.putAll images rows) := by
  intro key row hget
  rcases get?_putAll hget with hold | hnew
  · exact hrows key row hold
  · exact (h key row hnew).2

theorem weightAt_putAll_le {tenant : Path}
    (h : ∀ key row, Image.row key (some row) ∈ images → row.tenant ≠ some tenant) (key : Path) :
    (database.putAll images rows).weightAt (weigh tenant) key ≤
      rows.weightAt (weigh tenant) key := by
  cases hget : (database.putAll images rows).get? key with
  | none =>
    rw [Table.weightAt_of_none hget]
    exact Nat.zero_le _
  | some row =>
    rw [Table.weightAt_of_get? hget]
    rcases get?_putAll hget with hold | hnew
    · rw [Table.weightAt_of_get? hold]
    · have hzero : weigh tenant key row = 0 := if_neg (h key row hnew)
      rw [hzero]
      exact Nat.zero_le _

/-- Where an open request stands: it has put and will put what is its own, without a
tenant's lock it has put nothing of the tenant, and it keeps to the quota of the tenant
that it is charged to. -/
structure Standing (quota : Path → Option Nat) (rows : Rows) (what : Request) (o : OpenRequest) :
    Prop where
  writes : o.rest.Writes (Charges what.charged)
  own : Own what.charged o.images
  bars : ∀ tenant limit, quota tenant = some limit → .lock tenant ∈ o.held ∨
    Bars tenant o.rest ∧ .used tenant ∉ o.reads ∧
      ∀ key row, Image.row key (some row) ∈ o.images → row.tenant ≠ some tenant
  minds : ∀ tenant limit, quota tenant = some limit → what.charged = some tenant →
    Minds tenant (Settles tenant limit) o.rest o.images o.reads rows

theorem Standing.start (hproper : what.Proper) (hrows : Attributed rows) :
    Standing quota rows what ⟨what.transaction quota, [], [], [], 0⟩ where
  writes := writes_transaction hproper
  own _ _ hmem := nomatch hmem
  bars _ _ hquota := .inr ⟨bars_transaction hquota hproper, not_mem_nil, nofun⟩
  minds tenant limit hquota hcharged := by
    cases what with
    | upload key data contentType blob now =>
      exact minds_upload hquota hcharged hrows data contentType blob now
    | delete key | deletePrefix start => cases hcharged
    | copyPrefix sourcePrefix destPrefix fresh now =>
      exact minds_checked (minds_checked (minds_copyInside hquota hcharged hproper hrows fresh now))

theorem exec_images {w : Write} (hexec : database.exec w rows = .ok images)
    (h : Image.row key (some row) ∈ images) : w = .put key row := by
  cases w with
  | put key' row' =>
    cases hexec
    cases mem_singleton.mp h
    rfl
  | drop key' =>
    cases hexec
    obtain ⟨_, _, heq⟩ := mem_map.mp h
    cases heq
  | lock tenant =>
    cases hexec
    cases mem_singleton.mp h

theorem Standing.advance (h : Standing quota rows what o) :
    Standing quota rows what (database.advance o rows) := by
  have hminds : ∀ tenant limit, quota tenant = some limit → what.charged = some tenant →
      Minds tenant (Settles tenant limit) (database.advance o rows).rest
        (database.advance o rows).images (database.advance o rows).reads rows :=
    fun tenant limit hquota hcharged =>
      Engine.Keeps.advance (Allows.refl tenant) (h.minds tenant limit hquota hcharged)
  obtain ⟨rest, images, reads, held, made⟩ := o
  obtain ⟨hwrites, hown, hbars, _⟩ := h
  cases rest with
  | ret a | raise e => exact ⟨hwrites, hown, hbars, hminds⟩
  | read asked next =>
    refine ⟨hwrites _, hown, ?_, hminds⟩
    intro tenant limit hquota
    rcases hbars tenant limit hquota with hheld | ⟨⟨hne, hnext⟩, hused, hfree⟩
    · exact .inl hheld
    · refine .inr ⟨hnext _, ?_, hfree⟩
      intro hmem
      rcases mem_cons.mp hmem with heq | hmem
      · exact hne heq.symm
      · exact hused hmem
  | write w next =>
    simp only [Engine.advance] at hminds ⊢
    cases hexec : database.exec w (database.putAll images rows) with
    | error e =>
      simp only [Engine.view, hexec] at hminds ⊢
      refine ⟨trivial, hown, ?_, hminds⟩
      intro tenant limit hquota
      rcases hbars tenant limit hquota with hheld | ⟨_, hused, hfree⟩
      · exact .inl hheld
      · exact .inr ⟨trivial, hused, hfree⟩
    | ok new =>
      simp only [Engine.view, hexec] at hminds ⊢
      refine ⟨hwrites.2 _, ?_, ?_, hminds⟩
      · intro key row hmem
        rcases mem_append.mp hmem with hold | hnew
        · exact hown key row hold
        · exact hwrites.1 key row (exec_images hexec hnew)
      · intro tenant limit hquota
        rcases hbars tenant limit hquota with hheld | ⟨hlock | ⟨hputs, hnext⟩, hused, hfree⟩
        · exact .inl (mem_append_left _ hheld)
        · left
          subst hlock
          cases hexec
          exact mem_append_right _ mem_cons_self
        · refine .inr ⟨hnext _, hused, ?_⟩
          intro key row hmem
          rcases mem_append.mp hmem with hold | hnew
          · exact hfree key row hold
          · exact hputs key row (exec_images hexec hnew)

theorem Standing.beside {what' : Request} {o' : OpenRequest} (h : Standing quota rows what o)
    (h' : Standing quota rows what' o')
    (happart : ∀ tenant, .lock tenant ∈ o.held → Key.lock tenant ∉ o'.held)
    (hshrinks : ∀ tenant, what.charged = some tenant → quota tenant ≠ none →
      .used tenant ∉ o.reads → ∀ key, .previous key ∈ o.reads → rows.weightAt (weigh tenant) key ≤
          (database.view o' rows).weightAt (weigh tenant) key) :
    Standing quota (database.view o' rows) what o := by
  refine ⟨h.writes, h.own, h.bars, ?_⟩
  intro tenant limit hquota hcharged
  have hallows : Allows tenant o.reads rows (database.view o' rows) := by
    refine ⟨h'.own.attributed, hshrinks tenant hcharged (by rw [hquota]; exact nofun), ?_⟩
    intro hused
    rcases h.bars tenant limit hquota with hheld | ⟨_, hunread, _⟩
    · rcases h'.bars tenant limit hquota with hheld' | ⟨_, _, hfree⟩
      · exact absurd hheld' (happart tenant hheld)
      · exact weightAt_putAll_le hfree
    · exact absurd hused hunread
  refine (h.minds tenant limit hquota hcharged).rely Allows.trans ?_ hallows
  intro answer hsettles rows₂ hallows₂
  exact hsettles rows₂ (hallows.trans _ _ _ hallows₂)

variable {ι : Type} [DecidableEq ι]

/-- The condition on a step: no copy is opened to the prefix of all tenants, and no commit
makes a file weigh less that an open write of its tenant has read and not yet counted. -/
def Undisturbed (quota : Path → Option Nat) (s : Requests ι) : RequestMove ι → Prop
  | .start _ what _ => what.Proper
  | .commit j => ∀ i what o what' o', i ≠ j → s.opened i = some (what, o) →
      s.opened j = some (what', o') → ∀ tenant, what.charged = some tenant →
        quota tenant ≠ none → .used tenant ∉ o.reads → ∀ key, .previous key ∈ o.reads →
          s.db.weightAt (weigh tenant) key ≤ (database.view o' s.db).weightAt (weigh tenant) key
  | _ => True

/-- The runs of requests on some rows, with a condition on their steps. -/
def Runs (quota : Path → Option Nat) (met : Requests ι → RequestMove ι → Prop) (rows : Rows)
    (s : Requests ι) : Prop :=
  Steps database.move (fun s m => database.CanMoveOn IsLock s m ∧
    Engine.Opens (Request.transaction quota) m ∧ met s m) ⟨rows, fun _ => none⟩ s

structure Inv (quota : Path → Option Nat) (s : Requests ι) : Prop where
  attributed : Attributed s.db
  exclusive : Engine.ExclusiveOn IsLock s
  standing : ∀ i what o, s.opened i = some (what, o) → Standing quota s.db what o

theorem Inv.move {s : Requests ι} {m : RequestMove ι} (h : Inv quota s)
    (hcan : database.CanMoveOn IsLock s m)
    (hopens : Engine.Opens (Request.transaction quota) m) (hmeets : Undisturbed quota s m) :
    Inv quota (database.move m s) := by
  refine ⟨?_, database.exclusiveOn_move IsLock h.exclusive hcan, ?_⟩
  · cases m with
    | start i what t | rollback i => exact h.attributed
    | advance i =>
      obtain ⟨what, o, hi, _⟩ := hcan
      simp only [Engine.move, hi]
      exact h.attributed
    | commit i =>
      obtain ⟨what, o, a, hi, _⟩ := hcan
      simp only [Engine.move, hi]
      exact (h.standing i what o hi).own.attributed h.attributed
  · apply database.each_move (fun what o rows => Standing quota rows what o) h.standing
    · rintro i what t rfl
      rw [show t = what.transaction quota from hopens]
      exact .start hmeets h.attributed
    · exact fun i what o _ hi => (h.standing i what o hi).advance
    · rintro i j what what' o o' rfl hij hi hj
      exact (h.standing i what o hi).beside (h.standing j what' o' hj)
        (fun tenant hheld => h.exclusive i j what what' o o' hij hi hj _ hheld trivial)
        (hmeets i what o what' o' hij hi hj)

theorem inv_run {rows : Rows} {s : Requests ι} (hrows : Attributed rows)
    (h : Runs quota (Undisturbed quota) rows s) : Inv quota s := by
  apply Steps.invariant (P := Inv quota) _ h
  · exact ⟨hrows, fun _ _ _ _ _ _ _ hi => (nomatch hi), fun _ _ _ hi => (nomatch hi)⟩
  · exact fun s m hinv hguard => hinv.move hguard.1 hguard.2.1 hguard.2.2

/-- In a run that is undisturbed, a commit that raises what a tenant uses leaves it within
the tenant's quota, and a request that is refused leaves the rows as they are. -/
theorem quota_kept {rows : Rows} {s : Requests ι} (hrows : Attributed rows)
    (h : Runs quota (Undisturbed quota) rows s) :
    (∀ i what o answer tenant limit, s.opened i = some (what, o) → o.rest = .ret answer →
      quota tenant = some limit → used s.db tenant < used (database.move (.commit i) s).db tenant →
          used (database.move (.commit i) s).db tenant ≤ limit) ∧
      ∀ i what o e, s.opened i = some (what, o) → o.rest = .raise e →
        ¬ database.CanMoveOn IsLock s (.commit i) ∧ (database.move (.advance i) s).db = s.db ∧
          (database.move (.rollback i) s).db = s.db := by
  have hinv := inv_run hrows h
  constructor
  · intro i what o answer tenant limit hi hret hquota
    have hstanding := hinv.standing i what o hi
    simp only [Engine.move, hi]
    intro hraised
    by_cases hcharged : what.charged = some tenant
    · have hminds := hstanding.minds tenant limit hquota hcharged
      rw [hret] at hminds
      exact hminds s.db (.refl _ _ _)
    · have hle : used (database.view o s.db) tenant ≤ used s.db tenant := by
        apply Table.weight_le
        apply weightAt_putAll_le
        intro key row hmem htenant
        exact hcharged ((hstanding.own key row hmem).1.symm.trans htenant)
      omega
  · intro i what o e hi hrest
    refine ⟨?_, ?_, rfl⟩
    · rintro ⟨what', o', a, hi', hret⟩
      rw [hi] at hi'
      cases hi'
      rw [hrest] at hret
      cases hret
    · simp only [Engine.move, hi]

end

namespace Rehearsal

def file (size : Nat) : BlobRow := ⟨some ['t'], "blob", size, "", 0⟩

def a : Path := "tenants/t/a".toList

def b : Path := "tenants/t/b".toList

def rows : Rows := ⟨[(a, file 6)], by decide⟩

def quota (_ : Path) : Option Nat := some 10

def put (key : Path) (size : Nat) : Request := .upload key (List.replicate size 0) "" "new" 1

def calm (s : Requests Bool) : Turn Request → Bool
  | .start _ (.upload ..) => true
  | .start _ (.delete _) => true
  | .start _ _ => false
  | .commit i => (s.opened !i).isNone
  | .advance _ => true

/-- The first file is written again, and once it has been read it is deleted and another
one is written. -/
def stale : List (Turn Request) := [.start true (put a 6), .advance true,
    .start false (.delete a), .advance false, .advance false, .commit false,
    .start false (put b 6), .advance false, .advance false, .advance false, .advance false,
    .commit false, .advance true, .advance true, .advance true]

end Rehearsal

theorem undisturbed_of_calm (s : Requests Bool) (turn : Turn Request)
    (h : Rehearsal.calm s turn = true) :
    Undisturbed Rehearsal.quota s (turn.move (Request.transaction Rehearsal.quota)) := by
  cases turn with
  | start i what =>
    cases what with
    | copyPrefix _ _ _ _ => cases h
    | deletePrefix _ | upload _ _ _ _ _ | delete _ => trivial
  | advance i => trivial
  | commit i =>
    intro j what o what' o' hji hj
    have hother : j = !i := by
      cases i <;> cases j <;> first | rfl | exact absurd rfl hji
    simp only [Rehearsal.calm, ← hother, hj] at h
    cases h

theorem runs_of_rehearse {met : Requests Bool → Turn Request → Bool}
    {met' : Requests Bool → RequestMove Bool → Prop}
    (hmet : ∀ s turn, met s turn = true → met' s (turn.move (Request.transaction Rehearsal.quota)))
    {turns : List (Turn Request)} {s : Requests Bool}
    (h : database.rehearse (Request.transaction Rehearsal.quota) met turns
      ⟨Rehearsal.rows, fun _ => none⟩ = some s) :
    Runs Rehearsal.quota met' Rehearsal.rows s :=
  (database.steps_of_rehearse _ hmet h).mono fun _ _ hguard =>
    ⟨database.canMoveOn_of_canMove IsLock hguard.1, hguard.2⟩

theorem attributed_rehearsal : Attributed Rehearsal.rows := by
  intro key row hget
  have hmem := Table.mem_rows_iff.mpr hget
  have heq : (key, row) = (Rehearsal.a, Rehearsal.file 6) := mem_singleton.mp hmem
  cases heq
  decide

theorem quota_kept_filled :
    ∃ s : Requests Bool, Runs Rehearsal.quota (Undisturbed Rehearsal.quota) Rehearsal.rows s ∧
      used s.db ['t'] = 6 ∧ 6 < used (database.move (.commit true) s).db ['t'] ∧
        used (database.move (.commit true) s).db ['t'] ≤ 10 := by
  have hplay : ∃ s : Requests Bool, database.rehearse (Request.transaction Rehearsal.quota)
        Rehearsal.calm (.start true (Rehearsal.put Rehearsal.b 4) ::
          List.replicate 4 (.advance true)) ⟨Rehearsal.rows, fun _ => none⟩ = some s ∧
      (s.opened true).any (fun entry => entry.2.ended) = true ∧ used s.db ['t'] = 6 ∧
        6 < used (database.move (.commit true) s).db ['t'] :=
    ⟨_, rfl, by decide +kernel, by decide +kernel, by decide +kernel⟩
  obtain ⟨s, hplay, hended, hbefore, hraised⟩ := hplay
  have hruns := runs_of_rehearse undisturbed_of_calm hplay
  obtain ⟨⟨what, o⟩, hopen, hret⟩ := (Option.any_eq_true _ _).mp hended
  obtain ⟨answer, hret⟩ := Open.ended_iff.mp hret
  exact ⟨s, hruns, hbefore, hraised, (quota_kept attributed_rehearsal hruns).1 true what o answer
    ['t'] 10 hopen hret rfl (by rw [hbefore]; exact hraised)⟩

/-- What is replaced is gone when it is taken off. -/
theorem replaced_twice :
    ∃ s : Requests Bool, Runs Rehearsal.quota (fun _ _ => True) Rehearsal.rows s ∧
      (∃ what o answer, s.opened true = some (what, o) ∧ o.rest = .ret answer) ∧
        used s.db ['t'] = 6 ∧ used (database.move (.commit true) s).db ['t'] = 12 := by
  have hplay : ∃ s : Requests Bool, database.rehearse (Request.transaction Rehearsal.quota)
        (fun _ _ => true) Rehearsal.stale ⟨Rehearsal.rows, fun _ => none⟩ = some s ∧
      (s.opened true).any (fun entry => entry.2.ended) = true ∧ used s.db ['t'] = 6 ∧
        used (database.move (.commit true) s).db ['t'] = 12 :=
    ⟨_, rfl, by decide +kernel, by decide +kernel, by decide +kernel⟩
  obtain ⟨s, hplay, hended, hbefore, hafter⟩ := hplay
  obtain ⟨⟨what, o⟩, hopen, hret⟩ := (Option.any_eq_true _ _).mp hended
  obtain ⟨answer, hret⟩ := Open.ended_iff.mp hret
  exact ⟨s, runs_of_rehearse (fun _ _ _ => trivial) hplay, ⟨what, o, answer, hopen, hret⟩, hbefore,
    hafter⟩

end Substrate.Blobs.Statements
