import Substrate.Files.Custody

/-!
Deeds that are allowed and in order keep the invariant, and they keep what the other
processes rely on. Most transactions change only rows of files and versions and keep
whatever is known of the named objects; the rest is about uploads, and about the bytes
of objects that no version names.
-/

namespace Substrate.Files

open Lib List Function

namespace Custody

variable {ι : Type} {s s₁ s₂ s₃ : Custody ι} {i j : ι}

theorem Rely.uploads_refl {s s' : Custody ι} (hids : s'.ids = s.ids)
    (huploads : ∀ id, s'.store.tables.uploads.get? id = s.store.tables.uploads.get? id) :
    ∀ id ∈ s.ids, id ∈ s'.ids ∧ ∀ row', s'.store.tables.uploads.get? id = some row' →
        ∃ row, s.store.tables.uploads.get? id = some row ∧
          row' = { row with state := row'.state } := by
  intro id hid
  refine ⟨hids ▸ hid, fun row' hget => ⟨row', ?_, rfl⟩⟩
  rw [← huploads, hget]

theorem Rely.refl (i : ι) (s : Custody ι) : s.Rely i s where
  held _ h := h
  mine _ h := ⟨h.uncommitted, .inl rfl⟩
  spent _ h := h
  uploads := Rely.uploads_refl rfl fun _ => rfl

variable {key : ObjectKey} {t t' : Tables} {seen : ObjectKey → Prop}
    {good : ObjectKey → Content → Prop} {volume id : String} {images : List Image}
    {row : UploadRow} {state : UploadState} {objects : Table ObjectKey Blob} {what : Work}
    {c : Chance}

theorem Rely.mine_of (h : s₁.Rely i s₂) (hmine : s₁.Mine i key) : s₂.Mine i key :=
  ⟨h.held key hmine.held, (h.mine key hmine).1⟩

theorem Rely.trans (h : s₁.Rely i s₂) (h' : s₂.Rely i s₃) : s₁.Rely i s₃ where
  held key hheld := h'.held key (h.held key hheld)
  mine key hmine := by
    obtain ⟨huncommitted, hobject⟩ := h'.mine key (h.mine_of hmine)
    refine ⟨huncommitted, ?_⟩
    rcases hobject with hsame | hgone
    · rw [hsame]
      exact (h.mine key hmine).2
    · exact .inr hgone
  spent key hspent := h'.spent key (h.spent key hspent)
  uploads id hid := by
    obtain ⟨hid₂, hrow₂⟩ := h.uploads id hid
    obtain ⟨hid₃, hrow₃⟩ := h'.uploads id hid₂
    refine ⟨hid₃, fun row₃ hget => ?_⟩
    obtain ⟨row₂, hget₂, heq₃⟩ := hrow₃ row₃ hget
    obtain ⟨row₁, hget₁, heq₂⟩ := hrow₂ row₂ hget₂
    refine ⟨row₁, hget₁, ?_⟩
    rw [heq₃, heq₂]

theorem Spent.not_mine (h : s.Spent key) : ¬s.Mine j key := by
  intro hmine
  rcases h.ended with hcommitted | ⟨hholder, _⟩
  · exact hcommitted hmine.uncommitted
  · rw [hmine.held] at hholder
    cases hholder

theorem Inv.named (h : s.Inv) (hnamed : Named s.store.tables key) : s.committed key ≠ none := by
  obtain ⟨place, version, hget, hkey, _⟩ := hnamed
  rw [← hkey]
  exact h.coherent.seen place version hget

theorem Inv.not_named (h : s.Inv) (hmine : s.Mine j key) : ¬Named s.store.tables key :=
  fun hnamed => h.named hnamed hmine.uncommitted

theorem release_keeps [DecidableEq ι] (i : ι) (h : s.Inv) :
    (s.release i).Inv ∧ ∀ j, j ≠ i → s.Rely j (s.release i) := by
  have hnone : ∀ key, s.holder key = none → (s.release i).holder key = none := by
    intro key hkey
    simp only [release, hkey]
    rfl
  constructor
  · constructor
    · exact h.coherent
    · exact h.committed
    · intro key hkey
      apply h.holder key
      exact fun hholder => hkey (hnone key hholder)
    · exact h.uploads
    · exact h.distinct
    · exact fun id row hget hstate =>
        ⟨hnone _ (h.pending id row hget hstate).1, (h.pending id row hget hstate).2⟩
  · intro j hj
    constructor
    · intro key hkey
      have hne : ¬s.holder key = some i := by
        rw [hkey]
        exact fun heq => hj (Option.some.inj heq)
      simp only [release, if_neg hne]
      exact hkey
    · exact fun key hmine => ⟨hmine.uncommitted, .inl rfl⟩
    · intro key hspent
      refine ⟨hspent.known, hspent.unnamed, ?_⟩
      rcases hspent.ended with hcommitted | ⟨hholder, hpending⟩
      · exact .inl hcommitted
      · exact .inr ⟨hnone key hholder, hpending⟩
    · exact Rely.uploads_refl rfl fun _ => rfl

/-- Whatever is known of named objects stays known. -/
def Preserves (t t' : Tables) : Prop := ∀ seen good, Coherent seen good t → Coherent seen good t'

theorem Preserves.refl (t : Tables) : Preserves t t := fun _ _ h => h

theorem Preserves.named (hpreserves : Preserves t t') (h : Coherent seen good t)
    (hnamed : Named t' key) : Named t key := by
  have hgood : Coherent seen (fun key _ => Named t key) t :=
    h.mono (fun _ hseen => hseen) fun _ _ _ hnamed => hnamed
  obtain ⟨place, version, hget, hkey, hpurged⟩ := hnamed
  rw [← hkey]
  exact (hpreserves _ _ hgood).good place version hget hpurged

def withTables (s : Custody ι) (t : Tables) : Custody ι :=
  { s with store := { s.store with tables := t } }

theorem tables_keeps (h : s.Inv) (hpreserves : Preserves s.store.tables t)
    (huploads : ∀ id, t.uploads.get? id = s.store.tables.uploads.get? id) :
    (s.withTables t).Inv ∧ ∀ j, s.Rely j (s.withTables t) := by
  have hnamed : ∀ key, Named t key → Named s.store.tables key :=
    fun _ hname => hpreserves.named h.coherent hname
  constructor
  · constructor
    · exact hpreserves _ _ h.coherent
    · exact h.committed
    · exact h.holder
    · exact fun id row hget => h.uploads id row (huploads id ▸ hget)
    · exact fun id id' row row' hget hget' =>
        h.distinct id id' row row' (huploads id ▸ hget) (huploads id' ▸ hget')
    · exact fun id row hget => h.pending id row (huploads id ▸ hget)
  · intro j
    constructor
    · exact fun key hheld => hheld
    · exact fun key hmine => ⟨hmine.uncommitted, .inl rfl⟩
    · intro key hspent
      refine ⟨hspent.known, fun hname => hspent.unnamed (hnamed key hname), ?_⟩
      rcases hspent.ended with hcommitted | ⟨hholder, hpending⟩
      · exact .inl hcommitted
      · exact .inr ⟨hholder, fun id row hget => hpending id row (huploads id ▸ hget)⟩
    · exact Rely.uploads_refl rfl huploads

theorem after_keeps {α : Type} {x : Transaction α} (h : s.Inv)
    (hok : ∀ a t, database.run x s.store.tables = .ok (a, t) → Preserves s.store.tables t ∧
        ∀ id, t.uploads.get? id = s.store.tables.uploads.get? id) :
    (s.withTables (after x s.store.tables)).Inv ∧
      ∀ j, s.Rely j (s.withTables (after x s.store.tables)) := by
  unfold after
  cases hrun : database.run x s.store.tables with
  | error e => exact tables_keeps h (.refl _) fun _ => rfl
  | ok r =>
    obtain ⟨hpreserves, huploads⟩ := hok r.1 r.2 hrun
    exact tables_keeps h hpreserves huploads

theorem dropVolume_uploads {a : Unit} (h : database.run (dropVolume volume) t = .ok (a, t'))
    (id : String) : t'.uploads.get? id = t.uploads.get? id := by
  obtain ⟨n, t₁, hdrop, h⟩ := (Engine.run_bind_ok _).mp h
  cases h
  obtain ⟨images, hexec, _, rfl⟩ := run_update_ok hdrop
  cases hexec
  rw [uploads_putAll]
  apply foldl_eq_self
  intro image hmem
  simp only [mem_append, mem_map, mem_singleton] at hmem
  rcases hmem with (⟨_, _, rfl⟩ | ⟨_, _, rfl⟩) | rfl
  · rfl
  · rfl
  · rfl

theorem commit_keeps {path : Path} {content : Content} {by_ : String} {ifMatch : Option Nat}
    {ifNoneMatch : Bool} {stamp : Nat} {head : FileRow} (h : s.Inv)
    (hunused : Unused s.store.tables id) (hvolume : key.ofVolume = true) (hmine : s.Mine i key)
    (hblob : ∃ blob, s.store.objects.get? key = some blob ∧ Fits blob content)
    (hrun : database.run
      (commitVersion volume path key content by_ ifMatch ifNoneMatch id stamp) s.store.tables =
        .ok (head, t)) :
    ((s.commit key).withTables t).Inv ∧ ∀ j, j ≠ i → s.Rely j ((s.commit key).withTables t) := by
  obtain ⟨blob, hget, hfits⟩ := hblob
  have hgrows := grows_run ((puts_commitVersion _ _ _ _ _ _ _ _).mono fun _ => Write.Puts.adds) hrun
  have hself : (s.commit key).committed key = some blob := by
    simp only [commit, update_self, hget]
  have hother : ∀ {other}, other ≠ key → (s.commit key).committed other = s.committed other :=
    fun hne => update_of_ne hne _ _
  have hnamed : ∀ {other}, Named t other → Named s.store.tables other ∨ other = key := by
    intro other hname
    have hgood : Coherent (fun _ => True) (fun other _ => Named s.store.tables other ∨ other = key)
        s.store.tables := h.coherent.mono (fun _ _ => trivial) fun _ _ _ hname => .inl hname
    obtain ⟨place, version, hversion, hkey, hpurged⟩ := hname
    rw [← hkey]
    exact (hgood.commit hunused trivial (.inr rfl) hrun).good place version hversion hpurged
  constructor
  · constructor
    · have hkept : Coherent (fun other => (s.commit key).committed other ≠ none)
          ((s.commit key).withTables t).Good s.store.tables := by
        apply h.coherent.mono
        · intro other hcommitted
          by_cases hother' : other = key
          · rw [hother', hself]
            exact Option.some_ne_none blob
          · rw [hother hother']
            exact hcommitted
        · rintro other content' ⟨blob', hcommitted, hobject, hfits'⟩ _
          have hne : other ≠ key := by
            rintro rfl
            rw [hmine.uncommitted] at hcommitted
            cases hcommitted
          exact ⟨blob', (hother hne).trans hcommitted, hobject, hfits'⟩
      apply hkept.commit hunused _ _ hrun
      · rw [hself]
        exact Option.some_ne_none blob
      · exact ⟨blob, hself, hget, hfits⟩
    · intro other hcommitted
      by_cases hother' : other = key
      · rw [hother']
        refine ⟨h.holder key ?_, hvolume⟩
        rw [hmine.held]
        exact Option.some_ne_none i
      · exact h.committed other ((hother hother') ▸ hcommitted)
    · exact h.holder
    · exact fun id row hrow => h.uploads id row (hgrows.uploads id ▸ hrow)
    · exact fun id id' row row' hrow hrow' =>
        h.distinct id id' row row' (hgrows.uploads id ▸ hrow) (hgrows.uploads id' ▸ hrow')
    · intro id row hrow hstate
      obtain ⟨hholder, hcommitted⟩ := h.pending id row (hgrows.uploads id ▸ hrow) hstate
      refine ⟨hholder, ?_⟩
      have hne : row.objectKey ≠ key := by
        intro heq
        rw [heq, hmine.held] at hholder
        cases hholder
      exact (hother hne).trans hcommitted
  · intro j hj
    constructor
    · exact fun other hheld => hheld
    · intro other hmine'
      have hne : other ≠ key := by
        rintro rfl
        exact hj (Option.some.inj (hmine'.held.symm.trans hmine.held))
      exact ⟨(hother hne).trans hmine'.uncommitted, .inl rfl⟩
    · intro other hspent
      have hne : other ≠ key := by
        rintro rfl
        exact hspent.not_mine hmine
      refine ⟨hspent.known, ?_, ?_⟩
      · intro hname
        rcases hnamed hname with hname' | heq
        · exact hspent.unnamed hname'
        · exact hne heq
      · rcases hspent.ended with hcommitted | ⟨hholder, hpending⟩
        · exact .inl fun hnone => hcommitted ((hother hne).symm.trans hnone)
        · exact .inr ⟨hholder, fun id row hrow => hpending id row (hgrows.uploads id ▸ hrow)⟩
    · exact Rely.uploads_refl rfl hgrows.uploads

theorem uploads_coherent (h : Coherent seen good t)
    (himages : ∀ image ∈ images, ∃ id row, image = .upload id row) :
    Coherent seen good (database.putAll images t) ∧
      ∀ key, Named (database.putAll images t) key ↔ Named t key := by
  refine ⟨h.uploads fun image hmem => .inl (himages image hmem), fun key => ?_⟩
  unfold Named
  have hversions : ∀ place,
      (database.putAll images t).versions.get? place = t.versions.get? place := by
    intro place
    rw [versions_putAll]
    apply foldl_eq_self
    intro image hmem
    obtain ⟨id, row, rfl⟩ := himages image hmem
    rfl
  simp only [hversions]

theorem fewer_keeps (h : s.Inv) (himages : ∀ image ∈ images, ∃ id, image = .upload id none) :
    (s.withTables (database.putAll images s.store.tables)).Inv ∧
      ∀ j, s.Rely j (s.withTables (database.putAll images s.store.tables)) := by
  obtain ⟨hcoherent, hnamed⟩ := uploads_coherent h.coherent fun image hmem =>
    (himages image hmem).imp fun id heq => ⟨none, heq⟩
  have hold : ∀ id row, (database.putAll images s.store.tables).uploads.get? id = some row →
      s.store.tables.uploads.get? id = some row := by
    intro id row hget
    rw [uploads_putAll] at hget
    have hfold : ∀ row', images.foldl (Image.onUpload id) (s.store.tables.uploads.get? id) =
        some row' → s.store.tables.uploads.get? id = some row' := by
      apply foldl_induction (P := fun upload => ∀ row', upload = some row' →
        s.store.tables.uploads.get? id = some row')
      · exact fun _ hrow => hrow
      · intro image hmem upload hupload row' hrow
        obtain ⟨other, rfl⟩ := himages image hmem
        simp only [Image.onUpload] at hrow
        split at hrow
        · cases hrow
        · exact hupload row' hrow
    exact hfold row hget
  constructor
  · constructor
    · exact hcoherent
    · exact h.committed
    · exact h.holder
    · exact fun id row hget => h.uploads id row (hold id row hget)
    · exact fun id id' row row' hget hget' =>
        h.distinct id id' row row' (hold id row hget) (hold id' row' hget')
    · exact fun id row hget => h.pending id row (hold id row hget)
  · intro j
    constructor
    · exact fun key hheld => hheld
    · exact fun key hmine => ⟨hmine.uncommitted, .inl rfl⟩
    · intro key hspent
      refine ⟨hspent.known, fun hname => hspent.unnamed ((hnamed key).mp hname), ?_⟩
      rcases hspent.ended with hcommitted | ⟨hholder, hpending⟩
      · exact .inl hcommitted
      · exact .inr ⟨hholder, fun id row hget => hpending id row (hold id row hget)⟩
    · exact fun id hid => ⟨hid, fun row' hget => ⟨row', hold id row' hget, rfl⟩⟩

theorem create_keeps (h : s.Inv) (hid : id ∉ s.ids) (hkey : row.objectKey ∉ s.keys)
    (hvolume : row.target.isSome = true → row.objectKey.ofVolume = true) :
    let s' : Custody ι := { s with keys := row.objectKey :: s.keys, ids := id :: s.ids }
    let t := { s.store.tables with
      uploads := s.store.tables.uploads.set id (some row) }
    (s'.withTables t).Inv ∧ ∀ j, s.Rely j (s'.withTables t) := by
  intro s' t
  have huploads : ∀ id', t.uploads.get? id' =
      if id' = id then some row else s.store.tables.uploads.get? id' :=
    fun _ => Table.get?_set _ _ _ _
  have hold : ∀ id' row', t.uploads.get? id' = some row' →
      id' = id ∧ row' = row ∨ id' ≠ id ∧ s.store.tables.uploads.get? id' = some row' := by
    intro id' row' hget
    rw [huploads] at hget
    split at hget
    · next heq =>
        cases hget
        exact .inl ⟨heq, rfl⟩
    · next hne => exact .inr ⟨hne, hget⟩
  have hkeyOf : ∀ id' row', s.store.tables.uploads.get? id' = some row' →
      row'.objectKey ≠ row.objectKey :=
    fun id' row' hget heq => hkey (heq ▸ (h.uploads id' row' hget).2.1)
  constructor
  · constructor
    · exact h.coherent.of_same (fun _ => rfl) (fun _ => rfl)
    · exact fun key hcommitted =>
        ⟨mem_cons_of_mem _ (h.committed key hcommitted).1, (h.committed key hcommitted).2⟩
    · exact fun key hholder => mem_cons_of_mem _ (h.holder key hholder)
    · intro id' row' hget
      rcases hold id' row' hget with ⟨rfl, rfl⟩ | ⟨_, hget'⟩
      · exact ⟨mem_cons_self, mem_cons_self, hvolume⟩
      · obtain ⟨hmem, hmem', htarget⟩ := h.uploads id' row' hget'
        exact ⟨mem_cons_of_mem _ hmem, mem_cons_of_mem _ hmem', htarget⟩
    · intro id₁ id₂ row₁ row₂ hget₁ hget₂ hsame
      rcases hold id₁ row₁ hget₁ with ⟨rfl, rfl⟩ | ⟨_, hget₁'⟩
      · rcases hold id₂ row₂ hget₂ with ⟨heq, _⟩ | ⟨_, hget₂'⟩
        · exact heq.symm
        · exact absurd hsame.symm (hkeyOf id₂ row₂ hget₂')
      · rcases hold id₂ row₂ hget₂ with ⟨_, rfl⟩ | ⟨_, hget₂'⟩
        · exact absurd hsame (hkeyOf id₁ row₁ hget₁')
        · exact h.distinct id₁ id₂ row₁ row₂ hget₁' hget₂' hsame
    · intro id' row' hget hstate
      rcases hold id' row' hget with ⟨_, rfl⟩ | ⟨_, hget'⟩
      · constructor
        · by_contra hholder
          exact hkey (h.holder _ hholder)
        · by_contra hcommitted
          exact hkey (h.committed _ hcommitted).1
      · exact h.pending id' row' hget' hstate
  · intro j
    constructor
    · exact fun key hheld => hheld
    · exact fun key hmine => ⟨hmine.uncommitted, .inl rfl⟩
    · intro key hspent
      refine ⟨mem_cons_of_mem _ hspent.known, hspent.unnamed, ?_⟩
      rcases hspent.ended with hcommitted | ⟨hholder, hpending⟩
      · exact .inl hcommitted
      · refine .inr ⟨hholder, fun id' row' hget heq => ?_⟩
        rcases hold id' row' hget with ⟨_, rfl⟩ | ⟨_, hget'⟩
        · exact absurd (heq ▸ hspent.known) hkey
        · exact hpending id' row' hget' heq
    · intro id' hid'
      refine ⟨mem_cons_of_mem _ hid', fun row' hget => ?_⟩
      rcases hold id' row' hget with ⟨rfl, _⟩ | ⟨_, hget'⟩
      · exact absurd hid' hid
      · exact ⟨row', hget', rfl⟩

def moved (t : Tables) (id : String) (row : UploadRow) (state : UploadState) : Tables :=
  { t with uploads := t.uploads.set id (some { row with state := state }) }

theorem moved_uploads (hget : t.uploads.get? id = some row) {id' : String} {row' : UploadRow}
    (hget' : (moved t id row state).uploads.get? id' = some row') :
    ∃ old, t.uploads.get? id' = some old ∧ row' = { old with state := row'.state } ∧
      (id' = id ∧ row'.state = state ∨ row' = old) := by
  have huploads : (moved t id row state).uploads.get? id' =
      if id' = id then some { row with state := state } else t.uploads.get? id' :=
    Table.get?_set _ _ _ _
  rw [huploads] at hget'
  split at hget'
  · next heq =>
      cases hget'
      exact ⟨row, heq ▸ hget, rfl, .inl ⟨heq, rfl⟩⟩
  · exact ⟨row', hget', rfl, .inr rfl⟩

theorem moved_keeps (h : s.Inv) (hget : s.store.tables.uploads.get? id = some row)
    (hpending : state = .pending →
      s.holder row.objectKey = none ∧ s.committed row.objectKey = none) :
    (s.withTables (moved s.store.tables id row state)).Inv := by
  have hold : ∀ {id' row'}, (moved s.store.tables id row state).uploads.get? id' = some row' → _ :=
    fun hget' => moved_uploads hget hget'
  constructor
  · exact h.coherent.of_same (fun _ => rfl) (fun _ => rfl)
  · exact h.committed
  · exact h.holder
  · intro id' row' hget'
    obtain ⟨old, hold', heq, _⟩ := hold hget'
    rw [heq]
    exact h.uploads id' old hold'
  · intro id₁ id₂ row₁ row₂ hget₁ hget₂ hsame
    obtain ⟨old₁, hold₁, heq₁, _⟩ := hold hget₁
    obtain ⟨old₂, hold₂, heq₂, _⟩ := hold hget₂
    rw [heq₁, heq₂] at hsame
    exact h.distinct id₁ id₂ old₁ old₂ hold₁ hold₂ hsame
  · intro id' row' hget' hstate
    obtain ⟨old, hold', heq, ⟨rfl, hnew⟩ | rfl⟩ := hold hget'
    · rw [hget] at hold'
      cases hold'
      rw [heq]
      exact hpending (hnew ▸ hstate)
    · exact h.pending id' row' hold' hstate

theorem claim_keeps (h : s.Inv) (hget : s.store.tables.uploads.get? id = some row)
    (hstate : row.state = .pending) :
    ((s.take i row.objectKey).withTables (moved s.store.tables id row .completing)).Inv ∧
      ∀ j, j ≠ i → s.Rely j
        ((s.take i row.objectKey).withTables (moved s.store.tables id row .completing)) := by
  obtain ⟨hfree, huncommitted⟩ := h.pending id row hget hstate
  have hmoved : (s.withTables (moved s.store.tables id row .completing)).Inv :=
    moved_keeps h hget nofun
  have hother : ∀ {key}, key ≠ row.objectKey → (s.take i row.objectKey).holder key = s.holder key :=
    fun hne => update_of_ne hne _ _
  constructor
  · constructor
    · exact hmoved.coherent
    · exact hmoved.committed
    · intro key hholder
      by_cases hkey : key = row.objectKey
      · rw [hkey]
        exact (h.uploads id row hget).2.1
      · exact h.holder key ((hother hkey) ▸ hholder)
    · exact hmoved.uploads
    · exact hmoved.distinct
    · intro id' row' hget' hstate'
      obtain ⟨hholder, hcommitted⟩ := hmoved.pending id' row' hget' hstate'
      refine ⟨?_, hcommitted⟩
      obtain ⟨old, hold, heq, ⟨_, hnew⟩ | rfl⟩ := moved_uploads hget hget'
      · rw [hnew] at hstate'
        cases hstate'
      · have hne : row'.objectKey ≠ row.objectKey := by
          intro hsame
          have hid := h.distinct id' id row' row hold hget hsame
          subst hid
          have hself : (moved s.store.tables id' row .completing).uploads.get? id' =
              some { row with state := .completing } := by
            simp [moved]
          rw [show ((s.take i row.objectKey).withTables
            (moved s.store.tables id' row .completing)).store.tables.uploads.get? id' =
              some { row with state := .completing } from hself] at hget'
          cases hget'
          cases hstate'
        exact (hother hne).trans hholder
  · intro j hj
    constructor
    · intro key hheld
      have hne : key ≠ row.objectKey := by
        rintro rfl
        rw [hfree] at hheld
        cases hheld
      exact (hother hne).trans hheld
    · exact fun key hmine => ⟨hmine.uncommitted, .inl rfl⟩
    · intro key hspent
      have hne : key ≠ row.objectKey := by
        rintro rfl
        rcases hspent.ended with hcommitted | ⟨_, hpending⟩
        · exact hcommitted huncommitted
        · exact hpending id row hget rfl hstate
      refine ⟨hspent.known, hspent.unnamed, ?_⟩
      rcases hspent.ended with hcommitted | ⟨hholder, hpending⟩
      · exact .inl hcommitted
      · refine .inr ⟨(hother hne).trans hholder, fun id' row' hget' hkey hstate' => ?_⟩
        obtain ⟨old, hold, heq, ⟨_, hnew⟩ | rfl⟩ := moved_uploads hget hget'
        · rw [hnew] at hstate'
          cases hstate'
        · exact hpending id' row' hold hkey hstate'
    · intro id' hid'
      refine ⟨hid', fun row' hget' => ?_⟩
      obtain ⟨old, hold, heq, _⟩ := moved_uploads hget hget'
      exact ⟨old, hold, heq⟩

theorem finish_keeps [DecidableEq ι] (h : s.Inv) (hget : s.store.tables.uploads.get? id = some row)
    (hmine : state = .pending → s.Mine i row.objectKey) :
    ((s.release i).withTables (moved s.store.tables id row state)).Inv ∧
      ∀ j, j ≠ i → s.Rely j ((s.release i).withTables (moved s.store.tables id row state)) := by
  obtain ⟨hreleased, hrely⟩ := release_keeps i h
  constructor
  · apply moved_keeps hreleased hget
    intro hstate
    have hheld := (hmine hstate).held
    refine ⟨?_, (hmine hstate).uncommitted⟩
    simp only [release, if_pos hheld]
  · intro j hj
    have hj' := hrely j hj
    constructor
    · exact hj'.held
    · exact hj'.mine
    · intro key hspent
      have hspent' := hj'.spent key hspent
      refine ⟨hspent'.known, hspent'.unnamed, ?_⟩
      rcases hspent'.ended with hcommitted | ⟨hholder, hpending⟩
      · exact .inl hcommitted
      · refine .inr ⟨hholder, fun id' row' hget' hkey hstate' => ?_⟩
        obtain ⟨old, hold, heq, ⟨rfl, hnew⟩ | rfl⟩ := moved_uploads hget hget'
        · rw [hget] at hold
          cases hold
          rw [heq] at hkey
          exact hspent.not_mine (hkey ▸ hmine (hnew ▸ hstate'))
        · exact hpending id' row' hold hkey hstate'
    · intro id' hid'
      refine ⟨hid', fun row' hget' => ?_⟩
      obtain ⟨old, hold, heq, _⟩ := moved_uploads hget hget'
      exact ⟨old, hold, heq⟩

def withObjects (s : Custody ι) (objects : Table ObjectKey Blob) : Custody ι :=
  { s with store := { s.store with objects := objects } }

/-- Only objects that no version names are touched, and none that another process has
in hand, except that of a session by deleting it. -/
theorem objects_keeps (h : s.Inv)
    (hnamed : ∀ key, Named s.store.tables key → objects.get? key = s.store.objects.get? key)
    (hmine : ∀ j key, j ≠ i → s.Mine j key → objects.get? key = s.store.objects.get? key ∨
      key.ofVolume = false ∧ objects.get? key = none) :
    (s.withObjects objects).Inv ∧ ∀ j, j ≠ i → s.Rely j (s.withObjects objects) := by
  constructor
  · constructor
    · apply h.coherent.mono fun _ hseen => hseen
      rintro key content ⟨blob, hcommitted, hobject, hfits⟩ hname
      exact ⟨blob, hcommitted, (hnamed key hname).trans hobject, hfits⟩
    · exact h.committed
    · exact h.holder
    · exact h.uploads
    · exact h.distinct
    · exact h.pending
  · intro j hj
    constructor
    · exact fun key hheld => hheld
    · exact fun key hmine' => ⟨hmine'.uncommitted, hmine j key hj hmine'⟩
    · exact fun key hspent => ⟨hspent.known, hspent.unnamed, hspent.ended⟩
    · exact Rely.uploads_refl rfl fun _ => rfl

/-- Bytes arrive where no version and no other process notices. -/
theorem put_keeps (h : s.Inv) (hkey : s.Spares key ∨ s.Mine i key) (blob : Blob) :
    (s.withObjects (s.store.objects.set key (some blob))).Inv ∧
      ∀ j, j ≠ i → s.Rely j (s.withObjects (s.store.objects.set key (some blob))) := by
  have hother : ∀ {other}, other ≠ key →
      (s.store.objects.set key (some blob)).get? other = s.store.objects.get? other := by
    intro other hne
    rw [Table.get?_set, if_neg hne]
  apply objects_keeps h
  · intro other hname
    apply hother
    rintro rfl
    rcases hkey with hspares | hmine
    · exact hspares.1 hname
    · exact h.not_named hmine hname
  · intro j other hj hmine
    left
    apply hother
    rintro rfl
    rcases hkey with hspares | hmine'
    · have hheld := hmine.held
      rw [hspares.2] at hheld
      cases hheld
    · exact hj (Option.some.inj (hmine.held.symm.trans hmine'.held))

theorem delete_keeps {gone : ObjectKey → Prop} [DecidablePred gone] (h : s.Inv)
    (hgone : ∀ key, gone key → (key.ofVolume = true → s.Spares key) ∨ s.Spent key ∨ s.Mine i key) :
    (s.withObjects (s.store.objects.filter fun key _ => !decide (gone key))).Inv ∧ ∀ j, j ≠ i →
        s.Rely j (s.withObjects (s.store.objects.filter fun key _ => !decide (gone key))) := by
  have hkept : ∀ key, ¬gone key →
      (s.store.objects.filter fun key _ => !decide (gone key)).get? key =
        s.store.objects.get? key := by
    intro key hkey
    rw [Table.get?_filter]
    cases s.store.objects.get? key with
    | none => rfl
    | some blob => simp [Option.filter, hkey]
  have hdropped : ∀ key, gone key →
      (s.store.objects.filter fun key _ => !decide (gone key)).get? key = none := by
    intro key hkey
    rw [Table.get?_filter]
    cases s.store.objects.get? key with
    | none => rfl
    | some blob => simp [Option.filter, hkey]
  apply objects_keeps h
  · intro key hname
    apply hkept
    intro hkey
    rcases hgone key hkey with hspares | hspent | hmine
    · exact (hspares (h.committed key (h.named hname)).2).1 hname
    · exact hspent.unnamed hname
    · exact h.not_named hmine hname
  · intro j key hj hmine
    by_cases hkey : gone key
    · rcases hgone key hkey with hspares | hspent | hmine'
      · right
        refine ⟨?_, hdropped key hkey⟩
        by_contra hvolume
        have hheld := hmine.held
        rw [(hspares (by simpa using hvolume)).2] at hheld
        cases hheld
      · exact absurd hmine hspent.not_mine
      · exact absurd (Option.some.inj (hmine.held.symm.trans hmine'.held)) hj
    · exact .inl (hkept key hkey)

theorem new_keeps (h : s.Inv) (hkey : key ∉ s.keys)
    (hobjects : ∀ other, other ≠ key → objects.get? other = s.store.objects.get? other) :
    (({ s with keys := key :: s.keys }.take i key).withObjects objects).Inv ∧
      ∀ j, j ≠ i → s.Rely j (({ s with keys := key :: s.keys }.take i key).withObjects objects) := by
  have hfree : s.holder key = none := by
    by_contra hholder
    exact hkey (h.holder key hholder)
  have huncommitted : s.committed key = none := by
    by_contra hcommitted
    exact hkey (h.committed key hcommitted).1
  have hother : ∀ {other}, other ≠ key →
      ({ s with keys := key :: s.keys }.take i key).holder other = s.holder other :=
    fun hne => update_of_ne hne _ _
  constructor
  · constructor
    · apply h.coherent.mono fun _ hseen => hseen
      rintro other content ⟨blob, hcommitted, hobject, hfits⟩ _
      have hne : other ≠ key := by
        rintro rfl
        rw [huncommitted] at hcommitted
        cases hcommitted
      exact ⟨blob, hcommitted, (hobjects other hne).trans hobject, hfits⟩
    · exact fun other hcommitted =>
        ⟨mem_cons_of_mem _ (h.committed other hcommitted).1, (h.committed other hcommitted).2⟩
    · intro other hholder
      by_cases heq : other = key
      · exact heq ▸ mem_cons_self
      · exact mem_cons_of_mem _ (h.holder other (hother heq ▸ hholder))
    · intro id row hget
      obtain ⟨hid, hmem, htarget⟩ := h.uploads id row hget
      exact ⟨hid, mem_cons_of_mem _ hmem, htarget⟩
    · exact h.distinct
    · intro id row hget hstate
      obtain ⟨hholder, hcommitted⟩ := h.pending id row hget hstate
      have hne : row.objectKey ≠ key := fun heq => hkey (heq ▸ (h.uploads id row hget).2.1)
      exact ⟨(hother hne).trans hholder, hcommitted⟩
  · intro j hj
    have hne : ∀ {other}, s.holder other = some j → other ≠ key := by
      rintro other hheld rfl
      rw [hfree] at hheld
      cases hheld
    constructor
    · exact fun other hheld => (hother (hne hheld)).trans hheld
    · exact fun other hmine => ⟨hmine.uncommitted, .inl (hobjects other (hne hmine.held))⟩
    · intro other hspent
      refine ⟨mem_cons_of_mem _ hspent.known, hspent.unnamed, ?_⟩
      rcases hspent.ended with hcommitted | ⟨hholder, hpending⟩
      · exact .inl hcommitted
      · have hne' : other ≠ key := fun heq => hkey (heq ▸ hspent.known)
        exact .inr ⟨(hother hne').trans hholder, hpending⟩
    · exact Rely.uploads_refl rfl fun _ => rfl

theorem same_keeps (store : Store) (h : s.Inv) (htables : store.tables = s.store.tables)
    (hobjects : store.objects = s.store.objects) :
    ({ s with store := store } : Custody ι).Inv ∧ ∀ j, s.Rely j { s with store := store } := by
  obtain ⟨tables, objects, assets, issued⟩ := store
  subst htables hobjects
  constructor
  · exact ⟨h.coherent, h.committed, h.holder, h.uploads, h.distinct, h.pending⟩
  · intro j
    constructor
    · exact fun key hheld => hheld
    · exact fun key hmine => ⟨hmine.uncommitted, .inl rfl⟩
    · exact fun key hspent => ⟨hspent.known, hspent.unnamed, hspent.ended⟩
    · exact Rely.uploads_refl rfl fun _ => rfl

theorem run_moveUpload (id : String) (expected state : UploadState) (t : Tables) :
    database.run (moveUpload id expected state) t =
      match (t.uploads.get? id).filter fun row => row.state = expected with
      | some row => .ok (true, moved t id row state)
      | none => .ok (false, t) := by
  unfold moveUpload update
  rw [Engine.run_bind, Engine.run_execute]
  simp only [database, Write.exec]
  cases (t.uploads.get? id).filter fun row => row.state = expected with
  | none | some row => rfl

theorem after_moveUpload (id : String) (expected state : UploadState) (t : Tables) :
    after (moveUpload id expected state) t =
      match (t.uploads.get? id).filter fun row => row.state = expected with
      | some row => moved t id row state
      | none => t := by
  unfold after
  rw [run_moveUpload]
  cases (t.uploads.get? id).filter fun row => row.state = expected with
  | none | some row => rfl

variable [DecidableEq ι]

theorem move_keeps {expected : UploadState} (h : s.Inv)
    (hinOrder : s.InOrder i what (.call (.moveUpload id expected state))) :
    let s' := s.apply i what (.call (.moveUpload id expected state)) c
    s'.Inv ∧ ∀ j, j ≠ i → s.Rely j s' := by
  simp only [apply, Deed.apply, Call.apply, after_moveUpload]
  rcases hinOrder with ⟨rfl, rfl⟩ | ⟨rfl, hmine⟩
  · simp only [remember]
    cases hfound : (s.store.tables.uploads.get? id).filter fun row => row.state = .pending with
    | none => exact ⟨h, fun j _ => .refl j s⟩
    | some row =>
      obtain ⟨hget, hstate⟩ := Option.filter_eq_some_iff.mp hfound
      exact claim_keeps h hget (of_decide_eq_true hstate)
  · have hremember : s.remember i (.call (.moveUpload id .completing state)) = s.release i := by
      cases state <;> rfl
    rw [hremember]
    cases hfound : (s.store.tables.uploads.get? id).filter fun row => row.state = .completing with
    | none => exact release_keeps i h
    | some row =>
      obtain ⟨hget, _⟩ := Option.filter_eq_some_iff.mp hfound
      exact finish_keeps h hget fun hstate => hmine hstate row hget

theorem call_keeps {call : Call} (h : s.Inv) (hordinary : s.Ordinary (.call call))
    (hcareful : s.Careful what (.call call)) (hinOrder : s.InOrder i what (.call call)) :
    (s.apply i what (.call call) c).Inv ∧
      ∀ j, j ≠ i → s.Rely j (s.apply i what (.call call) c) := by
  have hothers : ∀ {s' : Custody ι}, (s'.Inv ∧ ∀ j, s.Rely j s') →
      s'.Inv ∧ ∀ j, j ≠ i → s.Rely j s' :=
    fun hkeeps => ⟨hkeeps.1, fun j _ => hkeeps.2 j⟩
  cases call with
  | commit volume path key content by_ ifMatch ifNoneMatch id stamp =>
    obtain ⟨hvolume, hmine, hblob⟩ := hinOrder
    simp only [apply, remember, Deed.apply, Call.apply, after]
    cases hrun : database.run
        (commitVersion volume path key content by_ ifMatch ifNoneMatch id stamp)
          s.store.tables with
    | error e => exact ⟨h, fun j _ => .refl j s⟩
    | ok r => exact commit_keeps h hordinary hvolume hmine hblob hrun
  | softDelete volume path ifMatch stamp =>
    apply hothers
    apply after_keeps h
    intro a t hrun
    have hwrites : (Files.softDelete volume path ifMatch stamp).Writes (Write.Deletes volume) :=
      deletes_softDelete path ifMatch stamp
    exact ⟨fun _ _ hcoherent => hcoherent.deletes hwrites hrun,
      (grows_run (hwrites.mono fun _ => Write.Deletes.adds) hrun).uploads⟩
  | deletePrefix volume start stamp =>
    apply hothers
    apply after_keeps (x := Files.deletePrefix volume start stamp) h
    intro a t hrun
    have hwrites : (Files.deletePrefix volume start stamp).Writes (Write.Deletes volume) :=
      deletes_deletePrefix start stamp
    exact ⟨fun _ _ hcoherent => hcoherent.deletes hwrites hrun,
      (grows_run (hwrites.mono fun _ => Write.Deletes.adds) hrun).uploads⟩
  | copyPrefix volume source destination by_ overwrite order newId stamp =>
    obtain ⟨horder, hinjective, hunused⟩ := hordinary
    apply hothers
    apply after_keeps h
    intro a t hrun
    exact ⟨fun _ _ hcoherent => hcoherent.copy horder hinjective hunused hrun,
      (grows_run ((puts_copyPrefix _ _ _ _ _ _ _).mono fun _ => Write.Puts.adds) hrun).uploads⟩
  | restore volume path version by_ ifMatch id stamp =>
    apply hothers
    apply after_keeps h
    intro a t hrun
    exact ⟨fun _ _ hcoherent => hcoherent.restore hcareful hrun,
      (grows_run ((puts_restore _ _ _ _ _ _).mono fun _ => Write.Puts.adds) hrun).uploads⟩
  | purge cutoff limit order stamp =>
    apply hothers
    apply after_keeps h
    exact fun a t hrun =>
      ⟨fun _ _ hcoherent => hcoherent.purge hinOrder hrun, (purgeVersions_ok hinOrder hrun).uploads⟩
  | erase volume start =>
    apply hothers
    apply after_keeps h
    exact fun a t hrun =>
      ⟨fun _ _ hcoherent => hcoherent.erase hrun, (erasePrefix_ok hrun).uploads⟩
  | createUpload id row =>
    obtain ⟨hid, hkey⟩ := hordinary
    have hfree : s.store.tables.uploads.get? id = none := by
      by_contra hsome
      obtain ⟨old, hget⟩ := Option.ne_none_iff_exists'.mp hsome
      exact hid (h.uploads id old hget).1
    have hafter : after (createUpload id row) s.store.tables = { s.store.tables with
        uploads := s.store.tables.uploads.set id (some row) } := by
      unfold after createUpload update
      rw [Engine.run_bind, Engine.run_execute]
      simp only [database, Write.exec, hfree]
      rfl
    simp only [apply, remember, Deed.apply, Call.apply, hafter]
    exact hothers (create_keeps h hid hkey hinOrder.2)
  | moveUpload id expected state => exact move_keeps h hinOrder
  | forgetUpload id =>
    apply hothers
    apply fewer_keeps h
    intro image hmem
    obtain ⟨_, _, rfl⟩ := mem_map.mp hmem
    exact ⟨id, rfl⟩
  | eraseUploads chosen =>
    apply hothers
    apply fewer_keeps h
    intro image hmem
    obtain ⟨row, _, rfl⟩ := mem_map.mp hmem
    exact ⟨row.1, rfl⟩
  | dropVolume volume =>
    apply hothers
    apply after_keeps (x := Files.dropVolume volume) h
    exact fun a t hrun => ⟨fun _ _ hcoherent => hcoherent.drop hrun, dropVolume_uploads hrun⟩

theorem act_keeps {deed : Deed} (h : s.Inv) (hordinary : s.Ordinary deed)
    (hcareful : s.Careful what deed) (hinOrder : s.InOrder i what deed) :
    (s.apply i what deed c).Inv ∧ ∀ j, j ≠ i → s.Rely j (s.apply i what deed c) := by
  have hnothing : s.Inv ∧ ∀ j, j ≠ i → s.Rely j s := ⟨h, fun j _ => .refl j s⟩
  cases deed with
  | look => exact hnothing
  | issue =>
    have hsame := same_keeps { s.store with issued := c.fresh :: s.store.issued } h rfl rfl
    exact ⟨hsame.1, fun j _ => hsame.2 j⟩
  | unregister volume =>
    have hsame := same_keeps
      { s.store with assets := s.store.assets.filter (· ≠ volume) } h rfl rfl
    exact ⟨hsame.1, fun j _ => hsame.2 j⟩
  | call call => exact call_keeps h hordinary hcareful hinOrder
  | put key =>
    simp only [apply, remember, Deed.apply]
    split
    · exact hnothing
    · apply put_keeps h
      rcases hinOrder with hclient | hmine
      · exact .inl (hcareful hclient)
      · exact .inr hmine
  | write key blob =>
    simp only [apply, remember, Deed.apply]
    split
    · exact new_keeps h hordinary fun _ _ => rfl
    · apply new_keeps h hordinary
      intro other hne
      rw [Table.get?_set, if_neg hne]
  | copy source destination =>
    simp only [apply, remember, Deed.apply]
    split
    · exact new_keeps h hordinary fun _ _ => rfl
    · split
      · exact new_keeps h hordinary fun _ _ => rfl
      · apply new_keeps h hordinary
        intro other hne
        rw [Table.get?_set, if_neg hne]
  | delete why keys =>
    simp only [apply, remember, Deed.apply]
    split
    · exact hnothing
    · have hkeys : ∀ key, key ∈ keys →
          (key.ofVolume = true → s.Spares key) ∨ s.Spent key ∨ s.Mine i key := by
        intro key hmem
        rcases hinOrder with hrow | hrest
        · exact .inl (hcareful hrow key hmem)
        · exact .inr (hrest key hmem)
      have hdelete := delete_keeps h hkeys
      simpa [withObjects] using hdelete
  | deleteVolume volume =>
    simp only [apply, remember, Deed.apply]
    split
    · exact hnothing
    · have hkeys : ∀ key : ObjectKey, key.within volume = true →
          (key.ofVolume = true → s.Spares key) ∨ s.Spent key ∨ s.Mine i key :=
        fun key hwithin => .inl fun _ => hcareful key hwithin
      have hdelete := delete_keeps h hkeys
      simpa [withObjects] using hdelete

end Custody

theorem stage_keeps (ι : Type) [DecidableEq ι] :
    (stage ι).Keeps (discipline ι Custody.Careful) where
  refl := Custody.Rely.refl
  trans _ _ _ _ h h' := h.trans h'
  act _ _ _ _ _ hinv hallowed hinOrder := Custody.act_keeps hinv hallowed.1 hallowed.2 hinOrder
  leave i _ hinv := Custody.release_keeps i hinv

end Substrate.Files
