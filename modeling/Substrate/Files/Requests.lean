import Substrate.Files.Objects
import Substrate.Lib.Interference

/-!
Requests to the file catalog that share the database. Each is one transaction; between
its statements other requests can commit. A request writes rows of its own volume only,
and what it makes of them is said by its kind.
-/

namespace Substrate.Files

open Lib List

inductive Request where
  | commit (volume : String) (path : Path) (key : ObjectKey) (content : Content) (by_ : String)
      (ifMatch : Option Nat) (ifNoneMatch : Bool) (id : String) (stamp : Nat)
  | copy (volume : String) (source destination : Path) (by_ : String) (overwrite : Bool)
      (order : List (Path × FileRow) → List (Path × FileRow))
      (horder : ∀ rows, (order rows).Perm rows) (newId : Path → String) (stamp : Nat)
  | restore (volume : String) (path : Path) (version : Option Nat) (by_ : String)
      (ifMatch : Option Nat) (id : String) (stamp : Nat)
  | softDelete (volume : String) (path : Path) (ifMatch : Option Nat) (stamp : Nat)
  | deletePrefix (volume : String) (start : Path) (stamp : Nat)
  | setQuota (volume : String) (maxBytes : Option Nat)

def unanswered {α : Type} (t : Transaction α) : Transaction Unit := do
  let _ ← t
  pure ()

namespace Request

def transaction : Request → Transaction Unit
  | .commit volume path key content by_ ifMatch ifNoneMatch id stamp =>
    unanswered (commitVersion volume path key content by_ ifMatch ifNoneMatch id stamp)
  | .copy volume source destination by_ overwrite order _ newId stamp =>
    unanswered (copyPrefix volume source destination by_ overwrite order newId stamp)
  | .restore volume path version by_ ifMatch id stamp =>
    unanswered (Files.restore volume path version by_ ifMatch id stamp)
  | .softDelete volume path ifMatch stamp =>
    unanswered (Files.softDelete volume path ifMatch stamp)
  | .deletePrefix volume start stamp => unanswered (Files.deletePrefix volume start stamp)
  | .setQuota volume maxBytes => unanswered (Files.setQuota volume maxBytes)

def volume : Request → String
  | .commit volume _ _ _ _ _ _ _ _ => volume
  | .copy volume _ _ _ _ _ _ _ _ => volume
  | .restore volume _ _ _ _ _ _ => volume
  | .softDelete volume _ _ _ => volume
  | .deletePrefix volume _ _ => volume
  | .setQuota volume _ => volume

inductive Kind where
  | puts | deletes | limits
  deriving DecidableEq

def kind : Request → Kind
  | .commit _ _ _ _ _ _ _ _ _ => .puts
  | .copy _ _ _ _ _ _ _ _ _ => .puts
  | .restore _ _ _ _ _ _ _ => .puts
  | .softDelete _ _ _ _ => .deletes
  | .deletePrefix _ _ _ => .deletes
  | .setQuota _ _ => .limits

end Request

/-- The statements of `set_quota` on a volume. -/
def Write.Limits (volume : String) : Write → Prop
  | .updateQuota owner _ => owner = volume
  | .insertQuota owner _ => owner = volume
  | .deleteQuota owner => owner = volume
  | _ => False

def Write.Of (volume : String) : Request.Kind → Write → Prop
  | .puts => Write.Puts volume
  | .deletes => Write.Deletes volume
  | .limits => Write.Limits volume

theorem limits_setQuota {volume : String} (maxBytes : Option Nat) :
    (setQuota volume maxBytes).Writes (Write.Limits volume) := by
  cases maxBytes with
  | none => exact ⟨rfl, fun _ => trivial⟩
  | some maxBytes =>
    refine ⟨rfl, fun n => ?_⟩
    change Tx.Writes _ (if n = 0 then _ else _)
    split
    · exact ⟨rfl, fun _ => trivial⟩
    · trivial

theorem Request.writes (what : Request) :
    what.transaction.Writes (Write.Of what.volume what.kind) := by
  cases what with
  | commit volume path key content by_ ifMatch ifNoneMatch id stamp =>
    exact (puts_commitVersion path key content by_ ifMatch ifNoneMatch id stamp).bind
      fun _ => trivial
  | copy volume source destination by_ overwrite order horder newId stamp =>
    exact (puts_copyPrefix source destination by_ overwrite order newId stamp).bind fun _ => trivial
  | restore volume path version by_ ifMatch id stamp =>
    exact (puts_restore path version by_ ifMatch id stamp).bind fun _ => trivial
  | softDelete volume path ifMatch stamp =>
    exact (deletes_softDelete path ifMatch stamp).bind fun _ => trivial
  | deletePrefix volume start stamp =>
    exact (deletes_deletePrefix start stamp).bind fun _ => trivial
  | setQuota volume maxBytes => exact (limits_setQuota maxBytes).bind fun _ => trivial

theorem keeps_check {R : List Read → Tables → Tables → Prop}
    {Q : Unit → List Image → List Read → Tables → Prop} {r : Except Problem Unit}
    {images : List Image} {reads : List Read} {t : Tables}
    (h : r = .ok () → Q () images reads t) : database.Keeps R Q (check r) images reads t := by
  cases r with
  | ok _ => exact h rfl
  | error problem => trivial

section

variable {images : List Image} {volume : String} {path : Path}

theorem files_of_not_mem (t : Tables) (h : Key.file volume path ∉ images.map Image.key) :
    (database.putAll images t).files.get? (volume, path) = t.files.get? (volume, path) := by
  rw [files_putAll]
  apply foldl_eq_self
  intro image hmem
  cases image with
  | file owner other row =>
    have hne : (volume, path) ≠ (owner, other) := by
      intro heq
      cases heq
      exact h (mem_map.mpr ⟨_, hmem, rfl⟩)
    simp [Image.onFile, hne]
  | version fileId number row | quota owner maxBytes | upload id row => rfl

theorem versions_of_not_mem {place : String × Nat} (t : Tables)
    (h : Key.version place.1 place.2 ∉ images.map Image.key) :
    (database.putAll images t).versions.get? place = t.versions.get? place := by
  rw [versions_putAll]
  apply foldl_eq_self
  intro image hmem
  cases image with
  | version fileId number row =>
    have hne : place ≠ (fileId, number) := by
      rintro rfl
      exact h (mem_map.mpr ⟨_, hmem, rfl⟩)
    simp [Image.onVersion, hne]
  | file owner other row | quota owner maxBytes | upload id row => rfl

theorem quotas_of_not_mem (t : Tables) (h : Key.quota volume ∉ images.map Image.key) :
    (database.putAll images t).quotas.get? volume = t.quotas.get? volume := by
  rw [quotas_putAll]
  apply foldl_eq_self
  intro image hmem
  cases image with
  | quota owner maxBytes =>
    have hne : volume ≠ owner := by
      rintro rfl
      exact h (mem_map.mpr ⟨_, hmem, rfl⟩)
    simp [Image.onQuota, hne]
  | version fileId number row | file owner other row | upload id row => rfl

theorem foldl_congr_of_mem {α β : Type} {f : β → α → β} {items : List α}
    (hitem : ∀ item ∈ items, (∀ b, f b item = b) ∨ ∀ b b', f b item = f b' item)
    (hsome : ∃ item ∈ items, ∀ b b', f b item = f b' item) (b b' : β) :
    items.foldl f b = items.foldl f b' := by
  induction items generalizing b b' with
  | nil =>
    obtain ⟨item, hmem, _⟩ := hsome
    cases hmem
  | cons item rest ih =>
    rw [foldl_cons, foldl_cons]
    obtain ⟨other, hmem, hother⟩ := hsome
    rcases mem_cons.mp hmem with rfl | hmem
    · rw [hother b b']
    · exact ih (fun item' hmem' => hitem item' (mem_cons_of_mem _ hmem')) ⟨other, hmem, hother⟩ _ _

theorem files_of_mem (t t' : Tables) (h : Key.file volume path ∈ images.map Image.key) :
    (database.putAll images t).files.get? (volume, path) =
      (database.putAll images t').files.get? (volume, path) := by
  rw [files_putAll, files_putAll]
  apply foldl_congr_of_mem
  · intro image _
    cases image with
    | file owner other row =>
      by_cases heq : (volume, path) = (owner, other)
      · right
        intro b b'
        simp [Image.onFile, heq]
      · left
        intro b
        simp only [Image.onFile, if_neg heq]
    | version fileId number row | quota owner maxBytes | upload id row => exact .inl fun _ => rfl
  · obtain ⟨image, hmem, hkey⟩ := mem_map.mp h
    refine ⟨image, hmem, ?_⟩
    intro b b'
    cases image with
    | file owner other row =>
      cases hkey
      simp [Image.onFile]
    | version fileId number row | quota owner maxBytes | upload id row => cases hkey

theorem quotas_of_mem (t t' : Tables) (h : Key.quota volume ∈ images.map Image.key) :
    (database.putAll images t).quotas.get? volume =
      (database.putAll images t').quotas.get? volume := by
  rw [quotas_putAll, quotas_putAll]
  apply foldl_congr_of_mem
  · intro image _
    cases image with
    | quota owner maxBytes =>
      by_cases heq : volume = owner
      · right
        intro b b'
        simp [Image.onQuota, heq]
      · left
        intro b
        simp only [Image.onQuota, if_neg heq]
    | version fileId number row | file owner other row | upload id row => exact .inl fun _ => rfl
  · obtain ⟨image, hmem, hkey⟩ := mem_map.mp h
    refine ⟨image, hmem, ?_⟩
    intro b b'
    cases image with
    | quota owner maxBytes =>
      cases hkey
      simp [Image.onQuota]
    | version fileId number row | file owner other row | upload id row => cases hkey

end

section

variable {volume : String} {t : Tables}

variable {source destination : Path}

theorem copyTarget_inj {path path' : Path} (h : under source path = true)
    (h' : under source path' = true)
    (heq : copyTarget source destination path = copyTarget source destination path') :
    path = path' := by
  obtain ⟨rest, rfl⟩ := isPrefixOf_iff_prefix.mp h
  obtain ⟨rest', rfl⟩ := isPrefixOf_iff_prefix.mp h'
  unfold copyTarget at heq
  rw [drop_left, drop_left] at heq
  rw [append_cancel_left heq]

theorem targets_nodup {order : List (Path × FileRow) → List (Path × FileRow)}
    (horder : ∀ rows, (order rows).Perm rows) (limit : Nat) :
    ((((order (t.liveUnder volume source)).take limit).map fun entry =>
      copyTarget source destination entry.1)).Nodup := by
  have hperm := horder (t.liveUnder volume source)
  have hpaths : (((order (t.liveUnder volume source)).take limit).map Prod.fst).Nodup :=
    ((take_sublist _ _).map Prod.fst).nodup
      ((hperm.map Prod.fst).nodup_iff.mpr (liveUnder_nodup source))
  rw [List.Nodup, pairwise_map] at hpaths ⊢
  apply hpaths.imp_of_mem
  intro entry entry' hmem hmem' hne heq
  apply hne
  have hunder : ∀ other ∈ (order (t.liveUnder volume source)).take limit,
      under source other.1 = true := fun other hother =>
    under_of_mem_liveUnder (hperm.subset (mem_of_mem_take hother))
  exact copyTarget_inj (hunder entry hmem) (hunder entry' hmem') heq

end

def Faded (old new : Option FileRow) : Prop :=
  new = old ∨ ∃ row stamp, old = some row ∧ new = some { row with deletedAt := some stamp }

theorem Faded.refl (row : Option FileRow) : Faded row row := .inl rfl

variable {row₁ row₂ row₃ : Option FileRow} {kind : Request.Kind} {owner volume : String}
    {t d : Tables} {images : List Image} {w : Write} {what : Request} {o : OpenRequest}
    {ι : Type}

theorem Faded.trans (h : Faded row₁ row₂) (h' : Faded row₂ row₃) : Faded row₁ row₃ := by
  rcases h' with rfl | ⟨row, stamp, h₂, rfl⟩
  · exact h
  · rcases h with rfl | ⟨row', stamp', rfl, rfl⟩
    · exact .inr ⟨row, stamp, h₂, rfl⟩
    · cases h₂
      exact .inr ⟨row', stamp, rfl, rfl⟩

theorem Faded.live {row : FileRow} {new : Option FileRow} (h : Faded (some row) new)
    (hlive : new.any FileRow.live = true) : new = some row := by
  rcases h with rfl | ⟨row', stamp, hrow, rfl⟩
  · rfl
  · simp [FileRow.live] at hlive

/-- What a kind of request on `owner` may make of a file of `volume`. -/
def Request.Kind.OnFile (kind : Request.Kind) (owner volume : String) :
    Option FileRow → Option FileRow → Prop :=
  if owner = volume then
    match kind with
    | .puts => fun _ _ => True
    | .deletes => Faded
    | .limits => Eq
  else Eq

/-- What a kind of request on `owner` may make of the quota of `volume`. -/
def Request.Kind.OnQuota (kind : Request.Kind) (owner volume : String) :
    Option Nat → Option Nat → Prop :=
  if owner = volume ∧ kind = .limits then fun _ _ => True else Eq

theorem Request.Kind.OnFile.refl (kind : Request.Kind) (owner volume : String)
    (row : Option FileRow) : kind.OnFile owner volume row row := by
  unfold OnFile
  split
  · cases kind with
    | puts => trivial
    | deletes => exact Faded.refl row
    | limits => rfl
  · rfl

theorem Request.Kind.OnFile.trans (h : kind.OnFile owner volume row₁ row₂)
    (h' : kind.OnFile owner volume row₂ row₃) : kind.OnFile owner volume row₁ row₃ := by
  by_cases howner : owner = volume
  · simp only [OnFile, if_pos howner] at h h' ⊢
    cases kind with
    | puts => trivial
    | deletes => exact Faded.trans h h'
    | limits => exact Eq.trans h h'
  · simp only [OnFile, if_neg howner] at h h' ⊢
    exact h.trans h'

theorem Request.Kind.OnQuota.refl (kind : Request.Kind) (owner volume : String)
    (row : Option Nat) : kind.OnQuota owner volume row row := by
  unfold OnQuota
  split
  · trivial
  · rfl

theorem Request.Kind.OnQuota.trans {row₁ row₂ row₃ : Option Nat}
    (h : kind.OnQuota owner volume row₁ row₂) (h' : kind.OnQuota owner volume row₂ row₃) :
    kind.OnQuota owner volume row₁ row₃ := by
  by_cases howner : owner = volume ∧ kind = .limits
  · simp only [OnQuota, if_pos howner]
  · simp only [OnQuota, if_neg howner] at h h' ⊢
    exact h.trans h'

/-- The second database is what a kind of request on `owner` may make of the first, as
far as `volume` goes. -/
structure Within (kind : Request.Kind) (owner volume : String) (t t' : Tables) : Prop where
  files : ∀ path,
    kind.OnFile owner volume (t.files.get? (volume, path)) (t'.files.get? (volume, path))
  quota : kind.OnQuota owner volume (t.quotas.get? volume) (t'.quotas.get? volume)

theorem Within.refl (kind : Request.Kind) (owner volume : String) (t : Tables) :
    Within kind owner volume t t :=
  ⟨fun _ => .refl kind owner volume _, .refl kind owner volume _⟩

theorem Within.trans {t₁ t₂ t₃ : Tables} (h : Within kind owner volume t₁ t₂)
    (h' : Within kind owner volume t₂ t₃) : Within kind owner volume t₁ t₃ :=
  ⟨fun path => (h.files path).trans (h'.files path), h.quota.trans h'.quota⟩

theorem foldl_induction {α β : Type} {P : β → Prop} {f : β → α → β} {items : List α} {b : β}
    (hb : P b) (hturn : ∀ item ∈ items, ∀ b, P b → P (f b item)) : P (items.foldl f b) := by
  induction items generalizing b with
  | nil => exact hb
  | cons item rest ih =>
    rw [foldl_cons]
    exact ih (hturn item mem_cons_self b hb) fun other hmem => hturn other (mem_cons_of_mem _ hmem)

theorem Within.of_images (hfile : ∀ image ∈ images, ∀ path row, image = .file volume path row →
      kind.OnFile owner volume (t.files.get? (volume, path)) row)
    (hquota : ∀ image ∈ images, ∀ maxBytes, image = .quota volume maxBytes →
      kind.OnQuota owner volume (t.quotas.get? volume) maxBytes) :
    Within kind owner volume t (database.putAll images t) := by
  constructor
  · intro path
    rw [files_putAll]
    apply foldl_induction (.refl kind owner volume _)
    intro image hmem row hrow
    cases image with
    | file owner' other new =>
      by_cases heq : (volume, path) = (owner', other)
      · cases heq
        simp only [Image.onFile, if_true]
        exact hfile _ hmem path new rfl
      · simp only [Image.onFile, if_neg heq]
        exact hrow
    | version fileId number new | quota owner' maxBytes | upload id new => exact hrow
  · rw [quotas_putAll]
    apply foldl_induction (.refl kind owner volume _)
    intro image hmem row hrow
    cases image with
    | quota owner' maxBytes =>
      by_cases heq : volume = owner'
      · cases heq
        simp only [Image.onQuota, if_true]
        exact hquota _ hmem maxBytes rfl
      · simp only [Image.onQuota, if_neg heq]
        exact hrow
    | version fileId number new | file owner' other new | upload id new => exact hrow

theorem Within.puts (hw : w.Puts owner) (hexec : database.exec w t = .ok images) :
    Within .puts owner volume t (database.putAll images t) := by
  apply Within.of_images
  · intro image hmem path row himage
    subst himage
    by_cases howner : owner = volume
    · simp only [Request.Kind.OnFile, if_pos howner]
    · exfalso
      apply howner
      cases w with
      | insertFile owner' other new =>
        obtain rfl := insert_ok hexec
        cases mem_singleton.mp hmem
        exact hw.symm
      | updateFile owner' other id change =>
        cases hexec
        obtain ⟨old, _, heq⟩ := mem_map.mp hmem
        cases heq
        exact hw.symm
      | touchQuota owner' =>
        cases hexec
        obtain ⟨maxBytes, _, heq⟩ := mem_map.mp hmem
        cases heq
      | insertVersion fileId number new =>
        obtain rfl := insert_ok hexec
        cases mem_singleton.mp hmem
      | _ => exact hw.elim
  · intro image hmem maxBytes himage
    subst himage
    have hkind : ¬(owner = volume ∧ Request.Kind.puts = Request.Kind.limits) := fun h => by cases h.2
    simp only [Request.Kind.OnQuota, if_neg hkind]
    cases w with
    | touchQuota owner' =>
      cases hexec
      obtain ⟨old, hold, heq⟩ := mem_map.mp hmem
      cases heq
      exact Option.mem_toList.mp hold
    | insertFile owner' other new | insertVersion fileId number new =>
      obtain rfl := insert_ok hexec
      cases mem_singleton.mp hmem
    | updateFile owner' other id change =>
      cases hexec
      obtain ⟨old, _, heq⟩ := mem_map.mp hmem
      cases heq
    | _ => exact hw.elim

theorem Within.deletes (hw : w.Deletes owner) (hexec : database.exec w t = .ok images) :
    Within .deletes owner volume t (database.putAll images t) := by
  apply Within.of_images
  · intro image hmem path row himage
    subst himage
    have hfaded : owner = volume ∧ Faded (t.files.get? (volume, path)) row := by
      cases w with
      | updateFile owner' other id change =>
        obtain ⟨rfl, stamp, rfl⟩ := hw
        cases hexec
        obtain ⟨old, hold, heq⟩ := mem_map.mp hmem
        cases heq
        have hget := (Option.filter_eq_some_iff.mp (Option.mem_toList.mp hold)).1
        exact ⟨rfl, .inr ⟨old, stamp, hget, rfl⟩⟩
      | deletePrefix owner' start stamp =>
        cases hexec
        obtain ⟨⟨other, old⟩, hold, heq⟩ := mem_map.mp hmem
        cases heq
        obtain ⟨⟨place, old'⟩, hrow, heq⟩ := mem_map.mp hold
        cases heq
        obtain ⟨hmem', hplace⟩ := mem_filter.mp hrow
        have hvolume : place.1 = volume := (of_decide_eq_true hplace).1
        have hget : t.files.get? (volume, place.2) = some old' := by
          rw [← hvolume]
          exact Table.mem_rows_iff.mp hmem'
        exact ⟨hw.symm, .inr ⟨old', stamp, hget, rfl⟩⟩
      | _ => exact hw.elim
    simp only [Request.Kind.OnFile, if_pos hfaded.1]
    exact hfaded.2
  · intro image hmem maxBytes himage
    subst himage
    exfalso
    cases w with
    | updateFile owner' other id change =>
      cases hexec
      obtain ⟨old, _, heq⟩ := mem_map.mp hmem
      cases heq
    | deletePrefix owner' start stamp =>
      cases hexec
      obtain ⟨entry, _, heq⟩ := mem_map.mp hmem
      cases heq
    | _ => exact hw.elim

theorem Within.limits (hw : w.Limits owner) (hexec : database.exec w t = .ok images) :
    Within .limits owner volume t (database.putAll images t) := by
  have hquotas : ∀ image ∈ images, ∃ maxBytes, image = .quota owner maxBytes := by
    intro image hmem
    cases w with
    | updateQuota owner' maxBytes | deleteQuota owner' =>
      cases hexec
      obtain ⟨old, _, rfl⟩ := mem_map.mp hmem
      exact ⟨_, by rw [show owner' = owner from hw]⟩
    | insertQuota owner' maxBytes =>
      obtain rfl := insert_ok hexec
      rw [mem_singleton.mp hmem, show owner' = owner from hw]
      exact ⟨_, rfl⟩
    | _ => exact hw.elim
  apply Within.of_images
  · intro image hmem path row himage
    obtain ⟨maxBytes, heq⟩ := hquotas image hmem
    rw [himage] at heq
    cases heq
  · intro image hmem maxBytes himage
    obtain ⟨maxBytes', heq⟩ := hquotas image hmem
    rw [himage] at heq
    cases heq
    simp [Request.Kind.OnQuota]

theorem Within.exec (hw : Write.Of owner kind w) (hexec : database.exec w t = .ok images) :
    Within kind owner volume t (database.putAll images t) := by
  cases kind with
  | puts => exact Within.puts hw hexec
  | deletes => exact Within.deletes hw hexec
  | limits => exact Within.limits hw hexec

abbrev OpenRequest := Open Tables Read Write Image Key Problem Unit

abbrev Requests (ι : Type) := Sessions ι Tables Read Write Image Key Problem Unit Request

/-- What an open request has written is within what its kind may do, and so is what it
will write. -/
structure InBounds (what : Request) (o : OpenRequest) (d : Tables) : Prop where
  writes : o.rest.Writes (Write.Of what.volume what.kind)
  within : ∀ volume, Within what.kind what.volume volume d (database.view o d)

theorem InBounds.start (what : Request) (d : Tables) :
    InBounds what ⟨what.transaction, [], [], [], 0⟩ d :=
  ⟨what.writes, fun volume => Within.refl _ _ volume d⟩

theorem InBounds.advance (h : InBounds what o d) : InBounds what (database.advance o d) d := by
  obtain ⟨rest, images, reads, held, made⟩ := o
  obtain ⟨hwrites, hwithin⟩ := h
  cases rest with
  | ret a | raise e => exact ⟨hwrites, hwithin⟩
  | read query next => exact ⟨hwrites _, hwithin⟩
  | write w next =>
    unfold Engine.advance
    simp only
    cases hexec : database.exec w (database.view ⟨.write w next, images, reads, held, made⟩ d) with
    | error e => exact ⟨trivial, hwithin⟩
    | ok new =>
      refine ⟨hwrites.2 _, fun volume => ?_⟩
      apply (hwithin volume).trans
      have hview : ∀ rest held made, database.view
          (⟨rest, images ++ new, reads, held, made⟩ : OpenRequest) d =
          database.putAll new (database.putAll images d) :=
        fun _ _ _ => database.putAll_append images new d
      rw [hview]
      exact Within.exec hwrites.1 hexec

theorem InBounds.beside {o' : OpenRequest} (hheld : o.held = o.images.map Image.key)
    (hheld' : o'.held = o'.images.map Image.key) (hdisjoint : ∀ key ∈ o.held, key ∉ o'.held)
    (h : InBounds what o d) : InBounds what o (database.view o' d) := by
  refine ⟨h.writes, fun volume => ⟨fun path => ?_, ?_⟩⟩
  · by_cases hmem : Key.file volume path ∈ o.images.map Image.key
    · have hfree : Key.file volume path ∉ o'.images.map Image.key := by
        rw [← hheld']
        exact hdisjoint _ (by rw [hheld]; exact hmem)
      have hbelow : (database.view o' d).files.get? (volume, path) =
          d.files.get? (volume, path) := files_of_not_mem d hfree
      have habove : (database.view o (database.view o' d)).files.get? (volume, path) =
          (database.view o d).files.get? (volume, path) := files_of_mem _ _ hmem
      rw [hbelow, habove]
      exact (h.within volume).files path
    · have hsame : (database.view o (database.view o' d)).files.get? (volume, path) =
          (database.view o' d).files.get? (volume, path) := files_of_not_mem _ hmem
      rw [hsame]
      exact .refl _ _ _ _
  · by_cases hmem : Key.quota volume ∈ o.images.map Image.key
    · have hfree : Key.quota volume ∉ o'.images.map Image.key := by
        rw [← hheld']
        exact hdisjoint _ (by rw [hheld]; exact hmem)
      have hbelow : (database.view o' d).quotas.get? volume = d.quotas.get? volume :=
        quotas_of_not_mem d hfree
      have habove : (database.view o (database.view o' d)).quotas.get? volume =
          (database.view o d).quotas.get? volume := quotas_of_mem _ _ hmem
      rw [hbelow, habove]
      exact (h.within volume).quota
    · have hsame : (database.view o (database.view o' d)).quotas.get? volume =
          (database.view o' d).quotas.get? volume := quotas_of_not_mem _ hmem
      rw [hsame]
      exact .refl _ _ _ _

def Genuine {ι : Type} : Move ι Tables Read Write Problem Unit Request → Prop
  | .start _ what t => t = what.transaction
  | _ => True

structure Orderly {ι : Type} (s : Requests ι) : Prop where
  exclusive : Engine.Exclusive s
  holding : database.Holding s
  bounds : ∀ i what o, s.opened i = some (what, o) → InBounds what o s.db

theorem Orderly.move [DecidableEq ι] {s : Requests ι}
    {m : Move ι Tables Read Write Problem Unit Request} (h : Orderly s)
    (hcan : database.CanMove s m) (hgenuine : Genuine m) :
    Orderly (database.move m s) where
  exclusive := database.exclusive_move h.exclusive hcan
  holding := database.holding_move m h.holding
  bounds := by
    apply database.each_move InBounds h.bounds
    · rintro i what t rfl
      rw [show t = what.transaction from hgenuine]
      exact InBounds.start what s.db
    · exact fun i what o _ hi => (h.bounds i what o hi).advance
    · intro i j what what' o o' _ hij hi hj
      exact (h.bounds i what o hi).beside (h.holding i what o hi) (h.holding j what' o' hj)
        (h.exclusive i j what what' o o' hij hi hj)

theorem Orderly.empty (d : Tables) :
    Orderly (⟨d, fun _ => none⟩ : Requests ι) where
  exclusive := fun _ _ _ _ _ _ _ hi => nomatch hi
  holding := fun _ _ _ hi => nomatch hi
  bounds := fun _ _ _ hi => nomatch hi

inductive Turn where
  | start (i : Bool) (what : Request)
  | advance (i : Bool)
  | commit (i : Bool)

def Turn.move : Turn → Move Bool Tables Read Write Problem Unit Request
  | .start i what => .start i what what.transaction
  | .advance i => .advance i
  | .commit i => .commit i

def OpenRequest.ended (o : OpenRequest) : Bool :=
  match o.rest with
  | .ret _ => true
  | _ => false

/-- The turn can be taken. -/
def Turn.possible (s : Requests Bool) : Turn → Bool
  | .start i _ => (s.opened i).isNone
  | .advance i =>
    match s.opened i, s.opened !i with
    | some (_, o), some (_, o') => (database.wants o s.db).all fun key => key ∉ o'.held
    | some _, none => true
    | none, _ => false
  | .commit i => (s.opened i).any fun entry => OpenRequest.ended entry.2

/-- The state after some turns, if all of them can be taken. -/
def rehearseTurns (met : Requests Bool → Turn → Bool) :
    List Turn → Requests Bool → Option (Requests Bool)
  | [], s => some s
  | turn :: rest, s =>
    if turn.possible s && met s turn then
      rehearseTurns met rest (database.move turn.move s)
    else none

theorem OpenRequest.ended_iff (h : o.ended = true) : o.rest = .ret () := by
  obtain ⟨rest, images, reads, held, made⟩ := o
  unfold ended at h
  cases rest with
  | ret a => rfl
  | raise e | read what next | write w next => cases h

theorem Turn.canMove {s : Requests Bool} {turn : Turn} (h : turn.possible s = true) :
    database.CanMove s turn.move ∧ Genuine turn.move := by
  cases turn with
  | start i what => exact ⟨Option.isNone_iff_eq_none.mp h, rfl⟩
  | commit i =>
    refine ⟨?_, trivial⟩
    simp only [possible, Option.any_eq_true] at h
    obtain ⟨⟨what, o⟩, hopen, hended⟩ := h
    exact ⟨what, o, (), hopen, OpenRequest.ended_iff hended⟩
  | advance i =>
    refine ⟨?_, trivial⟩
    cases hi : s.opened i with
    | none =>
      simp only [possible, hi] at h
      cases h
    | some entry =>
      refine ⟨entry.1, entry.2, hi, ?_⟩
      intro j hj what' o' hopen key hkey
      have hother : j = !i := by
        cases i <;> cases j <;> first | rfl | exact absurd rfl hj
      rw [hother] at hopen
      simp only [possible, hi, hopen] at h
      exact of_decide_eq_true (all_eq_true.mp h key hkey)

theorem steps_of_rehearse {met : Requests Bool → Turn → Bool}
    {met' : Requests Bool → Move Bool Tables Read Write Problem Unit Request → Prop}
    (hmet : ∀ s turn, met s turn = true → met' s turn.move) :
    ∀ {turns : List Turn} {s s' : Requests Bool}, rehearseTurns met turns s = some s' →
      Steps database.move (fun s m => database.CanMove s m ∧ Genuine m ∧ met' s m) s s'
  | [], s, s', h => by
      cases h
      exact .refl s
  | turn :: rest, s, s', h => by
      unfold rehearseTurns at h
      split at h
      · next hcan =>
          obtain ⟨hpossible, hturn⟩ := (Bool.and_eq_true _ _).mp hcan
          obtain ⟨hmove, hgenuine⟩ := Turn.canMove hpossible
          exact (Steps.single turn.move ⟨hmove, hgenuine, hmet s turn hturn⟩).trans
            (steps_of_rehearse hmet h)
      · cases h

end Substrate.Files
