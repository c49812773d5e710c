import Substrate.Files.Requests

/-!
Quotas. A write holds the quota row of its volume from its first statement on, so that
other writes of the volume wait; deletes do not. What a write replaces is read before
the live bytes are summed, so a delete that commits in between is taken off twice.
-/

namespace Substrate.Files

open Lib List

/-- What other requests may do while a write holds the quota row of a volume: delete
files, but none that the write has read as live and not yet counted. -/
structure Leaves (volume : String) (reads : List Read) (t t' : Tables) : Prop where
  quota : t'.quotas.get? volume = t.quotas.get? volume
  files : ∀ path, Faded (t.files.get? (volume, path)) (t'.files.get? (volume, path))
  seen : .liveBytes volume ∉ reads → ∀ path row, .file volume path ∈ reads →
    t.files.get? (volume, path) = some row → row.live = true →
      t'.files.get? (volume, path) = some row

theorem Leaves.refl (volume : String) (reads : List Read) (t : Tables) : Leaves volume reads t t :=
  ⟨rfl, fun _ => .refl _, fun _ _ _ _ hget _ => hget⟩

theorem Leaves.trans {volume : String} {reads : List Read} (t₁ t₂ t₃ : Tables)
    (h : Leaves volume reads t₁ t₂) (h' : Leaves volume reads t₂ t₃) :
    Leaves volume reads t₁ t₃ where
  quota := h'.quota.trans h.quota
  files path := (h.files path).trans (h'.files path)
  seen hcount path row hread hget hlive :=
    h'.seen hcount path row hread (h.seen hcount path row hread hget hlive) hlive

section

variable {volume : String} {reads : List Read} {t t' : Tables}

/-- The row that was read at a path is there still, deleted perhaps, but not if it was
live. -/
structure Stands (volume : String) (t : Tables) (path : Path) (existing : Option FileRow) :
    Prop where
  faded : Faded existing (t.files.get? (volume, path))
  live : ∀ row, existing = some row → row.live = true → t.files.get? (volume, path) = some row

theorem Stands.here (path : Path) : Stands volume t path (t.files.get? (volume, path)) :=
  ⟨.refl _, fun _ hget _ => hget⟩

variable {path : Path} {existing : Option FileRow} {place : String × Path} {quota : Nat}
    {images : List Image} {done : List (Path × Nat)}

theorem Stands.leaves (h : Stands volume t path existing) (hleaves : Leaves volume reads t t')
    (hread : .file volume path ∈ reads) (hcount : .liveBytes volume ∉ reads) :
    Stands volume t' path existing where
  faded := h.faded.trans (hleaves.files path)
  live row hrow hlive := hleaves.seen hcount path row hread (h.live row hrow hlive) hlive

theorem liveBytes_eq : t.liveBytes volume [] = t.files.weight (Tables.liveSize volume []) := rfl

theorem liveSize_of_ne (h : place.1 ≠ volume) (row : FileRow) :
    Tables.liveSize volume [] place row = 0 := by
  unfold Tables.liveSize
  rw [if_neg fun hplace => h hplace.1]

theorem liveSize_here (path : Path) (row : FileRow) :
    Tables.liveSize volume [] (volume, path) row = if row.live then row.content.size else 0 := by
  unfold Tables.liveSize under
  simp

theorem weightAt_here (path : Path) : t.files.weightAt (Tables.liveSize volume []) (volume, path) =
      liveSizeOf (t.files.get? (volume, path)) := by
  unfold Table.weightAt liveSizeOf
  cases t.files.get? (volume, path) with
  | none => rfl
  | some row => exact liveSize_here path row

theorem weightAt_of_ne (h : place.1 ≠ volume) :
    t.files.weightAt (Tables.liveSize volume []) place = 0 := by
  unfold Table.weightAt
  cases t.files.get? place with
  | none => rfl
  | some row => exact liveSize_of_ne h row

theorem Faded.liveSizeOf_le {old new : Option FileRow} (h : Faded old new) :
    liveSizeOf new ≤ liveSizeOf old := by
  rcases h with rfl | ⟨row, stamp, rfl, rfl⟩
  · exact le_refl _
  · exact Nat.zero_le _

theorem weightAt_le (h : ∀ path, Faded (t.files.get? (volume, path)) (t'.files.get? (volume, path)))
    (place : String × Path) :
    t'.files.weightAt (Tables.liveSize volume []) place ≤
      t.files.weightAt (Tables.liveSize volume []) place := by
  by_cases hplace : place.1 = volume
  · obtain ⟨owner, path⟩ := place
    cases hplace
    rw [weightAt_here, weightAt_here]
    exact (h path).liveSizeOf_le
  · rw [weightAt_of_ne hplace, weightAt_of_ne hplace]

theorem liveBytes_congr (h : ∀ path, t'.files.get? (volume, path) = t.files.get? (volume, path)) :
    t'.liveBytes volume [] = t.liveBytes volume [] := by
  apply Table.weight_congr
  intro place
  apply le_antisymm
  · exact weightAt_le (fun path => .inl (h path)) place
  · exact weightAt_le (fun path => .inl (h path).symm) place

theorem Stands.liveSizeOf_le (h : Stands volume t path existing) :
    liveSizeOf existing ≤ t.files.weightAt (Tables.liveSize volume []) (volume, path) := by
  cases existing with
  | none => exact Nat.zero_le _
  | some row =>
    cases hlive : row.live with
    | false =>
      unfold liveSizeOf
      simp [hlive]
    | true => rw [weightAt_here, h.live row rfl hlive]

/-- There is room for some bytes in the place of the files at some paths. -/
def Room (volume : String) (quota : Nat) (places : Finset (String × Path)) (adding : Nat)
    (t : Tables) : Prop :=
  t.liveBytes volume [] + adding ≤
    quota + ∑ place ∈ places, t.files.weightAt (Tables.liveSize volume []) place

theorem Room.leaves {places : Finset (String × Path)} {adding : Nat}
    (h : Room volume quota places adding t) (hleaves : Leaves volume reads t t') :
    Room volume quota places adding t' := by
  have hsum := Table.weight_add_sum places fun place (_ : place ∉ places) =>
    weightAt_le hleaves.files place
  unfold Room at h ⊢
  rw [liveBytes_eq] at h ⊢
  omega

/-- The images put files of certain sizes at certain paths and touch no others. -/
structure Laid (volume : String) (images : List Image) (done : List (Path × Nat)) : Prop where
  size : ∀ t path size, (path, size) ∈ done →
    liveSizeOf ((database.putAll images t).files.get? (volume, path)) = size
  free : ∀ t path, path ∉ done.map Prod.fst →
    (database.putAll images t).files.get? (volume, path) = t.files.get? (volume, path)

theorem Laid.touched (maxBytes : Option Nat) : Laid volume [.quota volume maxBytes] [] where
  size _ _ _ hmem := nomatch hmem
  free t path _ := by
    rw [files_putAll]
    rfl

theorem Laid.version (h : Laid volume images done) (fileId : String) (number : Nat)
    (row : Option VersionRow) :
    Laid volume (images ++ [.version fileId number row]) done where
  size t path size hmem := by
    rw [files_putAll, foldl_append, ← files_putAll]
    exact h.size t path size hmem
  free t path hfree := by
    rw [files_putAll, foldl_append, ← files_putAll]
    exact h.free t path hfree

theorem Laid.file (h : Laid volume images done) {row : FileRow} (hnew : path ∉ done.map Prod.fst)
    (hlive : row.live = true) :
    Laid volume (images ++ [.file volume path (some row)]) ((path, row.content.size) :: done) where
  size t other size hmem := by
    rw [files_putAll, foldl_append, ← files_putAll]
    simp only [foldl_cons, foldl_nil, Image.onFile]
    rcases mem_cons.mp hmem with heq | hmem
    · cases heq
      simp [liveSizeOf, hlive]
    · have hne : (volume, other) ≠ (volume, path) := by
        intro heq
        cases heq
        exact hnew (mem_map.mpr ⟨_, hmem, rfl⟩)
      rw [if_neg hne]
      exact h.size t other size hmem
  free t other hfree := by
    rw [map_cons, mem_cons, not_or] at hfree
    rw [files_putAll, foldl_append, ← files_putAll]
    simp only [foldl_cons, foldl_nil, Image.onFile]
    have hne : (volume, other) ≠ (volume, path) := by
      intro heq
      cases heq
      exact hfree.1 rfl
    rw [if_neg hne]
    exact h.free t other hfree.2

def places (volume : String) (done : List (Path × Nat)) : Finset (String × Path) :=
  (done.map fun entry => (volume, entry.1)).toFinset

theorem Laid.liveBytes_le (h : Laid volume images done) (hnodup : (done.map Prod.fst).Nodup)
    (hroom : Room volume quota (places volume done) (done.map Prod.snd).sum t) :
    (database.putAll images t).liveBytes volume [] ≤ quota := by
  have houtside : ∀ place, place ∉ places volume done →
      (database.putAll images t).files.weightAt (Tables.liveSize volume []) place ≤
        t.files.weightAt (Tables.liveSize volume []) place := by
    intro place hplace
    by_cases hvolume : place.1 = volume
    · obtain ⟨owner, path⟩ := place
      cases hvolume
      rw [weightAt_here, weightAt_here, h.free]
      intro hmem
      apply hplace
      obtain ⟨entry, hentry, rfl⟩ := mem_map.mp hmem
      exact mem_toFinset.mpr (mem_map.mpr ⟨entry, hentry, rfl⟩)
    · rw [weightAt_of_ne hvolume]
      exact Nat.zero_le _
  have hsum := Table.weight_add_sum (places volume done) houtside
  have hinside : ∑ place ∈ places volume done,
      (database.putAll images t).files.weightAt (Tables.liveSize volume []) place =
        (done.map Prod.snd).sum := by
    have hplaces : (done.map fun entry => (volume, entry.1)).Nodup := by
      have hmap : (done.map fun entry => (volume, entry.1)) =
          (done.map Prod.fst).map fun path => (volume, path) := by simp
      rw [hmap]
      exact hnodup.map fun _ _ heq => (Prod.mk.inj heq).2
    unfold places
    rw [sum_toFinset _ hplaces, List.map_map]
    congr 1
    apply map_congr_left
    intro entry hmem
    simp only [Function.comp_apply]
    rw [weightAt_here]
    exact h.size t entry.1 entry.2 hmem
  unfold Room at hroom
  rw [liveBytes_eq] at hroom ⊢
  omega

end

/-- However others delete, the volume stays within the quota, or the write adds
nothing. -/
def Settles (volume : String) (quota : Nat) (_ : Unit) (images : List Image) (reads : List Read)
    (t : Tables) : Prop :=
  ∀ t', Leaves volume reads t t' → (database.putAll images t').liveBytes volume [] ≤ quota ∨
      (database.putAll images t').liveBytes volume [] ≤ t'.liveBytes volume []

section

variable {volume : String} {quota : Nat} {images : List Image} {reads : List Read} {t : Tables}

/-- The transaction keeps to `Q` while others only delete. -/
abbrev Minds {α : Type} (volume : String) (Q : α → List Image → List Read → Tables → Prop)
    (x : Transaction α) (images : List Image) (reads : List Read) (t : Tables) : Prop :=
  database.Keeps (Leaves volume) Q x images reads t

variable {path source destination : Path} {existing : Option FileRow} {key : ObjectKey}
    {content : Content} {by_ id : String} {stamp : Nat} {done : List (Path × Nat)}
    {ifMatch : Option Nat} {overwrite : Bool} {newId : Path → String}

theorem minds_selectFile {Q : Option FileRow → List Image → List Read → Tables → Prop}
    (hlaid : Laid volume images [])
    (h : ∀ existing t', Leaves volume reads t t' → Stands volume t' path existing →
      Q existing images (.file volume path :: reads) t') :
    Minds volume Q (selectFile volume path) images reads t := by
  apply Engine.Keeps.select
  intro t' hleaves
  rw [hlaid.free t' path nofun]
  exact h _ t' hleaves (.here path)

theorem minds_guardBytes {Q : Unit → List Image → List Read → Tables → Prop}
    (places : Finset (String × Path)) {adding replacing : Nat} (hlaid : Laid volume images [])
    (hreplacing : ∀ t', Leaves volume reads t t' → replacing ≤
      ∑ place ∈ places, t'.files.weightAt (Tables.liveSize volume []) place)
    (h : ∀ t', Leaves volume reads t t' → Room volume quota places adding t' →
      Q () images (.liveBytes volume :: reads) t') :
    Minds volume Q (guardBytes volume (some quota) adding replacing) images reads t := by
  unfold guardBytes
  rw [if_pos Option.isSome_some]
  apply Engine.Keeps.bind
  apply Engine.Keeps.select
  intro t' hleaves
  apply keeps_check
  intro hcheck
  apply h t' hleaves
  have hlive : (database.putAll images t').liveBytes volume [] = t'.liveBytes volume [] :=
    liveBytes_congr fun path => hlaid.free t' path nofun
  rw [hlive] at hcheck
  have hfits : projectedBytes (t'.liveBytes volume []) adding replacing ≤ quota := by
    unfold checkQuota at hcheck
    simp only at hcheck
    split at hcheck
    · cases hcheck
    · next hle => exact not_lt.mp hle
  have hsum := hreplacing t' hleaves
  unfold projectedBytes at hfits
  unfold Room
  omega

theorem updateFile_exec {old : FileRow} {change : FileRow → FileRow} {view : Tables}
    {new : List Image} (hfaded : Faded (some old) (t.files.get? (volume, path)))
    (hview : view.files.get? (volume, path) = t.files.get? (volume, path))
    (hexec : database.exec (.updateFile volume path old.id change) view = .ok new) :
    ∃ row, row.content = old.content ∧ new = [.file volume path (some (change row))] := by
  have hrow : ∃ row, view.files.get? (volume, path) = some row ∧ row.id = old.id ∧
      row.content = old.content := by
    rw [hview]
    rcases hfaded with hsame | ⟨row, stamp, hold, hdeleted⟩
    · exact ⟨old, hsame, rfl, rfl⟩
    · cases hold
      exact ⟨_, hdeleted, rfl, rfl⟩
  obtain ⟨row, hget, hid, hcontent⟩ := hrow
  simp only [database, Write.exec, hget, Option.filter, hid, decide_true, if_true,
    Option.toList_some, map_cons, map_nil] at hexec
  cases hexec
  exact ⟨row, hcontent, rfl⟩

theorem minds_putVersion {Q : FileRow → List Image → List Read → Tables → Prop}
    (hfaded : Faded existing (t.files.get? (volume, path))) (hlaid : Laid volume images done)
    (hnew : path ∉ done.map Prod.fst)
    (h : ∀ head images' t', Leaves volume reads t t' →
      Laid volume images' ((path, content.size) :: done) → Q head images' reads t') :
    Minds volume Q (putVersion volume path existing key content by_ id stamp) images reads t := by
  have hversion : ∀ {head : FileRow} {images' : List Image} {t₁ : Tables},
      Leaves volume reads t t₁ → Laid volume images' ((path, content.size) :: done) →
      Minds volume Q
        (do
          let _ ← update (.insertVersion head.id head.version
            ⟨volume, key, content, by_, stamp, none⟩)
          pure head) images' reads t₁ := by
    intro head images' t₁ hleaves₁ hlaid'
    apply Engine.Keeps.bind
    apply Engine.Keeps.execute
    intro t₂ hleaves₂ new hexec
    obtain rfl := insert_ok hexec
    exact h _ _ t₂ (hleaves₁.trans t t₁ t₂ hleaves₂) (hlaid'.version _ _ _)
  unfold putVersion
  apply Engine.Keeps.bind
  cases existing with
  | none =>
    apply Engine.Keeps.bind
    apply Engine.Keeps.execute
    intro t₁ hleaves₁ new hexec
    obtain rfl := insert_ok hexec
    exact hversion hleaves₁ (hlaid.file hnew rfl)
  | some old =>
    apply Engine.Keeps.bind
    apply Engine.Keeps.execute
    intro t₁ hleaves₁ new hexec
    obtain ⟨row, _, rfl⟩ :=
      updateFile_exec (hfaded.trans (hleaves₁.files path)) (hlaid.free t₁ path hnew) hexec
    exact hversion hleaves₁ (hlaid.file hnew rfl)

theorem settles (hlaid : Laid volume images done) (hnodup : (done.map Prod.fst).Nodup)
    (hroom : Room volume quota (places volume done) (done.map Prod.snd).sum t) :
    Settles volume quota () images reads t := by
  intro t' hleaves
  left
  exact hlaid.liveBytes_le hnodup (hroom.leaves hleaves)

theorem minds_put (hfaded : Faded existing (t.files.get? (volume, path)))
    (hlaid : Laid volume images []) (hroom : Room volume quota {(volume, path)} content.size t) :
    Minds volume (fun _ images reads t => Settles volume quota () images reads t)
      (putVersion volume path existing key content by_ id stamp) images reads t := by
  apply minds_putVersion hfaded hlaid nofun
  intro head images' t' hleaves hlaid'
  apply settles hlaid' (nodup_singleton _)
  have hplaces : places volume [(path, content.size)] = {(volume, path)} := rfl
  rw [hplaces]
  exact hroom.leaves hleaves

theorem minds_selectQuota {Q : Option Nat → List Image → List Read → Tables → Prop}
    (h : ∀ t', Leaves volume reads t t' →
      Q (some quota) [.quota volume (some quota)] (.quota volume :: reads) t') :
    Minds volume Q (selectQuota volume) [.quota volume (some quota)] reads t := by
  apply Engine.Keeps.select
  intro t' hleaves
  have hquota : (database.putAll [.quota volume (some quota)] t').quotas.get? volume =
      some quota := by
    rw [quotas_putAll]
    simp [Image.onQuota]
  rw [hquota]
  exact h t' hleaves

theorem minds_commitVersion {ifNoneMatch : Bool} :
    Minds volume (fun _ images reads t => Settles volume quota () images reads t)
      (do
        let quota ← selectQuota volume
        let existing ← selectFile volume path
        check (writeGuard existing ifMatch ifNoneMatch)
        guardBytes volume quota content.size (liveSizeOf existing)
        putVersion volume path existing key content by_ id stamp)
      [.quota volume (some quota)] [] t := by
  apply Engine.Keeps.bind
  apply minds_selectQuota
  intro t₁ _
  apply Engine.Keeps.bind
  apply minds_selectFile (.touched _)
  intro existing t₂ _ hstands
  apply Engine.Keeps.bind
  apply keeps_check
  intro _
  apply Engine.Keeps.bind
  have hread : Read.file volume path ∈ [.file volume path, .quota volume] := mem_cons_self
  have hcount : Read.liveBytes volume ∉ [.file volume path, .quota volume] := by simp
  apply minds_guardBytes {(volume, path)} (.touched _)
  · intro t₃ hleaves
    rw [Finset.sum_singleton]
    exact (hstands.leaves hleaves hread hcount).liveSizeOf_le
  · intro t₃ hleaves hroom
    exact minds_put (hstands.leaves hleaves hread hcount).faded (.touched _) hroom

theorem minds_restore {version : Option Nat} :
    Minds volume (fun _ images reads t => Settles volume quota () images reads t)
      (do
        let quota ← selectQuota volume
        match (← selectFile volume path) with 
        | none => raise (notFound "File")
        | some head =>
          if ifMatch.any (· ≠ head.version) then
            raise preconditionFailed
          else if version = none ∨ version = some head.version then
            if head.live then
              pure head
            else do
              guardBytes volume quota head.content.size 0
              let _ ← update (.updateFile volume path head.id fun row =>
                { row with deletedAt := none, updatedAt := stamp })
              pure { head with deletedAt := none }
          else do
            match (← selectVersion head.id (version.getD 0)) with
            | none => raise (notFound "File version")
            | some old =>
              if old.purgedAt.isSome then
                raise (notFound "File version")
              else do
                guardBytes volume quota old.content.size (liveSizeOf (some head))
                putVersion volume path (some head) old.objectKey old.content by_ id stamp)
      [.quota volume (some quota)] [] t := by
  apply Engine.Keeps.bind
  apply minds_selectQuota
  intro t₁ _
  apply Engine.Keeps.bind
  apply minds_selectFile (.touched _)
  intro existing t₂ _ hstands
  have hread : Read.file volume path ∈ [.file volume path, .quota volume] := mem_cons_self
  have hcount : Read.liveBytes volume ∉ [.file volume path, .quota volume] := by simp
  cases existing with
  | none => trivial
  | some head =>
    simp only
    split
    · trivial
    · split
      · split
        · intro t₃ _
          right
          apply le_of_eq
          exact liveBytes_congr fun path' => (Laid.touched _).free t₃ path' nofun
        · apply Engine.Keeps.bind
          apply minds_guardBytes {(volume, path)} (.touched _)
          · exact fun _ _ => Nat.zero_le _
          · intro t₃ hleaves hroom
            have hfaded := (hstands.leaves hleaves hread hcount).faded
            apply Engine.Keeps.bind
            apply Engine.Keeps.execute
            intro t₄ hleaves₄ new hexec
            have htouched : Laid volume [.quota volume (some quota)] [] := .touched _
            have hnew : path ∉ ([] : List (Path × Nat)).map Prod.fst := nofun
            obtain ⟨row, hcontent, rfl⟩ :=
              updateFile_exec (hfaded.trans (hleaves₄.files path)) (htouched.free t₄ path hnew)
                hexec
            apply settles (htouched.file hnew rfl) (nodup_singleton _)
            have hroom₄ := hroom.leaves hleaves₄
            rw [← hcontent] at hroom₄
            exact hroom₄
      · apply Engine.Keeps.bind
        apply Engine.Keeps.select
        intro t₃ hleaves₃
        have hstands₃ := hstands.leaves hleaves₃ hread hcount
        split
        · trivial
        · split
          · trivial
          · apply Engine.Keeps.bind
            apply minds_guardBytes {(volume, path)} (.touched _)
            · intro t₄ hleaves
              rw [Finset.sum_singleton]
              exact (hstands₃.leaves hleaves (mem_cons_of_mem _ hread) (by simp)).liveSizeOf_le
            · intro t₄ hleaves hroom
              exact minds_put (hstands₃.leaves hleaves (mem_cons_of_mem _ hread)
                (by simp)).faded (.touched _) hroom

/-- What has been read at a path stands, and was read before the count. -/
def Seen (volume : String) (reads : List Read) (t : Tables) (path : Path)
    (existing : Option FileRow) : Prop :=
  Read.file volume path ∈ reads ∧ Stands volume t path existing

theorem Seen.leaves {t' : Tables} (h : Seen volume reads t path existing)
    (hleaves : Leaves volume reads t t') (hcount : .liveBytes volume ∉ reads) (query : Read) :
    Seen volume (query :: reads) t' path existing :=
  ⟨mem_cons_of_mem _ h.1, h.2.leaves hleaves h.1 hcount⟩

theorem minds_planCopy (hlaid : Laid volume images []) :
    ∀ (found : List (Path × FileRow)) (seen : List (Path × Option FileRow)) {reads : List Read}
      {t : Tables} {Q : List Copy × Nat → List Image → List Read → Tables → Prop},
      .liveBytes volume ∉ reads →
      (∀ entry ∈ seen, Seen volume reads t entry.1 entry.2) →
      (∀ plan skipped reads' t', .liveBytes volume ∉ reads' →
        (∀ entry ∈ seen, Seen volume reads' t' entry.1 entry.2) →
        (∀ copy ∈ plan, Seen volume reads' t' copy.target copy.existing) →
        (plan.map Copy.target).Sublist
          (found.map fun entry => copyTarget source destination entry.1) →
        Q (plan, skipped) images reads' t') →
      Minds volume Q (planCopy volume source destination overwrite found) images reads t 
  | [], seen, reads, t, Q, hcount, hseen, h =>
    h [] 0 reads t hcount hseen nofun (nil_sublist _)
  | (path, row) :: rest, seen, reads, t, Q, hcount, hseen, h => by
      unfold planCopy
      apply Engine.Keeps.bind
      apply minds_selectFile hlaid
      intro existing t₁ hleaves hstands
      apply Engine.Keeps.bind
      apply minds_planCopy hlaid rest ((copyTarget source destination path, existing) :: seen)
      · simpa using hcount
      · intro entry hmem
        rcases mem_cons.mp hmem with rfl | hmem
        · exact ⟨mem_cons_self, hstands⟩
        · exact (hseen entry hmem).leaves hleaves hcount _
      · intro plan skipped reads' t' hcount' hseen' hplan hsub
        have hseen₀ : ∀ entry ∈ seen, Seen volume reads' t' entry.1 entry.2 :=
          fun entry hmem => hseen' entry (mem_cons_of_mem _ hmem)
        simp only
        split
        · exact h plan (skipped + 1) reads' t' hcount' hseen₀ hplan (hsub.cons _)
        · apply h _ skipped reads' t' hcount' hseen₀
          · intro copy hmem
            rcases mem_cons.mp hmem with rfl | hmem
            · exact hseen' _ mem_cons_self
            · exact hplan copy hmem
          · exact hsub.cons_cons _

theorem minds_writeCopies :
    ∀ {plan : List Copy} {done : List (Path × Nat)} {images : List Image} {reads : List Read}
      {t : Tables} {Q : Unit → List Image → List Read → Tables → Prop},
      (∀ copy ∈ plan, Faded copy.existing (t.files.get? (volume, copy.target))) →
      ((plan.map Copy.target) ++ done.map Prod.fst).Nodup → Laid volume images done →
      (∀ done' images' reads' t', Laid volume images' done' →
        done'.Perm ((plan.map fun copy => (copy.target, copy.row.content.size)) ++ done) →
        (∀ places quota adding, Room volume quota places adding t →
          Room volume quota places adding t') → Q () images' reads' t') →
      Minds volume Q (writeCopies volume by_ newId stamp plan) images reads t 
  | [], done, images, reads, t, Q, _, _, hlaid, h =>
    h done images reads t hlaid (.refl _) fun _ _ _ hroom => hroom
  | copy :: rest, done, images, reads, t, Q, hfaded, hnodup, hlaid, h => by
      unfold writeCopies
      apply Engine.Keeps.bind
      apply Engine.Keeps.select
      intro t₁ hleaves₁
      split
      · trivial
      · rw [map_cons, cons_append, nodup_cons] at hnodup
        apply Engine.Keeps.bind
        apply minds_putVersion
          ((hfaded copy mem_cons_self).trans (hleaves₁.files copy.target)) hlaid
          fun hmem => hnodup.1 (mem_append_right _ hmem)
        intro head images' t₂ hleaves₂ hlaid'
        apply minds_writeCopies _ _ hlaid'
        · intro done' images'' reads' t' hlaid'' hperm hroom
          apply h done' images'' reads' t' hlaid''
          · exact hperm.trans perm_middle
          · exact fun places quota adding hold =>
              hroom places quota adding ((hold.leaves hleaves₁).leaves hleaves₂)
        · intro other hmem
          exact ((hfaded other (mem_cons_of_mem _ hmem)).trans
            (hleaves₁.files other.target)).trans (hleaves₂.files other.target)
        · rw [map_cons]
          exact nodup_middle.mpr (nodup_cons.mpr hnodup)

theorem replacing_le {plan : List Copy} (hnodup : (plan.map Copy.target).Nodup)
    (hstands : ∀ copy ∈ plan, Stands volume t copy.target copy.existing) :
    (plan.map fun copy => liveSizeOf copy.existing).sum ≤
      ∑ place ∈ places volume (plan.map fun copy => (copy.target, copy.row.content.size)),
        t.files.weightAt (Tables.liveSize volume []) place := by
  have hplaces : ((plan.map fun copy => (copy.target, copy.row.content.size)).map
      fun entry => (volume, entry.1)) =
        (plan.map Copy.target).map fun path => (volume, path) := by simp
  unfold places
  rw [hplaces, sum_toFinset _ (hnodup.map fun _ _ heq => (Prod.mk.inj heq).2), List.map_map,
    List.map_map]
  apply sum_le_sum
  intro copy hmem
  exact (hstands copy hmem).liveSizeOf_le

theorem minds_copyPrefix {order : List (Path × FileRow) → List (Path × FileRow)}
    (horder : ∀ rows, (order rows).Perm rows) :
    Minds volume (fun _ images reads t => Settles volume quota () images reads t)
      (do
        let quota ← selectQuota volume
        let found ← Tx.select (.files volume source) fun t =>
          (order (t.liveUnder volume source)).take (maxCopyFiles + 1)
        if found.length > maxCopyFiles then
          raise ⟨413, "too-many-files",
            s!"A prefix copy handles at most {maxCopyFiles} files; copy sub-folders", []⟩
        else do
          let (plan, skipped) ← planCopy volume source destination overwrite found
          let adding := (plan.map fun copy => copy.row.content.size).sum
          let replacing := (plan.map fun copy => liveSizeOf copy.existing).sum
          guardBytes volume quota adding replacing
          writeCopies volume by_ newId stamp plan
          pure (⟨plan.length, skipped, adding⟩ : CopyResult))
      [.quota volume (some quota)] [] t := by
  have htouched : Laid volume [.quota volume (some quota)] [] := .touched _
  apply Engine.Keeps.bind
  apply minds_selectQuota
  intro t₁ _
  apply Engine.Keeps.bind
  apply Engine.Keeps.select
  intro t₂ _
  have htargets : (((order ((database.putAll [.quota volume (some quota)] t₂).liveUnder volume
      source)).take (maxCopyFiles + 1)).map fun entry =>
        copyTarget source destination entry.1).Nodup := targets_nodup horder _
  split
  · trivial
  · apply Engine.Keeps.bind
    apply minds_planCopy htouched _ []
    · simp
    · nofun
    · intro plan skipped reads' t₃ hcount _ hseen hsub
      have hnodup := hsub.nodup htargets
      apply Engine.Keeps.bind
      apply minds_guardBytes
        (places volume (plan.map fun copy => (copy.target, copy.row.content.size))) htouched
      · intro t₄ hleaves
        apply replacing_le hnodup
        exact fun copy hmem => (hseen copy hmem).2.leaves hleaves (hseen copy hmem).1 hcount
      · intro t₄ hleaves hroom
        apply Engine.Keeps.bind
        have hnodup' : (plan.map Copy.target ++ ([] : List (Path × Nat)).map Prod.fst).Nodup := by
          simpa using hnodup
        apply minds_writeCopies _ hnodup' htouched
        · intro done images' reads'' t₅ hlaid hperm hkeeps
          rw [append_nil] at hperm
          have hplaces : places volume done =
              places volume (plan.map fun copy => (copy.target, copy.row.content.size)) :=
            toFinset_eq_of_perm _ _ (hperm.map _)
          have hsum : (done.map Prod.snd).sum =
              (plan.map fun copy => copy.row.content.size).sum := by
            rw [(hperm.map Prod.snd).sum_eq, List.map_map]
            rfl
          apply settles hlaid
          · rw [(hperm.map Prod.fst).nodup_iff, List.map_map]
            exact hnodup
          · rw [hplaces, hsum]
            exact hkeeps _ _ _ hroom
        · exact fun copy hmem =>
            ((hseen copy hmem).2.leaves hleaves (hseen copy hmem).1 hcount).faded

def afterFirst : Transaction Unit → Nat → Transaction Unit
  | .write _ next, rows => next rows
  | t, _ => t

theorem minds_unanswered {α : Type} {x : Transaction α}
    (h : Minds volume (fun _ images reads t => Settles volume quota () images reads t) x images
      reads t) :
    Minds volume (Settles volume quota) (unanswered x) images reads t :=
  Engine.Keeps.bind h

theorem Request.begins {what : Request} (h : what.kind = .puts) :
    (∃ next, what.transaction = .write (.touchQuota what.volume) next) ∧
      ∀ quota t, Minds what.volume (Settles what.volume quota) (afterFirst what.transaction 1)
        [.quota what.volume (some quota)] [] t := by
  cases what with
  | commit volume path key content by_ ifMatch ifNoneMatch id stamp =>
    exact ⟨⟨_, rfl⟩, fun _ _ => minds_unanswered minds_commitVersion⟩
  | copy volume source destination by_ overwrite order horder newId stamp =>
    exact ⟨⟨_, rfl⟩, fun _ _ => minds_unanswered (minds_copyPrefix horder)⟩
  | restore volume path version by_ ifMatch id stamp =>
    exact ⟨⟨_, rfl⟩, fun _ _ => minds_unanswered minds_restore⟩
  | softDelete volume path ifMatch stamp | deletePrefix volume start stamp
  | setQuota volume maxBytes => cases h

end

def Introduces (volume : String) (t t' : Tables) : Prop :=
  t.quotas.get? volume = none ∧ t'.quotas.get? volume ≠ none

/-- A file goes that was read as live and is not counted yet. -/
def Uncounts (volume : String) (reads : List Read) (t t' : Tables) : Prop :=
  .liveBytes volume ∉ reads ∧ ∃ path, .file volume path ∈ reads ∧
    (t.files.get? (volume, path)).any FileRow.live = true ∧
      (t'.files.get? (volume, path)).any FileRow.live = false

structure Guarded (what : Request) (o : OpenRequest) (t : Tables) : Prop where
  fresh : o.made = 0 → o.rest = what.transaction ∧ o.images = [] ∧ o.reads = []
  begun : o.made ≠ 0 → t.quotas.get? what.volume = none ∨
    ∃ quota, t.quotas.get? what.volume = some quota ∧ .quota what.volume ∈ o.held ∧
      Minds what.volume (Settles what.volume quota) o.rest o.images o.reads t

theorem Guarded.start (what : Request) (t : Tables) :
    Guarded what ⟨what.transaction, [], [], [], 0⟩ t :=
  ⟨fun _ => ⟨rfl, rfl, rfl⟩, fun h => absurd rfl h⟩

variable {what : Request} {o : OpenRequest} {t : Tables}

theorem Guarded.advance (hputs : what.kind = .puts) (h : Guarded what o t) :
    Guarded what (database.advance o t) t := by
  by_cases hmade : o.made = 0
  · obtain ⟨hrest, himages, hreads⟩ := h.fresh hmade
    obtain ⟨⟨next, hnext⟩, hbegins⟩ := Request.begins hputs
    obtain ⟨rest, images, reads, held, made⟩ := o
    simp only at hrest himages hreads hmade
    subst hrest himages hreads hmade
    have hadvance : ∀ touched, touched = ((t.quotas.get? what.volume).toList.map fun maxBytes =>
          Image.quota what.volume (some maxBytes)) →
        database.advance ⟨what.transaction, [], [], held, 0⟩ t =
          ⟨next touched.length, touched, [], held ++ touched.map Image.key, 1⟩ := by
      rintro touched rfl
      unfold Engine.advance
      rw [hnext]
      rfl
    rw [hadvance _ rfl]
    constructor
    · exact fun hzero => absurd hzero Nat.one_ne_zero
    · intro _
      cases hquota : t.quotas.get? what.volume with
      | none => exact .inl rfl
      | some quota =>
        right
        refine ⟨quota, rfl, ?_, ?_⟩
        · exact mem_append_right _ (mem_singleton.mpr rfl)
        · have hminds := hbegins quota t
          rw [hnext] at hminds
          exact hminds
  · have hmade' : (database.advance o t).made ≠ 0 := by
      have hle := database.le_made_advance o t
      omega
    constructor
    · exact fun hzero => absurd hzero hmade'
    · intro _
      rcases h.begun hmade with hnone | ⟨quota, hquota, hheld, hminds⟩
      · exact .inl hnone
      · right
        refine ⟨quota, hquota, ?_, hminds.advance (Leaves.refl what.volume)⟩
        rw [database.advance_held]
        exact mem_append_left _ hheld

theorem Guarded.beside {what' : Request} {o' : OpenRequest} (h : Guarded what o t)
    (h' : what'.kind = .puts → Guarded what' o' t) (hbounds : InBounds what' o' t)
    (hholding : o'.held = o'.images.map Image.key) (hdisjoint : ∀ key ∈ o.held, key ∉ o'.held)
    (hintroduces : o.made ≠ 0 → ¬Introduces what.volume t (database.view o' t))
    (huncounts : o.made ≠ 0 → .quota what.volume ∈ o.held →
      ¬Uncounts what.volume o.reads t (database.view o' t)) :
    Guarded what o (database.view o' t) := by
  refine ⟨h.fresh, fun hmade => ?_⟩
  rcases h.begun hmade with hnone | ⟨quota, hquota, hheld, hminds⟩
  · left
    by_contra hsome
    exact hintroduces hmade ⟨hnone, hsome⟩
  · right
    have hsame : (database.view o' t).quotas.get? what.volume = t.quotas.get? what.volume := by
      apply quotas_of_not_mem
      rw [← hholding]
      exact hdisjoint _ hheld
    have hfaded : ∀ path, Faded (t.files.get? (what.volume, path))
        ((database.view o' t).files.get? (what.volume, path)) := by
      intro path
      have hwithin := (hbounds.within what.volume).files path
      unfold Request.Kind.OnFile at hwithin
      split at hwithin
      · next howner =>
          cases hkind : what'.kind with
          | deletes =>
            rw [hkind] at hwithin
            exact hwithin
          | limits =>
            rw [hkind] at hwithin
            exact .inl (Eq.symm hwithin)
          | puts =>
            -- another write of the volume that has begun would hold the same row
            by_cases hmade' : o'.made = 0
            · left
              unfold Engine.view
              rw [((h' hkind).fresh hmade').2.1]
              rfl
            · rcases (h' hkind).begun hmade' with hnone | ⟨quota', _, hheld', _⟩
              · rw [howner, hquota] at hnone
                cases hnone
              · rw [howner] at hheld'
                exact absurd hheld' (hdisjoint _ hheld)
      · exact .inl (Eq.symm hwithin)
    have hleaves : Leaves what.volume o.reads t (database.view o' t) := by
      refine ⟨hsame, hfaded, fun hcount path row hread hget hlive => ?_⟩
      have hfade := hfaded path
      rw [hget] at hfade
      apply hfade.live
      by_contra hdead
      apply huncounts hmade hheld
      refine ⟨hcount, path, hread, ?_, by simpa using hdead⟩
      rw [hget]
      exact hlive
    refine ⟨quota, hsame.trans hquota, hheld, ?_⟩
    apply hminds.rely Leaves.trans _ hleaves
    intro _ hsettles t₂ hleaves₂
    exact hsettles t₂ (hleaves.trans _ _ _ hleaves₂)

section

variable {ι : Type} [DecidableEq ι]

/-- No commit gives a volume its first quota while a write of it has begun, and none
takes a file away that such a write, holding the quota row, has read and not yet
counted. -/
def Undisturbed (s : Requests ι) : Move ι Tables Read Write Problem Unit Request → Prop
  | .commit j => ∀ i what o what' o', i ≠ j → s.opened i = some (what, o) →
      s.opened j = some (what', o') → what.kind = .puts → o.made ≠ 0 →
        ¬Introduces what.volume s.db (database.view o' s.db) ∧ (.quota what.volume ∈ o.held →
            ¬Uncounts what.volume o.reads s.db (database.view o' s.db))
  | _ => True

/-- The runs of requests on a database with no other transactions. -/
def Runs (met : Requests ι → Move ι Tables Read Write Problem Unit Request → Prop) (t : Tables)
    (s : Requests ι) : Prop :=
  Steps database.move (fun s m => database.CanMove s m ∧ Genuine m ∧ met s m) ⟨t, fun _ => none⟩ s

theorem guarded_run {t : Tables} {s : Requests ι} (h : Runs Undisturbed t s) :
    Orderly s ∧ ∀ i what o, s.opened i = some (what, o) → what.kind = .puts →
      Guarded what o s.db := by
  apply Steps.invariant (P := fun s : Requests ι => Orderly s ∧
    ∀ i what o, s.opened i = some (what, o) → what.kind = .puts → Guarded what o s.db) _ h
  · exact ⟨.empty t, nofun⟩
  · rintro s m ⟨horderly, hguarded⟩ ⟨hcan, hgenuine, hmet⟩
    refine ⟨horderly.move hcan hgenuine, ?_⟩
    apply database.each_move (fun what o t => what.kind = .puts → Guarded what o t) hguarded
    · rintro i what x rfl _
      rw [show x = what.transaction from hgenuine]
      exact .start what s.db
    · exact fun i what o _ hi hputs => (hguarded i what o hi hputs).advance hputs
    · rintro i j what what' o o' rfl hij hi hj hputs
      have hundisturbed := fun hmade => hmet i what o what' o' hij hi hj hputs hmade
      exact (hguarded i what o hi hputs).beside (hguarded j what' o' hj)
        (horderly.bounds j what' o' hj) (horderly.holding j what' o' hj)
        (horderly.exclusive i j what what' o o' hij hi hj)
        (fun hmade => (hundisturbed hmade).1) (fun hmade => (hundisturbed hmade).2)

/-- After every commit of a write that raises the live bytes of its volume they are
within the quota in force, and a request that fails leaves the database as it is. -/
theorem quota_bounds {t : Tables} {s : Requests ι} (h : Runs Undisturbed t s) :
    (∀ i what o, s.opened i = some (what, o) → o.rest = .ret () → what.kind = .puts →
      s.db.liveBytes what.volume [] < (database.view o s.db).liveBytes what.volume [] →
        ∀ quota, (database.view o s.db).quotas.get? what.volume = some quota →
          (database.view o s.db).liveBytes what.volume [] ≤ quota) ∧
      ∀ i what o e, s.opened i = some (what, o) → o.rest = .raise e →
        ¬database.CanMove s (.commit i) ∧ (database.move (.advance i) s).db = s.db ∧
          (database.move (.rollback i) s).db = s.db := by
  obtain ⟨horderly, hguarded⟩ := guarded_run h
  constructor
  · intro i what o hi hrest hputs hraised quota hquota
    have hguard := hguarded i what o hi hputs
    have hsame := ((horderly.bounds i what o hi).within what.volume).quota
    unfold Request.Kind.OnQuota at hsame
    rw [hputs, if_neg fun hlimits => nomatch hlimits.2] at hsame
    by_cases hmade : o.made = 0
    · exfalso
      unfold Engine.view at hraised
      rw [(hguard.fresh hmade).2.1] at hraised
      exact lt_irrefl _ hraised
    · rcases hguard.begun hmade with hnone | ⟨quota', hquota', _, hminds⟩
      · rw [← hsame, hnone] at hquota
        cases hquota
      · rw [← hsame, hquota'] at hquota
        cases hquota
        rw [hrest] at hminds
        rcases hminds s.db (.refl _ _ _) with hle | hle
        · exact hle
        · exact absurd hraised (not_lt.mpr hle)
  · intro i what o e hi hrest
    refine ⟨?_, ?_, rfl⟩
    · rintro ⟨what', o', a, hi', hret⟩
      rw [hi] at hi'
      cases hi'
      rw [hrest] at hret
      cases hret
    · unfold Engine.move
      simp only [hi]

end

namespace Rehearsal

def bytes (size : Nat) : Content := ⟨size, "", false, ""⟩

def full : Tables where
  files := ⟨[(("v", ['a']), ⟨"A", bytes 5, 1, "p", 0, 0, none⟩),
    (("v", ['b']), ⟨"B", bytes 5, 1, "p", 0, 0, none⟩)], by decide⟩
  versions := .empty
  quotas := ⟨[("v", 12)], by decide⟩
  uploads := .empty

/-- `a` is overwritten. -/
def overwrite (size : Nat) : Request :=
  .commit "v" ['a'] (.object "v" "new") (bytes size) "p" none false "A" 1

def crossed (size made : Nat) (deleted : Path) : List Turn :=
  .start true (overwrite size) :: List.replicate made (.advance true) ++
    [.start false (.softDelete "v" deleted none 2), .advance false, .advance false,
      .commit false] ++ List.replicate (6 - made) (.advance true)

/-- The other request is no write that this commit could disturb. -/
def calm (s : Requests Bool) : Turn → Bool
  | .commit j =>
    match s.opened !j with
    | some (what, o) => (s.db.quotas.get? what.volume).isSome &&
        decide (Read.liveBytes what.volume ∈ o.reads)
    | none => true
  | _ => true

end Rehearsal

theorem undisturbed_of_calm (s : Requests Bool) (turn : Turn)
    (h : Rehearsal.calm s turn = true) : Undisturbed s turn.move := by
  cases turn with
  | start i what | advance i => trivial
  | commit j =>
    intro i what o what' o' hij hi hj _ _
    have hother : (!j) = i := by
      cases i <;> cases j <;> first | rfl | exact absurd rfl hij
    simp only [Rehearsal.calm, hother, hi, Bool.and_eq_true, decide_eq_true_eq] at h
    constructor
    · rintro ⟨hnone, _⟩
      rw [hnone] at h
      cases h.1
    · exact fun _ huncounts => huncounts.1 h.2

/-- The first file grows, and the second is deleted after the count. -/
theorem quota_bounds_crossed : ∃ s : Requests Bool, Runs Undisturbed Rehearsal.full s ∧
      ∃ what o, s.opened true = some (what, o) ∧ s.db.liveBytes what.volume [] = 5 ∧
        5 < (database.view o s.db).liveBytes what.volume [] ∧
          (database.view o s.db).liveBytes what.volume [] ≤ 12 := by
  have hplay : ∃ s what o, rehearseTurns Rehearsal.calm
        (Rehearsal.crossed 7 4 ['b']) ⟨Rehearsal.full, fun _ => none⟩ = some s ∧
      s.opened true = some (what, o) ∧ OpenRequest.ended o = true ∧ what.kind = .puts ∧
        s.db.liveBytes what.volume [] = 5 ∧ 5 < (database.view o s.db).liveBytes what.volume [] ∧
            (database.view o s.db).quotas.get? what.volume = some 12 :=
    ⟨_, _, _, rfl, rfl, by decide +kernel, rfl, by decide +kernel, by decide +kernel,
      by decide +kernel⟩
  obtain ⟨s, what, o, hplay, hopen, hended, hputs, hbefore, hraised, hquota⟩ := hplay
  have hruns : Runs Undisturbed Rehearsal.full s := steps_of_rehearse undisturbed_of_calm hplay
  have hbound := (quota_bounds hruns).1 true what o hopen (OpenRequest.ended_iff hended) hputs
    (by rw [hbefore]; exact hraised) 12 hquota
  exact ⟨s, hruns, what, o, hopen, hbefore, hraised, hbound⟩

/-- A delete between the read of a file and the count of the live bytes is taken off
twice. -/
theorem deleted_before_count : ∃ s : Requests Bool, Runs (fun _ _ => True) Rehearsal.full s ∧
      ∃ what o, s.opened true = some (what, o) ∧ o.rest = .ret () ∧ what.kind = .puts ∧
        s.db.liveBytes what.volume [] = 5 ∧
          (database.view o s.db).quotas.get? what.volume = some 12 ∧
            (database.view o s.db).liveBytes what.volume [] = 17 := by
  have hplay : ∃ s what o, rehearseTurns (fun _ _ => true)
        (Rehearsal.crossed 12 3 ['a']) ⟨Rehearsal.full, fun _ => none⟩ = some s ∧
      s.opened true = some (what, o) ∧ OpenRequest.ended o = true ∧ what.kind = .puts ∧
        s.db.liveBytes what.volume [] = 5 ∧
          (database.view o s.db).quotas.get? what.volume = some 12 ∧
            (database.view o s.db).liveBytes what.volume [] = 17 :=
    ⟨_, _, _, rfl, rfl, by decide +kernel, rfl, by decide +kernel, by decide +kernel,
      by decide +kernel⟩
  obtain ⟨s, what, o, hplay, hopen, hended, hrest⟩ := hplay
  exact ⟨s, steps_of_rehearse (fun _ _ _ => trivial) hplay, what, o, hopen,
    OpenRequest.ended_iff hended, hrest⟩

end Substrate.Files
