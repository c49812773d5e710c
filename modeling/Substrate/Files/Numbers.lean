import Mathlib.Order.CompletePartialOrder
import Substrate.Files.Requests

/-!
Version numbers as the condition of a write. A file keeps its id as long as its row is
there; a path whose file was forgotten or erased gets a new file, with a new id, whose
numbers begin at one again. For one file the number never falls, and as long as it is
the same so are the contents.
-/

namespace Substrate.Files

open Lib List

inductive Change where
  | request (what : Request)
  | purge (cutoff limit : Nat)
      (order : List ((String × Nat) × VersionRow) → List ((String × Nat) × VersionRow))
      (stamp : Nat)
  | erase (volume : String) (start : Path)

namespace Change

def transaction : Change → Transaction Unit
  | .request what => what.transaction
  | .purge cutoff limit order stamp => unanswered (purgeVersions cutoff limit order stamp)
  | .erase volume start => unanswered (erasePrefix volume start)

def gives : Change → Set String
  | .request (.commit _ _ _ _ _ _ _ id _) => {id}
  | .request (.copy _ _ _ _ _ _ _ newId _) => Set.range newId
  | _ => ∅

end Change

structure Numbered where
  tables : Tables
  used : Set String

def Change.step (change : Change) (s : Numbered) : Numbered :=
  ⟨after change.transaction s.tables, s.used ∪ change.gives⟩

def Change.Fresh (s : Numbered) (change : Change) : Prop := Disjoint s.used change.gives

/-- A row is a later state of another: of the same file, with the same number and the
same contents or with a higher number. -/
structure Later (old new : FileRow) : Prop where
  id : old.id = new.id
  number : old.version < new.version ∨ old.version = new.version ∧ old.content = new.content

theorem Later.refl (row : FileRow) : Later row row := ⟨rfl, .inr ⟨rfl, rfl⟩⟩

theorem Later.trans {row₁ row₂ row₃ : FileRow} (h : Later row₁ row₂) (h' : Later row₂ row₃) :
    Later row₁ row₃ where
  id := h.id.trans h'.id
  number := by
    rcases h.number with hlt | ⟨heq, hcontent⟩
    · rcases h'.number with hlt' | ⟨heq', _⟩
      · exact .inl (hlt.trans hlt')
      · exact .inl (heq' ▸ hlt)
    · rcases h'.number with hlt' | ⟨heq', hcontent'⟩
      · exact .inl (heq ▸ hlt')
      · exact .inr ⟨heq.trans heq', hcontent.trans hcontent'⟩

/-- Every file of the second tables is new or a later state of one of the first. -/
def Advances (gives : Set String) (t t' : Tables) : Prop :=
  ∀ place row', t'.files.get? place = some row' →
    row'.id ∈ gives ∨ ∃ row, t.files.get? place = some row ∧ Later row row'

section

variable {gives : Set String} {t t' : Tables}

theorem Advances.refl (gives : Set String) (t : Tables) : Advances gives t t :=
  fun _ row hget => .inr ⟨row, hget, .refl row⟩

theorem Advances.trans (t₁ t₂ t₃ : Tables) (h : Advances gives t₁ t₂)
    (h' : Advances gives t₂ t₃) : Advances gives t₁ t₃ := by
  intro place row₃ hget
  rcases h' place row₃ hget with hgiven | ⟨row₂, hget₂, hlater⟩
  · exact .inl hgiven
  · rcases h place row₂ hget₂ with hgiven | ⟨row₁, hget₁, hlater'⟩
    · left
      rw [← hlater.id]
      exact hgiven
    · exact .inr ⟨row₁, hget₁, hlater'.trans hlater⟩

theorem Advances.of_same (h : ∀ place, t'.files.get? place = t.files.get? place) :
    Advances gives t t' := by
  intro place row hget
  rw [h] at hget
  exact .inr ⟨row, hget, .refl row⟩

def Write.Numberless : Write → Prop
  | .insertFile _ _ _ => False
  | .updateFile _ _ _ change => ∀ row, Later row (change row)
  | _ => True

variable {w : Write} {α : Type} {volume by_ id : String} {quota ifMatch : Option Nat}
    {a : Unit} {path source destination : Path} {existing : Option FileRow} {key : ObjectKey}
    {content : Content} {stamp : Nat} {head : FileRow} {overwrite : Bool}
    {newId : Path → String}

theorem advances_exec (hw : w.Numberless) {images : List Image}
    (hexec : database.exec w t = .ok images) : Advances gives t (database.putAll images t) := by
  have himages : ∀ image ∈ images, ∀ volume path row, image = .file volume path (some row) →
      ∃ old, t.files.get? (volume, path) = some old ∧ Later old row := by
    intro image hmem volume path row himage
    subst himage
    cases w with
    | insertFile owner other new => exact hw.elim
    | updateFile owner other id change =>
      cases hexec
      obtain ⟨old, hold, heq⟩ := mem_map.mp hmem
      cases heq
      exact ⟨old, (Option.filter_eq_some_iff.mp (Option.mem_toList.mp hold)).1, hw old⟩
    | deletePrefix owner start stamp =>
      cases hexec
      obtain ⟨⟨other, old⟩, hold, heq⟩ := mem_map.mp hmem
      cases heq
      obtain ⟨⟨place, old'⟩, hrow, heq⟩ := mem_map.mp hold
      cases heq
      obtain ⟨hmem', hplace⟩ := mem_filter.mp hrow
      have hvolume : place.1 = volume := (of_decide_eq_true hplace).1
      have hget : t.files.get? (volume, place.2) = some old' := by
        rw [← hvolume]
        exact Table.mem_rows_iff.mp hmem'
      exact ⟨old', hget, ⟨rfl, .inr ⟨rfl, rfl⟩⟩⟩
    | insertVersion fileId number new | insertQuota owner maxBytes | insertUpload id new =>
      obtain rfl := insert_ok hexec
      cases mem_singleton.mp hmem
    | dropVolume owner =>
      cases hexec
      simp only [mem_append, mem_map, mem_singleton] at hmem
      rcases hmem with (⟨_, _, heq⟩ | ⟨_, _, heq⟩) | heq
      · cases heq
      · cases heq
      · cases heq
    | _ =>
      cases hexec
      obtain ⟨_, _, heq⟩ := mem_map.mp hmem
      cases heq
  intro place
  rw [files_putAll]
  apply foldl_induction (P := fun row => ∀ row', row = some row' → row'.id ∈ gives ∨
    ∃ old, t.files.get? place = some old ∧ Later old row')
  · exact fun row' hget => .inr ⟨row', hget, .refl row'⟩
  · intro image hmem row hrow row' hnew
    cases image with
    | file volume path new =>
      by_cases hplace : place = (volume, path)
      · simp only [Image.onFile, if_pos hplace] at hnew
        subst hnew hplace
        exact .inr (himages _ hmem volume path row' rfl)
      · simp only [Image.onFile, if_neg hplace] at hnew
        exact hrow row' hnew
    | version fileId number new | quota volume maxBytes | upload id new => exact hrow row' hnew

theorem advances_run {x : Transaction α} (h : x.Writes Write.Numberless) {a : α}
    (hrun : database.run x t = .ok (a, t')) : Advances gives t t' :=
  database.run_writes (Advances.refl gives) Advances.trans
    (fun _ hw _ _ hexec => advances_exec hw hexec) h hrun

theorem guardQuota_ok (h : database.run (guardQuota volume) t = .ok (quota, t'))
    (place : String × Path) : t'.files.get? place = t.files.get? place := by
  obtain ⟨n, t₁, htouch, h⟩ := (Engine.run_bind_ok _).mp h
  cases h
  obtain ⟨images, hexec, _, rfl⟩ := run_update_ok htouch
  cases hexec
  rw [files_putAll]
  apply foldl_eq_self
  intro image hmem
  obtain ⟨_, _, rfl⟩ := mem_map.mp hmem
  rfl

theorem guardBytes_ok {adding replacing : Nat}
    (h : database.run (guardBytes volume quota adding replacing) t = .ok (a, t')) : t' = t := by
  unfold guardBytes at h
  split at h
  · obtain ⟨used, t₁, hselect, h⟩ := (Engine.run_bind_ok _).mp h
    cases hselect
    exact (run_check_ok h).2
  · cases h
    rfl

theorem selectFile_ok (h : database.run (selectFile volume path) t = .ok (existing, t')) :
    existing = t.files.get? (volume, path) ∧ t' = t := by
  cases h
  exact ⟨rfl, rfl⟩

structure Put (existing : Option FileRow) (id : String) (content : Content) (head : FileRow) :
    Prop where
  new : existing = none → head.id = id ∧ head.version = 1
  next : ∀ old, existing = some old → head.id = old.id ∧ head.version = old.version + 1
  content : head.content = content
  live : head.live = true

theorem putVersion_files (hexisting : existing = t.files.get? (volume, path))
    (h : database.run (putVersion volume path existing key content by_ id stamp) t =
      .ok (head, t')) :
    Put existing id content head ∧ ∀ place, t'.files.get? place =
      if place = (volume, path) then some head else t.files.get? place := by
  unfold putVersion at h
  obtain ⟨head', t₁, hhead, h⟩ := (Engine.run_bind_ok _).mp h
  obtain ⟨n, t₂, hinsert, h⟩ := (Engine.run_bind_ok _).mp h
  cases h
  obtain ⟨images, hexec, _, rfl⟩ := run_update_ok hinsert
  have hversion : ∀ place, (database.putAll images t₁).files.get? place = t₁.files.get? place := by
    intro place
    simp only [Write.exec] at hexec
    split at hexec
    · cases hexec
    · cases hexec
      rw [files_putAll]
      rfl
  simp only [hversion]
  cases existing with
  | none =>
    obtain ⟨n, t₃, hfile, hhead⟩ := (Engine.run_bind_ok _).mp hhead
    cases hhead
    obtain ⟨images', hexec', _, rfl⟩ := run_update_ok hfile
    simp only [Write.exec] at hexec'
    split at hexec'
    · cases hexec'
    · cases hexec'
      refine ⟨⟨fun _ => ⟨rfl, rfl⟩, (fun _ hold => by cases hold), rfl, rfl⟩, fun place => ?_⟩
      rw [files_putAll]
      rfl
  | some old =>
    obtain ⟨n, t₃, hfile, hhead⟩ := (Engine.run_bind_ok _).mp hhead
    cases hhead
    obtain ⟨images', hexec', _, rfl⟩ := run_update_ok hfile
    simp only [Write.exec, ← hexisting, Option.filter, decide_true, if_true,
      Option.toList_some, map_cons, map_nil] at hexec'
    cases hexec'
    refine ⟨⟨(fun hnone => by cases hnone), ?_, rfl, rfl⟩, fun place => ?_⟩
    · intro old' hold
      cases hold
      exact ⟨rfl, rfl⟩
    · rw [files_putAll]
      rfl

theorem Put.advances (hput : Put existing id content head)
    (hexisting : existing = t.files.get? (volume, path)) (hid : existing = none → id ∈ gives)
    (hfiles : ∀ place, t'.files.get? place =
      if place = (volume, path) then some head else t.files.get? place) :
    Advances gives t t' := by
  intro place row' hget
  rw [hfiles] at hget
  split at hget
  · next hplace =>
      cases hget
      cases hold : existing with
      | none =>
        left
        rw [(hput.new hold).1]
        exact hid hold
      | some old =>
        obtain ⟨hsame, hnumber⟩ := hput.next old hold
        right
        refine ⟨old, ?_, ⟨hsame.symm, .inl (by omega)⟩⟩
        rw [hplace, ← hexisting, hold]
  · exact .inr ⟨row', hget, .refl row'⟩

theorem commitVersion_run {ifNoneMatch : Bool} (h : database.run
      (commitVersion volume path key content by_ ifMatch ifNoneMatch id stamp) t =
        .ok (head, t')) :
    ∃ quota t₁, database.run (guardQuota volume) t = .ok (quota, t₁) ∧
      writeGuard (t₁.files.get? (volume, path)) ifMatch ifNoneMatch = .ok () ∧
      database.run (putVersion volume path (t₁.files.get? (volume, path)) key content by_ id stamp)
        t₁ = .ok (head, t') := by
  unfold commitVersion at h
  obtain ⟨quota, t₁, hguard, h⟩ := (Engine.run_bind_ok _).mp h
  obtain ⟨existing, t₂, hselect, h⟩ := (Engine.run_bind_ok _).mp h
  obtain ⟨rfl, rfl⟩ := selectFile_ok hselect
  obtain ⟨_, t₃, hcheck, h⟩ := (Engine.run_bind_ok _).mp h
  obtain ⟨hwrite, rfl⟩ := run_check_ok hcheck
  obtain ⟨_, t₄, hbytes, h⟩ := (Engine.run_bind_ok _).mp h
  rw [guardBytes_ok hbytes] at h
  exact ⟨quota, _, hguard, hwrite, h⟩

theorem commitVersion_ok {ifNoneMatch : Bool}
    (h : database.run (commitVersion volume path key content by_ ifMatch ifNoneMatch id stamp) t =
      .ok (head, t')) :
    writeGuard (t.files.get? (volume, path)) ifMatch ifNoneMatch = .ok () ∧
      Put (t.files.get? (volume, path)) id content head ∧ ∀ place, t'.files.get? place =
        if place = (volume, path) then some head else t.files.get? place := by
  obtain ⟨quota, t₁, hguard, hwrite, h⟩ := commitVersion_run h
  obtain ⟨hput, hfiles⟩ := putVersion_files rfl h
  have hsame := guardQuota_ok hguard
  rw [hsame] at hwrite hput
  refine ⟨hwrite, hput, fun place => ?_⟩
  rw [hfiles, hsame]

theorem restore_ok {version : Option Nat}
    (h : database.run (restore volume path version by_ ifMatch id stamp) t = .ok (head, t')) :
    (∃ row, t.files.get? (volume, path) = some row ∧ ∀ n, ifMatch = some n → row.version = n) ∧
      Advances gives t t' := by
  unfold restore at h
  obtain ⟨quota, t₁, hguard, h⟩ := (Engine.run_bind_ok _).mp h
  have hsame := guardQuota_ok hguard
  have hguarded : Advances gives t t₁ := .of_same hsame
  obtain ⟨existing, t₂, hselect, h⟩ := (Engine.run_bind_ok _).mp h
  obtain ⟨hexisting, rfl⟩ := selectFile_ok hselect
  cases existing with
  | none => cases h
  | some row =>
    simp only at h
    split at h
    · cases h
    · next hmatch =>
        have hnumber : ∀ n, ifMatch = some n → row.version = n := by
          rintro n rfl
          by_contra hne
          exact hmatch (decide_eq_true fun heq => hne heq.symm)
        refine ⟨⟨row, by rw [← hsame, ← hexisting], hnumber⟩, ?_⟩
        apply hguarded.trans
        split at h
        · split at h
          · cases h
            exact .refl _ _
          · obtain ⟨_, t₃, hbytes, h⟩ := (Engine.run_bind_ok _).mp h
            rw [guardBytes_ok hbytes] at h
            obtain ⟨n, t₄, hupdate, h⟩ := (Engine.run_bind_ok _).mp h
            cases h
            obtain ⟨images, hexec, _, rfl⟩ := run_update_ok hupdate
            have hsilent : Write.Numberless (.updateFile volume path row.id fun row =>
                { row with deletedAt := none, updatedAt := stamp }) :=
              fun old => ⟨rfl, .inr ⟨rfl, rfl⟩⟩
            exact advances_exec hsilent hexec
        · obtain ⟨old, t₃, hversion, h⟩ := (Engine.run_bind_ok _).mp h
          cases hversion
          split at h
          · cases h
          · split at h
            · cases h
            · obtain ⟨_, t₄, hbytes, h⟩ := (Engine.run_bind_ok _).mp h
              rw [guardBytes_ok hbytes] at h
              obtain ⟨hput, hfiles⟩ := putVersion_files hexisting h
              exact hput.advances hexisting (fun hnone => nomatch hnone) hfiles

/-- A copy is of one of the files found, over what is at its target, and is not skipped. -/
def Copy.Planned (t : Tables) (volume : String) (source destination : Path) (overwrite : Bool)
    (found : List (Path × FileRow)) (copy : Copy) : Prop :=
  copy.existing = t.files.get? (volume, copy.target) ∧
    ¬(copy.existing.any FileRow.live = true ∧ overwrite = false) ∧
    ∃ path, (path, copy.row) ∈ found ∧ copy.target = copyTarget source destination path

theorem planCopy_ok :
    ∀ {found : List (Path × FileRow)} {t t' : Tables} {plan : List Copy} {skipped : Nat},
      database.run (planCopy volume source destination overwrite found) t =
        .ok ((plan, skipped), t') →
      t' = t ∧ (∀ copy ∈ plan, copy.Planned t volume source destination overwrite found) ∧
        (plan.map Copy.target).Sublist
          (found.map fun entry => copyTarget source destination entry.1)
  | [], t, t', plan, skipped, h => by
      cases h
      exact ⟨rfl, (fun _ hmem => nomatch hmem), nil_sublist _⟩
  | (path, row) :: rest, t, t', plan, skipped, h => by
      unfold planCopy at h
      obtain ⟨existing, t₁, hselect, h⟩ := (Engine.run_bind_ok _).mp h
      obtain ⟨rfl, rfl⟩ := selectFile_ok hselect
      obtain ⟨⟨plan', skipped'⟩, t₂, hrest, h⟩ := (Engine.run_bind_ok _).mp h
      obtain ⟨rfl, hplan, hsub⟩ := planCopy_ok hrest
      have hlater : ∀ copy ∈ plan',
          copy.Planned t₂ volume source destination overwrite ((path, row) :: rest) := by
        intro copy hmem
        obtain ⟨hexisting, hkept, path', hpath, htarget⟩ := hplan copy hmem
        exact ⟨hexisting, hkept, path', mem_cons_of_mem _ hpath, htarget⟩
      simp only at h
      split at h
      · cases h
        exact ⟨rfl, hlater, hsub.cons _⟩
      · next hkept =>
          cases h
          refine ⟨rfl, ?_, hsub.cons_cons _⟩
          intro copy hmem
          rcases mem_cons.mp hmem with rfl | hmem
          · exact ⟨rfl, by simpa using hkept, path, mem_cons_self, rfl⟩
          · exact hlater copy hmem

/-- What `copy_prefix` does: the quota is read, and the copies planned are written. -/
theorem copyPrefix_run {order : List (Path × FileRow) → List (Path × FileRow)}
    (horder : ∀ rows, (order rows).Perm rows) {result : CopyResult}
    (h : database.run (copyPrefix volume source destination by_ overwrite order newId stamp) t =
        .ok (result, t')) :
    ∃ quota t₁ plan a, database.run (guardQuota volume) t = .ok (quota, t₁) ∧
      database.run (writeCopies volume by_ newId stamp plan) t₁ = .ok (a, t') ∧
      (plan.map Copy.target).Nodup ∧ ∀ copy ∈ plan,
        copy.Planned t₁ volume source destination overwrite (t₁.liveUnder volume source) := by
  unfold copyPrefix at h
  obtain ⟨quota, t₁, hguard, h⟩ := (Engine.run_bind_ok _).mp h
  obtain ⟨found, t₂, hfound, h⟩ := (Engine.run_bind_ok _).mp h
  cases hfound
  split at h
  · cases h
  · obtain ⟨⟨plan, skipped⟩, t₃, hplan, hguarded⟩ := (Engine.run_bind_ok _).mp h
    obtain ⟨rfl, hplanned, hsub⟩ := planCopy_ok hplan
    obtain ⟨_, t₄, hbytes, hwritten⟩ := (Engine.run_bind_ok _).mp hguarded
    rw [guardBytes_ok hbytes] at hwritten
    obtain ⟨a, t₅, hcopies, hanswer⟩ := (Engine.run_bind_ok _).mp hwritten
    cases hanswer
    refine ⟨quota, _, plan, a, hguard, hcopies, hsub.nodup (targets_nodup horder _), ?_⟩
    intro copy hmem
    obtain ⟨hexisting, hkept, path, hpath, htarget⟩ := hplanned copy hmem
    exact ⟨hexisting, hkept, path, (horder _).subset (mem_of_mem_take hpath), htarget⟩

theorem writeCopies_ok (hgives : ∀ path, newId path ∈ gives) :
    ∀ {plan : List Copy} {t t' : Tables} {a : Unit},
      database.run (writeCopies volume by_ newId stamp plan) t = .ok (a, t') →
      (∀ copy ∈ plan, copy.existing = t.files.get? (volume, copy.target)) →
      (plan.map Copy.target).Nodup → Advances gives t t' 
  | [], t, t', a, h, _, _ => by
      cases h
      exact .refl _ _
  | copy :: rest, t, t', a, h, hplan, hnodup => by
      unfold writeCopies at h
      obtain ⟨version, t₁, hversion, h⟩ := (Engine.run_bind_ok _).mp h
      cases hversion
      split at h
      · cases h
      · obtain ⟨head, t₂, hput, h⟩ := (Engine.run_bind_ok _).mp h
        have hexisting := hplan copy mem_cons_self
        obtain ⟨hput, hfiles⟩ := putVersion_files hexisting hput
        rw [map_cons, nodup_cons] at hnodup
        apply (hput.advances hexisting (fun _ => hgives _) hfiles).trans
        apply writeCopies_ok hgives h
        · intro other hmem
          have hne : ¬(volume, other.target) = (volume, copy.target) := by
            intro heq
            exact hnodup.1 (mem_map.mpr ⟨other, hmem, (Prod.mk.inj heq).2⟩)
          rw [hfiles, if_neg hne]
          exact hplan other (mem_cons_of_mem _ hmem)
        · exact hnodup.2

theorem copyPrefix_ok {order : List (Path × FileRow) → List (Path × FileRow)}
    (horder : ∀ rows, (order rows).Perm rows) (hgives : ∀ path, newId path ∈ gives)
    {result : CopyResult}
    (h : database.run (copyPrefix volume source destination by_ overwrite order newId stamp) t =
        .ok (result, t')) : Advances gives t t' := by
  obtain ⟨quota, t₁, plan, a, hguard, hcopies, hnodup, hplan⟩ := copyPrefix_run horder h
  apply (Advances.of_same (guardQuota_ok hguard)).trans
  exact writeCopies_ok hgives hcopies (fun copy hmem => (hplan copy hmem).1) hnodup

theorem unanswered_ok {x : Transaction α} (h : database.run (unanswered x) t = .ok (a, t')) :
    ∃ b, database.run x t = .ok (b, t') := by
  obtain ⟨b, t₁, hrun, h⟩ := (Engine.run_bind_ok _).mp h
  cases h
  exact ⟨b, hrun⟩

theorem numberless_markPurged (stamp : Nat) :
    ∀ rows, (markPurged stamp rows).Writes Write.Numberless
  | [] => trivial
  | _ :: rest => ⟨trivial, fun _ => numberless_markPurged stamp rest⟩

theorem numberless_unnamed (query : Tables → ObjectKey → Bool) :
    ∀ keys, (unnamed query keys).Writes Write.Numberless
  | [] => trivial
  | _ :: rest => fun _ => (numberless_unnamed query rest).bind fun _ => trivial

theorem numberless_dropFiles (volume : String) :
    ∀ files, (dropFiles volume files).Writes Write.Numberless
  | [] => trivial
  | _ :: rest => fun _ =>
    ⟨trivial, fun _ => ⟨trivial, fun _ => (numberless_dropFiles volume rest).bind fun _ => trivial⟩⟩

theorem Write.Deletes.numberless (h : w.Deletes volume) : w.Numberless := by
  cases w with
  | updateFile owner path id change =>
    obtain ⟨_, stamp, rfl⟩ := h
    exact fun row => ⟨rfl, .inr ⟨rfl, rfl⟩⟩
  | deletePrefix owner start stamp => trivial
  | _ => exact h.elim

theorem Write.Limits.numberless (h : w.Limits volume) : w.Numberless := by
  cases w <;> trivial

theorem Change.advances {change : Change} (h : database.run change.transaction t = .ok (a, t')) :
    Advances change.gives t t' := by
  obtain what | ⟨cutoff, limit, order, stamp⟩ | ⟨volume, start⟩ := change
  · cases what with
    | commit volume path key content by_ ifMatch ifNoneMatch id stamp =>
      obtain ⟨head, hrun⟩ := unanswered_ok h
      obtain ⟨_, hput, hfiles⟩ := commitVersion_ok hrun
      exact hput.advances rfl (fun _ => rfl) hfiles
    | copy volume source destination by_ overwrite order horder newId stamp =>
      obtain ⟨result, hrun⟩ := unanswered_ok h
      exact copyPrefix_ok horder (fun path => ⟨path, rfl⟩) hrun
    | restore volume path version by_ ifMatch id stamp =>
      obtain ⟨head, hrun⟩ := unanswered_ok h
      exact (restore_ok hrun).2
    | softDelete volume path ifMatch stamp =>
      obtain ⟨deleted, hrun⟩ := unanswered_ok h
      exact advances_run
        ((deletes_softDelete path ifMatch stamp).mono fun _ => Write.Deletes.numberless) hrun
    | deletePrefix volume start stamp =>
      obtain ⟨total, hrun⟩ := unanswered_ok h
      exact advances_run
        ((deletes_deletePrefix start stamp).mono fun _ => Write.Deletes.numberless) hrun
    | setQuota volume maxBytes =>
      obtain ⟨_, hrun⟩ := unanswered_ok h
      exact advances_run ((limits_setQuota maxBytes).mono fun _ => Write.Limits.numberless) hrun
  · obtain ⟨garbage, hrun⟩ := unanswered_ok h
    have hwrites : (purgeVersions cutoff limit order stamp).Writes Write.Numberless := fun _ =>
      (numberless_markPurged stamp _).bind fun _ => (numberless_unnamed _ _).bind fun _ =>
        ⟨trivial, fun _ => ⟨trivial, fun _ => trivial⟩⟩
    exact advances_run hwrites hrun
  · obtain ⟨erased, hrun⟩ := unanswered_ok h
    have hwrites : (erasePrefix volume start).Writes Write.Numberless := fun _ =>
      (numberless_dropFiles volume _).bind fun _ => (numberless_unnamed _ _).bind fun _ => trivial
    exact advances_run hwrites hrun

end

def Known (s : Numbered) : Prop :=
  ∀ place row, s.tables.files.get? place = some row → row.id ∈ s.used

/-- Every file of the second state whose id the first knows was there, in an earlier
state. -/
structure Since (s s' : Numbered) : Prop where
  used : s.used ⊆ s'.used
  files : ∀ place row', s'.tables.files.get? place = some row' → row'.id ∈ s.used →
    ∃ row, s.tables.files.get? place = some row ∧ Later row row'

theorem Since.refl (s : Numbered) : Since s s :=
  ⟨subset_rfl, fun _ row hget _ => ⟨row, hget, .refl row⟩⟩

theorem Since.trans (s₁ s₂ s₃ : Numbered) (h : Since s₁ s₂) (h' : Since s₂ s₃) : Since s₁ s₃ where
  used := h.used.trans h'.used
  files place row₃ hget hused := by
    obtain ⟨row₂, hget₂, hlater⟩ := h'.files place row₃ hget (h.used hused)
    obtain ⟨row₁, hget₁, hlater'⟩ := h.files place row₂ hget₂ (hlater.id ▸ hused)
    exact ⟨row₁, hget₁, hlater'.trans hlater⟩

section

variable {s s' : Numbered} {change : Change}

theorem advances_step (change : Change) (s : Numbered) :
    Advances change.gives s.tables (change.step s).tables := by
  unfold Change.step after
  simp only
  split
  · next hrun => exact Change.advances hrun
  · exact .refl _ _

theorem since_step (hfresh : change.Fresh s) : Since s (change.step s) where
  used := Set.subset_union_left
  files place row' hget hused := by
    rcases advances_step change s place row' hget with hgiven | hlater
    · exact absurd hgiven (Set.disjoint_left.mp hfresh hused)
    · exact hlater

theorem since_run (h : Steps Change.step Change.Fresh s s') : Since s s' :=
  Steps.related (P := fun _ => True) Since.refl Since.trans (fun _ _ _ _ => trivial)
    (fun _ _ _ hfresh => since_step hfresh) h trivial

end

abbrev Changes (ι : Type) := Sessions ι Tables Read Write Image Key Problem Unit Change

def Proper {ι : Type} (s : Changes ι) (m : Move ι Tables Read Write Problem Unit Change) : Prop :=
  database.CanMove s m ∧ ∀ i what t, m = .start i what t → t = what.transaction

structure AddsNew (volume : String) (o : OpenRequest) (t : Tables) : Prop where
  writes : o.rest.Writes (Write.Puts volume)
  new : ∀ fileId number row, .version fileId number row ∈ o.images →
    row.isSome = true ∧ t.versions.get? (fileId, number) = none

section

variable {volume : String} {o o' : OpenRequest} {t : Tables}

variable {place : String × Nat} {images : List Image} {ifNoneMatch : Bool} {reads : List Read}
    {what : Change}

theorem foldl_onVersion {start : Option VersionRow}
    (hsome : ∀ fileId number row, .version fileId number row ∈ images → row.isSome = true)
    (hstart : start.isSome = true) :
    (images.foldl (Image.onVersion place) start).isSome = true := by
  apply foldl_induction (P := fun row : Option VersionRow => row.isSome = true) hstart
  intro image hmem row hrow
  cases image with
  | version fileId number new =>
    by_cases hplace : place = (fileId, number)
    · simp only [Image.onVersion, if_pos hplace]
      exact hsome fileId number new hmem
    · simp only [Image.onVersion, if_neg hplace]
      exact hrow
  | file owner path new | quota owner maxBytes | upload id new => exact hrow

theorem AddsNew.sees (h : AddsNew volume o t) (hsome : (t.versions.get? place).isSome = true) :
    ((database.view o t).versions.get? place).isSome = true := by
  unfold Engine.view
  rw [versions_putAll]
  exact foldl_onVersion (fun fileId number row hmem => (h.new fileId number row hmem).1) hsome

theorem AddsNew.added (h : AddsNew volume o t) {fileId : String} {number : Nat}
    {row : Option VersionRow} (hmem : .version fileId number row ∈ o.images) :
    ((database.view o t).versions.get? (fileId, number)).isSome = true := by
  have hsome := fun fileId number row hmem => (h.new fileId number row hmem).1
  obtain ⟨before, rest, himages⟩ := append_of_mem hmem
  unfold Engine.view
  rw [versions_putAll, himages, foldl_append, foldl_cons]
  apply foldl_onVersion
  · intro fileId' number' row' hmem'
    apply hsome fileId' number' row'
    rw [himages]
    exact mem_append_right _ (mem_cons_of_mem _ hmem')
  · simp only [Image.onVersion, if_pos]
    exact hsome fileId number row hmem

theorem AddsNew.advance (h : AddsNew volume o t) : AddsNew volume (database.advance o t) t := by
  have hsees : ∀ {place : String × Nat}, (database.view o t).versions.get? place = none →
      t.versions.get? place = none := by
    intro place hnone
    by_contra hsome
    have hview := h.sees (Option.isSome_iff_ne_none.mpr hsome)
    rw [hnone] at hview
    cases hview
  obtain ⟨rest, images, reads, held, made⟩ := o
  obtain ⟨hwrites, hnew⟩ := h
  cases rest with
  | ret a | raise e => exact ⟨hwrites, hnew⟩
  | read query next => exact ⟨hwrites _, hnew⟩
  | write w next =>
    unfold Engine.advance
    simp only
    cases hexec : database.exec w (database.view ⟨.write w next, images, reads, held, made⟩ t) with
    | error e => exact ⟨trivial, hnew⟩
    | ok new =>
      refine ⟨hwrites.2 _, ?_⟩
      intro fileId number row hmem
      rcases mem_append.mp hmem with hold | hadded
      · exact hnew fileId number row hold
      · have hw : w.Puts volume := hwrites.1
        cases w with
        | insertVersion fileId' number' row' =>
          simp only [database, Write.exec] at hexec
          split at hexec
          · cases hexec
          · next hfree =>
              cases hexec
              cases mem_singleton.mp hadded
              exact ⟨rfl, hsees (Option.not_isSome_iff_eq_none.mp hfree)⟩
        | insertFile owner path row' =>
          obtain rfl := insert_ok hexec
          cases mem_singleton.mp hadded
        | updateFile owner path id change | touchQuota owner =>
          cases hexec
          obtain ⟨_, _, heq⟩ := mem_map.mp hadded
          cases heq
        | _ => exact hw.elim

theorem AddsNew.beside (hheld : o.held = o.images.map Image.key)
    (hheld' : o'.held = o'.images.map Image.key) (hdisjoint : ∀ key ∈ o.held, key ∉ o'.held)
    (h : AddsNew volume o t) : AddsNew volume o (database.view o' t) := by
  refine ⟨h.writes, fun fileId number row hmem => ?_⟩
  obtain ⟨hsome, hnone⟩ := h.new fileId number row hmem
  refine ⟨hsome, ?_⟩
  have hfree : Key.version fileId number ∉ o'.images.map Image.key := by
    rw [← hheld']
    apply hdisjoint
    rw [hheld]
    exact mem_map.mpr ⟨_, hmem, rfl⟩
  have hsame : (database.view o' t).versions.get? (fileId, number) =
      t.versions.get? (fileId, number) := versions_of_not_mem t hfree
  rw [hsame, hnone]

/-- The version that comes after the one a write was conditional on. -/
def Supersedes (n : Nat) (_ : Unit) (images : List Image) (_ : List Read) (_ : Tables) : Prop :=
  ∃ fileId row, .version fileId (n + 1) row ∈ images

theorem writeGuard_ok {existing : Option FileRow} {ifMatch : Option Nat}
    (h : writeGuard existing ifMatch ifNoneMatch = .ok ()) :
    (∀ n, ifMatch = some n → ∃ row, existing = some row ∧ row.live = true ∧ row.version = n) ∧
      (ifNoneMatch = true → existing.any FileRow.live = false) := by
  unfold writeGuard at h
  simp only at h
  split at h
  · cases h
  · next hnone =>
      constructor
      · rintro n rfl
        simp only at h
        split at h
        · next hmatch =>
            cases existing with
            | none => cases hmatch
            | some row =>
              have hrow : row.live = true ∧ row.version = n := by simpa using hmatch
              exact ⟨row, rfl, hrow⟩
        · cases h
      · intro hflag
        simpa [hflag] using hnone

theorem keeps_guardBytes {Q : Unit → List Image → List Read → Tables → Prop} {quota : Option Nat}
    {adding replacing : Nat} (h : ∀ t' reads', Q () images reads' t') :
    database.Keeps (fun _ _ _ => True) Q (guardBytes volume quota adding replacing) images reads
      t := by
  unfold guardBytes
  split
  · apply Engine.Keeps.bind
    apply Engine.Keeps.select
    intro t' _
    apply keeps_check
    exact fun _ => h _ _
  · exact h _ _

theorem commit_supersedes {path : Path} {key : ObjectKey} {content : Content} {by_ : String}
    {n : Nat} {id : String} {stamp : Nat} :
    database.Keeps (fun _ _ _ => True) (Supersedes n)
      (Request.commit volume path key content by_ (some n) ifNoneMatch id stamp).transaction
      images reads t := by
  apply Engine.Keeps.bind
  apply Engine.Keeps.bind
  apply Engine.Keeps.bind
  apply Engine.Keeps.execute
  intro t₁ _ touched _
  apply Engine.Keeps.select
  intro t₂ _
  apply Engine.Keeps.bind
  apply Engine.Keeps.select
  intro t₃ _
  apply Engine.Keeps.bind
  apply keeps_check
  intro hguard
  obtain ⟨row, hexisting, _, hnumber⟩ := (writeGuard_ok hguard).1 n rfl
  rw [hexisting]
  apply Engine.Keeps.bind
  apply keeps_guardBytes
  intro t₄ reads'
  apply Engine.Keeps.bind
  apply Engine.Keeps.bind
  apply Engine.Keeps.execute
  intro t₅ _ updated _
  apply Engine.Keeps.bind
  apply Engine.Keeps.execute
  intro t₆ _ inserted hexec
  obtain rfl := insert_ok hexec
  refine ⟨row.id, some ⟨volume, key, content, by_, stamp, none⟩, ?_⟩
  apply mem_append_right
  rw [← hnumber]
  exact mem_singleton.mpr rfl

/-- What is known of an open change: a write adds new versions only, and a commit
under a condition is on its way to the next number. -/
def Behaves (what : Change) (o : OpenRequest) (t : Tables) : Prop :=
  match what with
  | .request what => (what.kind = .puts → AddsNew what.volume o t) ∧
      match what with
      | .commit _ _ _ _ _ (some n) _ _ _ =>
        database.Keeps (fun _ _ _ => True) (Supersedes n) o.rest o.images o.reads t
      | _ => True
  | _ => True

theorem Behaves.start (what : Change) (t : Tables) :
    Behaves what ⟨what.transaction, [], [], [], 0⟩ t := by
  obtain what | ⟨cutoff, limit, order, stamp⟩ | ⟨volume, start⟩ := what
  · constructor
    · intro hputs
      refine ⟨?_, fun _ _ _ hmem => nomatch hmem⟩
      have hwrites := what.writes
      rw [hputs] at hwrites
      exact hwrites
    · cases what with
      | commit volume path key content by_ ifMatch ifNoneMatch id stamp =>
        cases ifMatch with
        | none => trivial
        | some n => exact commit_supersedes
      | _ => trivial
  · trivial
  · trivial

theorem Behaves.advance (h : Behaves what o t) : Behaves what (database.advance o t) t := by
  obtain what | ⟨cutoff, limit, order, stamp⟩ | ⟨volume, start⟩ := what
  · refine ⟨fun hputs => (h.1 hputs).advance, ?_⟩
    cases what with
    | commit volume path key content by_ ifMatch ifNoneMatch id stamp =>
      cases ifMatch with
      | none => trivial
      | some n => exact Engine.Keeps.advance (fun _ _ => trivial) h.2
    | _ => trivial
  · trivial
  · trivial

theorem Behaves.beside (hheld : o.held = o.images.map Image.key)
    (hheld' : o'.held = o'.images.map Image.key) (hdisjoint : ∀ key ∈ o.held, key ∉ o'.held)
    (h : Behaves what o t) : Behaves what o (database.view o' t) := by
  obtain what | ⟨cutoff, limit, order, stamp⟩ | ⟨volume, start⟩ := what
  · refine ⟨fun hputs => (h.1 hputs).beside hheld hheld' hdisjoint, ?_⟩
    cases what with
    | commit volume path key content by_ ifMatch ifNoneMatch id stamp =>
      cases ifMatch with
      | none => trivial
      | some n =>
        have hkeeps : database.Keeps (fun _ _ _ => True) (Supersedes n) o.rest o.images
            o.reads t := h.2
        exact Engine.Keeps.rely (d := t) (fun _ _ _ _ _ => trivial) (fun _ hsupersedes => hsupersedes)
          hkeeps trivial
    | _ => trivial
  · trivial
  · trivial

end

/-- Whatever is in between, a path with the same file and the same number has had the
same contents all along. -/
structure Unchanged (s s' : Numbered) : Prop where
  later : ∀ place row row', s.tables.files.get? place = some row →
    s'.tables.files.get? place = some row' → row.id = row'.id → Later row row'
  between : ∀ s₁, Steps Change.step Change.Fresh s s₁ → Steps Change.step Change.Fresh s₁ s' →
    ∀ place row row', s.tables.files.get? place = some row →
      s'.tables.files.get? place = some row' → row.id = row'.id → row.version = row'.version →
        ∃ row₁, s₁.tables.files.get? place = some row₁ ∧ row₁.id = row.id ∧
          row₁.version = row.version ∧ row₁.content = row.content

theorem unchanged {s s' : Numbered} (hknown : Known s)
    (h : Steps Change.step Change.Fresh s s') : Unchanged s s' := by
  have hlater : ∀ {s s' : Numbered}, Known s → Steps Change.step Change.Fresh s s' →
      ∀ place row row', s.tables.files.get? place = some row →
        s'.tables.files.get? place = some row' → row.id = row'.id → Later row row' := by
    intro s s' hknown h place row row' hget hget' hid
    have hused : row'.id ∈ s.used := hid ▸ hknown place row hget
    obtain ⟨old, hold, hlater⟩ := (since_run h).files place row' hget' hused
    rw [hget] at hold
    cases hold
    exact hlater
  refine ⟨hlater hknown h, ?_⟩
  intro s₁ h₁ h₂ place row row' hget hget' hid hnumber
  have hused : row'.id ∈ s₁.used := (since_run h₁).used (hid ▸ hknown place row hget)
  obtain ⟨row₁, hget₁, hlater₂⟩ := (since_run h₂).files place row' hget' hused
  have hlater₁ := hlater hknown h₁ place row row₁ hget hget₁ (hid.trans hlater₂.id.symm)
  refine ⟨row₁, hget₁, hlater₁.id.symm, ?_⟩
  rcases hlater₁.number with hlt | ⟨heq, hcontent⟩
  · rcases hlater₂.number with hlt' | ⟨heq', _⟩
    · omega
    · omega
  · exact ⟨heq.symm, hcontent.symm⟩

namespace Rehearsal

def nothing : Numbered := ⟨⟨.empty, .empty, .empty, .empty⟩, ∅⟩

def written (key : String) (size : Nat) (ifMatch : Option Nat) (id : String) : Change :=
  .request (.commit "v" ['a'] (.object "v" key) ⟨size, "", false, ""⟩ "p" ifMatch false id 1)

def rewritten : Numbered := (written "second" 7 none "B").step
    ((Change.erase "v" ['a']).step ((written "first" 5 none "A").step nothing))

end Rehearsal

end Substrate.Files
