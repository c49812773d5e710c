import Substrate.Documents.Agreement
import Substrate.Lib.Runs

/-!
A document library over the volumes of tenants beside one over a table of keys: the same
calls are made of both.
-/

namespace Substrate.Documents

open Files Lib List Option

def outcome {σ : Type} (result : Except Failure (Answer × σ)) : Except Kind Answer :=
  match result with
  | .ok (answer, _) => .ok answer
  | .error e => .error e.kind

def next {σ : Type} (s : σ) (result : Except Failure (Answer × σ)) : σ :=
  match result with
  | .ok (_, s') => s'
  | .error _ => s

@[simp] theorem next_ok {σ : Type} (s s' : σ) (answer : Answer) :
    next s (.ok (answer, s')) = s' := rfl

/-- Two results that are one to the library, and leave the same files. -/
inductive Matched : Except Failure (Answer × FileTable) → Except Failure (Answer × Volumes) → Prop where
  | answered {answer : Answer} {files : FileTable} {volumes : Volumes} (h : Agree files volumes) :
      Matched (.ok (answer, files)) (.ok (answer, volumes))
  | failed {e e' : Failure} (h : e.kind = e'.kind) : Matched (.error e) (.error e')

variable {key : Path} {e : Failure}

theorem check_error (h : FileTable.check key ≠ .ok ()) :
    ∃ e, FileTable.check key = .error e ∧ e.kind = .refused := by
  unfold FileTable.check at h ⊢
  split
  · exact ⟨_, rfl, rfl⟩
  · next hok => exact absurd (if_neg hok) h

theorem splitKey_error (h : Volumes.splitKey key = .error e) : e.kind = .refused := by
  unfold Volumes.splitKey at h
  dsimp only at h
  repeat' split at h
  all_goals cases h
  all_goals rfl

theorem splitPrefix_error {start : Path} (h : Volumes.splitPrefix start = .error e) :
    e.kind = .refused := by
  unfold Volumes.splitPrefix at h
  dsimp only at h
  repeat' split at h
  all_goals cases h
  all_goals rfl

theorem kind_invalidPath (detail : String) :
    (Failure.problem (invalidPath detail)).kind = .refused := rfl

section Refusals

variable {setting : Setting}

def Fails {α : Type} (result : Except Failure α) : Prop := ∃ e, result = .error e ∧ e.kind = .refused

variable {α β : Type} {key start : Path}

theorem Fails.bind {x : Except Failure α} (h : Fails x) (f : α → Except Failure β) :
    Fails (x >>= f) := by
  obtain ⟨e, rfl, hkind⟩ := h
  exact ⟨e, rfl, hkind⟩

theorem Fails.matched {a : Except Failure (Answer × FileTable)}
    {b : Except Failure (Answer × Volumes)} (h : Fails a) (h' : Fails b) : Matched a b := by
  obtain ⟨e, rfl, hkind⟩ := h
  obtain ⟨e', rfl, hkind'⟩ := h'
  exact .failed (hkind.trans hkind'.symm)

theorem volume_cases (tenant : Path) : Fails (Volumes.volume setting tenant) ∨
      Volumes.volume setting tenant = .ok () ∧ setting.provisioned tenant = true := by
  unfold Volumes.volume
  split
  · next h => exact .inr ⟨rfl, h⟩
  · exact .inl ⟨_, rfl, rfl⟩

theorem raised_path_cases (raw : Path) : Fails (Volumes.raised (normalizePath setting.nfc raw)) ∨
      ∃ path, Volumes.raised (normalizePath setting.nfc raw) = .ok path ∧
        normalizePath setting.nfc raw = .ok path := by
  cases h : normalizePath setting.nfc raw with
  | ok path => exact .inr ⟨path, rfl, rfl⟩
  | error p =>
    obtain ⟨detail, rfl⟩ := normalizePath_error h
    exact .inl ⟨_, rfl, kind_invalidPath detail⟩

theorem raised_prefix_cases (raw : Path) :
    Fails (Volumes.raised (normalizePrefix setting.nfc raw)) ∨
      ∃ path, Volumes.raised (normalizePrefix setting.nfc raw) = .ok path ∧
        normalizePrefix setting.nfc raw = .ok path := by
  cases h : normalizePrefix setting.nfc raw with
  | ok path => exact .inr ⟨path, rfl, rfl⟩
  | error p =>
    obtain ⟨detail, rfl⟩ := normalizePrefix_error h
    exact .inl ⟨_, rfl, kind_invalidPath detail⟩

theorem Refused.cases (h : Refused setting key) : Fails (Volumes.splitKey key) ∨
      ∃ tenant raw, Volumes.splitKey key = .ok (tenant, raw) ∧
        (Fails (Volumes.raised (normalizePath setting.nfc raw)) ∨
          Fails (Volumes.volume setting tenant)) := by
  cases hsplit : Volumes.splitKey key with
  | error e => exact .inl ⟨e, rfl, splitKey_error hsplit⟩
  | ok parts =>
    obtain ⟨tenant, raw⟩ := parts
    refine .inr ⟨tenant, raw, rfl, ?_⟩
    rcases raised_path_cases raw with hfail | ⟨path, _, hpath⟩
    · exact .inl hfail
    · rcases volume_cases tenant with hfail | ⟨_, hsome⟩
      · exact .inr hfail
      · rw [h.place tenant raw path hsplit hpath] at hsome
        cases hsome

theorem RefusedAll.cases (h : RefusedAll setting start) : Fails (Volumes.splitPrefix start) ∨
      ∃ tenant raw, Volumes.splitPrefix start = .ok (tenant, raw) ∧
        (Fails (Volumes.raised (normalizePrefix setting.nfc raw)) ∨
          Fails (Volumes.volume setting tenant)) := by
  cases hsplit : Volumes.splitPrefix start with
  | error e => exact .inl ⟨e, rfl, splitPrefix_error hsplit⟩
  | ok parts =>
    obtain ⟨tenant, raw⟩ := parts
    refine .inr ⟨tenant, raw, rfl, ?_⟩
    rcases raised_prefix_cases raw with hfail | ⟨path, _, hpath⟩
    · exact .inl hfail
    · rcases volume_cases tenant with hfail | ⟨_, hsome⟩
      · exact .inr hfail
      · rw [h.place tenant raw path hsplit hpath] at hsome
        cases hsome

theorem fails_two {x : Except Failure α} {y : Except Failure Unit} {P : α → Prop} {Q : Prop}
    (hx : Fails x ∨ ∃ a, x = .ok a ∧ P a) (hy : Fails y ∨ y = .ok () ∧ Q) (h : Fails x ∨ Fails y)
    (f : α → Except Failure β) :
    Fails (x >>= fun a => y >>= fun _ => f a) ∧ Fails (y >>= fun _ => x >>= f) := by
  constructor
  · rcases hx with hx | ⟨a, rfl, _⟩
    · exact hx.bind _
    · rcases h with ⟨e, he, _⟩ | h
      · cases he
      · exact h.bind _
  · rcases hy with hy | ⟨rfl, _⟩
    · exact hy.bind _
    · rcases h with h | ⟨e, he, _⟩
      · exact h.bind _
      · cases he

theorem upload_refused (h : Refused setting key) (volumes : Volumes) (data : List UInt8)
    (now : Nat) : Fails (volumes.upload setting key data now) := by
  unfold Volumes.upload
  rcases h.cases with hsplit | ⟨tenant, raw, hsplit, hfail⟩
  · exact hsplit.bind _
  · rw [hsplit]
    exact (fails_two (raised_path_cases raw) (volume_cases tenant) hfail _).1

theorem download_refused (h : Refused setting key) (volumes : Volumes) :
    Fails (volumes.download setting key) := by
  unfold Volumes.download
  rcases h.cases with hsplit | ⟨tenant, raw, hsplit, hfail⟩
  · exact hsplit.bind _
  · rw [hsplit]
    exact (fails_two (raised_path_cases raw) (volume_cases tenant) hfail _).1

theorem delete_refused (h : Refused setting key) (volumes : Volumes) (now : Nat) :
    Fails (volumes.delete setting key now) := by
  unfold Volumes.delete
  rcases h.cases with hsplit | ⟨tenant, raw, hsplit, hfail⟩
  · exact hsplit.bind _
  · rw [hsplit]
    exact (fails_two (raised_path_cases raw) (volume_cases tenant) hfail _).2

theorem deletePrefix_refused (h : RefusedAll setting start) (volumes : Volumes) (now : Nat) :
    Fails (volumes.deletePrefix setting start now) := by
  unfold Volumes.deletePrefix
  rcases h.cases with hsplit | ⟨tenant, raw, hsplit, hfail⟩
  · exact hsplit.bind _
  · rw [hsplit]
    exact (fails_two (raised_prefix_cases raw) (volume_cases tenant) hfail _).2

end Refusals

section Calls

variable {setting : Setting} {files : FileTable} {volumes : Volumes} {key tenant path : Path}

theorem upload_named (h : Named setting key tenant path) (volumes : Volumes) (data : List UInt8)
    (now : Nat) :
    volumes.upload setting key data now =
      match checkQuota (volumes.liveBytes tenant) data.length (setting.quota tenant)
        (((volumes.head tenant path).map fun file => file.data.length).getD 0) with
      | .ok _ => .ok (.done, volumes.set (tenant, path) (some ⟨data, now, none⟩))
      | .error p => .error (.problem p) := by
  unfold Volumes.upload
  simp only [h.split, h.normal, Volumes.raised, Volumes.volume, h.provisioned, bind, Except.bind,
    if_true]
  cases checkQuota (volumes.liveBytes tenant) data.length (setting.quota tenant)
    (((volumes.head tenant path).map fun file => file.data.length).getD 0) <;> rfl

theorem download_named (h : Named setting key tenant path) (volumes : Volumes) :
    volumes.download setting key =
      match volumes.head tenant path with
      | none => .error (.objectNotFound key)
      | some file => .ok (.bytes file.data, volumes) := by
  cases hhead : volumes.head tenant path <;>
    simp [Volumes.download, h.split, h.normal, Volumes.raised, Volumes.volume, h.provisioned,
      hhead, bind, Except.bind]

theorem delete_named (h : Named setting key tenant path) (volumes : Volumes) (now : Nat) :
    volumes.delete setting key now =
      .ok (.done, volumes.modify (tenant, path) fun file =>
        if file.live then { file with deletedAt := some now } else file) := by
  unfold Volumes.delete
  simp only [h.split, h.normal, Volumes.raised, Volumes.volume, h.provisioned, bind, Except.bind,
    if_true]

variable {start : Path}

theorem listPrefix_spanning (h : Spanning setting start tenant path)
    (hplaces : ∀ place file, volumes.get? place = some file → Proper place.1 place.2) :
    volumes.listPrefix setting start =
      .ok (.entries ((inOrder (volumes.within tenant path)).map fun row =>
        ⟨keyOf tenant row.1, row.2.data.length, row.2.mtime⟩), volumes) := by
  unfold Volumes.listPrefix
  simp only [h.split, h.normal, Volumes.raised, Volumes.volume, h.provisioned, bind, Except.bind,
    if_true, pages_within hplaces]

theorem deletePrefix_spanning (h : Spanning setting start tenant path) (volumes : Volumes)
    (now : Nat) :
    volumes.deletePrefix setting start now =
      .ok (.removed (volumes.within tenant path).length, volumes.map fun place file =>
        if place.1 = tenant ∧ file.live = true ∧ under path place.2 = true then
          { file with deletedAt := some now }
        else file) := by
  unfold Volumes.deletePrefix
  simp only [h.split, h.normal, Volumes.raised, Volumes.volume, h.provisioned, bind, Except.bind,
    if_true]

/-! The quota is exceeded in both stores or in neither. -/

theorem quota_same (setting : Setting) (h : Agree files volumes) (hproper : Proper tenant path) (adding : Nat) :
    (files.enforce setting (FileTable.tenantOf (keyOf tenant path)) adding
          (((files.get? (keyOf tenant path)).map fun row => row.data.length).getD 0) = .ok () ∧
        checkQuota (volumes.liveBytes tenant) adding (setting.quota tenant)
          (((volumes.head tenant path).map fun file => file.data.length).getD 0) = .ok ()) ∨
      ∃ e p, files.enforce setting (FileTable.tenantOf (keyOf tenant path)) adding
          (((files.get? (keyOf tenant path)).map fun row => row.data.length).getD 0) = .error e ∧
        checkQuota (volumes.liveBytes tenant) adding (setting.quota tenant)
          (((volumes.head tenant path).map fun file => file.data.length).getD 0) = .error p ∧
        e.kind = (Failure.problem p).kind := by
  have hreplacing : (((files.get? (keyOf tenant path)).map fun row => row.data.length).getD 0) =
      (((volumes.head tenant path).map fun file => file.data.length).getD 0) := by
    rw [h.same tenant path hproper, Option.map_map]
    rfl
  have hless : (((volumes.head tenant path).map fun file => file.data.length).getD 0) ≤
      volumes.liveBytes tenant := by
    rw [← hreplacing, ← h.used_eq hproper.slash]
    cases hget : files.get? (keyOf tenant path) with
    | none => exact Nat.zero_le _
    | some row =>
      have hrow := hget
      rw [h.same tenant path hproper] at hrow
      obtain ⟨file, _, hfile⟩ := map_eq_some_iff.mp hrow
      exact replaced_le_used hget (by rw [← hfile]; rfl)
  rw [hreplacing, tenantOf_keyOf hproper.tenant_ne hproper.slash]
  generalize ((volumes.head tenant path).map fun file => file.data.length).getD 0 = replacing
    at hless
  unfold FileTable.enforce checkQuota projectedBytes
  cases hquota : setting.quota tenant with
  | none => simp [hquota]
  | some quota =>
    simp only [bind_some, hquota, map_some, h.used_eq hproper.slash]
    by_cases hmore : volumes.liveBytes tenant - replacing + adding > quota
    · right
      have hint : (quota : Int) < (volumes.liveBytes tenant : Int) - replacing + adding := by
        omega
      rw [if_pos hint, if_pos hmore]
      exact ⟨_, _, rfl, rfl, rfl⟩
    · left
      have hint : ¬(quota : Int) < (volumes.liveBytes tenant : Int) - replacing + adding := by
        omega
      rw [if_neg hint, if_neg hmore]
      exact ⟨rfl, rfl⟩

/-! What the calls leave of the files. -/

theorem head_set (volumes : Volumes) (place : Path × Path) (data : List UInt8) (now : Nat)
    (t p : Path) :
    Volumes.head (volumes.set place (some ⟨data, now, none⟩)) t p =
      if (t, p) = place then some ⟨data, now, none⟩ else volumes.head t p := by
  unfold Volumes.head
  rw [Table.get?_set]
  by_cases heq : (t, p) = place
  · rw [if_pos heq, if_pos heq]
    rfl
  · rw [if_neg heq, if_neg heq]

theorem head_map (volumes : Volumes) (gone : Path × Path → VolumeFile → Prop)
    [∀ place file, Decidable (gone place file)] (now : Nat) (t p : Path) :
    Volumes.head (volumes.map fun place file =>
        if gone place file then { file with deletedAt := some now } else file) t p =
      (volumes.head t p).filter fun file => ¬gone (t, p) file := by
  unfold Volumes.head
  rw [Table.get?_map]
  cases volumes.get? (t, p) with
  | none => rfl
  | some file =>
    by_cases hgone : gone (t, p) file
    · simp only [map_some, if_pos hgone]
      have hdead : ({ file with deletedAt := some now } : VolumeFile).live = false := rfl
      cases hlive : file.live <;> simp [filter_some, hdead, hlive, hgone]
    · simp only [map_some, if_neg hgone]
      cases hlive : file.live <;> simp [filter_some, hlive, hgone]

theorem Agree.upload (h : Agree files volumes) (hproper : Proper tenant path)
    (data : List UInt8) (now : Nat) :
    Agree (files.set (keyOf tenant path) (some ⟨some tenant, data, now⟩))
      (volumes.set (tenant, path) (some ⟨data, now, none⟩)) where
  same := by
    intro t p hp
    rw [Table.get?_set, head_set]
    by_cases heq : (t, p) = (tenant, path)
    · obtain ⟨rfl, rfl⟩ := Prod.mk.inj heq
      rw [if_pos rfl, if_pos rfl]
      rfl
    · have hkey : keyOf t p ≠ keyOf tenant path := by
        intro hkey
        obtain ⟨rfl, rfl⟩ := keyOf_injective hp.slash hproper.slash hkey
        exact heq rfl
      rw [if_neg heq, if_neg hkey]
      exact h.same t p hp
  keys := by
    intro key row hget
    rw [Table.get?_set] at hget
    split at hget
    · next hkey => exact ⟨tenant, path, hproper, hkey⟩
    · exact h.keys key row hget
  places := by
    intro place file hget
    rw [Table.get?_set] at hget
    split at hget
    · next hplace =>
        rw [hplace]
        exact hproper
    · exact h.places place file hget

theorem Agree.remove (h : Agree files volumes) (chosen : Path → Bool)
    {gone : Path × Path → VolumeFile → Prop} [∀ place file, Decidable (gone place file)]
    (hgone : ∀ t p file, Proper t p → volumes.head t p = some file →
      (chosen (keyOf t p) = true ↔ gone (t, p) file)) (now : Nat) :
    Agree (files.filter fun key _ => !chosen key)
      (volumes.map fun place file =>
        if gone place file then { file with deletedAt := some now } else file) where
  same := by
    intro t p hp
    rw [Table.get?_filter, head_map, h.same t p hp]
    cases hhead : volumes.head t p with
    | none => rfl
    | some file =>
      have hiff := hgone t p file hp hhead
      by_cases hchosen : chosen (keyOf t p) = true
      · simp [filter_some, hchosen, hiff.mp hchosen]
      · have hstays : ¬gone (t, p) file := fun hg => hchosen (hiff.mpr hg)
        simp [filter_some, hchosen, hstays]
  keys := by
    intro key row hget
    rw [Table.get?_filter, filter_eq_some_iff] at hget
    exact h.keys key row hget.1
  places := by
    intro place file hget
    rw [Table.get?_map] at hget
    obtain ⟨old, hold, _⟩ := map_eq_some_iff.mp hget
    exact h.places place old hold

theorem erase_eq (files : FileTable) (key : Path) :
    files.erase key = files.filter fun k _ => !decide (k = key) :=
  Table.filter_congr fun k _ => by simp

theorem modify_eq (volumes : Volumes) (place : Path × Path) (now : Nat) :
    (volumes.modify place fun file =>
        if file.live then { file with deletedAt := some now } else file) =
      volumes.map fun place' file =>
        if place' = place ∧ file.live = true then { file with deletedAt := some now } else file := by
  unfold Table.modify
  congr 1
  funext place' file
  by_cases hplace : place' = place
  · simp [hplace]
  · simp [hplace]

end Calls

structure Stores where
  files : FileTable
  volumes : Volumes

def Stores.step (setting : Setting) (call : Call) (s : Stores) : Option Stores :=
  some ⟨next s.files (s.files.perform setting call), next s.volumes (s.volumes.perform setting call)⟩

/-- What a call is asked for: its key or its prefix is the same to both stores, and no file
has the name of a prefix that is deleted. -/
def Meets (setting : Setting) (s : Stores) : Call → Prop
  | .upload key _ _ | .download key | .delete key _ => Kept setting key
  | .listPrefix start => ∃ tenant path, Spanning setting start tenant path
  | .deletePrefix start _ =>
    RefusedAll setting start ∨ (∃ tenant path, Spanning setting start tenant path) ∧
        s.files.get? (FileTable.stem start) = none

section Steps

variable {setting : Setting} {files : FileTable} {volumes : Volumes}

variable {key start : Path} {s : Stores} {a : Except Failure (Answer × FileTable)}
    {b : Except Failure (Answer × Volumes)}

theorem upload_matched (h : Agree files volumes) (hkey : Kept setting key) (data : List UInt8)
    (now : Nat) :
    Matched (files.upload setting key data now) (volumes.upload setting key data now) := by
  rcases hkey with ⟨tenant, path, hnamed⟩ | hrefused
  · rw [upload_named hnamed]
    unfold FileTable.upload
    simp only [hnamed.check, bind, Except.bind]
    obtain rfl := hnamed.form
    have hproper := hnamed.proper
    rcases quota_same setting h hproper data.length with ⟨hfits, hfits'⟩ |
      ⟨e, p, hfull, hfull', hkind⟩
    · rw [hfits, hfits', tenantOf_keyOf hproper.tenant_ne hproper.slash]
      exact .answered (h.upload hproper data now)
    · rw [hfull, hfull']
      exact .failed hkind
  · obtain ⟨e, hcheck, hkind⟩ := check_error hrefused.check
    have hfiles : Fails (files.upload setting key data now) := by
      unfold FileTable.upload
      exact Fails.bind ⟨e, hcheck, hkind⟩ _
    exact hfiles.matched (upload_refused hrefused volumes data now)

theorem download_matched (h : Agree files volumes) (hkey : Kept setting key) :
    Matched (files.download key) (volumes.download setting key) := by
  rcases hkey with ⟨tenant, path, hnamed⟩ | hrefused
  · rw [download_named hnamed]
    unfold FileTable.download
    simp only [hnamed.check, bind, Except.bind]
    rw [hnamed.form, h.same tenant path hnamed.proper]
    cases volumes.head tenant path with
    | none => exact .failed rfl
    | some file => exact .answered h
  · obtain ⟨e, hcheck, hkind⟩ := check_error hrefused.check
    have hfiles : Fails (files.download key) := by
      unfold FileTable.download
      exact Fails.bind ⟨e, hcheck, hkind⟩ _
    exact hfiles.matched (download_refused hrefused volumes)

theorem delete_matched (h : Agree files volumes) (hkey : Kept setting key) (now : Nat) :
    Matched (files.delete key) (volumes.delete setting key now) := by
  rcases hkey with ⟨tenant, path, hnamed⟩ | hrefused
  · rw [delete_named hnamed, modify_eq]
    unfold FileTable.delete
    simp only [hnamed.check, bind, Except.bind]
    rw [erase_eq]
    refine .answered (h.remove (fun k => k = key) ?_ now)
    intro t p file hproper hhead
    rw [decide_eq_true_iff, hnamed.form]
    constructor
    · intro heq
      obtain ⟨rfl, rfl⟩ := keyOf_injective hproper.slash hnamed.proper.slash heq
      exact ⟨rfl, (filter_eq_some_iff.mp hhead).2⟩
    · rintro ⟨heq, _⟩
      obtain ⟨rfl, rfl⟩ := Prod.mk.inj heq
      rfl
  · obtain ⟨e, hcheck, hkind⟩ := check_error hrefused.check
    have hfiles : Fails (files.delete key) := by
      unfold FileTable.delete
      exact Fails.bind ⟨e, hcheck, hkind⟩ _
    exact hfiles.matched (delete_refused hrefused volumes now)

theorem listPrefix_matched (h : Agree files volumes) {tenant path : Path}
    (hspan : Spanning setting start tenant path) :
    Matched (files.listPrefix start) (volumes.listPrefix setting start) := by
  rw [listPrefix_spanning hspan h.places]
  unfold FileTable.listPrefix
  rw [hspan.check]
  dsimp only
  rw [h.listing hspan.stem (splitPrefix_ok hspan.split).2.1]
  exact .answered h

theorem deletePrefix_matched (h : Agree files volumes) (now : Nat)
    (hmeets : RefusedAll setting start ∨ (∃ tenant path, Spanning setting start tenant path) ∧
        files.get? (FileTable.stem start) = none) :
    Matched (files.deletePrefix start) (volumes.deletePrefix setting start now) := by
  rcases hmeets with hrefused | ⟨⟨tenant, path, hspan⟩, hstem⟩
  · obtain ⟨e, hcheck, hkind⟩ := check_error hrefused.check
    have hfiles : Fails (files.deletePrefix start) := by
      unfold FileTable.deletePrefix
      exact Fails.bind ⟨e, hcheck, hkind⟩ _
    exact hfiles.matched (deletePrefix_refused hrefused volumes now)
  · rw [deletePrefix_spanning hspan]
    unfold FileTable.deletePrefix
    simp only [hspan.check, bind, Except.bind]
    have hslash := (splitPrefix_ok hspan.split).2.1
    have hchosen : ∀ t p row, Proper t p → files.get? (keyOf t p) = some row →
        (FileTable.chosen start (keyOf t p) = true ↔ t = tenant ∧ under path p = true) := by
      intro t p row hproper hget
      have hne : keyOf t p ≠ FileTable.stem start := by
        intro heq
        rw [heq, hstem] at hget
        cases hget
      unfold FileTable.chosen
      rw [decide_eq_false hne, Bool.false_or]
      exact inside_iff hspan.stem hslash hproper.slash
    have hcount := (h.perm hslash (fun row => FileTable.chosen start row.1) (under path) hchosen).length_eq
    rw [length_map] at hcount
    have hwithin : picked volumes tenant (under path) = volumes.within tenant path := rfl
    rw [hcount, hwithin]
    refine .answered (h.remove (FileTable.chosen start) ?_ now)
    intro t p file hproper hhead
    have hget : files.get? (keyOf t p) = some (objectOf t file) := by
      rw [h.same t p hproper, hhead]
      rfl
    rw [hchosen t p _ hproper hget]
    have hlive := (filter_eq_some_iff.mp hhead).2
    exact ⟨fun hin => ⟨hin.1, hlive, hin.2⟩, fun hin => ⟨hin.1, hin.2.2⟩⟩

/-- From stores with the same files both give one answer, and keep the same files. -/
theorem perform_matched (h : Agree s.files s.volumes) {call : Call}
    (hmeets : Meets setting s call) :
    Matched (s.files.perform setting call) (s.volumes.perform setting call) := by
  cases call with
  | upload key data now => exact upload_matched h hmeets data now
  | download key => exact download_matched h hmeets
  | delete key now => exact delete_matched h hmeets now
  | listPrefix start =>
    obtain ⟨tenant, path, hspan⟩ := hmeets
    exact listPrefix_matched h hspan
  | deletePrefix start now => exact deletePrefix_matched h now hmeets

theorem Matched.outcome_eq (h : Matched a b) : outcome a = outcome b := by
  cases h with
  | answered _ => rfl
  | failed hkind => exact congrArg Except.error hkind

theorem Matched.agree (hagree : Agree s.files s.volumes) (h : Matched a b) :
    Agree (next s.files a) (next s.volumes b) := by
  cases h with
  | answered hnext => exact hnext
  | failed _ => exact hagree

theorem Fails.next_eq {σ : Type} {s : σ} {result : Except Failure (Answer × σ)}
    (h : Fails result) : next s result = s := by
  obtain ⟨e, rfl, _⟩ := h
  rfl

end Steps

def Call.touches : Call → Path → Bool
  | .upload key _ _, other | .delete key _, other => key = other
  | .deletePrefix start _, other => FileTable.inside start other
  | .download _, _ | .listPrefix _, _ => false

structure IsName (document : Path) : Prop where
  ne : document ≠ []
  slash : '/' ∉ document

/-- Two bundles of different collections, neither within a document of the other. -/
structure Unrelated (collection document other document' : Path) : Prop where
  name : IsName document
  name' : IsName document'
  ne : collection ≠ other
  out : ¬Within collection document other
  out' : ¬Within other document' collection

/-- A call does over volumes what it does over a table of keys: it gives the same answer;
what it uploads is read back and listed under its key; the names cut out of listed keys
are those of the files; files that it is not about keep their contents; and the bundles of
an unrelated collection are neither listed nor deleted. -/
structure Fine (setting : Setting) (m : Taken Stores Call) : Prop where
  same : outcome (m.before.files.perform setting m.act) =
    outcome (m.before.volumes.perform setting m.act)
  readBack : ∀ key data now, m.act = .upload key data now →
    outcome (m.before.volumes.perform setting m.act) = .ok .done →
      outcome (m.after.volumes.download setting key) = .ok (.bytes data)
  listed : ∀ key data now, m.act = .upload key data now →
    outcome (m.before.volumes.perform setting m.act) = .ok .done →
      ∀ start tenant path, Spanning setting start tenant path → FileTable.inside start key = true →
          ∃ found, outcome (m.after.volumes.listPrefix setting start) = .ok (.entries found) ∧
            ⟨key, data.length, now⟩ ∈ found
  cut : ∀ collection document found, IsName document →
    m.act = .listPrefix (bundle collection document) →
      outcome (m.before.volumes.perform setting m.act) = .ok (.entries found) →
        (names collection document found).map (fun name => bundle collection document ++ name) =
          found.map Entry.key
  apart : ∀ key tenant path, Named setting key tenant path → m.act.touches key = false →
    outcome (m.after.volumes.download setting key) = outcome (m.before.volumes.download setting key)
  unshared : ∀ collection document other document' name found,
    Unrelated collection document other document' →
      m.act = .listPrefix (bundle collection document) →
        outcome (m.before.volumes.perform setting m.act) = .ok (.entries found) →
          ∀ entry ∈ found, entry.key ≠ bundle other document' ++ name
  undeleted : ∀ collection document other document' name now tenant path,
    Unrelated collection document other document' →
      m.act = .deletePrefix (bundle collection document) now →
        Named setting (bundle other document' ++ name) tenant path →
          outcome (m.after.volumes.download setting (bundle other document' ++ name)) =
            outcome (m.before.volumes.download setting (bundle other document' ++ name))

variable {collection document : Path}

theorem stem_bundle (hname : IsName document) :
    FileTable.stem (bundle collection document) ++ ['/'] = bundle collection document := by
  have hlast : (collection ++ '/' :: document).getLast? ≠ some '/' := by
    have hsplit : collection ++ '/' :: document = (collection ++ ['/']) ++ document := by simp
    rw [hsplit, List.getLast?_append_of_ne_nil _ hname.ne]
    exact fun h => hname.slash (mem_of_getLast? h)
  have hbundle : bundle collection document = (collection ++ '/' :: document) ++ ['/'] := by
    simp [bundle]
  rw [hbundle, (stem_eq (by simp) hlast).2]

theorem inside_bundle {key : Path} (hname : IsName document) :
    FileTable.inside (bundle collection document) key = true ↔
      bundle collection document <+: key := by
  unfold FileTable.inside
  rw [stem_bundle hname, isPrefixOf_iff_prefix]

theorem Unrelated.not_inside {other document' name : Path}
    (h : Unrelated collection document other document') :
    FileTable.inside (bundle collection document) (bundle other document' ++ name) = false := by
  apply eq_false_of_ne_true
  intro hinside
  rcases bundle_apart h.name.slash h.name'.slash ((inside_bundle h.name).mp hinside)
    (prefix_append _ _) with heq | hin | hin
  · exact h.ne heq
  · exact h.out hin
  · exact h.out' hin

section Runs

variable {setting : Setting} {s : Stores}

theorem inside_of_listed (h : Agree s.files s.volumes) {start : Path} {found : List Entry}
    (hmeets : Meets setting s (.listPrefix start))
    (hfound : outcome (s.volumes.perform setting (.listPrefix start)) = .ok (.entries found)) :
    ∀ entry ∈ found, FileTable.inside start entry.key = true := by
  have hsame := (perform_matched h hmeets).outcome_eq
  rw [hfound] at hsame
  obtain ⟨tenant, path, hspan⟩ := hmeets
  have hlist : s.files.perform setting (.listPrefix start) = s.files.listPrefix start := rfl
  rw [hlist] at hsame
  unfold FileTable.listPrefix at hsame
  rw [hspan.check] at hsame
  cases hsame
  intro entry hentry
  obtain ⟨row, hrow, rfl⟩ := mem_map.mp hentry
  exact (mem_filter.mp ((perm_inOrder _).mem_iff.mp hrow)).2

variable {key tenant path : Path} {call : Call}

theorem uploaded (hkey : Kept setting key) (volumes : Volumes) {data : List UInt8} {now : Nat}
    (h : outcome (volumes.upload setting key data now) = .ok .done) :
    ∃ tenant path, Named setting key tenant path ∧
      next volumes (volumes.upload setting key data now) =
        volumes.set (tenant, path) (some ⟨data, now, none⟩) := by
  rcases hkey with ⟨tenant, path, hnamed⟩ | hrefused
  · refine ⟨tenant, path, hnamed, ?_⟩
    rw [upload_named hnamed] at h ⊢
    cases hquota : checkQuota (volumes.liveBytes tenant) data.length (setting.quota tenant)
        (((volumes.head tenant path).map fun file => file.data.length).getD 0) with
    | ok _ => rfl
    | error p =>
      rw [hquota] at h
      cases h
  · obtain ⟨e, he, _⟩ := upload_refused hrefused volumes data now
    rw [he] at h
    cases h

theorem head_untouched (hagree : Agree s.files s.volumes) (hmeets : Meets setting s call)
    (hnamed : Named setting key tenant path) (h : call.touches key = false) :
    Volumes.head (next s.volumes (s.volumes.perform setting call)) tenant path =
      s.volumes.head tenant path := by
  cases call with
  | upload other data now =>
    have hne : other ≠ key := of_decide_eq_false h
    change Volumes.head (next s.volumes (s.volumes.upload setting other data now)) tenant path = _
    rcases hmeets with ⟨t, p, hother⟩ | hrefused
    · rw [upload_named hother]
      cases checkQuota (s.volumes.liveBytes t) data.length (setting.quota t)
          (((s.volumes.head t p).map fun file => file.data.length).getD 0) with
      | error _ => rfl
      | ok _ =>
        rw [next_ok, head_set, if_neg]
        intro heq
        obtain ⟨rfl, rfl⟩ := Prod.mk.inj heq
        exact hne (hother.form.trans hnamed.form.symm)
    · rw [(upload_refused hrefused s.volumes data now).next_eq]
  | download other =>
    change Volumes.head (next s.volumes (s.volumes.download setting other)) tenant path = _
    rcases hmeets with ⟨t, p, hother⟩ | hrefused
    · rw [download_named hother]
      cases s.volumes.head t p <;> rfl
    · rw [(download_refused hrefused s.volumes).next_eq]
  | delete other now =>
    have hne : other ≠ key := of_decide_eq_false h
    change Volumes.head (next s.volumes (s.volumes.delete setting other now)) tenant path = _
    rcases hmeets with ⟨t, p, hother⟩ | hrefused
    · rw [delete_named hother, modify_eq]
      have hplace : (tenant, path) ≠ (t, p) := by
        intro heq
        obtain ⟨rfl, rfl⟩ := Prod.mk.inj heq
        exact hne (hother.form.trans hnamed.form.symm)
      rw [next_ok, head_map]
      cases s.volumes.head tenant path <;> simp [filter_some, hplace]
    · rw [(delete_refused hrefused s.volumes now).next_eq]
  | listPrefix start =>
    change Volumes.head (next s.volumes (s.volumes.listPrefix setting start)) tenant path = _
    obtain ⟨t, p, hspan⟩ := hmeets
    rw [listPrefix_spanning hspan hagree.places, next_ok]
  | deletePrefix start now =>
    change Volumes.head (next s.volumes (s.volumes.deletePrefix setting start now)) tenant path = _
    rcases hmeets with hrefused | ⟨⟨t, p, hspan⟩, _⟩
    · rw [(deletePrefix_refused hrefused s.volumes now).next_eq]
    · rw [deletePrefix_spanning hspan]
      rw [next_ok, head_map]
      have hout : ¬(tenant = t ∧ under p path = true) := by
        intro hin
        have hinside := (inside_iff hspan.stem (splitPrefix_ok hspan.split).2.1
          hnamed.proper.slash).mpr hin
        rw [← hnamed.form] at hinside
        have hfalse : FileTable.inside start key = false := h
        rw [hfalse] at hinside
        cases hinside
      cases s.volumes.head tenant path with
      | none => rfl
      | some file =>
        have hstays : ¬(tenant = t ∧ file.live = true ∧ under p path = true) :=
          fun hin => hout ⟨hin.1, hin.2.2⟩
        simp [filter_some, hstays]

theorem download_eq (hnamed : Named setting key tenant path) {volumes volumes' : Volumes}
    (h : volumes'.head tenant path = volumes.head tenant path) :
    outcome (volumes'.download setting key) = outcome (volumes.download setting key) := by
  rw [download_named hnamed, download_named hnamed, h]
  cases volumes.head tenant path <;> rfl

theorem step_fine {s' : Stores} (hagree : Agree s.files s.volumes)
    (hstep : s.step setting call = some s') (hmeets : Meets setting s call) :
    Fine setting ⟨s, call, s'⟩ ∧ Agree s'.files s'.volumes := by
  have hmatched := perform_matched hagree hmeets
  have hnext := hmatched.agree hagree
  cases hstep
  have hapart : ∀ key tenant path, Named setting key tenant path → call.touches key = false →
      outcome (Volumes.download setting (next s.volumes (s.volumes.perform setting call)) key) =
        outcome (s.volumes.download setting key) := by
    intro key tenant path hnamed htouch
    exact download_eq hnamed (head_untouched hagree hmeets hnamed htouch)
  refine ⟨⟨hmatched.outcome_eq, ?_, ?_, ?_, hapart, ?_, ?_⟩, hnext⟩
  · rintro key data now rfl hdone
    obtain ⟨tenant, path, hnamed, hset⟩ := uploaded hmeets s.volumes hdone
    change outcome (Volumes.download setting
      (next s.volumes (s.volumes.upload setting key data now)) key) = _
    rw [hset, download_named hnamed, head_set, if_pos rfl]
    rfl
  · rintro key data now rfl hdone start tenant path hspan hinside
    obtain ⟨t, p, hnamed, hset⟩ := uploaded hmeets s.volumes hdone
    change Agree _ (next s.volumes (s.volumes.upload setting key data now)) at hnext
    change ∃ found, outcome (Volumes.listPrefix setting
      (next s.volumes (s.volumes.upload setting key data now)) start) = _ ∧ _
    rw [hset] at hnext ⊢
    rw [hnamed.form, inside_iff hspan.stem (splitPrefix_ok hspan.split).2.1 hnamed.proper.slash]
      at hinside
    obtain ⟨rfl, hunder⟩ := hinside
    rw [listPrefix_spanning hspan hnext.places]
    refine ⟨_, rfl, mem_map.mpr ⟨(p, ⟨data, now, none⟩), ?_, ?_⟩⟩
    · refine (perm_inOrder _).mem_iff.mpr (mem_picked.mpr ⟨?_, hunder⟩)
      rw [head_set, if_pos rfl]
    · rw [hnamed.form]
  · rintro collection document found hname rfl hfound
    have hinside := inside_of_listed hagree hmeets hfound
    unfold names
    rw [List.map_map]
    apply map_congr_left
    intro entry hentry
    exact prefix_iff_eq_append.mp ((inside_bundle hname).mp (hinside entry hentry))
  · rintro collection document other document' name found hunrelated rfl hfound entry hentry heq
    have hinside := inside_of_listed hagree hmeets hfound entry hentry
    rw [heq, hunrelated.not_inside] at hinside
    cases hinside
  · rintro collection document other document' name now tenant path hunrelated rfl hnamed
    exact hapart _ tenant path hnamed hunrelated.not_inside

end Runs

/-- In a run of calls whose keys and prefixes are the same to both stores, and in which no
file has the name of a prefix that is deleted, a library over volumes behaves as one over
a table of keys. -/
theorem same_as_files (setting : Setting) (calls : List Call) {ms : List (Taken Stores Call)}
    (h : moves (Stores.step setting) calls ⟨Table.empty, Table.empty⟩ = some ms)
    (hmeets : ∀ m ∈ ms, Meets setting m.before m.act) : ∀ m ∈ ms, Fine setting m :=
  fine_of_meets (P := fun s => Agree s.files s.volumes)
    (fun _ _ _ hagree hstep hmeet => step_fine hagree hstep hmeet) agree_empty h hmeets

/-- A bundle that is filed, listed and deleted. -/
theorem same_as_files_filed :
    ∃ (setting : Setting) (calls : List Call) (ms : List (Taken Stores Call)), calls = [
          .upload (bundle "tenants/acme/kb".toList "note-a1b2c3".toList ++ "index.md".toList) [1] 5,
          .listPrefix (bundle "tenants/acme/kb".toList "note-a1b2c3".toList),
          .deletePrefix (bundle "tenants/acme/kb".toList "note-a1b2c3".toList) 6] ∧
        moves (Stores.step setting) calls ⟨Table.empty, Table.empty⟩ = some ms ∧
        ms.length = 3 ∧ ∀ m ∈ ms, Fine setting m := by
  refine ⟨⟨id, fun _ => true, fun _ => some 10⟩, _, _, rfl, rfl, rfl,
    same_as_files ⟨id, fun _ => true, fun _ => some 10⟩ [
      .upload (bundle "tenants/acme/kb".toList "note-a1b2c3".toList ++ "index.md".toList) [1] 5,
      .listPrefix (bundle "tenants/acme/kb".toList "note-a1b2c3".toList),
      .deletePrefix (bundle "tenants/acme/kb".toList "note-a1b2c3".toList) 6] rfl ?_⟩
  intro m hm
  have hspan : Spanning ⟨id, fun _ => true, fun _ => some 10⟩
      (bundle "tenants/acme/kb".toList "note-a1b2c3".toList) "acme".toList
      "kb/note-a1b2c3/".toList :=
    ⟨by decide, by decide, by decide, by decide, rfl⟩
  rcases mem_cons.mp hm with rfl | hm
  · exact .inl ⟨"acme".toList, "kb/note-a1b2c3/index.md".toList, by decide, by decide, by decide, rfl⟩
  · rcases mem_cons.mp hm with rfl | hm
    · exact ⟨_, _, hspan⟩
    · obtain rfl := mem_singleton.mp hm
      exact .inr ⟨⟨_, _, hspan⟩, by decide⟩

def compose : Path → Path
  | [] => []
  | [c] => [c]
  | c :: next :: rest =>
    if c = 'e' ∧ next = Char.ofNat 0x301 then Char.ofNat 0xe9 :: compose rest
    else c :: compose (next :: rest)

/-- The routes take a name that is not in normal form. What is filed under it is listed
under another key, so that no index is found when the names are cut out. -/
theorem listed_elsewhere : ∃ (setting : Setting) (tenant name document : Path) (found : List Entry)
        (ms : List (Taken Stores Call)),
      pathOf tenant name = .ok ("caf".toList ++ ['e', Char.ofNat 0x301]) ∧
        moves (Stores.step setting) [.upload (bundle name document ++ "index.md".toList) [1] 5,
            .listPrefix (bundle name document)] ⟨Table.empty, Table.empty⟩ = some ms ∧
        (∃ m ∈ ms, ¬Fine setting m ∧
          outcome (m.before.volumes.perform setting m.act) = .ok (.entries found)) ∧
        "index.md".toList ∉ names name document found := by
  refine ⟨⟨compose, fun _ => true, fun _ => none⟩, "acme".toList,
    "tenants/acme/caf".toList ++ ['e', Char.ofNat 0x301], "note-a1b2c3".toList,
    [⟨"tenants/acme/caf".toList ++ Char.ofNat 0xe9 :: "/note-a1b2c3/index.md".toList, 1, 5⟩], _,
    by decide, rfl, ⟨_, getLast_mem (cons_ne_nil _ _), fun hfine => ?_, by decide⟩,
    by decide⟩
  exact absurd hfine.same (by decide)

end Substrate.Documents
