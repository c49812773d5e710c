import Mathlib.Data.List.Pairwise
import Substrate.Versions.Lineage

/-!
Histories under concurrent calls. Nothing holds a directory between the time a call reads
its manifest and the time it writes it back, and the directory of a file is not always its
own; the conditions below say where this makes no difference.
-/

namespace Substrate.Versions

open Lib List Function

variable {ι Bytes : Type}

/-- No two files have their versions in one directory. -/
def OwnDirs (files : Set Path) : Prop :=
  ∀ key ∈ files, ∀ key' ∈ files, ∀ dir, versionDir key = .ok dir → versionDir key' = .ok dir →
    key = key'

example : ∃ dir, versionDir ['a', '/', 'b'] = .ok dir ∧ versionDir ['a', '/', '/', 'b'] = .ok dir :=
  ⟨_, rfl, rfl⟩

/-- When a call uploads a snapshot the history is still the one that it has read, and no
other call has uploaded a snapshot to the directory that its manifest does not list yet. -/
def Clear (format : Format Bytes) (s : State ι Bytes) : Move ι Bytes → Prop
  | .step i _ =>
    ∀ call versions entry dir, s.calls i = some call → call.stage = .saving versions entry →
      versionDir call.objectKey = .ok dir → history format s.store dir = versions ∧
          ∀ j ≠ i, ∀ call' versions' entry', s.calls j = some call' →
            call'.stage = .listing versions' entry' → versionDir call'.objectKey ≠ .ok dir
  | _ => True

structure Kept (format : Format Bytes) (s : State ι Bytes) : Prop where
  checksums : ∀ key versions, listVersions format s.store key = .ok versions →
    ∀ entry ∈ versions, ∃ data, s.store entry.versionKey = some data ∧
      format.sha256Hex data = entry.checksumSha256
  increasing : ∀ key versions, listVersions format s.store key = .ok versions →
    (versions.map VersionEntry.seq).Pairwise (· < ·)
  stays : ∀ r ∈ s.returned, ∃ versions, listVersions format s.store r.objectKey = .ok versions ∧
    r.entry ∈ versions ∧ s.store r.entry.versionKey = some r.data

/-- The versions of a file are the same in two stores, and so are their bytes. -/
def SameVersions (format : Format Bytes) (key : Path) (store store' : Objects Bytes) : Prop :=
  listVersions format store' key = listVersions format store key ∧
    ∀ versions, listVersions format store key = .ok versions →
      ∀ entry ∈ versions, store' entry.versionKey = store entry.versionKey

section Store

variable (format : Format Bytes) (store : Objects Bytes)

theorem listVersions_ok {key : Path} {versions : List VersionEntry} :
    listVersions format store key = .ok versions ↔
      ∃ dir, versionDir key = .ok dir ∧ history format store dir = versions := by
  unfold listVersions
  cases versionDir key with
  | error e | ok dir => simp [Except.map]

theorem history_snapshot (dir key : Path) (seq : Nat) (data : Option Bytes) (dir' : Path) :
    history format (update store (snapshotIn dir key seq) data) dir' =
      history format store dir' := by
  have hne := snapshotIn_ne_manifestIn dir dir' key seq
  unfold history
  rw [update_of_ne hne.symm]

theorem history_manifest (dir : Path) (versions : List VersionEntry) (dir' : Path) :
    history format (update store (manifestIn dir) (some (format.dumps versions))) dir' =
      if dir' = dir then versions else history format store dir' := by
  unfold history
  by_cases hsame : dir' = dir
  · subst hsame
    simp [format.loads_dumps]
  · rw [update_of_ne fun heq => hsame (manifestIn_inj heq), if_neg hsame]

end Store

/-- Every version listed is in its place with the bytes that were recorded, and the
versions in a directory are in the order of their numbers. -/
structure Filed (format : Format Bytes) (files : Set Path) (store : Objects Bytes) : Prop where
  entries : ∀ file dir, versionDir file = .ok dir → ∀ entry ∈ history format store dir,
    ∃ key ∈ files, versionDir key = .ok dir ∧ entry.versionKey = snapshotIn dir key entry.seq ∧
        ∃ data, store entry.versionKey = some data ∧ format.sha256Hex data = entry.checksumSha256
  sorted : ∀ file dir, versionDir file = .ok dir →
    (history format store dir).Pairwise fun e e' => e.seq < e'.seq

structure Follows (format : Format Bytes) (key : Path) (data : Bytes) (dir : Path)
    (versions : List VersionEntry) (entry : VersionEntry) : Prop where
  seq : entry.seq = nextSeq versions
  checksum : entry.checksumSha256 = format.sha256Hex data
  place : entry.versionKey = snapshotIn dir key (nextSeq versions)

theorem lt_nextSeq {versions : List VersionEntry}
    (hsorted : versions.Pairwise fun e e' => e.seq < e'.seq) {entry : VersionEntry}
    (hentry : entry ∈ versions) : entry.seq < nextSeq versions := by
  rcases eq_nil_or_concat versions with rfl | ⟨front, last, rfl⟩
  · cases hentry
  · rw [concat_eq_append] at hsorted hentry ⊢
    simp only [nextSeq, List.getLast?_concat]
    rcases mem_append.mp hentry with hfront | hlast
    · have hlt := (pairwise_append.mp hsorted).2.2 entry hfront last (by simp)
      omega
    · rw [mem_singleton.mp hlast]
      omega

section Filing

variable {format : Format Bytes} {files : Set Path} {store : Objects Bytes}

variable {key dir : Path} {entry : VersionEntry}

theorem Filed.ne_next (h : Filed format files store) (hdirs : OwnDirs files) (hkey : key ∈ files)
    (hdir : versionDir key = .ok dir) {file dir' : Path} (hfile : versionDir file = .ok dir')
    (hentry : entry ∈ history format store dir') :
    entry.versionKey ≠ snapshotIn dir key (nextSeq (history format store dir)) := by
  intro heq
  obtain ⟨key', hkey', hdir', hplace, _⟩ := h.entries file dir' hfile entry hentry
  rw [hplace] at heq
  have hsame : dir' = dir := snapshotIn_dir heq
  subst hsame
  have hown : key' = key := hdirs key' hkey' key hkey dir' hdir' hdir
  subst hown
  have hseq := snapshotIn_seq heq
  have hlt := lt_nextSeq (h.sorted file dir' hfile) hentry
  omega

theorem Filed.save (h : Filed format files store) (hdirs : OwnDirs files) (hkey : key ∈ files)
    (hdir : versionDir key = .ok dir) (data : Bytes) :
    Filed format files
      (update store (snapshotIn dir key (nextSeq (history format store dir)))
        (some data)) := by
  constructor
  · intro file dir' hfile entry hentry
    rw [history_snapshot] at hentry
    obtain ⟨key', hkey', hdir', hplace, data', hdata, hsum⟩ :=
      h.entries file dir' hfile entry hentry
    refine ⟨key', hkey', hdir', hplace, data', ?_, hsum⟩
    rw [update_of_ne (h.ne_next hdirs hkey hdir hfile hentry)]
    exact hdata
  · intro file dir' hfile
    rw [history_snapshot]
    exact h.sorted file dir' hfile

theorem Filed.list (h : Filed format files store) {data : Bytes} (hkey : key ∈ files)
    (hdir : versionDir key = .ok dir)
    (hnext : Follows format key data dir (history format store dir) entry)
    (hstored : store entry.versionKey = some data) :
    Filed format files (update store (manifestIn dir)
        (some (format.dumps (history format store dir ++ [entry])))) := by
  have hplaced : ∀ {dir' key' : Path} {seq : Nat}, update store (manifestIn dir)
        (some (format.dumps (history format store dir ++ [entry]))) (snapshotIn dir' key' seq) =
          store (snapshotIn dir' key' seq) := by
    intro dir' key' seq
    exact update_of_ne (snapshotIn_ne_manifestIn dir' dir key' seq) _ _
  have hold : ∀ file dir', versionDir file = .ok dir' → ∀ e ∈ history format store dir',
      ∃ key' ∈ files, versionDir key' = .ok dir' ∧ e.versionKey = snapshotIn dir' key' e.seq ∧
        ∃ data, update store (manifestIn dir)
          (some (format.dumps (history format store dir ++ [entry]))) e.versionKey = some data ∧
            format.sha256Hex data = e.checksumSha256 := by
    intro file dir' hfile e he
    obtain ⟨key', hkey', hdir', hplace, data, hdata, hsum⟩ := h.entries file dir' hfile e he
    refine ⟨key', hkey', hdir', hplace, data, ?_, hsum⟩
    rw [hplace, hplaced, ← hplace]
    exact hdata
  constructor
  · intro file dir' hfile e he
    rw [history_manifest] at he
    split at he
    · next hsame =>
        subst hsame
        rcases mem_append.mp he with hbefore | hnew
        · exact hold file dir' hfile e hbefore
        · rw [mem_singleton.mp hnew]
          refine ⟨key, hkey, hdir, ?_, data, ?_, hnext.checksum.symm⟩
          · rw [hnext.seq]
            exact hnext.place
          · rw [hnext.place, hplaced, ← hnext.place]
            exact hstored
    · exact hold file dir' hfile e he
  · intro file dir' hfile
    rw [history_manifest]
    split
    · apply pairwise_append.mpr
      refine ⟨h.sorted key dir hdir, pairwise_singleton _ _, ?_⟩
      intro e he e' he'
      rw [mem_singleton.mp he', hnext.seq]
      exact lt_nextSeq (h.sorted key dir hdir) he
    · exact h.sorted file dir' hfile

end Filing

def Lists (stage : Stage) : Prop := ∃ versions entry, stage = .listing versions entry

inductive Standing (format : Format Bytes) (store : Objects Bytes) (key : Path) (data : Bytes) :
    Stage → Prop where
  | checking (changeAuthor : String) : Standing format store key data (.checking changeAuthor)
  | reading (author : String) (restoredFromSeq : Option Nat) :
      Standing format store key data (.reading author restoredFromSeq)
  | saving {dir : Path} {versions : List VersionEntry} {entry : VersionEntry}
      (hdir : versionDir key = .ok dir) (hnext : Follows format key data dir versions entry) :
      Standing format store key data (.saving versions entry)
  | listing {dir : Path} {versions : List VersionEntry} {entry : VersionEntry}
      (hdir : versionDir key = .ok dir) (hread : history format store dir = versions)
      (hnext : Follows format key data dir versions entry)
      (hstored : store entry.versionKey = some data) :
      Standing format store key data (.listing versions entry)

theorem Standing.beside {format : Format Bytes} {store store' : Objects Bytes} {key : Path}
    {data : Bytes} {stage : Stage} (h : Standing format store key data stage)
    (hsame : ∀ dir, versionDir key = .ok dir → Lists stage →
      history format store' dir = history format store dir ∧
        ∀ seq, store' (snapshotIn dir key seq) = store (snapshotIn dir key seq)) :
    Standing format store' key data stage := by
  cases h with
  | checking changeAuthor => exact .checking changeAuthor
  | reading author restoredFromSeq => exact .reading author restoredFromSeq
  | saving hdir hnext => exact .saving hdir hnext
  | @listing dir versions entry hdir hread hnext hstored =>
    obtain ⟨hhistory, hplace⟩ := hsame dir hdir ⟨versions, entry, rfl⟩
    refine .listing hdir (hhistory.trans hread) hnext ?_
    rw [hnext.place, hplace, ← hnext.place]
    exact hstored

/-- What holds however the calls interleave, as long as the conditions do. -/
structure Held (format : Format Bytes) (files : Set Path) (s : State ι Bytes) : Prop where
  filed : Filed format files s.store
  calls : ∀ i call, s.calls i = some call →
    call.objectKey ∈ files ∧ Standing format s.store call.objectKey call.data call.stage
  apart : ∀ i j call call' dir, s.calls i = some call → s.calls j = some call' →
    Lists call.stage → Lists call'.stage → versionDir call.objectKey = .ok dir →
      versionDir call'.objectKey = .ok dir → i = j
  returned : ∀ r ∈ s.returned, ∃ dir, versionDir r.objectKey = .ok dir ∧
    r.entry ∈ history format s.store dir ∧ s.store r.entry.versionKey = some r.data

variable [DecidableEq ι]

/-- What a step of a call does: it uploads nothing, it uploads the snapshot, or it uploads
the manifest and ends. -/
inductive Stepped (format : Format Bytes) (s : State ι Bytes) (i : ι) (call : Call Bytes) :
    State ι Bytes → Prop where
  | quiet (after : Option Stage)
      (hafter : ∀ stage, after = some stage → ¬ Lists stage ∧
        Standing format s.store call.objectKey call.data stage) :
      Stepped format s i call
        { s with calls := update s.calls i (after.map fun stage => { call with stage }) }
  | saves {dir : Path} {versions : List VersionEntry} {entry : VersionEntry}
      (hstage : call.stage = .saving versions entry) (hdir : versionDir call.objectKey = .ok dir)
      (hnext : Follows format call.objectKey call.data dir versions entry) :
      Stepped format s i call
        { s with
          store := update s.store entry.versionKey (some call.data)
          calls := update s.calls i (some { call with stage := .listing versions entry }) }
  | lists {dir : Path} {entry : VersionEntry}
      (hstage : call.stage = .listing (history format s.store dir) entry)
      (hdir : versionDir call.objectKey = .ok dir)
      (hnext : Follows format call.objectKey call.data dir (history format s.store dir) entry)
      (hstored : s.store entry.versionKey = some call.data) :
      Stepped format s i call
        { store := update s.store (manifestIn dir)
            (some (format.dumps (history format s.store dir ++ [entry])))
          calls := update s.calls i none
          returned := ⟨call.objectKey, entry, call.data⟩ :: s.returned }

section

variable {format : Format Bytes} {files : Set Path} {s : State ι Bytes}

variable {call : Call Bytes} {dir : Path} {entry : VersionEntry}

theorem step_cases {i : ι} (now : Nat) (hcall : s.calls i = some call)
    (hstanding : Standing format s.store call.objectKey call.data call.stage) :
    Stepped format s i call (move format (.step i now) s) := by
  obtain ⟨key, data, stage⟩ := call
  have hquiet : ∀ after : Option Stage, (∀ stage', after = some stage' → ¬ Lists stage' ∧
      Standing format s.store key data stage') → Stepped format s i ⟨key, data, stage⟩
        ⟨s.store, update s.calls i (after.map fun stage' => ⟨key, data, stage'⟩),
          s.returned⟩ :=
    fun after hafter => .quiet after hafter
  simp only [move, hcall, advance]
  cases hdir : versionDir key with
  | error e => exact hquiet none nofun
  | ok dir =>
    dsimp only at hstanding
    cases hstanding with
    | checking changeAuthor =>
      have hgoes : ∀ author, Stepped format s i ⟨key, data, .checking changeAuthor⟩
          (s.settle i ⟨key, data, .checking changeAuthor⟩
            (.goes (.reading author none), s.store)) := by
        intro author
        apply hquiet (some (.reading author none))
        intro stage' hstage'
        cases hstage'
        refine ⟨?_, .reading author none⟩
        rintro ⟨_, _, h⟩
        cases h
      simp only [check]
      cases (history format s.store dir).getLast? with
      | none => exact hgoes "initial"
      | some latest =>
        dsimp only
        split
        · exact hgoes changeAuthor
        · exact hquiet none nofun
    | reading author restoredFromSeq =>
      apply hquiet (some (.saving (history format s.store dir)
        (entryOf format now key data author restoredFromSeq dir (history format s.store dir))))
      intro stage' hstage'
      cases hstage'
      refine ⟨?_, .saving hdir ⟨rfl, rfl, rfl⟩⟩
      rintro ⟨_, _, h⟩
      cases h
    | @saving dir' versions entry hdir' hnext => exact .saves rfl hdir' hnext
    | @listing dir' versions entry hdir' hread hnext hstored =>
      rw [hdir] at hdir'
      cases hdir'
      subst hread
      exact .lists rfl hdir hnext hstored

theorem Held.set (h : Held format files s) (i : ι) (after : Option (Call Bytes))
    (hafter : ∀ call, after = some call → call.objectKey ∈ files ∧ ¬ Lists call.stage ∧
      Standing format s.store call.objectKey call.data call.stage) :
    Held format files { s with calls := update s.calls i after } := by
  have hlists : ∀ j call, update s.calls i after j = some call → Lists call.stage →
      s.calls j = some call := by
    intro j call hj hlists
    rcases update_some hj with ⟨_, hnew⟩ | ⟨_, hj⟩
    · exact absurd hlists (hafter call hnew).2.1
    · exact hj
  refine ⟨h.filed, ?_, ?_, h.returned⟩
  · intro j call hj
    rcases update_some hj with ⟨_, hnew⟩ | ⟨_, hj⟩
    · obtain ⟨hkey, _, hstanding⟩ := hafter call hnew
      exact ⟨hkey, hstanding⟩
    · exact h.calls j call hj
  · intro j k call call' dir hj hk hlj hlk
    exact h.apart j k call call' dir (hlists j call hj hlj) (hlists k call' hk hlk) hlj hlk

theorem Held.saves (h : Held format files s) (hdirs : OwnDirs files) {i : ι}
    (hkey : call.objectKey ∈ files) (hdir : versionDir call.objectKey = .ok dir)
    (hnext : Follows format call.objectKey call.data dir (history format s.store dir) entry)
    (hothers : ∀ j ≠ i, ∀ call' versions' entry', s.calls j = some call' →
      call'.stage = .listing versions' entry' → versionDir call'.objectKey ≠ .ok dir) :
    Held format files
      { s with
        store := update s.store entry.versionKey (some call.data)
        calls := update s.calls i
          (some { call with stage := .listing (history format s.store dir) entry }) } := by
  have hplace := hnext.place
  constructor
  · dsimp only
    rw [hplace]
    exact h.filed.save hdirs hkey hdir call.data
  · intro j call' hj
    dsimp only at hj ⊢
    rcases update_some hj with ⟨rfl, hnew⟩ | ⟨hij, hold⟩
    · cases hnew
      refine ⟨hkey, .listing hdir ?_ hnext (update_self _ _ _)⟩
      rw [hplace, history_snapshot]
    · obtain ⟨hkey', hstanding⟩ := h.calls j call' hold
      refine ⟨hkey', hstanding.beside ?_⟩
      rintro dir' hdir' ⟨versions', entry', hstage'⟩
      have hapart : dir' ≠ dir := by
        rintro rfl
        exact hothers j hij call' versions' entry' hold hstage' hdir'
      rw [hplace, history_snapshot]
      refine ⟨rfl, fun seq => ?_⟩
      exact update_of_ne (fun heq => hapart (snapshotIn_dir heq)) _ _
  · intro j k call' call'' dir' hj hk hlj hlk hdj hdk
    dsimp only at hj hk
    have hother : ∀ l call₁, l ≠ i → s.calls l = some call₁ → Lists call₁.stage →
        versionDir call₁.objectKey ≠ .ok dir := by
      rintro l call₁ hl hl₁ ⟨versions', entry', hstage'⟩
      exact hothers l hl call₁ versions' entry' hl₁ hstage'
    rcases update_some hj with ⟨hij, hnew⟩ | ⟨hij, hj⟩
    · cases hnew
      rcases update_some hk with ⟨hik, _⟩ | ⟨hik, hk⟩
      · rw [hij, hik]
      · rw [hdir] at hdj
        cases hdj
        exact absurd hdk (hother k call'' hik hk hlk)
    · rcases update_some hk with ⟨_, hnew⟩ | ⟨_, hk⟩
      · cases hnew
        rw [hdir] at hdk
        cases hdk
        exact absurd hdj (hother j call' hij hj hlj)
      · exact h.apart j k call' call'' dir' hj hk hlj hlk hdj hdk
  · intro r hr
    obtain ⟨dir', hdir', hmem, hstored⟩ := h.returned r hr
    refine ⟨dir', hdir', ?_, ?_⟩
    · rw [hplace, history_snapshot]
      exact hmem
    · dsimp only
      rw [hplace, update_of_ne (h.filed.ne_next hdirs hkey hdir hdir' hmem)]
      exact hstored

theorem Held.lists (h : Held format files s) {i : ι} (hcall : s.calls i = some call)
    (hkey : call.objectKey ∈ files)
    (hstage : call.stage = .listing (history format s.store dir) entry)
    (hdir : versionDir call.objectKey = .ok dir)
    (hnext : Follows format call.objectKey call.data dir (history format s.store dir) entry)
    (hstored : s.store entry.versionKey = some call.data) :
    Held format files
      { store := update s.store (manifestIn dir)
          (some (format.dumps (history format s.store dir ++ [entry])))
        calls := update s.calls i none
        returned := ⟨call.objectKey, entry, call.data⟩ :: s.returned } := by
  have hplaced : ∀ dir' key' seq, update s.store (manifestIn dir)
      (some (format.dumps (history format s.store dir ++ [entry])))
        (snapshotIn dir' key' seq) = s.store (snapshotIn dir' key' seq) := by
    intro dir' key' seq
    exact update_of_ne (snapshotIn_ne_manifestIn dir' dir key' seq) _ _
  have hlast : Lists call.stage := ⟨_, _, hstage⟩
  constructor
  · exact h.filed.list hkey hdir hnext hstored
  · intro j call' hj
    dsimp only at hj ⊢
    obtain ⟨hij, hj⟩ := update_none hj
    obtain ⟨hkey', hstanding⟩ := h.calls j call' hj
    refine ⟨hkey', hstanding.beside ?_⟩
    intro dir' hdir' hlists
    have hapart : dir' ≠ dir := by
      rintro rfl
      exact hij (h.apart j i call' call dir' hj hcall hlists hlast hdir' hdir)
    rw [history_manifest, if_neg hapart]
    exact ⟨rfl, hplaced dir' call'.objectKey⟩
  · intro j k call' call'' dir' hj hk
    dsimp only at hj hk
    exact h.apart j k call' call'' dir' (update_none hj).2 (update_none hk).2
  · intro r hr
    rcases mem_cons.mp hr with rfl | hr
    · refine ⟨dir, hdir, ?_, ?_⟩
      · dsimp only
        rw [history_manifest, if_pos rfl]
        simp
      · dsimp only
        rw [hnext.place, hplaced, ← hnext.place]
        exact hstored
    · obtain ⟨dir', hdir', hmem, hbytes⟩ := h.returned r hr
      obtain ⟨key', _, _, hplace, _⟩ := h.filed.entries _ dir' hdir' r.entry hmem
      refine ⟨dir', hdir', ?_, ?_⟩
      · rw [history_manifest]
        split
        · next hsame =>
            subst hsame
            exact mem_append_left _ hmem
        · exact hmem
      · dsimp only
        rw [hplace, hplaced, ← hplace]
        exact hbytes

theorem Held.step (h : Held format files s) (hdirs : OwnDirs files) {i : ι} {now : Nat}
    (hclear : Clear format s (.step i now)) : Held format files (move format (.step i now) s) := by
  cases hcall : s.calls i with
  | none =>
    simp only [move, hcall]
    exact h
  | some call =>
    obtain ⟨hkey, hstanding⟩ := h.calls i call hcall
    have hstep := step_cases now hcall hstanding
    generalize move format (.step i now) s = s' at hstep ⊢
    cases hstep with
    | quiet after hafter =>
      apply h.set
      intro call' hcall'
      obtain ⟨stage, hstage, rfl⟩ := Option.map_eq_some_iff.mp hcall'
      exact ⟨hkey, hafter stage hstage⟩
    | @saves dir versions entry hstage hdir hnext =>
      obtain ⟨rfl, hothers⟩ := hclear call versions entry dir hcall hstage hdir
      exact h.saves hdirs hkey hdir hnext hothers
    | lists hstage hdir hnext hstored =>
      exact h.lists hcall hkey hstage hdir hnext hstored

theorem Held.move (h : Held format files s) (hdirs : OwnDirs files) {m : Move ι Bytes}
    (hpossible : Possible files s m) (hclear : Clear format s m) :
    Held format files (move format m s) := by
  cases m with
  | start i request =>
    apply h.set
    rintro call ⟨rfl⟩
    refine ⟨hpossible.2, ?_, ?_⟩
    · rintro ⟨_, _, hstage⟩
      cases request <;> cases hstage
    · cases request with
      | recordVersion => exact .reading _ _
      | captureBytes => exact .checking _
  | step i now => exact h.step hdirs hclear
  | crash i => exact h.set i none nofun

omit [DecidableEq ι] in
theorem Held.kept (h : Held format files s) : Kept format s := by
  constructor
  · intro key versions hlist entry hentry
    obtain ⟨dir, hdir, rfl⟩ := (listVersions_ok format s.store).mp hlist
    obtain ⟨_, _, _, _, hbytes⟩ := h.filed.entries key dir hdir entry hentry
    exact hbytes
  · intro key versions hlist
    obtain ⟨dir, hdir, rfl⟩ := (listVersions_ok format s.store).mp hlist
    exact pairwise_map.mpr (h.filed.sorted key dir hdir)
  · intro r hr
    obtain ⟨dir, hdir, hmem, hbytes⟩ := h.returned r hr
    exact ⟨_, (listVersions_ok format s.store).mpr ⟨dir, hdir, rfl⟩, hmem, hbytes⟩

theorem Held.sameVersions (h : Held format files s) (hdirs : OwnDirs files) {m : Move ι Bytes}
    {key : Path} (hkey : key ∈ files) (hother : m.file s ≠ some key) :
    SameVersions format key s.store (Versions.move format m s).store := by
  cases m with
  | start i request | crash i => exact ⟨rfl, fun _ _ _ _ => rfl⟩
  | step i now =>
    cases hcall : s.calls i with
    | none =>
      simp only [Versions.move, hcall]
      exact ⟨rfl, fun _ _ _ _ => rfl⟩
    | some call =>
      obtain ⟨hfile, hstanding⟩ := h.calls i call hcall
      have hne : call.objectKey ≠ key := by
        intro heq
        simp [Move.file, hcall, heq] at hother
      have hstep := step_cases now hcall hstanding
      generalize Versions.move format (.step i now) s = s' at hstep ⊢
      have hapart : ∀ {dir dir'}, versionDir call.objectKey = .ok dir →
          versionDir key = .ok dir' → dir' ≠ dir := by
        rintro dir _ hdir hdir' rfl
        exact hne (hdirs _ hfile _ hkey _ hdir hdir')
      have hlist : ∀ {store' : Objects Bytes}, (∀ dir, versionDir key = .ok dir →
            history format store' dir = history format s.store dir ∧
              ∀ key' seq, store' (snapshotIn dir key' seq) = s.store (snapshotIn dir key' seq)) →
            SameVersions format key s.store store' := by
        intro store' hsame
        constructor
        · unfold listVersions
          cases hdir : versionDir key with
          | error e => rfl
          | ok dir => exact congrArg Except.ok (hsame dir hdir).1
        · intro versions hversions entry hentry
          obtain ⟨dir, hdir, rfl⟩ := (listVersions_ok format s.store).mp hversions
          obtain ⟨key', _, _, hplace, _⟩ := h.filed.entries key dir hdir entry hentry
          rw [hplace]
          exact (hsame dir hdir).2 key' entry.seq
      apply hlist
      intro dir' hdir'
      cases hstep with
      | quiet after hafter => exact ⟨rfl, fun _ _ => rfl⟩
      | saves hstage hdir hnext =>
        rw [hnext.place, history_snapshot]
        refine ⟨rfl, fun key' seq => ?_⟩
        exact update_of_ne (fun heq => hapart hdir hdir' (snapshotIn_dir heq)) _ _
      | lists hstage hdir hnext hstored =>
        rw [history_manifest, if_neg (hapart hdir hdir')]
        refine ⟨rfl, fun key' seq => ?_⟩
        exact update_of_ne (snapshotIn_ne_manifestIn _ _ _ _) _ _

/-- In every run whose steps meet the condition on uploads, on files with directories of
their own, no version is lost or mixed up, and no step changes a version of another file. -/
theorem versions_kept (format : Format Bytes) (files : Set Path) (store : Objects Bytes)
    (hdirs : OwnDirs files)
    (hnone : ∀ key versions, listVersions format store key = .ok versions → versions = [])
    {s : State ι Bytes}
    (h : Steps (Versions.move format) (fun s m => Possible files s m ∧ Clear format s m)
      (initial store) s) :
    Kept format s ∧ ∀ m, Possible files s m → ∀ key ∈ files, m.file s ≠ some key →
      SameVersions format key s.store (Versions.move format m s).store := by
  have hempty : ∀ file dir, versionDir file = .ok dir → history format store dir = [] :=
    fun file dir hdir => hnone file _ ((listVersions_ok format store).mpr ⟨dir, hdir, rfl⟩)
  have hinit : Held format files (initial store : State ι Bytes) := by
    refine ⟨⟨?_, ?_⟩, ?_, ?_, ?_⟩
    · intro file dir hdir entry hentry
      rw [show history format (initial store : State ι Bytes).store dir = []
        from hempty file dir hdir] at hentry
      cases hentry
    · intro file dir hdir
      rw [show history format (initial store : State ι Bytes).store dir = []
        from hempty file dir hdir]
      exact List.Pairwise.nil
    · nofun
    · nofun
    · nofun
  have hheld : Held format files s :=
    h.invariant (fun s m hs hguard => hs.move hdirs hguard.1 hguard.2) hinit
  exact ⟨hheld.kept, fun m _ key hkey hother => hheld.sameVersions hdirs hkey hother⟩

end

inductive Sheet where
  | text (text : String)
  | lineage (entries : List VersionEntry)

def sheets : Format Sheet where
  sha256Hex
    | .text text => text
    | .lineage _ => "lineage"
  length
    | .text text => text.length
    | .lineage entries => entries.length
  dumps := .lineage
  loads
    | .text _ => none
    | .lineage entries => some entries
  loads_dumps _ := rfl

def note : Path := ['n', 'o', 't', 'e']

/-- One call at a time. -/
theorem versions_kept_once : ∃ s : State Bool Sheet, s.returned ≠ [] ∧
      Kept sheets s ∧ ∀ m, Possible {note} s m → ∀ key ∈ ({note} : Set Path),
        m.file s ≠ some key → SameVersions sheets key s.store (move sheets m s).store := by
  have hread : (Steps (move sheets) (fun s m => Possible {note} s m ∧ Clear sheets s m))
      (initial fun _ => none : State Bool Sheet)
      (move sheets (.step false 1)
        (move sheets (.start false (.recordVersion note (.text "one") "user" none))
          (initial fun _ => none))) := by
    apply ((Steps.refl _).next _ ⟨⟨rfl, rfl⟩, trivial⟩).next
    refine ⟨(nomatch ·), ?_⟩
    intro call versions entry dir hcall hstage
    cases hcall
    cases hstage
  have hsaved := hread.next (.step false 2) (by
    refine ⟨(nomatch ·), ?_⟩
    intro call versions entry dir hcall hstage hdir
    cases hcall
    cases hstage
    cases hdir
    refine ⟨rfl, ?_⟩
    intro j hj call' versions' entry' hcall'
    cases j with
    | false => exact absurd rfl hj
    | true => cases hcall')
  have hlisted := hsaved.next (.step false 3) (by
    refine ⟨(nomatch ·), ?_⟩
    intro call versions entry dir hcall hstage
    cases hcall
    cases hstage)
  refine ⟨_, ?_, versions_kept sheets {note} (fun _ => none) ?_ ?_ hlisted⟩
  · exact cons_ne_nil _ _
  · rintro key rfl key' rfl dir _ _
    rfl
  · intro key versions hlist
    obtain ⟨dir, _, rfl⟩ := (listVersions_ok sheets _).mp hlist
    rfl

/-- Two calls on one file read the same history: the bytes of the version that the first
one returns are those of the other. -/
theorem overwritten_snapshot : ¬ ∀ s : State Bool Sheet,
      Steps (move sheets) (Possible {note}) (initial fun _ => none) s → Kept sheets s := by
  intro h
  have hread := (((@Steps.refl _ _ (move sheets) (Possible {note})
    (initial fun _ => none : State Bool Sheet)).next
      (.start false (.recordVersion note (.text "one") "user" none)) ⟨rfl, rfl⟩).next
        (.start true (.captureBytes note (.text "two") "agent")) ⟨rfl, rfl⟩).next
          (.step false 1) (nomatch ·)
  have hboth := (hread.next (.step true 2) (nomatch ·)).next (.step true 3) (nomatch ·)
  have hsaved := (hboth.next (.step false 4) (nomatch ·)).next (.step true 5) (nomatch ·)
  have hlisted := hsaved.next (.step false 6) (nomatch ·)
  obtain ⟨versions, _, _, hbytes⟩ := (h _ hlisted).stays _ mem_cons_self
  have hsame : Sheet.text "two" = .text "one" := Option.some.inj hbytes
  exact absurd (Sheet.text.inj hsame) (by decide)

end Substrate.Versions
