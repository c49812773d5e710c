import Substrate.Files.Listing

/-!
What the pages of a listing hold together. The entries of a volume are in the strict order of
their keys, and a listing that goes on from the key of one of them finds those after it. The
exception is a file whose path ends with a slash: a cursor takes it for a directory.
-/

namespace Substrate.Files

open Lib List

namespace ListRequest

variable (r : ListRequest)

def entryOf (row : Path × FileRow) : Entry :=
  if r.folds row.1 then (directoryOf r.start row.1, none) else (row.1, some row.2)

variable {path other skip : Path} {row : Path × FileRow} {rows : List (Path × FileRow)}

theorem folds_iff : r.folds path = true ↔ r.divides = true ∧ '/' ∈ path.drop r.start.length := by
  simp [folds]

theorem directoryOf_name (path : Path) :
    ∃ name, '/' ∉ name ∧ directoryOf r.start path = r.start ++ (name ++ ['/']) := by
  refine ⟨(path.drop r.start.length).takeWhile (· ≠ '/'), ?_, ?_⟩
  · intro hmem
    have hne := mem_takeWhile_imp hmem
    simp at hne
  · unfold directoryOf
    rw [append_assoc]

theorem directoryOf_below {name : Path} (hdivides : r.divides = true) (hname : '/' ∉ name)
    (h : r.start ++ (name ++ ['/']) <+: path) :
    r.folds path = true ∧ directoryOf r.start path = r.start ++ (name ++ ['/']) := by
  obtain ⟨rest, rfl⟩ := h
  rw [folds_iff]
  unfold directoryOf
  rw [append_assoc, drop_left, append_assoc, singleton_append]
  have hall : ∀ c ∈ name, decide (c ≠ '/') = true := by
    intro c hc
    rw [decide_eq_true_eq]
    rintro rfl
    exact hname hc
  refine ⟨⟨hdivides, by simp⟩, ?_⟩
  rw [takeWhile_append_of_pos hall, takeWhile_cons_of_neg (by simp), append_nil, append_assoc]

theorem below_directory (hfolds : r.folds path = true) (h : directoryOf r.start path <+: other) :
    r.folds other = true ∧ directoryOf r.start other = directoryOf r.start path := by
  obtain ⟨name, hname, heq⟩ := r.directoryOf_name path
  rw [heq] at h ⊢
  exact r.directoryOf_below (r.folds_iff.mp hfolds).1 hname h

theorem directory_eq (hfolds : r.folds path = true) (hfolds' : r.folds other = true)
    (h : directoryOf r.start path <+: directoryOf r.start other) :
    directoryOf r.start path = directoryOf r.start other := by
  have hone := (r.below_directory hfolds h).2
  have hother := (r.below_directory hfolds' prefix_rfl).2
  exact hone.symm.trans hother

structure Sorted (rows : List (Path × FileRow)) : Prop where
  order : rows.Pairwise fun a b => a.1 < b.1
  below : ∀ row ∈ rows, r.start <+: row.1

variable {r}

theorem Sorted.tail (h : r.Sorted (row :: rows)) : r.Sorted rows :=
  ⟨(pairwise_cons.mp h.order).2, fun row' hrow' => h.below row' (mem_cons_of_mem _ hrow')⟩

theorem Sorted.later (h : r.Sorted rows) (cursor : Path) : r.Sorted (beyond rows cursor) :=
  ⟨pairwise_beyond cursor h.order, fun row hrow => h.below row (mem_beyond.mp hrow).1⟩

theorem entryOf_key (hbelow : r.start <+: row.1) : (r.entryOf row).1 <+: row.1 := by
  unfold entryOf
  split
  · next hfolds => exact r.directoryOf_start hbelow hfolds
  · exact prefix_rfl

theorem entries_cons (rest : List (Path × FileRow)) (hrow : skips skip row.1 = false) :
    r.entries skip (row :: rest) = (if r.visible (r.entryOf row).1 then [r.entryOf row] else []) ++
        r.entries (if r.folds row.1 then directoryOf r.start row.1 else skip) rest := by
  cases hfolds : r.folds row.1 with
  | true =>
    simp only [entries, entryOf, hrow, hfolds, Bool.false_eq_true, if_false, if_true]
    split
    · rfl
    · rfl
  | false =>
    simp only [entries, entryOf, hrow, hfolds, Bool.false_eq_true, if_false]
    split
    · rfl
    · rfl

theorem mem_entries {e : Entry} (hrows : r.Sorted rows) (hskip : ∀ row ∈ rows, skip ≤ row.1) :
    e ∈ r.entries skip rows ↔ ∃ row ∈ rows, skips skip row.1 = false ∧
      r.visible (r.entryOf row).1 = true ∧ e = r.entryOf row := by
  induction rows generalizing skip with
  | nil => simp [entries]
  | cons row rest ih =>
    have hlater := (pairwise_cons.mp hrows.order).1
    have hfirst := hskip row mem_cons_self
    have hskips := fun row' h => hskip row' (mem_cons_of_mem row h)
    cases hrow : skips skip row.1 with
    | true =>
      unfold entries
      simp only [hrow, if_true]
      rw [ih hrows.tail hskips]
      simp [hrow]
    | false =>
      have hnone : ∀ row' ∈ rest, skips skip row'.1 = false := fun row' h =>
        skips_later hfirst (hlater row' h).le hrow
      have hhead : e ∈ (if r.visible (r.entryOf row).1 then [r.entryOf row] else []) ↔
          r.visible (r.entryOf row).1 = true ∧ e = r.entryOf row := by
        split
        · next hvisible => simp [hvisible]
        · next hhidden => simp [hhidden]
      rw [entries_cons rest hrow, mem_append, hhead]
      cases hfolds : r.folds row.1 with
      | true =>
        have hstart := r.directoryOf_start (hrows.below row mem_cons_self) hfolds
        have hdirectory : ∀ row' ∈ rest, directoryOf r.start row.1 ≤ row'.1 :=
          fun row' h => (le_of_start hstart).trans (hlater row' h).le
        have hentry : r.entryOf row = (directoryOf r.start row.1, none) := by
          simp [entryOf, hfolds]
        simp only [if_true]
        rw [ih hrows.tail hdirectory]
        constructor
        · rintro (⟨hvisible, rfl⟩ | ⟨row', hin, -, hvisible, rfl⟩)
          · exact ⟨row, mem_cons_self, hrow, hvisible, rfl⟩
          · exact ⟨row', mem_cons_of_mem row hin, hnone row' hin, hvisible, rfl⟩
        · rintro ⟨row', hin, hplain, hvisible, rfl⟩
          rcases mem_cons.mp hin with rfl | hin
          · exact .inl ⟨hvisible, rfl⟩
          · cases hsame : skips (directoryOf r.start row.1) row'.1 with
            | true =>
              -- the row lies in the directory that has been listed
              obtain ⟨hfolds', heq⟩ := r.below_directory hfolds (skips_iff.mp hsame).2
              have hentry' : r.entryOf row' = r.entryOf row := by
                rw [hentry, ← heq]
                simp [entryOf, hfolds']
              rw [hentry'] at hvisible ⊢
              exact .inl ⟨hvisible, rfl⟩
            | false => exact .inr ⟨row', hin, hsame, hvisible, rfl⟩
      | false =>
        simp only [Bool.false_eq_true, if_false]
        rw [ih hrows.tail hskips]
        constructor
        · rintro (⟨hvisible, rfl⟩ | ⟨row', hin, hplain, hvisible, rfl⟩)
          · exact ⟨row, mem_cons_self, hrow, hvisible, rfl⟩
          · exact ⟨row', mem_cons_of_mem row hin, hplain, hvisible, rfl⟩
        · rintro ⟨row', hin, hplain, hvisible, rfl⟩
          rcases mem_cons.mp hin with rfl | hin
          · exact .inl ⟨hvisible, rfl⟩
          · exact .inr ⟨row', hin, hplain, hvisible, rfl⟩

theorem entryOf_lt {other : Path × FileRow} (hbelow : r.start <+: row.1)
    (hbelow' : r.start <+: other.1) (hlt : row.1 < other.1)
    (hapart : r.folds row.1 = true → ¬ directoryOf r.start row.1 <+: other.1) :
    (r.entryOf row).1 < (r.entryOf other).1 := by
  have hkey := le_of_start (entryOf_key hbelow)
  have hkey' := entryOf_key hbelow'
  by_contra hnot
  -- otherwise the later row's key would begin the earlier row's
  have hle := not_lt.mp hnot
  have hstart := start_between hle (hkey.trans hlt.le) hkey'
  cases hfolds' : r.folds other.1 with
  | false =>
    have hfile : (r.entryOf other).1 = other.1 := by simp [entryOf, hfolds']
    rw [hfile] at hle
    exact absurd (hlt.trans_le hle) (not_lt.mpr hkey)
  | true =>
    have hdirectory : (r.entryOf other).1 = directoryOf r.start other.1 := by
      simp [entryOf, hfolds']
    rw [hdirectory] at hstart hkey'
    cases hfolds : r.folds row.1 with
    | true =>
      have hown : (r.entryOf row).1 = directoryOf r.start row.1 := by
        simp [entryOf, hfolds]
      rw [hown] at hstart
      have heq := r.directory_eq hfolds' hfolds hstart
      rw [heq] at hkey'
      exact hapart hfolds hkey'
    | false =>
      have hown : (r.entryOf row).1 = row.1 := by simp [entryOf, hfolds]
      rw [hown] at hstart
      rw [(r.below_directory hfolds' hstart).1] at hfolds
      cases hfolds

theorem entries_sorted (hrows : r.Sorted rows) (hskip : ∀ row ∈ rows, skip ≤ row.1) :
    (r.entries skip rows).Pairwise fun a b => a.1 < b.1 := by
  induction rows generalizing skip with
  | nil => exact List.Pairwise.nil
  | cons row rest ih =>
    have hlater := (pairwise_cons.mp hrows.order).1
    have hbelow := hrows.below row mem_cons_self
    have hskips := fun row' h => hskip row' (mem_cons_of_mem row h)
    cases hrow : skips skip row.1 with
    | true =>
      unfold entries
      simp only [hrow, if_true]
      exact ih hrows.tail hskips
    | false =>
      have hnext : ∀ row' ∈ rest,
          (if r.folds row.1 then directoryOf r.start row.1 else skip) ≤ row'.1 := by
        intro row' hrow'
        split
        · next hfolds =>
            exact (le_of_start (r.directoryOf_start hbelow hfolds)).trans (hlater row' hrow').le
        · exact hskips row' hrow'
      rw [entries_cons rest hrow, pairwise_append]
      refine ⟨by split <;> simp, ih hrows.tail hnext, ?_⟩
      intro e he e' he'
      have heq : e = r.entryOf row := by
        split at he
        · exact mem_singleton.mp he
        · cases he
      obtain ⟨row', hin, hplain, -, rfl⟩ := (mem_entries hrows.tail hnext).mp he'
      rw [heq]
      apply entryOf_lt hbelow (hrows.below row' (mem_cons_of_mem row hin)) (hlater row' hin)
      intro hfolds hstart
      rw [hfolds, if_pos rfl, Bool.eq_false_iff] at hplain
      exact hplain (skips_iff.mpr ⟨by simp [directoryOf], hstart⟩)

theorem skipOf_le (after : Path) : skipOf after ≤ after := by
  unfold skipOf
  split
  · exact le_rfl
  · exact le_of_start nil_prefix

theorem skipOf_eq {after : Path} (h : skipOf after ≠ []) : skipOf after = after := by
  unfold skipOf at h ⊢
  split
  · rfl
  · next hslash => rw [if_neg hslash] at h; exact absurd rfl h

def everything (r : ListRequest) (rows : List (Path × FileRow)) : List Entry := r.entries [] rows

def entriesAfter (r : ListRequest) (rows : List (Path × FileRow)) (after : Path) : List Entry :=
  r.entries (skipOf after) (beyond rows after)

section Rows

variable {rows : List (Path × FileRow)} (hrows : r.Sorted rows)

include hrows

variable {e : Entry} {after : Path}

theorem mem_everything : e ∈ r.everything rows ↔
    ∃ row ∈ rows, r.visible (r.entryOf row).1 = true ∧ e = r.entryOf row := by
  unfold everything
  rw [mem_entries hrows fun row _ => le_of_start nil_prefix]
  simp [skips]

theorem everything_sorted : (r.everything rows).Pairwise fun a b => a.1 < b.1 :=
  entries_sorted hrows fun _ _ => le_of_start nil_prefix

theorem mem_later_entries : e ∈ r.entriesAfter rows after ↔ ∃ row ∈ rows, after < row.1 ∧
      skips (skipOf after) row.1 = false ∧ r.visible (r.entryOf row).1 = true ∧
        e = r.entryOf row := by
  unfold entriesAfter
  rw [mem_entries (hrows.later after) fun row hrow =>
    (skipOf_le after).trans ((mem_beyond.mp hrow).2).le]
  constructor
  · rintro ⟨row, hin, hrest⟩
    exact ⟨row, (mem_beyond.mp hin).1, (mem_beyond.mp hin).2, hrest⟩
  · rintro ⟨row, hin, hlt, hrest⟩
    exact ⟨row, mem_beyond.mpr ⟨hin, hlt⟩, hrest⟩

theorem lt_entry (hafter : after = [] ∨ ∃ e ∈ r.everything rows, e.1 = after)
    {row : Path × FileRow} (hin : row ∈ rows) (hlt : after < row.1)
    (hplain : skips (skipOf after) row.1 = false) : after < (r.entryOf row).1 := by
  by_contra hnot
  have hle := not_lt.mp hnot
  have hbelow := hrows.below row hin
  cases hfolds : r.folds row.1 with
  | false =>
    have hfile : (r.entryOf row).1 = row.1 := by simp [entryOf, hfolds]
    rw [hfile] at hle
    exact absurd hlt (not_lt.mpr hle)
  | true =>
    have hdirectory : (r.entryOf row).1 = directoryOf r.start row.1 := by
      simp [entryOf, hfolds]
    rw [hdirectory] at hle
    have hstart := start_between hle hlt.le (r.directoryOf_start hbelow hfolds)
    rcases hafter with rfl | ⟨e, he, rfl⟩
    · have hnil := prefix_nil.mp hstart
      simp [directoryOf] at hnil
    · obtain ⟨other, hother, -, rfl⟩ := (mem_everything hrows).mp he
      cases hfolds' : r.folds other.1 with
      | false =>
        have hown : (r.entryOf other).1 = other.1 := by simp [entryOf, hfolds']
        rw [hown] at hstart
        rw [(r.below_directory hfolds hstart).1] at hfolds'
        cases hfolds'
      | true =>
        have hown : (r.entryOf other).1 = directoryOf r.start other.1 := by
          simp [entryOf, hfolds']
        rw [hown] at hstart hplain
        have heq := r.directory_eq hfolds hfolds' hstart
        -- the cursor is the row's own directory, which is passed over
        have hskip : skipOf (directoryOf r.start other.1) = directoryOf r.start other.1 := by
          simp [skipOf, directoryOf]
        rw [hskip, ← heq, Bool.eq_false_iff] at hplain
        exact hplain (skips_iff.mpr ⟨by simp [directoryOf], r.directoryOf_start hbelow hfolds⟩)

theorem entries_later (hafter : after = [] ∨ ∃ e ∈ r.everything rows, e.1 = after)
    (hgood : ∀ e ∈ r.everything rows, after < e.1 → skips (skipOf after) e.1 = false) :
    r.entriesAfter rows after = beyond (r.everything rows) after := by
  apply eq_of_strict
  · apply entries_sorted (hrows.later after)
    intro row hrow
    exact (skipOf_le after).trans ((mem_beyond.mp hrow).2).le
  · exact pairwise_beyond after (everything_sorted hrows)
  · intro e
    rw [mem_later_entries hrows, mem_beyond, mem_everything hrows]
    constructor
    · rintro ⟨row, hin, hlt, hplain, hvisible, rfl⟩
      exact ⟨⟨row, hin, hvisible, rfl⟩, lt_entry hrows hafter hin hlt hplain⟩
    · rintro ⟨⟨row, hin, hvisible, rfl⟩, hlt⟩
      have hkey := entryOf_key (hrows.below row hin)
      refine ⟨row, hin, hlt.trans_le (le_of_start hkey), ?_, hvisible, rfl⟩
      have hentry := hgood _ ((mem_everything hrows).mpr ⟨row, hin, hvisible, rfl⟩) hlt
      rw [Bool.eq_false_iff] at hentry ⊢
      intro hskips
      obtain ⟨hne, hstart⟩ := skips_iff.mp hskips
      rw [skipOf_eq hne] at hstart
      apply hentry
      rw [skips_iff]
      refine ⟨hne, ?_⟩
      rw [skipOf_eq hne]
      exact start_between hlt.le (le_of_start hkey) hstart

end Rows

variable (t : Tables) (volume : String)

theorem rows_sorted : r.Sorted (r.rows t volume) := by
  have hmem : ∀ row ∈ r.rows t volume, row ∈ t.liveUnder volume r.start := fun row hrow =>
    (perm_inOrder _).mem_iff.mp hrow
  constructor
  · exact strict_inOrder (liveUnder_nodup r.start)
  · intro row hrow
    exact isPrefixOf_iff_prefix.mp (under_of_mem_liveUnder (hmem row hrow))

variable {t volume}

variable {limit fuel : Nat} {after directory key : Path} {es : List Entry}
    {row : Path × FileRow} {ps : List EntryPage} {e : Entry}

theorem listEntries_eq (hlimit : 0 < limit) (after : Path) :
    (r.listEntries limit t volume after).files =
        filesOf ((r.entriesAfter (r.rows t volume) after).take limit) ∧
      (r.listEntries limit t volume after).directories =
        directoriesOf ((r.entriesAfter (r.rows t volume) after).take limit) ∧
      (r.listEntries limit t volume after).next =
        if limit < (r.entriesAfter (r.rows t volume) after).length then
          ((r.entriesAfter (r.rows t volume) after).take limit).getLast?.map Prod.fst
        else none := by
  have hrows := rows_sorted (r := r) t volume
  have hfuel : (beyond (r.rows t volume) after).length < (r.rows t volume).length + 1 := by
    have hless : (beyond (r.rows t volume) after).length ≤ (r.rows t volume).length :=
      length_filter_le _ _
    omega
  have hadded := r.scan_added limit (beyond (r.rows t volume) after)
    ⟨[], [], skipOf after, 0, [], false⟩ rfl (Nat.zero_le limit)
  rw [← r.batches_eq limit hrows.order hrows.below hfuel rfl (skipOf_le after)] at hadded
  obtain ⟨hfiles, hdirectories, hmore, hlast⟩ := hadded
  simp only [nil_append, Nat.sub_zero] at hfiles hdirectories hmore hlast
  refine ⟨hfiles, hdirectories, ?_⟩
  simp only [listEntries, hmore, hlast, decide_eq_true_eq]
  unfold entriesAfter
  split
  · next hroom =>
      cases hfinal : ((r.entries (skipOf after) (beyond (r.rows t volume) after)).take
          limit).getLast? with
      | none =>
        rw [List.getLast?_eq_none_iff, take_eq_nil_iff] at hfinal
        rcases hfinal with rfl | hnil
        · omega
        · rw [hnil] at hroom
          simp at hroom
      | some final => rfl
  · rfl

abbrev listed (r : ListRequest) (t : Tables) (volume : String) : List Entry :=
  r.everything (r.rows t volume)

/-- No entry's key is taken for a directory above a later entry. -/
def NoneHidden (es : List Entry) : Prop :=
  ∀ e ∈ es, ∀ e' ∈ es, e.1 < e'.1 → skips (skipOf e.1) e'.1 = false

def IsCursor (es : List Entry) (after : Path) : Prop := after = [] ∨ ∃ e ∈ es, e.1 = after

theorem entriesAfter_eq (hhidden : NoneHidden (r.listed t volume))
    (hafter : IsCursor (r.listed t volume) after) :
    r.entriesAfter (r.rows t volume) after = beyond (r.listed t volume) after := by
  apply entries_later (rows_sorted t volume) hafter
  intro e he hlt
  rcases hafter with rfl | ⟨cursor, hcursor, rfl⟩
  · simp [skips, skipOf]
  · exact hhidden cursor hcursor e he hlt

def keysOf (files : List (Path × FileRow)) (directories : List Path) : List Path :=
  files.map Prod.fst ++ directories

theorem mem_filesOf {file : Path × FileRow} : file ∈ filesOf es ↔ (file.1, some file.2) ∈ es := by
  unfold filesOf
  rw [mem_filterMap]
  constructor
  · rintro ⟨⟨key, row⟩, he, heq⟩
    obtain ⟨found, rfl, rfl⟩ := Option.map_eq_some_iff.mp heq
    exact he
  · intro he
    exact ⟨_, he, rfl⟩

theorem mem_directoriesOf : directory ∈ directoriesOf es ↔ (directory, none) ∈ es := by
  unfold directoriesOf
  rw [mem_filterMap]
  constructor
  · rintro ⟨⟨key, row⟩, he, heq⟩
    cases row with
    | none =>
      cases heq
      exact he
    | some row => cases heq
  · intro he
    exact ⟨_, he, rfl⟩

theorem mem_keysOf : key ∈ keysOf (filesOf es) (directoriesOf es) ↔ ∃ e ∈ es, e.1 = key := by
  unfold keysOf
  rw [mem_append, mem_map, mem_directoriesOf]
  constructor
  · rintro (⟨file, hfile, rfl⟩ | hdirectory)
    · exact ⟨_, mem_filesOf.mp hfile, rfl⟩
    · exact ⟨_, hdirectory, rfl⟩
  · rintro ⟨⟨key, row⟩, he, rfl⟩
    cases row with
    | none => exact .inr he
    | some row => exact .inl ⟨(key, row), mem_filesOf.mpr he, rfl⟩

theorem listEntries_page (hlimit : 0 < limit) (hhidden : NoneHidden (r.listed t volume))
    (hafter : IsCursor (r.listed t volume) after) :
    (r.listEntries limit t volume after).files = filesOf (page limit (r.listed t volume) after).1 ∧
      (r.listEntries limit t volume after).directories =
        directoriesOf (page limit (r.listed t volume) after).1 ∧
      (r.listEntries limit t volume after).next = (page limit (r.listed t volume) after).2 := by
  obtain ⟨hfiles, hdirectories, hnext⟩ := @listEntries_eq r t volume limit hlimit after
  rw [entriesAfter_eq hhidden hafter] at hfiles hdirectories hnext
  exact ⟨hfiles, hdirectories, hnext⟩

/-- Pages that hold the entries after a cursor, each page what comes before the next. -/
structure Holds (ps : List EntryPage) (es : List Entry) : Prop where
  files : ps.flatMap EntryPage.files = filesOf es
  directories : ps.flatMap EntryPage.directories = directoriesOf es
  order : ps.Pairwise fun p p' => ∀ key ∈ keysOf p.files p.directories,
    ∀ key' ∈ keysOf p'.files p'.directories, key < key'

theorem follow_holds (hlimit : 0 < limit) (hhidden : NoneHidden (r.listed t volume))
    (hafter : IsCursor (r.listed t volume) after)
    (hfuel : (beyond (r.listed t volume) after).length < fuel) :
    ∃ ps, r.follow limit t volume fuel after = some ps ∧
      Holds ps (beyond (r.listed t volume) after) := by
  have hsorted : (r.listed t volume).Pairwise fun a b => a.1 < b.1 :=
    everything_sorted (rows_sorted t volume)
  induction fuel generalizing after with
  | zero => omega
  | succ fuel ih =>
    obtain ⟨hfiles, hdirectories, hnext⟩ := listEntries_page hlimit hhidden hafter
    unfold follow
    rw [hnext]
    cases hcut : (page limit (r.listed t volume) after).2 with
    | none =>
      rw [page_last hlimit hcut] at hfiles hdirectories
      refine ⟨_, rfl, ?_, ?_, pairwise_singleton _ _⟩
      · rw [flatMap_singleton, hfiles]
      · rw [flatMap_singleton, hdirectories]
    | some next =>
      obtain ⟨hmore, ⟨e, he, hkey⟩, hbefore, hrest⟩ := page_next hsorted hcut
      have hfirst : (page limit (r.listed t volume) after).1 =
          (beyond (r.listed t volume) after).take limit := rfl
      have hcursor : IsCursor (r.listed t volume) next :=
        .inr ⟨e, (mem_beyond.mp (mem_of_mem_take he)).1, hkey⟩
      have hless : (beyond (r.listed t volume) next).length < fuel := by
        rw [hrest, length_drop]
        omega
      obtain ⟨ps, hps, hholds⟩ := ih hcursor hless
      have hwhole := take_append_drop limit (beyond (r.listed t volume) after)
      rw [← hrest, ← hfirst] at hwhole
      dsimp only
      rw [hps]
      refine ⟨_, rfl, ?_, ?_, ?_⟩
      · rw [flatMap_cons, hholds.files, hfiles, ← filesOf_append, hwhole]
      · rw [flatMap_cons, hholds.directories, hdirectories, ← directoriesOf_append, hwhole]
      · rw [pairwise_cons]
        refine ⟨?_, hholds.order⟩
        intro p hp key hin key' hin'
        rw [hfiles, hdirectories] at hin
        obtain ⟨first, hfirstIn, rfl⟩ := mem_keysOf.mp hin
        have hlater : key' ∈ keysOf (ps.flatMap EntryPage.files)
            (ps.flatMap EntryPage.directories) := by
          rcases mem_append.mp hin' with hfile | hdirectory
          · obtain ⟨file, hfileIn, rfl⟩ := mem_map.mp hfile
            exact mem_append_left _ (mem_map_of_mem (mem_flatMap.mpr ⟨p, hp, hfileIn⟩))
          · exact mem_append_right _ (mem_flatMap.mpr ⟨p, hp, hdirectory⟩)
        rw [hholds.files, hholds.directories] at hlater
        obtain ⟨other, hother, rfl⟩ := mem_keysOf.mp hlater
        exact (hbefore first hfirstIn).trans_lt (mem_beyond.mp hother).2

/-- All the pages of a listing: the visible files under the prefix, or those directly under
it, and each visible directory there once, if it has a file; each in the order of the paths,
on one page and over all of them. -/
structure Complete (r : ListRequest) (t : Tables) (volume : String) (ps : List EntryPage) :
    Prop where
  files : ps.flatMap EntryPage.files =
    (r.rows t volume).filter fun row => r.visible row.1 && !r.folds row.1
  directories : ∀ directory, directory ∈ ps.flatMap EntryPage.directories ↔
    r.visible directory = true ∧
      ∃ row ∈ r.rows t volume, r.folds row.1 = true ∧ directoryOf r.start row.1 = directory
  once : (ps.flatMap EntryPage.directories).Pairwise (· < ·)
  order : ps.Pairwise fun p p' => ∀ key ∈ keysOf p.files p.directories,
    ∀ key' ∈ keysOf p'.files p'.directories, key < key'

theorem entryOf_file {found : FileRow} :
    (key, some found) = r.entryOf row ↔ r.folds row.1 = false ∧ row = (key, found) := by
  unfold entryOf
  cases r.folds row.1 with
  | true => simp
  | false =>
    simp only [Bool.false_eq_true, if_false, Prod.mk.injEq, Option.some.injEq, true_and]
    constructor
    · rintro ⟨rfl, rfl⟩
      rfl
    · rintro rfl
      exact ⟨rfl, rfl⟩

theorem entryOf_directory :
    (key, none) = r.entryOf row ↔ r.folds row.1 = true ∧ directoryOf r.start row.1 = key := by
  unfold entryOf
  cases r.folds row.1 with
  | true => simp [eq_comm]
  | false => simp

theorem filesOf_sorted (h : es.Pairwise fun a b => a.1 < b.1) :
    (filesOf es).Pairwise fun a b => a.1 < b.1 := by
  unfold filesOf
  rw [pairwise_filterMap]
  apply h.imp
  rintro ⟨key, row⟩ ⟨key', row'⟩ hlt file hfile file' hfile'
  obtain ⟨found, -, rfl⟩ := Option.map_eq_some_iff.mp hfile
  obtain ⟨found', -, rfl⟩ := Option.map_eq_some_iff.mp hfile'
  exact hlt

theorem directoriesOf_sorted (h : es.Pairwise fun a b => a.1 < b.1) :
    (directoriesOf es).Pairwise (· < ·) := by
  unfold directoriesOf
  rw [pairwise_filterMap]
  apply h.imp
  rintro ⟨key, row⟩ ⟨key', row'⟩ hlt directory hdirectory directory' hdirectory'
  cases row with
  | some row => cases hdirectory
  | none =>
    cases row' with
    | some row' => cases hdirectory'
    | none =>
      cases hdirectory
      cases hdirectory'
      exact hlt

theorem filesOf_listed : filesOf (r.listed t volume) =
    (r.rows t volume).filter fun row => r.visible row.1 && !r.folds row.1 := by
  have hrows := rows_sorted (r := r) t volume
  apply eq_of_strict (filesOf_sorted (everything_sorted hrows)) (hrows.order.filter _)
  intro file
  rw [mem_filesOf, mem_everything hrows, mem_filter]
  constructor
  · rintro ⟨row, hrow, hvisible, heq⟩
    obtain ⟨hfolds, rfl⟩ := entryOf_file.mp heq
    refine ⟨hrow, ?_⟩
    rw [← heq] at hvisible
    simp [hvisible, hfolds]
  · rintro ⟨hrow, hboth⟩
    simp only [Bool.and_eq_true, Bool.not_eq_true'] at hboth
    have heq := entryOf_file.mpr ⟨hboth.2, rfl⟩
    refine ⟨file, hrow, ?_, heq⟩
    rw [← heq]
    exact hboth.1

theorem mem_directoriesOf_listed :
    directory ∈ directoriesOf (r.listed t volume) ↔ r.visible directory = true ∧
      ∃ row ∈ r.rows t volume, r.folds row.1 = true ∧ directoryOf r.start row.1 = directory := by
  rw [mem_directoriesOf, mem_everything (rows_sorted t volume)]
  constructor
  · rintro ⟨row, hrow, hvisible, heq⟩
    rw [← heq] at hvisible
    exact ⟨hvisible, row, hrow, entryOf_directory.mp heq⟩
  · rintro ⟨hvisible, row, hrow, hdirectory⟩
    have heq := entryOf_directory.mpr hdirectory
    refine ⟨row, hrow, ?_, heq⟩
    rw [← heq]
    exact hvisible

theorem Holds.complete (h : Holds ps (r.listed t volume)) :
    r.Complete t volume ps where
  files := h.files.trans filesOf_listed
  directories directory := by
    rw [h.directories]
    exact mem_directoriesOf_listed
  once := by
    rw [h.directories]
    exact directoriesOf_sorted (everything_sorted (rows_sorted t volume))
  order := h.order

/-- No listed file has an empty path, or one that ends with a slash and begins the key of
another entry. -/
def Resumable (r : ListRequest) (t : Tables) (volume : String) : Prop :=
  ∀ row ∈ r.rows t volume, r.visible row.1 = true → r.folds row.1 = false →
    row.1 ≠ [] ∧ (row.1.getLast? = some '/' → ∀ other ∈ r.rows t volume,
      r.visible (r.entryOf other).1 = true → row.1 <+: (r.entryOf other).1 →
        (r.entryOf other).1 = row.1)

theorem Resumable.noneHidden (h : r.Resumable t volume) : NoneHidden (r.listed t volume) := by
  have hrows := rows_sorted (r := r) t volume
  intro e he e' he' hlt
  obtain ⟨row, hrow, hvisible, rfl⟩ := (mem_everything hrows).mp he
  obtain ⟨other, hother, hvisible', rfl⟩ := (mem_everything hrows).mp he'
  rw [Bool.eq_false_iff]
  intro hskips
  obtain ⟨hne, hstart⟩ := skips_iff.mp hskips
  rw [skipOf_eq hne] at hstart
  cases hfolds : r.folds row.1 with
  | true =>
    have hown : (r.entryOf row).1 = directoryOf r.start row.1 := by simp [entryOf, hfolds]
    rw [hown] at hstart hlt
    have hbelow := hstart.trans (entryOf_key (hrows.below other hother))
    obtain ⟨hfolds', heq⟩ := r.below_directory hfolds hbelow
    have hkey : (r.entryOf other).1 = directoryOf r.start other.1 := by
      simp [entryOf, hfolds']
    rw [hkey, heq] at hlt
    exact lt_irrefl _ hlt
  | false =>
    have hown : (r.entryOf row).1 = row.1 := by simp [entryOf, hfolds]
    rw [hown] at hvisible hstart hlt hne
    have hslash : row.1.getLast? = some '/' := by
      by_contra hnot
      exact hne (by simp [skipOf, hnot])
    have heq := (h row hrow hvisible hfolds).2 hslash other hother hvisible' hstart
    rw [heq] at hlt
    exact lt_irrefl _ hlt

theorem beyond_nil (hnonempty : ∀ row ∈ r.rows t volume, r.visible row.1 = true →
    r.folds row.1 = false → row.1 ≠ []) :
    beyond (r.listed t volume) [] = r.listed t volume := by
  unfold beyond
  rw [filter_eq_self]
  intro e he
  obtain ⟨row, hrow, hvisible, rfl⟩ := (mem_everything (rows_sorted t volume)).mp he
  have hne : (r.entryOf row).1 ≠ [] := by
    cases hfolds : r.folds row.1 with
    | true => simp [entryOf, hfolds, directoryOf]
    | false =>
      have hown : (r.entryOf row).1 = row.1 := by simp [entryOf, hfolds]
      rw [hown] at hvisible ⊢
      exact hnonempty row hrow hvisible hfolds
  obtain ⟨c, rest, hcons⟩ := exists_cons_of_ne_nil hne
  rw [hcons]
  simp

theorem entriesAfter_avoid (hfolds : r.folds row.1 = false) (hslash : row.1.getLast? = some '/')
    (hat : after = row.1 ∨ (row.1 < after ∧ ¬ row.1 <+: after))
    (he : e ∈ r.entriesAfter (r.rows t volume) after) : row.1 < e.1 ∧ ¬ row.1 <+: e.1 := by
  have hrows := rows_sorted (r := r) t volume
  obtain ⟨other, hother, hlt, hplain, -, rfl⟩ := (mem_later_entries hrows).mp he
  have hkey := entryOf_key (hrows.below other hother)
  have hpast : row.1 < other.1 := by
    rcases hat with rfl | ⟨hbefore, -⟩
    · exact hlt
    · exact hbefore.trans hlt
  have hnot : ¬ row.1 <+: other.1 := by
    intro hstart
    rcases hat with rfl | ⟨hbefore, hnot⟩
    · rw [Bool.eq_false_iff] at hplain
      apply hplain
      have hne : row.1 ≠ [] := by
        intro hnil
        rw [hnil] at hslash
        cases hslash
      rw [skips_iff, skipOf, if_pos hslash]
      exact ⟨hne, hstart⟩
    · exact hnot (start_between hbefore.le hlt.le hstart)
  refine ⟨?_, fun hstart => hnot (hstart.trans hkey)⟩
  by_contra hle
  have hstart := start_between (not_lt.mp hle) hpast.le hkey
  cases hfolds' : r.folds other.1 with
  | false =>
    have hown : (r.entryOf other).1 = other.1 := by simp [entryOf, hfolds']
    rw [hown] at hle
    exact hle hpast
  | true =>
    have hown : (r.entryOf other).1 = directoryOf r.start other.1 := by
      simp [entryOf, hfolds']
    rw [hown] at hstart
    rw [(r.below_directory hfolds' hstart).1] at hfolds
    cases hfolds

theorem next_mem (hlimit : 0 < limit) {next : Path}
    (h : (r.listEntries limit t volume after).next = some next) :
    ∃ e ∈ r.entriesAfter (r.rows t volume) after, e.1 = next := by
  rw [(listEntries_eq hlimit after).2.2] at h
  split at h
  · obtain ⟨e, he, rfl⟩ := Option.map_eq_some_iff.mp h
    exact ⟨e, mem_of_mem_take (mem_of_getLast? he), rfl⟩
  · cases h

theorem mem_keys_page (hlimit : 0 < limit)
    (h : key ∈ keysOf (r.listEntries limit t volume after).files
      (r.listEntries limit t volume after).directories) :
    ∃ e ∈ r.entriesAfter (r.rows t volume) after, e.1 = key := by
  obtain ⟨hfiles, hdirectories, -⟩ := @listEntries_eq r t volume limit hlimit after
  rw [hfiles, hdirectories] at h
  obtain ⟨e, he, hkey⟩ := mem_keysOf.mp h
  exact ⟨e, mem_of_mem_take he, hkey⟩

theorem follow_avoid (hlimit : 0 < limit) (hfolds : r.folds row.1 = false)
    (hslash : row.1.getLast? = some '/')
    (hat : after = row.1 ∨ (row.1 < after ∧ ¬ row.1 <+: after))
    (hps : r.follow limit t volume fuel after = some ps) :
    ∀ p ∈ ps, ∀ key ∈ keysOf p.files p.directories, ¬ row.1 <+: key := by
  induction fuel generalizing after ps with
  | zero => cases hps
  | succ fuel ih =>
    have hpage : ∀ key ∈ keysOf (r.listEntries limit t volume after).files
        (r.listEntries limit t volume after).directories, ¬ row.1 <+: key := by
      intro key hkey
      obtain ⟨e, he, rfl⟩ := mem_keys_page hlimit hkey
      exact (entriesAfter_avoid hfolds hslash hat he).2
    unfold follow at hps
    cases hnext : (r.listEntries limit t volume after).next with
    | none =>
      rw [hnext] at hps
      cases hps
      intro p hp
      rw [mem_singleton.mp hp]
      exact hpage
    | some next =>
      rw [hnext] at hps
      obtain ⟨rest, hrest, rfl⟩ := Option.map_eq_some_iff.mp hps
      obtain ⟨e, he, rfl⟩ := next_mem hlimit hnext
      have hlater := ih (.inr (entriesAfter_avoid hfolds hslash hat he)) hrest
      intro p hp
      rcases mem_cons.mp hp with rfl | hp
      · exact hpage
      · exact hlater p hp

theorem follow_pages (hps : r.follow limit t volume fuel after = some ps) :
    ∀ p ∈ ps, ∃ cursor, p = r.listEntries limit t volume cursor := by
  induction fuel generalizing after ps with
  | zero => cases hps
  | succ fuel ih =>
    unfold follow at hps
    cases hnext : (r.listEntries limit t volume after).next with
    | none =>
      rw [hnext] at hps
      cases hps
      intro p hp
      exact ⟨after, mem_singleton.mp hp⟩
    | some next =>
      rw [hnext] at hps
      obtain ⟨rest, hrest, rfl⟩ := Option.map_eq_some_iff.mp hps
      intro p hp
      rcases mem_cons.mp hp with rfl | hp
      · exact ⟨after, rfl⟩
      · exact ih hrest p hp

theorem Complete.mem_keys (h : r.Complete t volume ps) (he : e ∈ r.listed t volume) :
    ∃ p ∈ ps, e.1 ∈ keysOf p.files p.directories := by
  obtain ⟨key, row⟩ := e
  cases row with
  | some row =>
    have hfile : (key, row) ∈ ps.flatMap EntryPage.files := by
      rw [h.files, ← filesOf_listed]
      exact mem_filesOf.mpr he
    obtain ⟨p, hp, hin⟩ := mem_flatMap.mp hfile
    exact ⟨p, hp, mem_append_left _ (mem_map_of_mem hin)⟩
  | none =>
    have hdirectory : key ∈ ps.flatMap EntryPage.directories := by
      rw [h.directories]
      exact mem_directoriesOf_listed.mp (mem_directoriesOf.mpr he)
    obtain ⟨p, hp, hin⟩ := mem_flatMap.mp hdirectory
    exact ⟨p, hp, mem_append_right _ hin⟩

theorem Complete.ne_nil (hlimit : 0 < limit) (hps : r.follow limit t volume fuel [] = some ps)
    (h : r.Complete t volume ps) (hrow : row ∈ r.rows t volume)
    (hvisible : r.visible row.1 = true) (hfolds : r.folds row.1 = false) : row.1 ≠ [] := by
  intro hnil
  have hfile : row ∈ ps.flatMap EntryPage.files := by
    rw [h.files, mem_filter]
    simp [hrow, hvisible, hfolds]
  obtain ⟨p, hp, hin⟩ := mem_flatMap.mp hfile
  obtain ⟨cursor, rfl⟩ := follow_pages hps p hp
  rw [(listEntries_eq hlimit cursor).1] at hin
  have hentry := mem_of_mem_take (mem_filesOf.mp hin)
  obtain ⟨other, hother, hlt, -, -, heq⟩ := (mem_later_entries (rows_sorted t volume)).mp hentry
  obtain ⟨-, rfl⟩ := entryOf_file.mp heq
  rw [hnil] at hlt
  exact not_lt_nil _ hlt

theorem resumable_of_complete (h : ∀ limit, 0 < limit → ∃ fuel ps,
    r.follow limit t volume fuel [] = some ps ∧ r.Complete t volume ps) :
    r.Resumable t volume := by
  have hnonempty : ∀ row ∈ r.rows t volume, r.visible row.1 = true →
      r.folds row.1 = false → row.1 ≠ [] := by
    intro row hrow hvisible hfolds
    obtain ⟨fuel, ps, hps, hcomplete⟩ := h 1 Nat.one_pos
    exact hcomplete.ne_nil Nat.one_pos hps hrow hvisible hfolds
  intro row hrow hvisible hfolds
  refine ⟨hnonempty row hrow hvisible hfolds, ?_⟩
  intro hslash other hother hvisible' hstart
  by_contra hne
  have hrows := rows_sorted (r := r) t volume
  have hown : r.entryOf row = (row.1, some row.2) := by simp [entryOf, hfolds]
  have hmem : (row.1, some row.2) ∈ r.listed t volume := by
    rw [← hown]
    refine (mem_everything hrows).mpr ⟨row, hrow, ?_, rfl⟩
    rw [hown]
    exact hvisible
  have hmem' : r.entryOf other ∈ r.listed t volume :=
    (mem_everything hrows).mpr ⟨other, hother, hvisible', rfl⟩
  have hafter : row.1 < (r.entryOf other).1 := lt_of_le_of_ne (le_of_start hstart) (Ne.symm hne)
  have hfirst : r.entriesAfter (r.rows t volume) [] = r.listed t volume := by
    rw [entries_later hrows (.inl rfl) (by simp [skips, skipOf])]
    exact beyond_nil hnonempty
  -- the page size at which the first page ends with the file
  obtain ⟨front, back, hsplit⟩ := append_of_mem hmem
  have hsorted : (r.listed t volume).Pairwise fun a b => a.1 < b.1 := everything_sorted hrows
  have htake : (r.listed t volume).take (front.length + 1) = front ++ [(row.1, some row.2)] := by
    rw [hsplit]
    simp [take_append]
  have hbefore : ∀ e ∈ front ++ [(row.1, some row.2)], e.1 ≤ row.1 := by
    intro e he
    rw [hsplit] at hsorted
    rcases mem_append.mp he with he | he
    · exact ((pairwise_append.mp hsorted).2.2 e he _ mem_cons_self).le
    · rw [mem_singleton.mp he]
  have hback : back ≠ [] := by
    rintro rfl
    rw [hsplit] at hmem'
    exact absurd hafter (not_lt.mpr (hbefore _ hmem'))
  have hlonger : front.length + 1 < (r.listed t volume).length := by
    have hpos := length_pos_iff.mpr hback
    rw [hsplit, length_append, length_cons]
    omega
  obtain ⟨fuel, ps, hps, hcomplete⟩ := h (front.length + 1) (Nat.succ_pos _)
  have hnext : (r.listEntries (front.length + 1) t volume []).next = some row.1 := by
    rw [(listEntries_eq (Nat.succ_pos _) []).2.2, hfirst, if_pos hlonger, htake]
    simp
  obtain ⟨p, hp, hkey⟩ := hcomplete.mem_keys hmem'
  cases fuel with
  | zero => cases hps
  | succ fuel =>
    unfold follow at hps
    rw [hnext] at hps
    obtain ⟨rest, hrest, rfl⟩ := Option.map_eq_some_iff.mp hps
    rcases mem_cons.mp hp with rfl | hp
    · rw [(listEntries_eq (Nat.succ_pos _) []).1,
        (listEntries_eq (Nat.succ_pos _) []).2.1, hfirst, htake] at hkey
      obtain ⟨e, he, heq⟩ := mem_keysOf.mp hkey
      rw [← heq] at hafter
      exact absurd hafter (not_lt.mpr (hbefore e he))
    · exact follow_avoid (Nat.succ_pos _) hfolds hslash (.inl rfl) hrest p hp _ hkey hstart

/-- Whatever the page size, a listing ends and its pages hold what they are to, once and in
order, exactly when no listed file looks like a directory above another entry. -/
theorem pages_complete_iff (r : ListRequest) (t : Tables) (volume : String) :
    (∀ limit, 0 < limit → ∃ fuel ps, r.follow limit t volume fuel [] = some ps ∧
      r.Complete t volume ps) ↔ r.Resumable t volume := by
  constructor
  · exact resumable_of_complete
  · intro h limit hlimit
    have hall := beyond_nil fun row hrow hvisible hfolds => (h row hrow hvisible hfolds).1
    obtain ⟨ps, hps, hholds⟩ := follow_holds hlimit h.noneHidden (.inl rfl) (Nat.lt_succ_self _)
    rw [hall] at hholds
    exact ⟨_, ps, hps, hholds.complete⟩

end ListRequest

def plainRow (id : String) : FileRow := ⟨id, ⟨1, "", false, ""⟩, 1, "", 0, 0, none⟩

/-- The files `a/` and `a/b`, as a copy of the files `c` and `cb` to `a/` leaves them. -/
def slashed : Tables where
  files := ⟨[(("v", ['a', '/']), plainRow "1"), (("v", ['a', '/', 'b']), plainRow "2")],
    by decide⟩
  versions := .empty
  quotas := .empty
  uploads := .empty

def everyFile : ListRequest := ⟨[], none, fun _ => true⟩

/-- With one file on a page the second page is empty and the last, and `a/b` is on none. -/
theorem slashed_incomplete : ¬ ∃ fuel ps,
    everyFile.follow 1 slashed "v" fuel [] = some ps ∧ everyFile.Complete slashed "v" ps := by
  rintro ⟨fuel, ps, hps, hcomplete⟩
  have hfirst : everyFile.listEntries 1 slashed "v" [] =
      ⟨[(['a', '/'], plainRow "1")], [], some ['a', '/']⟩ := rfl
  have hsecond : everyFile.listEntries 1 slashed "v" ['a', '/'] = ⟨[], [], none⟩ := rfl
  have hrows : everyFile.rows slashed "v" =
      [(['a', '/'], plainRow "1"), (['a', '/', 'b'], plainRow "2")] := rfl
  have hfiles := hcomplete.files
  rw [hrows] at hfiles
  cases fuel with
  | zero => cases hps
  | succ fuel =>
    unfold ListRequest.follow at hps
    rw [hfirst] at hps
    cases fuel with
    | zero => cases hps
    | succ fuel =>
      unfold ListRequest.follow at hps
      dsimp only at hps
      rw [hsecond] at hps
      cases hps
      have hlength := congrArg List.length hfiles
      revert hlength
      decide

end Substrate.Files
