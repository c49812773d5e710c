import Mathlib.Data.Char
import Substrate.Files.State
import Substrate.Lib.Folders
import Substrate.Lib.Paging

/-!
Listing the files of a volume page by page (`FileCatalog.list_entries`). The rows are read
in batches in the order of their paths.
-/

namespace Substrate.Files

open Lib List

def batchSize : Nat := 500

structure ListRequest where
  start : Path
  delimiter : Option Path
  visible : Path → Bool

structure EntryPage where
  files : List (Path × FileRow)
  directories : List Path
  next : Option Path

structure Scan where
  files : List (Path × FileRow)
  directories : List Path
  skip : Path
  count : Nat
  last : Path
  more : Bool

def skips (skip path : Path) : Bool := skip ≠ [] && skip.isPrefixOf path

def skipOf (after : Path) : Path := if after.getLast? = some '/' then after else []

def directoryOf (start path : Path) : Path :=
  start ++ (path.drop start.length).takeWhile (· ≠ '/') ++ ['/']

namespace ListRequest

section Loop

variable (r : ListRequest)

def divides : Bool :=
  match r.delimiter with
  | some text => text ≠ []
  | none => false

def folds (path : Path) : Bool := r.divides && (path.drop r.start.length).contains '/'

variable (limit : Nat)

/-- One batch, up to where the page is full. -/
def scan : List (Path × FileRow) → Scan → Scan
  | [], s => s
  | row :: rest, s =>
    if skips s.skip row.1 then scan rest s
    else if r.folds row.1 then
      let directory := directoryOf r.start row.1
      if r.visible directory = false then scan rest { s with skip := directory }
      else if s.count = limit then { s with skip := directory, more := true }
      else
        scan rest { s with
          skip := directory, directories := s.directories ++ [directory],
          count := s.count + 1, last := directory }
    else if r.visible row.1 = false then scan rest s
    else if s.count = limit then { s with more := true }
    else scan rest { s with files := s.files ++ [row], count := s.count + 1, last := row.1 }

def batch (rows : List (Path × FileRow)) (cursor skip : Path) : List (Path × FileRow) :=
  (rows.filter fun row => decide (cursor < row.1) && !skips skip row.1).take batchSize

/-- The loop, for so many batches at most. -/
def batches (rows : List (Path × FileRow)) : Nat → Path → Scan → Scan
  | 0, _, s => s
  | fuel + 1, cursor, s =>
    if s.more then s
    else
      match (batch rows cursor s.skip).getLast? with
      | none => s
      | some final =>
        let s' := r.scan limit (batch rows cursor s.skip) s
        if (batch rows cursor s.skip).length < batchSize ∧ s'.more = false then s'
        else batches rows fuel final.1 s'

def rows (t : Tables) (volume : String) : List (Path × FileRow) :=
  inOrder (t.liveUnder volume r.start)

def listEntries (t : Tables) (volume : String) (after : Path) : EntryPage :=
  let found := r.rows t volume
  let s := r.batches limit found (found.length + 1) after ⟨[], [], skipOf after, 0, [], false⟩
  ⟨s.files, s.directories, if s.more then some s.last else none⟩

/-- Page after page, until there is no cursor. -/
def follow (t : Tables) (volume : String) : Nat → Path → Option (List EntryPage)
  | 0, _ => none
  | fuel + 1, after =>
    match (r.listEntries limit t volume after).next with
    | none => some [r.listEntries limit t volume after]
    | some next =>
      (follow t volume fuel next).map (r.listEntries limit t volume after :: ·)

end Loop

variable (r : ListRequest)

abbrev Entry := Path × Option FileRow

/-- The entries of rows, of which the first are passed over. -/
def entries : Path → List (Path × FileRow) → List Entry
  | _, [] => []
  | skip, row :: rest =>
    if skips skip row.1 then entries skip rest
    else if r.folds row.1 then
      let directory := directoryOf r.start row.1
      if r.visible directory then (directory, none) :: entries directory rest
      else entries directory rest
    else if r.visible row.1 then (row.1, some row.2) :: entries skip rest
    else entries skip rest

end ListRequest

def filesOf (es : List ListRequest.Entry) : List (Path × FileRow) :=
  es.filterMap fun e => e.2.map fun row => (e.1, row)

def directoriesOf (es : List ListRequest.Entry) : List Path :=
  es.filterMap fun e => if e.2.isNone then some e.1 else none

theorem filesOf_append (es es' : List ListRequest.Entry) :
    filesOf (es ++ es') = filesOf es ++ filesOf es' := filterMap_append

theorem directoriesOf_append (es es' : List ListRequest.Entry) :
    directoriesOf (es ++ es') = directoriesOf es ++ directoriesOf es' := filterMap_append

/-- A pass over rows with these entries has added those that there was room for. -/
structure Scan.Added (limit : Nat) (s s' : Scan) (es : List ListRequest.Entry) : Prop where
  files : s'.files = s.files ++ filesOf (es.take (limit - s.count))
  directories : s'.directories = s.directories ++ directoriesOf (es.take (limit - s.count))
  more : s'.more = decide (limit - s.count < es.length)
  last : s'.last = ((es.take (limit - s.count)).getLast?.map Prod.fst).getD s.last

namespace Scan.Added

variable {limit : Nat} {s s₁ s' : Scan} {es : List ListRequest.Entry}

theorem none (hmore : s.more = false) : Scan.Added limit s s [] := by
  constructor
  · simp [filesOf]
  · simp [directoriesOf]
  · simp [hmore]
  · simp

theorem full (e : ListRequest.Entry) (hcount : s.count = limit) (hfiles : s'.files = s.files)
    (hdirectories : s'.directories = s.directories) (hmore : s'.more = true)
    (hlast : s'.last = s.last) : Scan.Added limit s s' (e :: es) := by
  have hroom : limit - s.count = 0 := by omega
  constructor
  · simp [hroom, hfiles, filesOf]
  · simp [hroom, hdirectories, directoriesOf]
  · simp [hroom, hmore]
  · simp [hroom, hlast]

theorem cons (e : ListRequest.Entry) (hroom : s.count < limit) (h : Scan.Added limit s₁ s' es)
    (hfiles : s₁.files = s.files ++ filesOf [e])
    (hdirectories : s₁.directories = s.directories ++ directoriesOf [e])
    (hcount : s₁.count = s.count + 1) (hlast : s₁.last = e.1) :
    Scan.Added limit s s' (e :: es) := by
  obtain ⟨n, hn⟩ : ∃ n, limit - s.count = n + 1 := ⟨limit - s.count - 1, by omega⟩
  have hrest : limit - s₁.count = n := by omega
  have htake : (e :: es).take (limit - s.count) = [e] ++ es.take (limit - s₁.count) := by
    rw [hn, hrest, take_succ_cons, singleton_append]
  constructor
  · rw [h.files, hfiles, htake, filesOf_append, append_assoc]
  · rw [h.directories, hdirectories, htake, directoriesOf_append, append_assoc]
  · rw [h.more, hn, hrest, length_cons]
    simp
  · rw [h.last, htake, hlast]
    cases hlast : es.take (limit - s₁.count) with
    | nil => simp
    | cons e' more =>
      rw [singleton_append, List.getLast?_cons_cons]
      cases hfinal : (e' :: more).getLast? with
      | none => simp at hfinal
      | some final => simp

theorem of_skip {skip : Path} (h : Scan.Added limit { s with skip := skip } s' es) :
    Scan.Added limit s s' es := ⟨h.files, h.directories, h.more, h.last⟩

end Scan.Added

namespace ListRequest

variable (r : ListRequest) (limit : Nat)

theorem scan_added (rows : List (Path × FileRow)) (s : Scan) (hmore : s.more = false)
    (hcount : s.count ≤ limit) :
    Scan.Added limit s (r.scan limit rows s) (r.entries s.skip rows) := by
  induction rows generalizing s with
  | nil => exact .none hmore
  | cons row rest ih =>
    unfold scan entries
    by_cases hskip : skips s.skip row.1 = true
    · simp only [hskip, if_true]
      exact ih s hmore hcount
    · simp only [hskip, if_false, Bool.false_eq_true]
      by_cases hfolds : r.folds row.1 = true
      · simp only [hfolds, if_true]
        by_cases hvisible : r.visible (directoryOf r.start row.1) = true
        · simp only [hvisible, Bool.true_eq_false, if_false, if_true]
          by_cases hfull : s.count = limit
          · simp only [hfull, if_true]
            exact .full _ hfull rfl rfl rfl rfl
          · simp only [hfull, if_false]
            have hroom : s.count < limit := lt_of_le_of_ne hcount hfull
            have hrest := ih { s with
              skip := directoryOf r.start row.1,
              directories := s.directories ++ [directoryOf r.start row.1],
              count := s.count + 1, last := directoryOf r.start row.1 } hmore hroom
            exact .cons _ hroom hrest (by simp [filesOf]) rfl rfl rfl
        · have hhidden := Bool.eq_false_of_not_eq_true hvisible
          simp only [hhidden, if_true, Bool.false_eq_true, if_false]
          exact .of_skip (ih { s with skip := directoryOf r.start row.1 } hmore hcount)
      · simp only [hfolds, if_false, Bool.false_eq_true]
        by_cases hvisible : r.visible row.1 = true
        · simp only [hvisible, Bool.true_eq_false, if_false, if_true]
          by_cases hfull : s.count = limit
          · simp only [hfull, if_true]
            exact .full _ hfull rfl rfl rfl rfl
          · simp only [hfull, if_false]
            have hroom : s.count < limit := lt_of_le_of_ne hcount hfull
            have hrest := ih { s with
              files := s.files ++ [row], count := s.count + 1, last := row.1 } hmore hroom
            exact .cons _ hroom hrest rfl (by simp [directoriesOf]) rfl rfl
        · have hhidden := Bool.eq_false_of_not_eq_true hvisible
          simp only [hhidden, if_true, Bool.false_eq_true, if_false]
          exact ih s hmore hcount

variable {skip path cursor : Path} {rows : List (Path × FileRow)} {s : Scan}

theorem skips_iff : skips skip path = true ↔ skip ≠ [] ∧ skip <+: path := by
  simp [skips, isPrefixOf_iff_prefix]

theorem skips_later {later : Path} (hskip : skip ≤ path) (hlater : path ≤ later)
    (h : skips skip path = false) : skips skip later = false := by
  rw [Bool.eq_false_iff] at h ⊢
  intro hlaterSkips
  obtain ⟨hne, hstart⟩ := skips_iff.mp hlaterSkips
  exact h (skips_iff.mpr ⟨hne, start_between hskip hlater hstart⟩)

theorem scan_filter (hsorted : rows.Pairwise fun a b => a.1 < b.1)
    (hskip : ∀ row ∈ rows, s.skip ≤ row.1) :
    r.scan limit (rows.filter fun row => !skips s.skip row.1) s = r.scan limit rows s := by
  induction rows with
  | nil => rfl
  | cons row rest ih =>
    obtain ⟨hfirst, hrest⟩ := pairwise_cons.mp hsorted
    cases hrow : skips s.skip row.1 with
    | true =>
      rw [filter_cons_of_neg (by simp [hrow])]
      rw [ih hrest fun row' h => hskip row' (mem_cons_of_mem row h)]
      simp [scan, hrow]
    | false =>
      have hall : ∀ row' ∈ row :: rest, (!skips s.skip row'.1) = true := by
        intro row' hrow'
        rcases mem_cons.mp hrow' with rfl | hrow'
        · simp [hrow]
        · have hlater := skips_later (hskip row mem_cons_self) (hfirst row' hrow').le hrow
          simp [hlater]
      rw [filter_eq_self.mpr hall]

theorem scan_append (rows more : List (Path × FileRow)) (s : Scan) (hmore : s.more = false) :
    r.scan limit (rows ++ more) s =
      if (r.scan limit rows s).more then r.scan limit rows s else r.scan limit more (r.scan limit rows s) := by
  induction rows generalizing s with
  | nil => simp [scan, hmore]
  | cons row rest ih =>
    simp only [cons_append, scan]
    split
    · exact ih s hmore
    · split
      · split
        · exact ih _ hmore
        · split
          · rfl
          · exact ih _ hmore
      · split
        · exact ih s hmore
        · split
          · rfl
          · exact ih _ hmore

theorem directoryOf_start (hunder : r.start <+: path) (hfolds : r.folds path = true) :
    directoryOf r.start path <+: path := by
  obtain ⟨rest, rfl⟩ := hunder
  simp only [folds, Bool.and_eq_true, drop_left, contains_iff_mem] at hfolds
  unfold directoryOf
  rw [drop_left, append_assoc, prefix_append_right_inj]
  have hsplit := takeWhile_append_dropWhile (p := fun c => decide (c ≠ '/')) (l := rest)
  cases hdrop : rest.dropWhile (fun c => decide (c ≠ '/')) with
  | nil =>
    have hall := dropWhile_eq_nil_iff.mp hdrop '/' hfolds.2
    simp at hall
  | cons c tail =>
    have hc : c = '/' := by
      have hhead := List.head?_dropWhile_not (fun c => decide (c ≠ '/')) rest
      rw [hdrop] at hhead
      simpa using hhead
    subst hc
    refine ⟨tail, ?_⟩
    rw [append_assoc, singleton_append, ← hdrop]
    exact hsplit

theorem scan_skip_le {bound : Path} (hunder : ∀ row ∈ rows, r.start <+: row.1)
    (hbound : ∀ row ∈ rows, row.1 ≤ bound) (hskip : s.skip ≤ bound) :
    (r.scan limit rows s).skip ≤ bound := by
  induction rows generalizing s with
  | nil => exact hskip
  | cons row rest ih =>
    have hrest := fun row' h => hunder row' (mem_cons_of_mem row h)
    have hbelow := fun row' h => hbound row' (mem_cons_of_mem row h)
    have hdirectory : r.folds row.1 = true → directoryOf r.start row.1 ≤ bound := by
      intro hfolds
      have hstart := r.directoryOf_start (hunder row mem_cons_self) hfolds
      exact (le_of_start hstart).trans (hbound row mem_cons_self)
    unfold scan
    dsimp only
    split
    · exact ih hrest hbelow hskip
    · split
      · next hfolds =>
          split
          · exact ih hrest hbelow (hdirectory hfolds)
          · split
            · exact hdirectory hfolds
            · exact ih hrest hbelow (hdirectory hfolds)
      · split
        · exact ih hrest hbelow hskip
        · split
          · exact hskip
          · exact ih hrest hbelow hskip

theorem batch_eq (rows : List (Path × FileRow)) (cursor skip : Path) : batch rows cursor skip =
      ((beyond rows cursor).filter fun row => !skips skip row.1).take batchSize := by
  unfold batch beyond
  rw [List.filter_filter]
  congr 1
  apply List.filter_congr
  intro row _
  by_cases hrow : cursor < row.1
  · simp [hrow]
  · simp [hrow]

theorem batch_split (hsorted : rows.Pairwise fun a b => a.1 < b.1) (hskip : skip ≤ cursor)
    {final : Path × FileRow} (hfinal : (batch rows cursor skip).getLast? = some final) :
    final ∈ beyond rows cursor ∧
      (∀ row ∈ batch rows cursor skip, row ∈ beyond rows cursor ∧ row.1 ≤ final.1) ∧
      ((beyond rows cursor).filter fun row => !skips skip row.1).drop batchSize =
        beyond rows final.1 := by
  rw [batch_eq] at hfinal ⊢
  have hordered := (pairwise_beyond cursor hsorted).filter fun row => !skips skip row.1
  have hmem : ∀ row ∈ (beyond rows cursor).filter (fun row => !skips skip row.1),
      row ∈ beyond rows cursor ∧ skips skip row.1 = false := by
    intro row hrow
    simpa using mem_filter.mp hrow
  have hback : beyond ((beyond rows cursor).filter fun row => !skips skip row.1) final.1 =
      beyond rows final.1 ∨ final ∉ (beyond rows cursor).filter fun row => !skips skip row.1 := by
    by_cases hin : final ∈ (beyond rows cursor).filter fun row => !skips skip row.1
    · obtain ⟨hlater, hplain⟩ := hmem final hin
      have hafter := (mem_beyond.mp hlater).2
      left
      rw [← beyond_beyond rows hafter.le]
      unfold beyond
      rw [List.filter_filter, List.filter_filter, List.filter_filter]
      apply List.filter_congr
      intro row _
      by_cases hrow : final.1 < row.1
      · have hnot := skips_later (hskip.trans hafter.le) hrow.le hplain
        simp [hrow, hafter.trans hrow, hnot]
      · simp [hrow]
    · exact .inr hin
  generalize (beyond rows cursor).filter (fun row => !skips skip row.1) = query at *
  obtain ⟨front, hfront⟩ := List.getLast?_eq_some_iff.mp hfinal
  have hwhole : query = front ++ final :: query.drop batchSize := by
    have hsplit := take_append_drop batchSize query
    rw [hfront, append_assoc, singleton_append] at hsplit
    exact hsplit.symm
  have hin : final ∈ query := by
    rw [hwhole]
    simp
  refine ⟨(hmem final hin).1, ?_, ?_⟩
  · intro row hrow
    refine ⟨(hmem row (mem_of_mem_take hrow)).1, ?_⟩
    rw [hfront] at hrow
    rcases mem_append.mp hrow with hrow | hrow
    · rw [hwhole] at hordered
      exact ((pairwise_append.mp hordered).2.2 row hrow final mem_cons_self).le
    · rw [mem_singleton.mp hrow]
  · rw [← hback.resolve_right (not_not.mpr hin)]
    generalize query.drop batchSize = back at hwhole ⊢
    subst hwhole
    exact (beyond_row hordered).symm

theorem batches_eq (hsorted : rows.Pairwise fun a b => a.1 < b.1)
    (hunder : ∀ row ∈ rows, r.start <+: row.1) {fuel : Nat}
    (hfuel : (beyond rows cursor).length < fuel) (hmore : s.more = false)
    (hskip : s.skip ≤ cursor) :
    r.batches limit rows fuel cursor s = r.scan limit (beyond rows cursor) s := by
  induction fuel generalizing cursor s with
  | zero => omega
  | succ fuel ih =>
    have hfilter : r.scan limit ((beyond rows cursor).filter fun row => !skips s.skip row.1) s =
        r.scan limit (beyond rows cursor) s := by
      apply r.scan_filter limit (pairwise_beyond cursor hsorted)
      intro row hrow
      exact hskip.trans ((mem_beyond.mp hrow).2).le
    rw [← hfilter]
    unfold batches
    rw [hmore]
    simp only [Bool.false_eq_true, if_false]
    cases hfinal : (batch rows cursor s.skip).getLast? with
    | none =>
      have hnil := List.getLast?_eq_none_iff.mp hfinal
      have hempty : (beyond rows cursor).filter (fun row => !skips s.skip row.1) = [] := by
        rw [batch_eq] at hnil
        rcases take_eq_nil_iff.mp hnil with hzero | hnone
        · cases hzero
        · exact hnone
      rw [hempty]
      rfl
    | some final =>
      obtain ⟨hin, hbatch, hdrop⟩ := batch_split hsorted hskip hfinal
      have hafter := (mem_beyond.mp hin).2
      have hsplit := take_append_drop batchSize
        ((beyond rows cursor).filter fun row => !skips s.skip row.1)
      rw [hdrop, ← batch_eq] at hsplit
      dsimp only
      rw [← hsplit, r.scan_append limit _ _ s hmore]
      have hfewer : (beyond rows final.1).length < fuel := by
        have hshorter := beyond_shorter hin
        omega
      cases hmore' : (r.scan limit (batch rows cursor s.skip) s).more with
      | true =>
        simp only [Bool.true_eq_false, and_false, if_false, if_true]
        cases fuel with
        | zero => rfl
        | succ fuel => simp [batches, hmore']
      | false =>
        simp only [and_true, Bool.false_eq_true, if_false]
        have hnext : (r.scan limit (batch rows cursor s.skip) s).skip ≤ final.1 := by
          apply r.scan_skip_le limit _ (fun row hrow => (hbatch row hrow).2)
          · exact hskip.trans hafter.le
          · intro row hrow
            exact hunder row (mem_filter.mp (hbatch row hrow).1).1
        split
        · next hlength =>
            have hnone : beyond rows final.1 = [] := by
              rw [← hdrop]
              rw [batch_eq, length_take] at hlength
              apply drop_eq_nil_of_le
              omega
            rw [hnone]
            rfl
        · exact ih hfewer hmore' hnext

end ListRequest

end Substrate.Files
