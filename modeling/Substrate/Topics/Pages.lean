import Substrate.Topics.Tree

/-!
The topic pages agree with the table. A page depends only on the rows at its topic and
below, so a call that rewrites the pages of the topics it touched and their parents leaves
every other page right, as long as no two topics have one page.
-/

namespace Substrate.Topics

open Lib List

variable {shorten : Text → Text} {lib lib' : Library} {path : Topic} {document : Text}
  {topics : List Topic}

def Library.under (lib : Library) (path : Topic) : List (Text × Topic) :=
  lib.rows.filter fun row => path.isPrefixOf row.2

variable {row : Text × Topic} {child : Topic} {changed : List Topic} {T : Set Topic}

theorem mem_under : row ∈ lib.under path ↔ row ∈ lib.rows ∧ path <+: row.2 := by
  simp [Library.under, isPrefixOf_iff_prefix]

theorem mem_rows : row ∈ lib.rows ↔ lib.topics.get? row ≠ none := by
  rw [Ne, Table.get?_eq_none_iff, not_not]
  rfl

theorem mem_topicsOf {topic : Topic} :
    topic ∈ lib.topicsOf document ↔ (document, topic) ∈ lib.rows := by
  simp [Library.topicsOf]

theorem under_of_start (h : path <+: child) :
    lib.under child = (lib.under path).filter fun row => child.isPrefixOf row.2 := by
  rw [Library.under, Library.under, List.filter_filter]
  apply List.filter_congr
  intro row _
  rw [Bool.eq_iff_iff]
  simp only [Bool.and_eq_true, isPrefixOf_iff_prefix]
  exact ⟨fun hchild => ⟨hchild, h.trans hchild⟩, And.left⟩

theorem here_eq : lib.here path =
    ((lib.under path).filter fun row => row.2 = path).map Prod.fst := by
  rw [Library.here, Library.under, List.filter_filter]
  congr 1
  apply List.filter_congr
  intro row _
  rw [Bool.eq_iff_iff]
  simp only [Bool.and_eq_true, decide_eq_true_eq, isPrefixOf_iff_prefix]
  constructor
  · intro heq
    exact ⟨heq, heq ▸ prefix_refl path⟩
  · exact And.left

theorem mem_here : document ∈ lib.here path ↔ (document, path) ∈ lib.rows := by
  simp [Library.here]

theorem below_eq : lib.below path = (lib.under path).filter fun row => row.2 ≠ path := by
  rw [Library.below, Library.under, List.filter_filter]
  apply List.filter_congr
  intro row _
  rw [Bool.eq_iff_iff]
  simp [and_comm]

theorem documentsUnder_eq : lib.documentsUnder path = ((lib.under path).map Prod.fst).dedup := rfl

theorem mem_children :
    child ∈ lib.children path ↔ ∃ name, child = path ++ [name] ∧ lib.under child ≠ [] := by
  unfold Library.children
  rw [mem_insertionSort, mem_dedup, mem_map]
  constructor
  · rintro ⟨row, hrow, rfl⟩
    rw [below_eq, mem_filter, mem_under, decide_eq_true_eq] at hrow
    obtain ⟨⟨hrow, more, hmore⟩, hne⟩ := hrow
    cases more with
    | nil => exact absurd (by simpa using hmore.symm) hne
    | cons name more =>
      have htake : row.2.take (path.length + 1) = path ++ [name] := by
        rw [← hmore, take_append]
        simp
      refine ⟨name, htake, ?_⟩
      rw [htake]
      apply ne_nil_of_mem (mem_under.mpr ⟨hrow, more, _⟩)
      rw [← hmore]
      simp
  · rintro ⟨name, rfl, hunder⟩
    obtain ⟨row, hrow⟩ := exists_mem_of_ne_nil _ hunder
    obtain ⟨hrow, more, hmore⟩ := mem_under.mp hrow
    refine ⟨row, ?_, ?_⟩
    · rw [below_eq, mem_filter, mem_under, decide_eq_true_eq]
      refine ⟨⟨hrow, name :: more, by rw [← hmore]; simp⟩, ?_⟩
      intro heq
      have hlength := congrArg List.length hmore
      rw [heq] at hlength
      simp at hlength
    · rw [← hmore, take_append]
      simp

theorem pageOf_congr (hunder : lib'.under path = lib.under path)
    (hdocuments : ∀ document ∈ lib.here path,
      lib'.documents.get? document = lib.documents.get? document) :
    pageOf shorten lib' path = pageOf shorten lib path := by
  have hhere : lib'.here path = lib.here path := by rw [here_eq, here_eq, hunder]
  have hbelow : lib'.below path = lib.below path := by rw [below_eq, below_eq, hunder]
  have hchildren : lib'.children path = lib.children path := by
    rw [Library.children, Library.children, hbelow]
  have hentries : (lib'.children path).map (entryOf lib') =
      (lib.children path).map (entryOf lib) := by
    rw [hchildren]
    apply map_congr_left
    intro child hchild
    obtain ⟨name, rfl, _⟩ := mem_children.mp hchild
    have hbelow : path <+: path ++ [name] := prefix_append _ _
    rw [entryOf, entryOf, documentsUnder_eq, documentsUnder_eq, under_of_start hbelow,
      under_of_start hbelow, hunder]
  have hlines : ((lib.here path).filterMap fun document =>
        (lib'.documents.get? document).map (lineOf shorten path document)) =
      (lib.here path).filterMap fun document =>
        (lib.documents.get? document).map (lineOf shorten path document) := by
    apply filterMap_congr
    intro document hdocument
    rw [hdocuments document hdocument]
  unfold pageOf
  rw [hhere, hbelow, hentries, hlines, documentsUnder_eq, documentsUnder_eq, hunder]

def Touched (changed : List Topic) (path : Topic) : Prop := ∃ topic ∈ changed, path <+: topic

/-- The topics and all their parents, up to the top. -/
def Within (T : Set Topic) (path : Topic) : Prop := path = [] ∨ ∃ topic ∈ T, path <+: topic

/-- No two of the topics and their parents have one page. -/
def Apart (T : Set Topic) : Prop := ∀ p q, Within T p → Within T q → pageKey p = pageKey q → p = q

theorem mem_affected (hchanged : changed ≠ []) :
    path ∈ affected changed ↔ Touched changed path := by
  unfold affected Touched
  rw [mem_insertionSort, mem_dedup, mem_cons, mem_flatMap]
  simp only [mem_inits]
  constructor
  · rintro (rfl | htouched)
    · obtain ⟨topic, htopic⟩ := exists_mem_of_ne_nil _ hchanged
      exact ⟨topic, htopic, nil_prefix⟩
    · exact htouched
  · exact .inr

theorem foldl_set (hapart : Apart T) {paths : List Topic} (hpaths : ∀ p ∈ paths, Within T p)
    (write : Topic → Option File) (files : Table Text File) :
    (∀ q, Within T q → (paths.foldl (fun files p => files.set (pageKey p) (write p))
        files).get? (pageKey q) = if q ∈ paths then write q else files.get? (pageKey q)) ∧
      ∀ key, (∀ q, Within T q → key ≠ pageKey q) →
        (paths.foldl (fun files p => files.set (pageKey p) (write p)) files).get? key =
          files.get? key := by
  induction paths generalizing files with
  | nil => simp
  | cons p paths ih =>
    have hp := hpaths p mem_cons_self
    obtain ⟨hpages, hothers⟩ := ih (fun q hq => hpaths q (mem_cons_of_mem _ hq))
      (files.set (pageKey p) (write p))
    constructor
    · intro q hq
      rw [foldl_cons, hpages q hq, Table.get?_set]
      by_cases heq : q = p
      · subst heq
        simp
      · have hkey : pageKey q ≠ pageKey p := fun h => heq (hapart q p hq hp h)
        simp [heq, hkey]
    · intro key hkey
      rw [foldl_cons, hothers key hkey, Table.get?_set, if_neg (hkey p hp)]

theorem writeTopicPages_files {T : Set Topic} (hapart : Apart T) {changed : List Topic}
    (hchanged : ∀ topic ∈ changed, topic ∈ T) :
    (∀ q, Within T q →
      (Touched changed q → (writeTopicPages shorten lib changed).files.get? (pageKey q) =
        (pageOf shorten lib q).map .page) ∧
      (¬ Touched changed q → (writeTopicPages shorten lib changed).files.get? (pageKey q) =
        lib.files.get? (pageKey q))) ∧
      ∀ key, (∀ q, Within T q → key ≠ pageKey q) →
        (writeTopicPages shorten lib changed).files.get? key = lib.files.get? key := by
  unfold writeTopicPages
  split
  · next hnil => simp [hnil, Touched]
  · next hne =>
    have hpaths : ∀ p ∈ affected changed, Within T p := by
      intro p hp
      obtain ⟨topic, htopic, hbelow⟩ := (mem_affected hne).mp hp
      exact .inr ⟨topic, hchanged topic htopic, hbelow⟩
    obtain ⟨hpages, hothers⟩ := foldl_set hapart hpaths
      (fun p => (pageOf shorten lib p).map .page) lib.files
    refine ⟨?_, hothers⟩
    intro q hq
    have hwritten := hpages q hq
    constructor
    · intro htouched
      exact hwritten.trans (if_pos ((mem_affected hne).mpr htouched))
    · intro huntouched
      exact hwritten.trans (if_neg fun hmem => huntouched ((mem_affected hne).mp hmem))

@[simp] theorem writeTopicPages_topics (changed : List Topic) :
    (writeTopicPages shorten lib changed).topics = lib.topics := by
  unfold writeTopicPages
  split <;> rfl

@[simp] theorem writeTopicPages_documents (changed : List Topic) :
    (writeTopicPages shorten lib changed).documents = lib.documents := by
  unfold writeTopicPages
  split <;> rfl

theorem get?_inserted (table : Table (Text × Topic) Unit) (row : Text × Topic) :
    (topics.foldl (fun table topic => table.insert (document, topic) ()) table).get? row ≠ none ↔
      table.get? row ≠ none ∨ row.1 = document ∧ row.2 ∈ topics := by
  induction topics generalizing table with
  | nil => simp
  | cons topic topics ih =>
    rw [foldl_cons, ih, Table.get?_insert]
    obtain ⟨d, t⟩ := row
    by_cases heq : (d, t) = (document, topic)
    · cases heq
      simp
    · rw [if_neg heq]
      rw [Prod.mk.injEq] at heq
      simp only [mem_cons]
      tauto

theorem mem_refile : row ∈ (lib.refile document topics).rows ↔
      (row ∈ lib.rows ∧ row.1 ≠ document) ∨ (row.1 = document ∧ row.2 ∈ topics) := by
  rw [mem_rows, mem_rows, Library.refile, get?_inserted, Table.get?_filter]
  cases h : lib.topics.get? row <;> simp [Option.filter]

theorem rows_insert (table : Table (Text × Topic) Unit) (row : Text × Topic) :
    (table.insert row ()).rows.map Prod.fst =
      if row ∈ table.rows.map Prod.fst then table.rows.map Prod.fst
      else table.rows.map Prod.fst ++ [row] := by
  unfold Table.insert
  split <;> simp_all

theorem under_refile (hbefore : ∀ row ∈ lib.under path, row.1 ≠ document)
    (hafter : ∀ topic ∈ topics, ¬ path <+: topic) :
    (lib.refile document topics).under path = lib.under path := by
  have hinserted : ∀ table : Table (Text × Topic) Unit,
      (((topics.foldl (fun table topic => table.insert (document, topic) ()) table).rows.map
        Prod.fst).filter fun row => path.isPrefixOf row.2) =
      (table.rows.map Prod.fst).filter fun row => path.isPrefixOf row.2 := by
    intro table
    induction topics generalizing table with
    | nil => rfl
    | cons topic topics ih =>
      rw [foldl_cons, ih fun t ht => hafter t (mem_cons_of_mem _ ht), rows_insert]
      have hnot : path.isPrefixOf topic = false := by
        rw [Bool.eq_false_iff, Ne, isPrefixOf_iff_prefix]
        exact hafter topic mem_cons_self
      split
      · rfl
      · simp [filter_append, hnot]
  have hfiltered : (lib.topics.filter fun key _ => key.1 ≠ document).rows.map Prod.fst =
      lib.rows.filter fun row => row.1 ≠ document := by
    simp only [Table.filter, Library.rows, filter_map]
    rfl
  rw [Library.under, Library.rows, Library.refile, hinserted, hfiltered, List.filter_filter,
    Library.under]
  apply List.filter_congr
  intro row hrow
  rw [Bool.eq_iff_iff]
  simp only [Bool.and_eq_true, decide_eq_true_eq, isPrefixOf_iff_prefix]
  constructor
  · exact And.left
  · intro hbelow
    exact ⟨hbelow, hbefore row (mem_under.mpr ⟨hrow, hbelow⟩)⟩

theorem refileAll_ok {plan : List (Text × List Topic)}
    (hthere : ∀ row ∈ plan, lib.documents.get? row.1 ≠ none) :
    ∃ lib', refileAll plan lib = (lib', true) ∧ lib'.documents = lib.documents ∧
      lib'.files = lib.files ∧
      (∀ row ∈ lib'.rows, row ∈ lib.rows ∨ ∃ entry ∈ plan, row.1 = entry.1 ∧ row.2 ∈ entry.2) ∧
      ∀ path, (∀ entry ∈ plan, (∀ row ∈ lib.under path, row.1 ≠ entry.1) ∧
        ∀ topic ∈ entry.2, ¬ path <+: topic) → lib'.under path = lib.under path := by
  induction plan generalizing lib with
  | nil => exact ⟨lib, rfl, rfl, rfl, fun _ hrow => .inl hrow, fun _ _ => rfl⟩
  | cons entry plan ih =>
    obtain ⟨document, topics⟩ := entry
    have hdocument : (lib.refile document topics).documents.get? document ≠ none :=
      hthere (document, topics) mem_cons_self
    obtain ⟨lib', hloop, hdocuments, hfiles, hrows, hunder⟩ :=
      @ih (lib.refile document topics) fun row hrow => hthere row (mem_cons_of_mem _ hrow)
    refine ⟨lib', ?_, hdocuments, hfiles, ?_, ?_⟩
    · simp only [refileAll, if_neg hdocument]
      exact hloop
    · intro row hrow
      rcases hrows row hrow with hrow | ⟨entry, hentry, hmem⟩
      · rcases mem_refile.mp hrow with ⟨hrow, _⟩ | hmem
        · exact .inl hrow
        · exact .inr ⟨(document, topics), mem_cons_self, hmem⟩
      · exact .inr ⟨entry, mem_cons_of_mem _ hentry, hmem⟩
    · intro path huntouched
      obtain ⟨hbefore, hafter⟩ := huntouched (document, topics) mem_cons_self
      have hfirst := under_refile hbefore hafter
      rw [← hfirst]
      apply hunder
      intro entry hentry
      rw [hfirst]
      exact huntouched entry (mem_cons_of_mem _ hentry)

/-- A call over these topics. `set_topics` is given documents that are there. -/
def Meets (T : Set Topic) (lib : Library) : Call → Prop
  | .annotate _ _ topics => ∀ topic ∈ topics, topic ∈ T
  | .setTopics plan =>
    ∀ row ∈ plan.rows, lib.documents.get? row.1 ≠ none ∧ ∀ topic ∈ row.2, topic ∈ T
  | .delete _ => True

/-- After any number of such calls on a library with nothing filed. -/
inductive Reached (shorten : Text → Text) (T : Set Topic) : Library → Prop
  | start (documents : Table Text DocumentInfo) : Reached shorten T ⟨documents, .empty, .empty⟩
  | call {lib : Library} {call : Call} (h : Reached shorten T lib) (hmeets : Meets T lib call) :
      Reached shorten T (lib.perform shorten call)

/-- Every page is as its topic has it now, and no other page is there. -/
structure Current (shorten : Text → Text) (T : Set Topic) (lib : Library) : Prop where
  within : ∀ row ∈ lib.rows, row.2 ∈ T
  known : ∀ row ∈ lib.rows, lib.documents.get? row.1 ≠ none
  pages : ∀ path, Within T path →
    lib.files.get? (pageKey path) = (pageOf shorten lib path).map .page
  others : ∀ key, lib.files.get? key ≠ none →
    key = logKey ∨ ∃ path, Within T path ∧ key = pageKey path

theorem logKey_ne (path : Topic) : logKey ≠ pageKey path := by
  intro h
  have hlength := congrArg List.length h
  simp only [logKey, pageKey, indexName, length_append] at hlength
  simp only [length_cons, length_nil] at hlength
  omega

theorem Current.write (hapart : Apart T) (h : Current shorten T lib)
    (hfiles : lib'.files = lib.files) (hchanged : ∀ topic ∈ changed, topic ∈ T)
    (hwithin : ∀ row ∈ lib'.rows, row.2 ∈ T)
    (hknown : ∀ row ∈ lib'.rows, lib'.documents.get? row.1 ≠ none)
    (hsame : ∀ path, ¬ Touched changed path → pageOf shorten lib' path = pageOf shorten lib path) :
    Current shorten T (writeTopicPages shorten lib' changed) := by
  obtain ⟨hpages, hothers⟩ := @writeTopicPages_files shorten lib' T hapart changed hchanged
  have hpageOf : ∀ path, pageOf shorten (writeTopicPages shorten lib' changed) path =
      pageOf shorten lib' path := by
    intro path
    apply pageOf_congr
    · simp [Library.under, Library.rows]
    · simp
  constructor
  · simpa [Library.rows] using hwithin
  · simpa [Library.rows] using hknown
  · intro path hpath
    obtain ⟨hnew, hold⟩ := hpages path hpath
    rw [hpageOf]
    by_cases htouched : Touched changed path
    · exact hnew htouched
    · rw [hold htouched, hfiles, h.pages path hpath, hsame path htouched]
  · intro key hkey
    by_cases hpage : ∃ q, Within T q ∧ key = pageKey q
    · exact .inr hpage
    · rw [hothers key fun q hq heq => hpage ⟨q, hq, heq⟩, hfiles] at hkey
      exact h.others key hkey

theorem Current.annotate (hapart : Apart T) (h : Current shorten T lib) (card : Text)
    (htopics : ∀ topic ∈ topics, topic ∈ T) :
    Current shorten T (Topics.annotate shorten lib document card topics) := by
  unfold Topics.annotate
  split
  · exact h
  · next hthere =>
    have hrows : ∀ row, row ∈ (lib.refile document topics).rows →
        (row ∈ lib.rows ∧ row.1 ≠ document) ∨ (row.1 = document ∧ row.2 ∈ topics) :=
      fun row hrow => mem_refile.mp hrow
    refine h.write hapart rfl ?_ ?_ ?_ ?_
    · intro topic htopic
      rcases mem_append.mp htopic with htopic | htopic
      · exact h.within _ (mem_topicsOf.mp htopic)
      · exact htopics topic htopic
    · intro row hrow
      rcases hrows row hrow with ⟨hrow, _⟩ | ⟨_, hmem⟩
      · exact h.within row hrow
      · exact htopics _ hmem
    · intro row hrow
      have hdocument : lib.documents.get? row.1 ≠ none := by
        rcases hrows row hrow with ⟨hrow, _⟩ | ⟨heq, _⟩
        · exact h.known row hrow
        · rw [heq]
          exact hthere
      simp only [Library.refile, Table.get?_modify]
      split
      · simpa using hdocument
      · exact hdocument
    · intro path huntouched
      have hnone : ∀ row ∈ lib.under path, row.1 ≠ document := by
        intro row hrow heq
        obtain ⟨hrow, hbelow⟩ := mem_under.mp hrow
        exact huntouched ⟨row.2, mem_append_left _ (mem_topicsOf.mpr (heq ▸ hrow)), hbelow⟩
      have hunder : (lib.refile document topics).under path = lib.under path := by
        apply under_refile hnone
        intro topic htopic hbelow
        exact huntouched ⟨topic, mem_append_right _ htopic, hbelow⟩
      apply pageOf_congr
      · exact hunder
      · intro other hother
        have hne := hnone _ (mem_under.mpr ⟨mem_here.mp hother, prefix_refl path⟩)
        exact Table.get?_modify_of_ne hne

theorem Current.delete (hapart : Apart T) (h : Current shorten T lib) :
    Current shorten T (Topics.delete shorten lib document) := by
  have hrows : ∀ removed : Library,
      removed.topics = (lib.topics.filter fun key _ => key.1 ≠ document) →
      (∀ row ∈ removed.rows, row ∈ lib.rows ∧ row.1 ≠ document) ∧
      ∀ path, (∀ row ∈ lib.under path, row.1 ≠ document) → removed.under path = lib.under path := by
    intro removed hremoved
    have hrefiled : removed.rows = (lib.refile document []).rows := by
      simp [Library.rows, hremoved, Library.refile]
    constructor
    · intro row hrow
      rw [hrefiled, mem_refile] at hrow
      simpa using hrow
    · intro path hnone
      rw [Library.under, hrefiled]
      exact under_refile hnone (by simp)
  unfold Topics.delete
  split
  · next hgone =>
    have hnone : ∀ row ∈ lib.rows, row.1 ≠ document := by
      intro row hrow heq
      exact h.known row hrow (heq ▸ hgone)
    obtain ⟨hmem, hunder⟩ := hrows ⟨lib.documents.erase document, _, lib.files⟩ rfl
    constructor
    · intro row hrow
      exact h.within row (hmem row hrow).1
    · intro row hrow
      simp only [Table.get?_erase, if_neg (hmem row hrow).2]
      exact h.known row (hmem row hrow).1
    · intro path hpath
      rw [h.pages path hpath]
      congr 1
      symm
      apply pageOf_congr (hunder path fun row hrow => hnone row (mem_under.mp hrow).1)
      intro other hother
      simp only [Table.get?_erase, if_neg (hnone _ (mem_here.mp hother))]
    · exact h.others
  · obtain ⟨hmem, hunder⟩ := hrows ⟨lib.documents.erase document, _, lib.files⟩ rfl
    refine h.write hapart rfl ?_ ?_ ?_ ?_
    · intro topic htopic
      exact h.within _ (mem_topicsOf.mp htopic)
    · intro row hrow
      exact h.within row (hmem row hrow).1
    · intro row hrow
      simp only [Table.get?_erase, if_neg (hmem row hrow).2]
      exact h.known row (hmem row hrow).1
    · intro path huntouched
      have hnone : ∀ row ∈ lib.under path, row.1 ≠ document := by
        intro row hrow heq
        obtain ⟨hrow, hbelow⟩ := mem_under.mp hrow
        exact huntouched ⟨row.2, mem_topicsOf.mpr (heq ▸ hrow), hbelow⟩
      apply pageOf_congr (hunder path hnone)
      intro other hother
      have hne := hnone _ (mem_under.mpr ⟨mem_here.mp hother, prefix_refl path⟩)
      simp only [Table.get?_erase, if_neg hne]

theorem Current.setTopics (hapart : Apart T) (h : Current shorten T lib)
    {plan : Table Text (List Topic)}
    (hplan : ∀ row ∈ plan.rows, lib.documents.get? row.1 ≠ none ∧ ∀ topic ∈ row.2, topic ∈ T) :
    Current shorten T (Topics.setTopics shorten lib plan) := by
  obtain ⟨filed, hloop, hdocuments, hfiles, hrows, hunder⟩ :=
    refileAll_ok fun row hrow => (hplan row hrow).1
  have hpage : ∀ lib' : Library, ∀ path, lib'.topics = lib.topics →
      lib'.documents = lib.documents → pageOf shorten lib' path = pageOf shorten lib path := by
    intro lib' path htopics hdocuments
    apply pageOf_congr
    · simp [Library.under, Library.rows, htopics]
    · simp [hdocuments]
  unfold Topics.setTopics
  simp only [hloop]
  set change : Change := plan.rows.map fun row => (row.1, lib.topicsOf row.1, row.2) with hchange
  have hwritten : Current shorten T
      (writeTopicPages shorten filed (change.flatMap fun row => row.2.1 ++ row.2.2)) := by
    refine h.write hapart hfiles ?_ ?_ ?_ ?_
    · intro topic htopic
      obtain ⟨entry, hentry, htopic⟩ := mem_flatMap.mp htopic
      obtain ⟨row, hrow, rfl⟩ := mem_map.mp hentry
      rcases mem_append.mp htopic with htopic | htopic
      · exact h.within _ (mem_topicsOf.mp htopic)
      · exact (hplan row hrow).2 topic htopic
    · intro row hrow
      rcases hrows row hrow with hrow | ⟨entry, hentry, _, hmem⟩
      · exact h.within row hrow
      · exact (hplan entry hentry).2 _ hmem
    · intro row hrow
      rw [hdocuments]
      rcases hrows row hrow with hrow | ⟨entry, hentry, heq, _⟩
      · exact h.known row hrow
      · rw [heq]
        exact (hplan entry hentry).1
    · intro path huntouched
      have htouch : ∀ entry ∈ plan.rows, ∀ topic ∈ lib.topicsOf entry.1 ++ entry.2,
          ¬ path <+: topic := by
        intro entry hentry topic htopic hbelow
        apply huntouched
        refine ⟨topic, mem_flatMap.mpr ⟨_, mem_map_of_mem hentry, htopic⟩, hbelow⟩
      apply pageOf_congr
      · apply hunder
        intro entry hentry
        constructor
        · intro row hrow heq
          obtain ⟨hrow, hbelow⟩ := mem_under.mp hrow
          exact htouch entry hentry row.2 (mem_append_left _ (mem_topicsOf.mpr (heq ▸ hrow))) hbelow
        · intro topic htopic
          exact htouch entry hentry topic (mem_append_right _ htopic)
      · simp [hdocuments]
  -- the log is no page
  obtain ⟨hwithin, hknown, hpages, hothers⟩ := hwritten
  constructor
  · exact hwithin
  · exact hknown
  · intro path hpath
    simp only [Table.get?_set, if_neg (logKey_ne path).symm]
    rw [hpages path hpath]
    congr 1
  · intro key hkey
    simp only [Table.get?_set] at hkey
    split at hkey
    · next heq => exact .inl heq
    · exact hothers key hkey

def resolve (key link : Text) : Text := (key.reverse.dropWhile fun c => c ≠ '/').reverse ++ link

def Links (files : Table Text File) (key key' : Text) : Prop :=
  ∃ page, files.get? key = some (.page page) ∧ ∃ entry ∈ page.topics, key' = resolve key entry.link

namespace Example

def japan : Name := ⟨['日', '本'], by decide, by decide⟩

def china : Name := ⟨['中', '国'], by decide, by decide⟩

def documents : Table Text DocumentInfo :=
  (Table.empty.insert ['d'] ⟨['D'], [], 1, none⟩).insert ['e'] ⟨['E'], [], 1, none⟩

def first : Library := annotate id ⟨documents, .empty, .empty⟩ ['d'] ['c'] [[japan]]

def second : Library := annotate id first ['e'] ['c'] [[china]]

def moved : Library := setTopics id first (Table.empty.insert ['d'] [[china]])

end Example

end Substrate.Topics
