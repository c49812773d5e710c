import Mathlib.Data.Set.Function
import Substrate.Audit.Chain

/-!
What the check of the audit log finds. A log that only grows, and loses events at its ends
only, is a chain; a purge by time that leaves a gap breaks it.
-/

namespace Substrate.Audit

open Lib Lib.Json List

variable (sha256 : Text → Text)

/-- The row names the hash of the one before it, if there is one, and has its own. -/
def Links (previous : Option Text) (row : Row) (hash : Text) : Prop :=
  (∀ before, previous = some before → row.recorded = before) ∧
    hash = auditHash sha256 row.recorded row.entry

def Linked : Option Text → List Row → Prop
  | _, [] => True
  | previous, row :: rest =>
    match row.hash with
    | none => Linked none rest
    | some hash => Links sha256 previous row hash ∧ Linked (some hash) rest

variable {sha256}

theorem linked_cons (previous : Option Text) (row : Row) (rest : List Row) :
    Linked sha256 previous (row :: rest) ↔
      match row.hash with
      | none => Linked sha256 none rest
      | some hash => Links sha256 previous row hash ∧ Linked sha256 (some hash) rest :=
  Iff.rfl

theorem check_ok (previous : Option Text) (checked : Nat) (rows : List Row) :
    (check sha256 previous checked rows).ok = true ↔ Linked sha256 previous rows := by
  induction rows generalizing previous checked with
  | nil => exact ⟨fun _ => trivial, fun _ => rfl⟩
  | cons row rest ih =>
    unfold check Linked
    cases row.hash with
    | none => exact ih none checked
    | some hash =>
      dsimp only
      have hlinks : ¬(row.recorded ≠ previous.getD row.recorded ∨
          hash ≠ auditHash sha256 row.recorded row.entry) ↔ Links sha256 previous row hash := by
        unfold Links
        cases previous with
        | none | some before => simp
      split
      · next hbad =>
          constructor
          · intro h
            cases h
          · exact fun h => absurd hbad (hlinks.mpr h.1)
      · next hgood =>
          rw [ih (some hash) (checked + 1)]
          exact ⟨fun h => ⟨hlinks.mp hgood, h⟩, fun h => h.2⟩

theorem verifyAll_ok (rows : List Row) :
    (verifyAll sha256 rows).ok = true ↔ Linked sha256 none rows := by
  unfold verifyAll verifyAudit
  rw [take_length]
  exact check_ok none 0 rows

def lastHash : Option Text → List Row → Option Text
  | previous, [] => previous
  | _, row :: rest => lastHash row.hash rest

theorem lastHash_append (previous : Option Text) (first : List Row) (row : Row) :
    lastHash previous (first ++ [row]) = row.hash := by
  induction first generalizing previous with
  | nil => rfl
  | cons other rest ih => exact ih other.hash

theorem linked_append (previous : Option Text) (first rest : List Row) :
    Linked sha256 previous (first ++ rest) ↔
      Linked sha256 previous first ∧ Linked sha256 (lastHash previous first) rest := by
  induction first generalizing previous with
  | nil =>
    constructor
    · exact fun h => ⟨trivial, h⟩
    · exact fun h => h.2
  | cons row first ih =>
    rw [cons_append, linked_cons, linked_cons]
    change _ ↔ _ ∧ Linked sha256 (lastHash row.hash first) rest
    cases row.hash with
    | none => exact ih none
    | some hash =>
      dsimp only
      rw [ih (some hash), and_assoc]

variable {rows : List Row} {row : Row}

theorem Linked.weaken {previous : Option Text} (h : Linked sha256 previous rows) :
    Linked sha256 none rows := by
  cases rows with
  | nil => trivial
  | cons row rest =>
    unfold Linked at h ⊢
    cases hhash : row.hash with
    | none =>
      rw [hhash] at h
      exact h
    | some hash =>
      rw [hhash] at h
      refine ⟨⟨fun before hbefore => ?_, h.1.2⟩, h.2⟩
      cases hbefore

variable (sha256)

def chainHash : List Entry → Text
  | [] => []
  | entry :: older => auditHash sha256 (chainHash older) entry

def Follows : List Entry → List Row → Prop
  | _, [] => True
  | past, row :: rest =>
    row.prevHash = some (chainHash sha256 past) ∧
      row.hash = some (chainHash sha256 (row.entry :: past)) ∧ Follows (row.entry :: past) rest

def Within (texts : Set Text) : List Entry → Prop
  | [] => True
  | entry :: older => hashedText (chainHash sha256 older) entry ∈ texts ∧ Within texts older

def pastOf (past : List Entry) (rows : List Row) : List Entry :=
  (rows.map Row.entry).reverse ++ past

variable {sha256} {texts : Set Text} {past : List Entry}

theorem pastOf_cons (row : Row) (rows : List Row) :
    pastOf past (row :: rows) = pastOf (row.entry :: past) rows := by
  unfold pastOf
  rw [map_cons, reverse_cons, append_assoc]
  rfl

theorem length_pastOf (rows : List Row) : (pastOf past rows).length = rows.length + past.length := by
  unfold pastOf
  rw [length_append, length_reverse, length_map]

theorem Entry.fields_inj {entry other : Entry} (h : entry.fields = other.fields) :
    entry = other := by
  obtain ⟨time, requestId, principal, actor, action, securable, outcome, detail⟩ := entry
  obtain ⟨time', requestId', principal', actor', action', securable', outcome', detail'⟩ := other
  simp only [Entry.fields, List.cons.injEq, Option.some.injEq, and_true] at h
  obtain ⟨rfl, rfl, rfl, rfl, rfl, rfl, rfl, rfl⟩ := h
  rfl

theorem chainHash_inj (hsha : ∀ x, sha256 x ≠ []) (hinj : Set.InjOn sha256 texts)
    {past other : List Entry} (hpast : Within sha256 texts past)
    (hother : Within sha256 texts other)
    (h : chainHash sha256 past = chainHash sha256 other) : past = other := by
  induction past generalizing other with
  | nil =>
    cases other with
    | nil => rfl
    | cons entry older => exact absurd h.symm (hsha _)
  | cons entry past ih =>
    cases other with
    | nil => exact absurd h (hsha _)
    | cons entry' other =>
      have htext := hinj hpast.1 hother.1 h
      have hlength : entry.fields.length = entry'.fields.length := rfl
      obtain ⟨hprevious, hfields⟩ := append_bar_inj hlength htext
      rw [Entry.fields_inj hfields, ih hpast.2 hother.2 hprevious]

theorem follows_cons (row : Row) (rest : List Row) :
    Follows sha256 past (row :: rest) ↔ row.prevHash = some (chainHash sha256 past) ∧
      row.hash = some (chainHash sha256 (row.entry :: past)) ∧
        Follows sha256 (row.entry :: past) rest := Iff.rfl

theorem follows_append (first rest : List Row) : Follows sha256 past (first ++ rest) ↔
      Follows sha256 past first ∧ Follows sha256 (pastOf past first) rest := by
  induction first generalizing past with
  | nil =>
    constructor
    · exact fun h => ⟨trivial, h⟩
    · exact fun h => h.2
  | cons row first ih =>
    rw [pastOf_cons, cons_append, follows_cons, follows_cons, ih, and_assoc, and_assoc]

theorem pastOf_append (first rest : List Row) :
    pastOf past (first ++ rest) = pastOf (pastOf past first) rest := by
  unfold pastOf
  rw [map_append, reverse_append, append_assoc]

theorem Within.of_pastOf (h : Within sha256 texts (pastOf past rows)) :
    Within sha256 texts past := by
  induction rows generalizing past with
  | nil => exact h
  | cons row rest ih =>
    rw [pastOf_cons] at h
    exact (ih h).2

theorem Follows.recorded {rest : List Row} (h : Follows sha256 past (row :: rest)) :
    row.recorded = chainHash sha256 past := by
  unfold Row.recorded
  rw [h.1]
  rfl

theorem Follows.linked (h : Follows sha256 past rows) :
    Linked sha256 (some (chainHash sha256 past)) rows := by
  induction rows generalizing past with
  | nil => trivial
  | cons row rest ih =>
    have hrecorded := h.recorded
    rw [linked_cons, h.2.1]
    refine ⟨⟨fun before hbefore => ?_, ?_⟩, ih h.2.2⟩
    · rw [hrecorded]
      exact Option.some.inj hbefore
    · rw [hrecorded]
      rfl

theorem Follows.lastHash (h : Follows sha256 past rows) (hne : rows ≠ []) :
    lastHash none rows = some (chainHash sha256 (pastOf past rows)) := by
  obtain ⟨first, row, rfl⟩ := (eq_nil_or_concat rows).resolve_left hne
  rw [concat_eq_append] at h ⊢
  obtain ⟨_, hlast⟩ := (follows_append first [row]).mp h
  rw [lastHash_append, hlast.2.1]
  unfold pastOf
  rw [map_append, reverse_append]
  rfl

theorem Follows.mem (h : Follows sha256 past rows) (hmem : row ∈ rows) :
    ∃ older, row.recorded = chainHash sha256 older ∧ past.length ≤ older.length ∧
      ∃ first rest, rows = first ++ row :: rest ∧ older = pastOf past first := by
  obtain ⟨first, rest, rfl⟩ := append_of_mem hmem
  obtain ⟨_, hrow⟩ := (follows_append first (row :: rest)).mp h
  refine ⟨pastOf past first, hrow.recorded, ?_, first, rest, rfl, rfl⟩
  rw [length_pastOf]
  omega

section

variable (hsha : ∀ x, sha256 x ≠ []) (hinj : Set.InjOn sha256 texts)

include hsha hinj

variable {row : Row} {rest : List Row}

theorem Follows.not_named {other : Row} (h : Follows sha256 past (row :: other :: rest))
    (hwithin : Within sha256 texts (pastOf past (row :: other :: rest))) {late : Row}
    (hmem : late ∈ rest) : late.recorded ≠ chainHash sha256 (row.entry :: past) := by
  intro heq
  obtain ⟨older, hrecorded, hlength, first, last, rfl, rfl⟩ := h.2.2.2.2.mem hmem
  rw [pastOf_cons, pastOf_cons, pastOf_append] at hwithin
  have hfirst := hwithin.of_pastOf
  have hrow : Within sha256 texts (row.entry :: past) := hfirst.of_pastOf.2
  rw [hrecorded] at heq
  have hsame := congrArg List.length (chainHash_inj hsha hinj hfirst hrow heq)
  rw [length_cons, length_cons] at hlength
  rw [length_cons] at hsame
  omega

theorem Follows.kept_prefix {keep : Row → Bool} (h : Follows sha256 past (row :: rest))
    (hwithin : Within sha256 texts (pastOf past (row :: rest)))
    (hlinked : Linked sha256 row.hash (rest.filter keep)) : rest.filter keep <+: rest := by
  induction rest generalizing past row with
  | nil => exact prefix_refl _
  | cons other rest ih =>
    have hhash := h.2.2.2.1
    cases hkeep : keep other with
    | true =>
      rw [filter_cons_of_pos hkeep] at hlinked ⊢
      rw [linked_cons, hhash] at hlinked
      rw [pastOf_cons] at hwithin
      have hrest := ih h.2.2 hwithin (by rw [hhash]; exact hlinked.2)
      exact prefix_cons_inj other |>.mpr hrest
    | false =>
      have hnot : ¬keep other = true := by
        rw [hkeep]
        exact Bool.false_ne_true
      rw [filter_cons_of_neg hnot] at hlinked ⊢
      cases hfilter : rest.filter keep with
      | nil => exact nil_prefix
      | cons late more =>
        have hmem : late ∈ rest := by
          have hlate : late ∈ rest.filter keep := by
            rw [hfilter]
            exact mem_cons_self
          exact (mem_filter.mp hlate).1
        have hnamed := h.not_named hsha hinj hwithin hmem
        obtain ⟨first, last, rfl⟩ := append_of_mem hmem
        obtain ⟨_, hlate⟩ := (follows_append first (late :: last)).mp h.2.2.2.2
        rw [hfilter, linked_cons, hlate.2.1, h.2.1] at hlinked
        exact absurd (hlinked.1.1 _ rfl) hnamed

/-- What is left of a chain is accepted exactly if it is in one piece. -/
theorem Follows.linked_filter_iff {rows : List Row} (h : Follows sha256 past rows)
    (hwithin : Within sha256 texts (pastOf past rows)) (keep : Row → Bool) :
    Linked sha256 none (rows.filter keep) ↔ rows.filter keep <:+: rows := by
  constructor
  · intro hlinked
    induction rows generalizing past with
    | nil => exact infix_refl _
    | cons row rest ih =>
      cases hkeep : keep row with
      | true =>
        rw [filter_cons_of_pos hkeep] at hlinked ⊢
        rw [linked_cons, h.2.1] at hlinked
        have hrest := h.kept_prefix hsha hinj hwithin (by rw [h.2.1]; exact hlinked.2)
        exact ((prefix_cons_inj row).mpr hrest).isInfix
      | false =>
        have hnot : ¬keep row = true := by
          rw [hkeep]
          exact Bool.false_ne_true
        rw [filter_cons_of_neg hnot] at hlinked ⊢
        rw [pastOf_cons] at hwithin
        exact infix_cons (ih h.2.2 hwithin hlinked)
  · rintro ⟨first, last, hrows⟩
    rw [← hrows, append_assoc] at h
    obtain ⟨_, hrest⟩ := (follows_append first _).mp h
    exact ((follows_append _ last).mp hrest).1.linked.weaken

end

theorem linked_between {first last : List Row} {row : Row}
    (hfirst : Follows sha256 past first) {next : List Entry} (hlast : Follows sha256 next last) :
    Linked sha256 none (first ++ row :: last) ↔ row.hash = none ∨ ∃ hash, row.hash = some hash ∧
        Links sha256 (lastHash none first) row hash ∧
          (last ≠ [] → chainHash sha256 next = hash) := by
  rw [linked_append, linked_cons]
  have hstart := hfirst.linked.weaken
  cases hhash : row.hash with
  | none =>
    constructor
    · exact fun _ => .inl rfl
    · exact fun _ => ⟨hstart, hlast.linked.weaken⟩
  | some hash =>
    dsimp only
    have hrest : Linked sha256 (some hash) last ↔ (last ≠ [] → chainHash sha256 next = hash) := by
      cases last with
      | nil => exact ⟨fun _ hne => absurd rfl hne, fun _ => trivial⟩
      | cons other last =>
        constructor
        · intro hlinked _
          rw [linked_cons, hlast.2.1] at hlinked
          rw [← hlast.recorded]
          exact hlinked.1.1 hash rfl
        · intro heq
          rw [← heq (cons_ne_nil _ _)]
          exact hlast.linked
    rw [hrest]
    constructor
    · exact fun h => .inr ⟨hash, rfl, h.2.1, h.2.2⟩
    · rintro (hnone | ⟨hash', heq, hlinks, hnext⟩)
      · cases hnone
      · cases heq
        exact ⟨hstart, hlinks, hnext⟩

/-- What somebody does to the rows of the log: an event is altered, one is put in, or
those that do not stay are taken out. -/
inductive Tamper where
  | alter (index : Nat) (row : Row)
  | insert (index : Nat) (row : Row)
  | remove (stays : Row → Bool)

def Tamper.apply : Tamper → List Row → List Row
  | .alter index row, rows => rows.set index row
  | .insert index row, rows => rows.take index ++ row :: rows.drop index
  | .remove stays, rows => rows.filter stays

def Tamper.Real : Tamper → List Row → Prop
  | .alter index row, rows => ∃ old, rows[index]? = some old ∧
      (row.entry ≠ old.entry ∨ row.recorded ≠ old.recorded ∨ row.hash ≠ old.hash)
  | .insert index _, rows => index ≤ rows.length
  | .remove _, _ => True

/-- The tampering that the check does not see. A row without a hash is passed by. The last
row can be hashed anew, and so can a row that is put behind it. Before the first row goes
an event with the hash that the first row names. What is taken out may be a beginning and
an end. -/
def Tamper.Unseen (sha256 : Text → Text) : Tamper → List Row → Prop
  | .alter index row, rows => row.hash = none ∨
      index + 1 = rows.length ∧
        ∃ hash, row.hash = some hash ∧ Links sha256 (lastHash none (rows.take index)) row hash
  | .insert index row, rows => row.hash = none ∨ ∃ hash, row.hash = some hash ∧
      (index = rows.length ∧ Links sha256 (lastHash none rows) row hash ∨
        index = 0 ∧ Links sha256 none row hash ∧
          ∃ first, rows.head? = some first ∧ first.recorded = hash)
  | .remove stays, rows => rows.filter stays <:+: rows

section

variable (hsha : ∀ x, sha256 x ≠ []) (hinj : Set.InjOn sha256 texts)

include hinj

variable {rows : List Row} {index : Nat} {row : Row}

theorem unseen_alter (h : Follows sha256 past rows)
    (hwithin : Within sha256 texts (pastOf past rows))
    (hreal : (Tamper.alter index row).Real rows) (htext : row.text ∈ texts) :
    Linked sha256 none (rows.set index row) ↔ (Tamper.alter index row).Unseen sha256 rows := by
  obtain ⟨old, hold, hdiffers⟩ := hreal
  obtain ⟨hindex, hget⟩ := List.getElem?_eq_some_iff.mp hold
  have hrows : rows.take index ++ old :: rows.drop (index + 1) = rows := by
    rw [← hget, getElem_cons_drop, take_append_drop]
  have hsplit := h
  rw [← hrows] at hsplit
  obtain ⟨hfirst, hrest⟩ := (follows_append _ _).mp hsplit
  rw [set_eq_take_append_cons_drop, if_pos hindex, linked_between hfirst hrest.2.2]
  unfold Tamper.Unseen
  constructor
  · rintro (hnone | ⟨hash, hhash, hlinks, hnext⟩)
    · exact .inl hnone
    · right
      by_cases hlast : index + 1 = rows.length
      · exact ⟨hlast, hash, hhash, hlinks⟩
      · have hne : rows.drop (index + 1) ≠ [] := by
          intro hnil
          have hlength := drop_eq_nil_iff.mp hnil
          omega
        -- the next row names the old hash, so the two rows were hashed alike
        have hsame := hnext hne
        rw [hlinks.2] at hsame
        have hold' : hashedText (chainHash sha256 (pastOf past (rows.take index))) old.entry ∈
            texts := by
          rw [← hrows, pastOf_append, pastOf_cons] at hwithin
          exact hwithin.of_pastOf.1
        have heq := hinj hold' htext hsame
        have hlength : old.entry.fields.length = row.entry.fields.length := rfl
        obtain ⟨hrecorded, hfields⟩ := append_bar_inj hlength heq
        have hentry := Entry.fields_inj hfields
        have hhash' : old.hash = row.hash := by
          rw [hrest.2.1, hhash, hlinks.2]
          exact congrArg some hsame
        rcases hdiffers with hne' | hne' | hne'
        · exact absurd hentry.symm hne'
        · rw [hrest.recorded] at hne'
          exact absurd hrecorded.symm hne'
        · exact absurd hhash'.symm hne'
  · rintro (hnone | ⟨hlast, hash, hhash, hlinks⟩)
    · exact .inl hnone
    · refine .inr ⟨hash, hhash, hlinks, fun hne => absurd ?_ hne⟩
      exact drop_eq_nil_iff.mpr (by omega)

include hsha

theorem unseen_insert (h : Follows sha256 past rows)
    (hwithin : Within sha256 texts (pastOf past rows)) (hreal : index ≤ rows.length)
    (htext : row.text ∈ texts) :
    Linked sha256 none (rows.take index ++ row :: rows.drop index) ↔
      (Tamper.insert index row).Unseen sha256 rows := by
  have hsplit := h
  rw [← take_append_drop index rows] at hsplit
  obtain ⟨hfirst, hrest⟩ := (follows_append _ _).mp hsplit
  rw [linked_between hfirst hrest]
  unfold Tamper.Unseen
  constructor
  · rintro (hnone | ⟨hash, hhash, hlinks, hnext⟩)
    · exact .inl hnone
    · refine .inr ⟨hash, hhash, ?_⟩
      by_cases hend : index = rows.length
      · rw [hend, take_length] at hlinks
        exact .inl ⟨hend, hlinks⟩
      · have hne : rows.drop index ≠ [] := by
          intro hnil
          have hlength := drop_eq_nil_iff.mp hnil
          omega
        have hsame := hnext hne
        right
        cases index with
        | zero =>
          refine ⟨rfl, hlinks, ?_⟩
          cases rows with
          | nil => exact absurd rfl hend
          | cons first rest =>
            refine ⟨first, rfl, ?_⟩
            rw [← hsame]
            exact h.recorded
        | succ index =>
          exfalso
          have hstart : rows.take (index + 1) ≠ [] := by
            intro hnil
            rcases take_eq_nil_iff.mp hnil with hzero | hempty
            · omega
            · rw [hempty] at hne
              exact hne (drop_nil)
          -- the row would name the hash of the one before it and have the same one
          have hbefore := hlinks.1 _ (hfirst.lastHash hstart)
          have hwithin' := hwithin
          rw [← take_append_drop (index + 1) rows, pastOf_append] at hwithin'
          have hpast := hwithin'.of_pastOf
          have hgrown : Within sha256 texts (row.entry :: pastOf past (rows.take (index + 1))) := by
            refine ⟨?_, hpast⟩
            rw [← hbefore]
            exact htext
          have hloop : chainHash sha256 (pastOf past (rows.take (index + 1))) =
              chainHash sha256 (row.entry :: pastOf past (rows.take (index + 1))) := by
            rw [hsame, hlinks.2, hbefore]
            rfl
          have hlength := congrArg List.length (chainHash_inj hsha hinj hpast hgrown hloop)
          rw [length_cons] at hlength
          omega
  · rintro (hnone | ⟨hash, hhash, ⟨hend, hlinks⟩ | ⟨hzero, hlinks, first, hhead, hnamed⟩⟩)
    · exact .inl hnone
    · rw [hend, take_length, drop_length]
      exact .inr ⟨hash, hhash, hlinks, fun hne => absurd rfl hne⟩
    · subst hzero
      refine .inr ⟨hash, hhash, hlinks, fun _ => ?_⟩
      cases rows with
      | nil => cases hhead
      | cons other rest =>
        cases hhead
        rw [← hnamed, h.recorded]
        rfl

theorem linked_tamper (h : Follows sha256 past rows)
    (hwithin : Within sha256 texts (pastOf past rows)) {tamper : Tamper}
    (hreal : tamper.Real rows) (htexts : ∀ row ∈ tamper.apply rows, row.text ∈ texts) :
    Linked sha256 none (tamper.apply rows) ↔ tamper.Unseen sha256 rows := by
  cases tamper with
  | alter index row =>
    apply unseen_alter hinj h hwithin hreal
    obtain ⟨old, hold, _⟩ := hreal
    exact htexts row (mem_set (List.getElem?_eq_some_iff.mp hold).1 row)
  | insert index row =>
    apply unseen_insert hsha hinj h hwithin hreal
    exact htexts row (mem_append_right _ mem_cons_self)
  | remove stays => exact h.linked_filter_iff hsha hinj hwithin stays

end

def Meets (log : Log) : Action → Prop
  | .audit _ => True
  | .purge olderThanDays cutoff =>
    0 < olderThanDays → log.rows.filter (keeps cutoff) <:+: log.rows

def Inv (sha256 : Text → Text) (texts : Set Text) (log : Log) : Prop :=
  ∃ past, Follows sha256 past log.rows ∧ Within sha256 texts (pastOf past log.rows)

variable {rows : List Row} {log : Log}

theorem lastHash_eq_getLast? (hne : rows ≠ []) :
    rows.getLast?.bind Row.hash = lastHash none rows := by
  obtain ⟨first, row, rfl⟩ := (eq_nil_or_concat rows).resolve_left hne
  rw [concat_eq_append, lastHash_append, List.getLast?_append]
  rfl

theorem Inv.audit (h : Inv sha256 texts log) {entry : Entry}
    (htexts : ∀ row ∈ (audit sha256 entry log).rows, row.text ∈ texts) :
    Inv sha256 texts (audit sha256 entry log) := by
  obtain ⟨past, hfollows, hwithin⟩ := h
  have hlast := htexts _ (mem_append_right _ mem_cons_self)
  by_cases hne : log.rows = []
  · unfold Audit.audit at hlast ⊢
    rw [hne] at hlast ⊢
    exact ⟨[], ⟨rfl, rfl, trivial⟩, hlast, trivial⟩
  · have hprevious : (log.rows.getLast?.bind Row.hash).getD [] =
        chainHash sha256 (pastOf past log.rows) := by
      rw [lastHash_eq_getLast? hne, hfollows.lastHash hne]
      rfl
    refine ⟨past, ?_, ?_⟩
    · unfold Audit.audit
      dsimp only
      rw [hprevious]
      exact (follows_append _ _).mpr ⟨hfollows, rfl, rfl, trivial⟩
    · change hashedText ((log.rows.getLast?.bind Row.hash).getD []) entry ∈ texts at hlast
      rw [hprevious] at hlast
      unfold Audit.audit
      dsimp only
      rw [pastOf_append]
      exact ⟨hlast, hwithin⟩

theorem Inv.part (h : Inv sha256 texts log) (hpart : rows <:+: log.rows) :
    Inv sha256 texts { log with rows := rows } := by
  obtain ⟨past, hfollows, hwithin⟩ := h
  obtain ⟨first, last, hrows⟩ := hpart
  rw [← hrows, append_assoc] at hfollows hwithin
  obtain ⟨_, hrest⟩ := (follows_append first _).mp hfollows
  rw [pastOf_append, pastOf_append] at hwithin
  have hkept : Within sha256 texts (pastOf (pastOf past first) rows) := by
    clear hfollows hrest hrows
    generalize pastOf (pastOf past first) rows = middle at hwithin ⊢
    exact hwithin.of_pastOf
  exact ⟨pastOf past first, ((follows_append rows last).mp hrest).1, hkept⟩

theorem step_meets (hsha : ∀ x, sha256 x ≠ []) (hinj : Set.InjOn sha256 texts) {log' : Log}
    {action : Action} (h : Inv sha256 texts log) (hstep : step sha256 action log = some log')
    (htexts : ∀ row ∈ log'.rows, row.text ∈ texts) :
    ((verifyAll sha256 log'.rows).ok = true ↔ Meets log action) ∧
      (Meets log action → Inv sha256 texts log') := by
  rw [verifyAll_ok]
  cases action with
  | audit entry =>
    cases hstep
    have hnext := h.audit htexts
    obtain ⟨past, hfollows, _⟩ := hnext
    exact ⟨⟨fun _ => trivial, fun _ => hfollows.linked.weaken⟩, fun _ => h.audit htexts⟩
  | purge olderThanDays cutoff =>
    cases hstep
    unfold purgeHistory
    obtain ⟨past, hfollows, hwithin⟩ := id h
    split
    · next hnone =>
        refine ⟨⟨fun _ hdays => ?_, fun _ => hfollows.linked.weaken⟩, fun _ => h⟩
        omega
    · next hdays =>
        have hiff := hfollows.linked_filter_iff hsha hinj hwithin (keeps cutoff)
        refine ⟨⟨fun hlinked _ => hiff.mp hlinked, fun hmeets => ?_⟩, fun hmeets => ?_⟩
        · exact hiff.mpr (hmeets (by omega))
        · exact h.part (hmeets (by omega))

/-- The check reports an honest history to be in order all along exactly if every purge
leaves the log in one piece; and then it reports tampering unless it is of the kinds that
it does not see. `texts` has the texts that are hashed, no two of which collide. -/
theorem tampering_reported (sha256 : Text → Text) (hsha : ∀ x, sha256 x ≠ []) (texts : Set Text)
    (hinj : Set.InjOn sha256 texts) (actions : List Action) (ms : List (Taken Log Action))
    (hrun : moves (step sha256) actions Log.init = some ms)
    (htexts : ∀ m ∈ ms, ∀ row ∈ m.after.rows, row.text ∈ texts) :
    ((∀ m ∈ ms, (verifyAll sha256 m.after.rows).ok = true) ↔ ∀ m ∈ ms, Meets m.before m.act) ∧
      ((∀ m ∈ ms, Meets m.before m.act) → ∀ log, (log = Log.init ∨ ∃ m ∈ ms, log = m.after) →
        ∀ tamper : Tamper, tamper.Real log.rows →
          (∀ row ∈ tamper.apply log.rows, row.text ∈ texts) →
            ((verifyAll sha256 (tamper.apply log.rows)).ok = false ↔
              ¬tamper.Unseen sha256 log.rows)) := by
  have hinit : Inv sha256 texts Log.init := ⟨[], trivial, trivial⟩
  have hruns : ((∀ m ∈ ms, (verifyAll sha256 m.after.rows).ok = true) ↔
        ∀ m ∈ ms, Meets m.before m.act) ∧
      ((∀ m ∈ ms, Meets m.before m.act) → ∀ m ∈ ms, Inv sha256 texts m.after) :=
    fine_iff_meets_given (P := Inv sha256 texts)
      (fun log action log' hinv hmove hgiven => step_meets hsha hinj hinv hmove hgiven) hinit
      hrun htexts
  refine ⟨hruns.1, fun hmeets log hlog tamper hreal htampered => ?_⟩
  have hinv : Inv sha256 texts log := by
    rcases hlog with rfl | ⟨m, hm, rfl⟩
    · exact hinit
    · exact hruns.2 hmeets m hm
  obtain ⟨past, hfollows, hwithin⟩ := hinv
  have hiff := linked_tamper hsha hinj hfollows hwithin hreal htampered
  rw [← hiff, ← verifyAll_ok, Bool.not_eq_true]

section

def event (time : Text) : Entry :=
  ⟨time, none, some ['u'], none, ['r', 'e', 'a', 'd'], none, ['o', 'k'], none⟩

def marked (text : Text) : Text := '#' :: text

def threeEvents : List Action := [.audit (event ['1']), .audit (event ['2']), .audit (event ['3'])]

theorem meets_threeEvents {ms : List (Taken Log Action)}
    (h : moves (step marked) threeEvents Log.init = some ms) : ∀ m ∈ ms, Meets m.before m.act := by
  cases h
  intro m hm
  rcases mem_cons.mp hm with rfl | hm
  · trivial
  rcases mem_cons.mp hm with rfl | hm
  · trivial
  rcases mem_cons.mp hm with rfl | hm
  · trivial
  · cases hm

def forged : Tamper := .insert 0 ⟨9, event ['9'], none, some []⟩

theorem tampering_reported_three :
    ∃ ms, moves (step marked) threeEvents Log.init = some ms ∧ ms.length = 3 ∧
      (∀ m ∈ ms, (verifyAll marked m.after.rows).ok = true) ∧
        ∀ m ∈ ms, (verifyAll marked (forged.apply m.after.rows)).ok = false := by
  have hsha : ∀ x, marked x ≠ [] := fun x => cons_ne_nil _ _
  have hinj : Set.InjOn marked Set.univ := fun x _ y _ h => (List.cons.inj h).2
  have hreport := tampering_reported marked hsha Set.univ hinj threeEvents _ rfl
    fun _ _ _ _ => trivial
  have hmeets := meets_threeEvents rfl
  refine ⟨_, rfl, rfl, hreport.1.mpr hmeets, fun m hm => ?_⟩
  apply (hreport.2 hmeets m.after (.inr ⟨m, hm, rfl⟩) forged (Nat.zero_le _) fun _ _ => trivial).mpr
  rintro (hnone | ⟨hash, hhash, ⟨_, hlinks⟩ | ⟨_, hlinks, _⟩⟩)
  · cases hnone
  · cases hhash
    cases hlinks.2
  · cases hhash
    cases hlinks.2

def purgedInside : List Action :=
  [.audit (event ['2']), .audit (event ['1']), .audit (event ['3']), .purge 1 ['2']]

def blanked : Tamper := .alter 1 ⟨2, event ['9'], none, none⟩

/-- A purge makes the check report an honest history, and an altered event without a hash
goes unreported. -/
theorem check_misled : (∃ ms, moves (step marked) purgedInside Log.init = some ms ∧
      ∃ m ∈ ms, (verifyAll marked m.after.rows).ok = false) ∧
    ∃ ms, moves (step marked) threeEvents Log.init = some ms ∧ ∃ m ∈ ms, blanked.Real m.after.rows ∧
        (verifyAll marked (blanked.apply m.after.rows)).ok = true := by
  constructor
  · refine ⟨_, rfl, _, getLast_mem (cons_ne_nil _ _), ?_⟩
    decide
  · refine ⟨_, rfl, _, getLast_mem (cons_ne_nil _ _), ⟨_, rfl, .inl ?_⟩, ?_⟩
    · decide
    · decide

end

end Substrate.Audit
