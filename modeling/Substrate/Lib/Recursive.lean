import Mathlib.Data.List.Dedup
import Mathlib.Data.List.Perm.Subperm
import Mathlib.Logic.Relation

/-!
A recursive query (`WITH RECURSIVE … UNION`). Rows wait in a queue; each is taken once, and
the rows it leads to are added if they are not there yet. Where all the rows that can be
reached are among finitely many the query ends, and its rows are those that are reached.
-/

namespace Substrate.Lib

open List

variable {α : Type*} [DecidableEq α] (next : α → List α)

def fresh (rows : List α) (a : α) : List α := ((next a).filter fun b => b ∉ rows).dedup

def recurse : Nat → List α → List α → Option (List α)
  | _, rows, [] => some rows
  | 0, _, _ :: _ => none
  | fuel + 1, rows, a :: queue =>
    recurse fuel (rows ++ fresh next rows a) (queue ++ fresh next rows a)

def Leads (start row : α) : Prop := Relation.ReflTransGen (fun a b => b ∈ next a) start row

variable {next} {start : α} {rows queue : List α}

theorem mem_fresh {a b : α} : b ∈ fresh next rows a ↔ b ∈ next a ∧ b ∉ rows := by
  unfold fresh
  rw [mem_dedup, mem_filter, decide_eq_true_eq]

/-- Rows on the way: all are reached, and what a row leads to is there once it has been
taken. -/
structure Partial (next : α → List α) (start : α) (rows queue : List α) : Prop where
  start_mem : start ∈ rows
  reached : ∀ b ∈ rows, Leads next start b
  queued : ∀ b ∈ queue, b ∈ rows
  taken : ∀ a ∈ rows, a ∉ queue → ∀ b ∈ next a, b ∈ rows
  nodup : rows.Nodup

omit [DecidableEq α] in
theorem Partial.begin (next : α → List α) (start : α) : Partial next start [start] [start] where
  start_mem := mem_singleton_self start
  reached := by
    intro b hb
    rw [mem_singleton.mp hb]
    exact Relation.ReflTransGen.refl
  queued := fun _ hb => hb
  taken := fun _ ha hnot => absurd ha hnot
  nodup := nodup_singleton start

theorem Partial.take {a : α} (h : Partial next start rows (a :: queue)) :
    Partial next start (rows ++ fresh next rows a) (queue ++ fresh next rows a) where
  start_mem := mem_append_left _ h.start_mem
  reached := by
    intro b hb
    rcases mem_append.mp hb with hb | hb
    · exact h.reached b hb
    · exact (h.reached a (h.queued a mem_cons_self)).tail (mem_fresh.mp hb).1
  queued := by
    intro b hb
    rcases mem_append.mp hb with hb | hb
    · exact mem_append_left _ (h.queued b (mem_cons_of_mem a hb))
    · exact mem_append_right _ hb
  taken := by
    intro b hb hnot c hc
    rw [mem_append, not_or] at hnot
    have hold : b ∈ rows := (mem_append.mp hb).resolve_right hnot.2
    by_cases hba : b = a
    · subst hba
      by_cases hin : c ∈ rows
      · exact mem_append_left _ hin
      · exact mem_append_right _ (mem_fresh.mpr ⟨hc, hin⟩)
    · have hwaits : b ∉ a :: queue := by
        intro hmem
        rcases mem_cons.mp hmem with heq | hmem
        · exact hba heq
        · exact hnot.1 hmem
      exact mem_append_left _ (h.taken b hold hwaits c hc)
  nodup := by
    apply h.nodup.append (nodup_dedup _)
    intro b hb hfresh
    exact (mem_fresh.mp hfresh).2 hb

omit [DecidableEq α] in
theorem Partial.settled (h : Partial next start rows []) (b : α) :
    b ∈ rows ↔ Leads next start b := by
  constructor
  · exact h.reached b
  · intro hleads
    induction hleads with
    | refl => exact h.start_mem
    | tail _ hlast ih => exact h.taken _ ih not_mem_nil _ hlast

theorem Partial.mem_iff {fuel : Nat} {result : List α} (h : Partial next start rows queue)
    (hresult : recurse next fuel rows queue = some result) (b : α) :
    b ∈ result ↔ Leads next start b := by
  induction fuel generalizing rows queue with
  | zero =>
    cases queue with
    | cons a queue => cases hresult
    | nil =>
      cases hresult
      exact h.settled b
  | succ fuel ih =>
    cases queue with
    | cons a queue => exact ih h.take hresult
    | nil =>
      cases hresult
      exact h.settled b

theorem Partial.ends {bound : List α} (h : Partial next start rows queue)
    (hrows : ∀ b ∈ rows, b ∈ bound) (hbound : ∀ a ∈ bound, ∀ b ∈ next a, b ∈ bound) {fuel : Nat}
    (hfuel : 2 * (bound.length - rows.length) + queue.length ≤ fuel) :
    ∃ result, recurse next fuel rows queue = some result := by
  induction fuel generalizing rows queue with
  | zero =>
    cases queue with
    | nil => exact ⟨rows, rfl⟩
    | cons a queue => simp at hfuel
  | succ fuel ih =>
    cases queue with
    | nil => exact ⟨rows, rfl⟩
    | cons a queue =>
      have hin : a ∈ bound := hrows a (h.queued a mem_cons_self)
      have hmore : ∀ b ∈ rows ++ fresh next rows a, b ∈ bound := by
        intro b hb
        rcases mem_append.mp hb with hb | hb
        · exact hrows b hb
        · exact hbound a hin b (mem_fresh.mp hb).1
      have hlength := (subperm_of_subset h.take.nodup hmore).length_le
      apply ih h.take hmore
      rw [length_append] at hlength
      simp only [length_append, length_cons] at hfuel ⊢
      omega

theorem recurse_mono {fuel more : Nat} {result : List α} (hmore : fuel ≤ more)
    (h : recurse next fuel rows queue = some result) :
    recurse next more rows queue = some result := by
  induction fuel generalizing rows queue more with
  | zero =>
    cases queue with
    | nil =>
      cases more with
      | zero | succ more => exact h
    | cons a queue => cases h
  | succ fuel ih =>
    obtain ⟨n, rfl⟩ : ∃ n, more = n + 1 := ⟨more - 1, by omega⟩
    cases queue with
    | nil => exact h
    | cons a queue =>
      unfold recurse at h ⊢
      exact ih (by omega) h

end Substrate.Lib
