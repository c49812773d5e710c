import Mathlib.Data.List.Infix
import Mathlib.Logic.Relation

/-!
Resuming a list of actions. Any number of processes perform the same list on one shared
state, each from the place that the state gave it when it joined, and any of them may stop
anywhere.
-/

namespace Substrate.Lib

open List Option

variable {σ α : Type*} (exec : α → σ → Option σ)

def play : List α → σ → Option σ
  | [], s => some s
  | a :: rest, s => (exec a s).bind (play rest)

@[simp] theorem play_nil (s : σ) : play exec [] s = some s := rfl

@[simp] theorem play_cons (a : α) (rest : List α) (s : σ) :
    play exec (a :: rest) s = (exec a s).bind (play exec rest) := rfl

theorem play_append (before after : List α) (s : σ) :
    play exec (before ++ after) s = (play exec before s).bind (play exec after) := by
  induction before generalizing s with
  | nil => rfl
  | cons a before ih =>
    rw [cons_append, play_cons, play_cons, bind_assoc]
    congr 1
    funext s'
    exact ih s'

theorem play_concat {done : List α} {a : α} {base s s' : σ} (hdone : play exec done base = some s)
    (ha : exec a s = some s') : play exec (done ++ [a]) base = some s' := by
  rw [play_append, hdone, bind_some, play_cons, ha]
  rfl

theorem play_prefix {done rest : List α} {base full : σ}
    (h : play exec (done ++ rest) base = some full) :
    ∃ s, play exec done base = some s ∧ play exec rest s = some full := by
  rw [play_append] at h
  exact bind_eq_some_iff.mp h

structure Crowd (σ α : Type*) where
  state : σ
  todo : List (List α)

/-- A process joins, performs its next action, or fails at it and stops. `start` is what a
process is to do that joins in a state. -/
inductive Moves (start : σ → List α) : Crowd σ α → Crowd σ α → Prop
  | join {s : σ} {todo : List (List α)} : Moves start ⟨s, todo⟩ ⟨s, start s :: todo⟩
  | act {s s' : σ} {a : α} {rest : List α} {before after : List (List α)}
      (h : exec a s = some s') :
      Moves start ⟨s, before ++ (a :: rest) :: after⟩ ⟨s', before ++ rest :: after⟩
  | fail {s : σ} {a : α} {rest : List α} {before after : List (List α)} (h : exec a s = none) :
      Moves start ⟨s, before ++ (a :: rest) :: after⟩ ⟨s, before ++ after⟩

theorem Moves.alone {start : σ → List α} {done rest : List α} {s s' : σ}
    (h : play exec done s = some s') :
    Relation.ReflTransGen (Moves exec start) ⟨s, [done ++ rest]⟩ ⟨s', [rest]⟩ := by
  induction done generalizing s with
  | nil =>
    cases h
    exact .refl
  | cons a done ih =>
    obtain ⟨mid, ha, h⟩ := bind_eq_some_iff.mp h
    have hact : Moves exec start ⟨s, [] ++ (a :: (done ++ rest)) :: []⟩
        ⟨mid, [] ++ (done ++ rest) :: []⟩ := .act ha
    exact .head hact (ih h)

/-- An action of the list that was performed does nothing when it is performed again, or
fails. -/
def Once (actions : List α) (base : σ) : Prop :=
  ∀ done rest s, actions = done ++ rest → play exec done base = some s →
    ∀ a ∈ done, ∀ s', exec a s = some s' → s' = s

/-- A part of the list has been performed, and nobody is ahead of it. -/
def Partway (actions : List α) (base : σ) (w : Crowd σ α) : Prop :=
  ∃ done rest, actions = done ++ rest ∧ play exec done base = some w.state ∧
    ∀ todo ∈ w.todo, rest <:+ todo ∧ todo <:+ actions

variable {exec} {actions : List α} {base : σ} {start : σ → List α}

theorem mem_of_behind {done rest todo : List α} {a : α} (hsplit : actions = done ++ rest)
    (htodo : a :: todo <:+ actions) (hrest : rest <:+ todo) : a ∈ done := by
  obtain ⟨before, rfl⟩ := hrest
  obtain ⟨skipped, heq⟩ := htodo
  rw [hsplit, ← cons_append, ← append_assoc] at heq
  rw [← append_cancel_right heq]
  simp

theorem Partway.moves (honce : Once exec actions base)
    (hstart : ∀ done rest s, actions = done ++ rest → play exec done base = some s →
      rest <:+ start s ∧ start s <:+ actions)
    {w w' : Crowd σ α} (hw : Partway exec actions base w) (h : Moves exec start w w') :
    Partway exec actions base w' := by
  obtain ⟨done, rest, hsplit, hplay, hbehind⟩ := hw
  cases h with
  | @join s todo =>
    refine ⟨done, rest, hsplit, hplay, ?_⟩
    intro t ht
    rcases mem_cons.mp ht with rfl | ht
    · exact hstart done rest s hsplit hplay
    · exact hbehind t ht
  | @fail s a left before after ha =>
    refine ⟨done, rest, hsplit, hplay, ?_⟩
    intro t ht
    apply hbehind t
    rcases mem_append.mp ht with ht | ht
    · exact mem_append_left _ ht
    · exact mem_append_right _ (mem_cons_of_mem _ ht)
  | @act s s' a left before after ha =>
    obtain ⟨hrest, hleft⟩ := hbehind (a :: left) (by simp)
    have hothers : ∀ t, t ∈ before ++ after → rest <:+ t ∧ t <:+ actions := by
      intro t ht
      apply hbehind t
      rcases mem_append.mp ht with ht | ht
      · exact mem_append_left _ ht
      · exact mem_append_right _ (mem_cons_of_mem _ ht)
    have hmem : ∀ t, t ∈ before ++ left :: after → t = left ∨ t ∈ before ++ after := by
      intro t ht
      simp only [mem_append, mem_cons] at ht ⊢
      tauto
    have hleft' : left <:+ actions := (suffix_cons a left).trans hleft
    rcases suffix_cons_iff.mp hrest with heq | hbehind'
    · -- the process is at the front, and takes the list one action further
      refine ⟨done ++ [a], left, ?_, play_concat exec hplay ha, ?_⟩
      · rw [hsplit, heq, append_assoc]
        rfl
      · intro t ht
        rcases hmem t ht with rfl | ht
        · exact ⟨suffix_refl _, hleft'⟩
        · obtain ⟨hfront, hall⟩ := hothers t ht
          rw [heq] at hfront
          exact ⟨(suffix_cons a left).trans hfront, hall⟩
    · -- it repeats what was performed
      have hsame : s' = s :=
        honce done rest s hsplit hplay a (mem_of_behind hsplit hleft hbehind') s' ha
      subst hsame
      refine ⟨done, rest, hsplit, hplay, ?_⟩
      intro t ht
      rcases hmem t ht with rfl | ht
      · exact ⟨hbehind', hleft'⟩
      · exact hothers t ht

theorem Partway.run (honce : Once exec actions base)
    (hstart : ∀ done rest s, actions = done ++ rest → play exec done base = some s →
      rest <:+ start s ∧ start s <:+ actions)
    {w w' : Crowd σ α} (hw : Partway exec actions base w)
    (h : Relation.ReflTransGen (Moves exec start) w w') : Partway exec actions base w' := by
  induction h with
  | refl => exact hw
  | tail _ hstep ih => exact ih.moves honce hstart hstep

theorem play_repeated {again rest : List α} {s full : σ}
    (honce : ∀ a ∈ again, ∀ s', exec a s = some s' → s' = s)
    (hrest : play exec rest s = some full) :
    play exec (again ++ rest) s = some full ↔ ∀ a ∈ again, exec a s ≠ none := by
  induction again with
  | nil => simp [hrest]
  | cons a again ih =>
    have ih := ih fun b hb => honce b (mem_cons_of_mem _ hb)
    rw [cons_append, play_cons, forall_mem_cons]
    cases ha : exec a s with
    | none => simp
    | some s' =>
      have hsame : s' = s := honce a mem_cons_self s' ha
      subst hsame
      rw [bind_some, ih]
      simp

end Substrate.Lib
