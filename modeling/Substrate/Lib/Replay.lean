import Mathlib.Data.Option.Basic

/-!
Logs whose entries change other entries. A store keeps numbered entries and a side table;
each new entry also rewrites entries that are there and the side table, in place.
-/

namespace Substrate.Lib

universe u v w

structure Rules (κ : Type u) (α : Type v) (β : Type w) where
  rewrite : α → κ → α → α
  side : α → β → β
  /-- To rewrite again changes nothing. -/
  rewrite_twice : ∀ m k a, rewrite m k (rewrite m k a) = rewrite m k a
  /-- A later entry leaves no trace of whether it had rewritten before an earlier one. -/
  rewrite_hides : ∀ m e k k' a,
    rewrite m k (rewrite (rewrite m k' e) k (rewrite m k a)) = rewrite m k (rewrite e k a)
  side_twice : ∀ m b, side m (side m b) = side m b
  side_hides : ∀ m e k b, side m (side (rewrite m k e) (side m b)) = side m (side e b)

structure View (κ : Type u) (α : Type v) (β : Type w) where
  entries : κ → Option α
  side : β

namespace View

variable {κ : Type u} {α : Type v} {β : Type w} [DecidableEq κ]

def take (rules : Rules κ α β) (v : View κ α β) (k : κ) (e : α) : View κ α β where
  entries k' := (if k' = k then some e else v.entries k').map (rules.rewrite e k')
  side := rules.side e v.side

def catchUp (rules : Rules κ α β) (v : View κ α β) (entries : List (κ × α)) : View κ α β :=
  entries.foldl (fun v entry => v.take rules entry.1 entry.2) v

/-- The views differ at most in what `m` rewrites. -/
structure Agree (rules : Rules κ α β) (m : α) (v v' : View κ α β) : Prop where
  entries : ∀ k, (v.entries k).map (rules.rewrite m k) = (v'.entries k).map (rules.rewrite m k)
  side : rules.side m v.side = rules.side m v'.side

variable {rules : Rules κ α β} {m : α} {v v' : View κ α β}

omit [DecidableEq κ] in
theorem Agree.refl (rules : Rules κ α β) (m : α) (v : View κ α β) : v.Agree rules m v :=
  ⟨fun _ => rfl, rfl⟩

theorem Agree.take_self (h : v.Agree rules m v') (k : κ) : v.take rules k m = v'.take rules k m := by
  unfold take
  congr 1
  · funext k'
    split
    · rfl
    · exact h.entries k'
  · exact h.side

omit [DecidableEq κ] in
private theorem rewrite_twice_hides (rules : Rules κ α β) (m e : α) (k k' : κ) (a : α) :
    rules.rewrite m k (rules.rewrite (rules.rewrite m k' e) k (rules.rewrite m k a)) =
      rules.rewrite m k (rules.rewrite (rules.rewrite m k' e) k a) := by
  have h := rules.rewrite_hides m (rules.rewrite m k' e) k k' a
  rw [rules.rewrite_twice] at h
  exact h

theorem Agree.take (h : v.Agree rules m v') (k : κ) (e : α) :
    (v.take rules k e).Agree rules m (v'.take rules k (rules.rewrite m k e)) := by
  constructor
  · intro k'
    have hthere : ∀ {x y : Option α}, x.map (rules.rewrite m k') = y.map (rules.rewrite m k') →
        (x.map (rules.rewrite e k')).map (rules.rewrite m k') =
          (y.map (rules.rewrite (rules.rewrite m k e) k')).map (rules.rewrite m k') := by
      intro x y hxy
      calc (x.map (rules.rewrite e k')).map (rules.rewrite m k')
          = ((x.map (rules.rewrite m k')).map (rules.rewrite (rules.rewrite m k e) k')).map
              (rules.rewrite m k') := by
            cases x with
            | none => rfl
            | some a => exact congrArg some (rules.rewrite_hides m e k' k a).symm
        _ = ((y.map (rules.rewrite m k')).map (rules.rewrite (rules.rewrite m k e) k')).map
              (rules.rewrite m k') := by rw [hxy]
        _ = (y.map (rules.rewrite (rules.rewrite m k e) k')).map (rules.rewrite m k') := by
            cases y with
            | none => rfl
            | some a => exact congrArg some (rewrite_twice_hides rules m e k' k a)
    apply hthere
    by_cases hk : k' = k
    · subst hk
      simp only [if_true, Option.map_some, rules.rewrite_twice]
    · simp only [if_neg hk]
      exact h.entries k'
  · have hside := rules.side_hides m (rules.rewrite m k e) k v'.side
    rw [rules.rewrite_twice] at hside
    calc rules.side m (rules.side e v.side)
        = rules.side m (rules.side (rules.rewrite m k e) (rules.side m v.side)) :=
          (rules.side_hides m e k v.side).symm
      _ = rules.side m (rules.side (rules.rewrite m k e) (rules.side m v'.side)) := by
          rw [h.side]
      _ = rules.side m (rules.side (rules.rewrite m k e) v'.side) := hside

theorem Agree.catchUp (h : v.Agree rules m v') (entries : List (κ × α)) :
    (v.catchUp rules entries).Agree rules m
      (v'.catchUp rules (entries.map fun entry => (entry.1, rules.rewrite m entry.1 entry.2))) := by
  induction entries generalizing v v' with
  | nil => exact h
  | cons entry rest ih => exact ih (h.take entry.1 entry.2)

theorem catchUp_append (rules : Rules κ α β) (v : View κ α β) (older newer : List (κ × α)) :
    v.catchUp rules (older ++ newer) = (v.catchUp rules older).catchUp rules newer :=
  List.foldl_append ..

theorem catchUp_marked (h : v.Agree rules m v') (entries : List (κ × α)) (k : κ) : v'.catchUp rules
        ((entries.map fun entry => (entry.1, rules.rewrite m entry.1 entry.2)) ++ [(k, m)]) =
      (v.catchUp rules entries).take rules k m := by
  rw [catchUp_append]
  exact ((h.catchUp entries).take_self k).symm

end View

end Substrate.Lib
