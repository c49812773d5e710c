import Mathlib.Data.List.Infix
import Mathlib.Data.List.Lex
import Mathlib.Data.List.TakeWhile

/-!
Paths made of names, each of which ends with a separator. Names without a separator are found
again in the path, so one folder lies above a path exactly when its names come first there.
In the order of the texts, what one text begins stands together, right after that text.
-/

namespace Substrate.Lib

open List

variable {α : Type*} (sep : α)

def folder (names : List (List α)) : List α := names.flatMap fun name => name ++ [sep]

def Names (names : List (List α)) : Prop := ∀ name ∈ names, sep ∉ name

variable {sep}

@[simp] theorem folder_nil : folder sep [] = [] := rfl

theorem folder_cons (name : List α) (names : List (List α)) :
    folder sep (name :: names) = name ++ sep :: folder sep names := by
  simp [folder]

theorem start_iff {name other : List α} (hname : sep ∉ name) (hother : sep ∉ other)
    (rest text : List α) :
    name ++ sep :: rest <+: other ++ sep :: text ↔ name = other ∧ rest <+: text := by
  induction name generalizing other with
  | nil =>
    cases other with
    | nil => simp
    | cons b other =>
      have hne : sep ≠ b := fun h => hother (h ▸ mem_cons_self)
      simp [hne]
  | cons a name ih =>
    have ha : a ≠ sep := fun h => hname (h ▸ mem_cons_self)
    have hrest : sep ∉ name := fun h => hname (mem_cons_of_mem a h)
    cases other with
    | nil => simp [ha]
    | cons b other =>
      have hmore : sep ∉ other := fun h => hother (mem_cons_of_mem b h)
      have hboth := ih hrest hmore
      simp only [cons_append, cons_prefix_cons, hboth, List.cons.injEq]
      tauto

theorem folder_start_iff {names others : List (List α)} (hnames : Names sep names)
    (hothers : Names sep others) (hlength : names.length ≤ others.length) (rest : List α) :
    folder sep names <+: folder sep others ++ rest ↔ names <+: others := by
  induction names generalizing others with
  | nil => simp
  | cons name names ih =>
    cases others with
    | nil => simp at hlength
    | cons other others =>
      have hmore := ih (fun n hn => hnames n (mem_cons_of_mem name hn))
        (fun n hn => hothers n (mem_cons_of_mem other hn)) (by simpa using hlength)
      have hfirst := start_iff (hnames name mem_cons_self)
        (hothers other mem_cons_self) (folder sep names) (folder sep others ++ rest)
      rw [folder_cons, folder_cons, append_assoc, cons_append, hfirst, hmore,
        cons_prefix_cons]

section Order

variable [LinearOrder α]

theorem le_of_start {mark text : List α} (h : mark <+: text) : mark ≤ text :=
  not_lt.mp fun hlt => h.le hlt

theorem start_between {mark text later : List α} (hmark : mark ≤ text) (hlater : text ≤ later)
    (h : mark <+: later) : mark <+: text := by
  induction mark generalizing text later with
  | nil => exact nil_prefix
  | cons a mark ih =>
    cases later with
    | nil => simp at h
    | cons b later =>
      obtain ⟨rfl, hrest⟩ := cons_prefix_cons.mp h
      cases text with
      | nil => exact absurd (nil_lt_cons a mark) (not_lt.mpr hmark)
      | cons c text =>
        rw [← not_lt, cons_lt_cons_iff, not_or, not_and] at hmark hlater
        have hc : c = a := le_antisymm (not_lt.mp hlater.1) (not_lt.mp hmark.1)
        subst hc
        have hbelow := ih (not_lt.mp (hmark.2 rfl)) (not_lt.mp (hlater.2 rfl)) hrest
        exact cons_prefix_cons.mpr ⟨rfl, hbelow⟩

end Order

section Search

variable [DecidableEq α]

def before? (mark : List α) : List α → Option (List α)
  | [] => if mark = [] then some [] else none
  | a :: text => if mark <+: a :: text then some [] else (before? mark text).map (a :: ·)

theorem before?_name {name : List α} (hname : sep ∉ name) (mark text : List α) :
    before? (sep :: mark) (name ++ sep :: text) =
      if mark <+: text then some name
      else (before? (sep :: mark) text).map fun front => name ++ sep :: front := by
  induction name with
  | nil =>
    simp only [nil_append, before?, cons_prefix_cons, true_and]
  | cons a name ih =>
    have ha : sep ≠ a := fun h => hname (h ▸ mem_cons_self)
    have hrest : sep ∉ name := fun h => hname (mem_cons_of_mem a h)
    simp only [cons_append, before?, cons_prefix_cons, ha, false_and, if_false, ih hrest]
    split
    · rfl
    · simp [Function.comp_def]

theorem before?_folder {mark first : List α} {names : List (List α)} (hmark : sep ∉ mark)
    (hfirst : sep ∉ first) (hnames : Names sep names) (hmem : mark ∈ names) (rest : List α) :
    (before? (sep :: (mark ++ [sep])) (folder sep (first :: names) ++ rest)).map (· ++ [sep]) =
      some (folder sep (first :: names.takeWhile (· ≠ mark))) := by
  induction names generalizing first with
  | nil => cases hmem
  | cons name names ih =>
    have hname := hnames name mem_cons_self
    have hmore : Names sep names := fun n hn => hnames n (mem_cons_of_mem name hn)
    have hhere : mark ++ [sep] <+: name ++ sep :: (folder sep names ++ rest) ↔ mark = name := by
      have h := start_iff hmark hname [] (folder sep names ++ rest)
      simpa using h
    have hback : name ++ sep :: (folder sep names ++ rest) =
        folder sep (name :: names) ++ rest := by
      simp [folder_cons]
    rw [hback] at hhere
    have hcut := before?_name hfirst (mark ++ [sep]) (folder sep (name :: names) ++ rest)
    rw [folder_cons first, append_assoc, cons_append, hcut]
    by_cases heq : mark = name
    · subst heq
      rw [if_pos (hhere.mpr rfl)]
      simp [folder_cons]
    · have hin : mark ∈ names := (mem_cons.mp hmem).resolve_left heq
      have hrest := ih hname hmore hin
      rw [if_neg fun h => heq (hhere.mp h)]
      cases hbefore : before? (sep :: (mark ++ [sep])) (folder sep (name :: names) ++ rest) with
      | none =>
        rw [hbefore] at hrest
        cases hrest
      | some front =>
        rw [hbefore, Option.map_some, Option.some.injEq] at hrest
        have hne : name ≠ mark := fun h => heq h.symm
        simp [folder_cons first, hrest, hne]

end Search

end Substrate.Lib
