import Mathlib.Data.List.Basic

/-!
Pure POSIX paths as `pathlib` reads them: a root and the names below it, without empty
names and dots. Nothing is looked up, so two dots stay as they are.
-/

namespace Substrate.Lib

open List

theorem not_mem_of_mem_splitOn {raw part : List Char} (h : part ∈ raw.splitOn '/') :
    '/' ∉ part := by
  induction raw generalizing part with
  | nil =>
    rw [splitOn_nil, mem_singleton] at h
    rw [h]
    exact not_mem_nil
  | cons c rest ih =>
    rw [splitOn_cons_eq_if_modifyHead] at h
    obtain ⟨first, more, hsplit⟩ := exists_cons_of_ne_nil (splitOn_ne_nil '/' rest)
    rw [hsplit] at h ih
    split at h
    · rcases mem_cons.mp h with rfl | hpart
      · exact not_mem_nil
      · exact ih hpart
    · next hc =>
        rw [modifyHead_cons] at h
        rcases mem_cons.mp h with rfl | hpart
        · have hfirst := ih mem_cons_self
          have hne : '/' ≠ c := fun heq => hc (beq_iff_eq.mpr heq.symm)
          simp [hne, hfirst]
        · exact ih (mem_cons_of_mem _ hpart)

structure PurePosixPath where
  root : List Char
  tail : List (List Char)
  deriving DecidableEq, Repr

namespace PurePosixPath

def splitRoot : List Char → List Char × List Char
  | '/' :: '/' :: '/' :: rest => (['/'], '/' :: '/' :: rest)
  | '/' :: '/' :: rest => (['/', '/'], rest)
  | '/' :: rest => (['/'], rest)
  | rest => ([], rest)

def of (raw : List Char) : PurePosixPath :=
  ⟨(splitRoot raw).1, ((splitRoot raw).2.splitOn '/').filter fun name => name ≠ [] ∧ name ≠ ['.']⟩

def parts (p : PurePosixPath) : List (List Char) :=
  if p.root = [] then p.tail else p.root :: p.tail

def text (p : PurePosixPath) : List Char :=
  if p.root = [] ∧ p.tail = [] then ['.'] else p.root ++ List.intercalate ['/'] p.tail

def parent (p : PurePosixPath) : PurePosixPath := { p with tail := p.tail.dropLast }

def name (p : PurePosixPath) : List Char := p.tail.getLast?.getD []

def join (p : PurePosixPath) (raw : List Char) : PurePosixPath :=
  if (of raw).root = [] then ⟨p.root, p.tail ++ (of raw).tail⟩ else of raw

def suffix (p : PurePosixPath) : List Char :=
  let last := (p.name.reverse.takeWhile fun c => c ≠ '.').reverse
  let stem := p.name.take (p.name.length - last.length - 1)
  if stem.any fun c => c ≠ '.' then '.' :: last else []

theorem slash_not_mem_name (raw : List Char) : '/' ∉ (of raw).name := by
  unfold name
  cases hlast : (of raw).tail.getLast? with
  | none => exact not_mem_nil
  | some last =>
    have hmem : last ∈ (of raw).tail := mem_of_getLast? hlast
    exact not_mem_of_mem_splitOn (mem_filter.mp hmem).1

theorem slash_not_mem_suffix (raw : List Char) : '/' ∉ (of raw).suffix := by
  intro hmem
  unfold suffix at hmem
  dsimp only at hmem
  split at hmem
  · rcases mem_cons.mp hmem with hdot | hlast
    · cases hdot
    · rw [mem_reverse] at hlast
      have hname := mem_reverse.mp ((takeWhile_sublist _).subset hlast)
      exact slash_not_mem_name raw hname
  · cases hmem

theorem append_slash_inj {front back front' back' : List Char} (hback : '/' ∉ back)
    (hback' : '/' ∉ back') (h : front ++ '/' :: back = front' ++ '/' :: back') :
    front = front' ∧ back = back' := by
  have hnone : ∀ {b b' extra : List Char}, '/' ∉ b → '/' :: b = extra ++ '/' :: b' →
      extra = [] := by
    intro b b' extra hb heq
    cases extra with
    | nil => rfl
    | cons c rest =>
      have hrest := (List.cons.inj heq).2
      exact absurd (by rw [hrest]; simp) hb
  have hfront : front = front' := by
    rcases append_eq_append_iff.mp h with ⟨extra, hother, htail⟩ | ⟨extra, hother, htail⟩
    · rw [hnone hback htail, append_nil] at hother
      exact hother.symm
    · rw [hnone hback' htail, append_nil] at hother
      exact hother
  subst hfront
  exact ⟨rfl, (List.cons.inj (append_cancel_left h)).2⟩

end PurePosixPath

end Substrate.Lib
