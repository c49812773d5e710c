import Mathlib.Data.List.DropRight
import Mathlib.Data.Nat.Digits.Lemmas
import Mathlib.Tactic.Common

/-!
What Python's `str` does with white space, digits and line breaks, on lists of characters,
and decimal numerals.
-/

namespace Substrate.Lib.PyText

open List

abbrev Text := List Char

/-- `str.isspace` of one character, which is also `\s`. -/
def isSpace (c : Char) : Bool :=
  c.toNat ∈ [0x9, 0xA, 0xB, 0xC, 0xD, 0x1C, 0x1D, 0x1E, 0x1F, 0x20, 0x85, 0xA0, 0x1680, 0x2000,
    0x2001, 0x2002, 0x2003, 0x2004, 0x2005, 0x2006, 0x2007, 0x2008, 0x2009, 0x200A, 0x2028,
    0x2029, 0x202F, 0x205F, 0x3000]

def lstrip (text : Text) : Text := text.dropWhile isSpace

def rstrip (text : Text) : Text := text.rdropWhile isSpace

def strip (text : Text) : Text := rstrip (lstrip text)

def isBlank (text : Text) : Bool := text.all isSpace

variable {c : Char} {text : Text}

theorem lstrip_cons_of_not (h : isSpace c = false) : lstrip (c :: text) = c :: text := by
  simp [lstrip, h]

theorem lstrip_length_le (text : Text) : (lstrip text).length ≤ text.length :=
  (dropWhile_suffix isSpace).length_le

theorem lstrip_cons_of_space (h : isSpace c = true) : lstrip (c :: text) = lstrip text := by
  simp [lstrip, h]

theorem lstrip_head {rest : Text} (h : lstrip text = c :: rest) : isSpace c = false := by
  induction text with
  | nil => cases h
  | cons d text ih =>
    cases hspace : isSpace d with
    | true =>
      rw [lstrip_cons_of_space hspace] at h
      exact ih h
    | false =>
      rw [lstrip_cons_of_not hspace] at h
      cases h
      exact hspace

theorem lstrip_of_head (h : ∀ c rest, text = c :: rest → isSpace c = false) :
    lstrip text = text := by
  cases text with
  | nil => rfl
  | cons c rest => exact lstrip_cons_of_not (h c rest rfl)

/-- A text that neither starts nor ends with white space. -/
def Trimmed (text : Text) : Prop := strip text = text

theorem rstrip_of_last (h : ∀ c, text.getLast? = some c → isSpace c = false) :
    rstrip text = text := by
  rw [rstrip, rdropWhile_eq_self_iff]
  intro hne hspace
  rw [h _ (List.getLast?_eq_getLast_of_ne_nil hne)] at hspace
  cases hspace

theorem rstrip_cons_of_not (h : isSpace c = false) (text : Text) :
    rstrip (c :: text) = c :: rstrip text := by
  unfold rstrip List.rdropWhile
  rw [reverse_cons, dropWhile_append]
  split
  · next hnil =>
    rw [isEmpty_iff.mp hnil]
    simp [h]
  · simp

theorem strip_of_head_last (hhead : ∀ c, text.head? = some c → isSpace c = false)
    (hlast : ∀ c, text.getLast? = some c → isSpace c = false) : strip text = text := by
  rw [strip, lstrip_of_head, rstrip_of_last hlast]
  intro c rest hc
  apply hhead
  rw [hc]
  rfl

theorem strip_cons_of_space (h : isSpace c = true) (text : Text) :
    strip (c :: text) = strip text := by
  rw [strip, lstrip_cons_of_space h, ← strip]

theorem strip_concat_of_space (h : isSpace c = true) (text : Text) :
    strip (text ++ [c]) = strip text := by
  unfold strip lstrip
  rw [dropWhile_append]
  split
  · next hnil =>
    rw [isEmpty_iff.mp hnil]
    simp [rstrip, h]
  · simp [rstrip, rdropWhile_concat_pos, h]

@[simp] theorem strip_strip (text : Text) : strip (strip text) = strip text := by
  apply strip_of_head_last
  · intro c hc
    cases hleft : lstrip text with
    | nil =>
      rw [strip, hleft] at hc
      cases hc
    | cons d rest =>
      have hspace := lstrip_head hleft
      rw [strip, hleft, rstrip_cons_of_not hspace] at hc
      cases hc
      exact hspace
  · intro c hc
    have hne : rstrip (lstrip text) ≠ [] := by
      intro hnil
      rw [strip, hnil] at hc
      cases hc
    have hlast := rdropWhile_last_not isSpace (lstrip text) hne
    have heq : c = (rstrip (lstrip text)).getLast hne := by
      rw [strip, List.getLast?_eq_getLast_of_ne_nil hne] at hc
      exact (Option.some.inj hc).symm
    rw [heq]
    exact Bool.eq_false_iff.mpr hlast

/-- The code points of the decimal digits for zero. -/
def zeros : List Nat :=
  [0x30, 0x660, 0x6F0, 0x7C0, 0x966, 0x9E6, 0xA66, 0xAE6, 0xB66, 0xBE6, 0xC66, 0xCE6, 0xD66,
    0xDE6, 0xE50, 0xED0, 0xF20, 0x1040, 0x1090, 0x17E0, 0x1810, 0x1946, 0x19D0, 0x1A80, 0x1A90,
    0x1B50, 0x1BB0, 0x1C40, 0x1C50, 0xA620, 0xA8D0, 0xA900, 0xA9D0, 0xA9F0, 0xAA50, 0xABF0,
    0xFF10, 0x104A0, 0x10D30, 0x11066, 0x110F0, 0x11136, 0x111D0, 0x112F0, 0x11450, 0x114D0,
    0x11650, 0x116C0, 0x11730, 0x118E0, 0x11950, 0x11C50, 0x11D50, 0x11DA0, 0x16A60, 0x16AC0,
    0x16B50, 0x1D7CE, 0x1D7D8, 0x1D7E2, 0x1D7EC, 0x1D7F6, 0x1E140, 0x1E2F0, 0x1E950, 0x1FBF0]

/-- The value of a decimal digit of any script, which is `\d`. -/
def digit? (c : Char) : Option Nat :=
  zeros.findSome? fun first =>
    if first ≤ c.toNat ∧ c.toNat < first + 10 then some (c.toNat - first) else none

def isDigit (c : Char) : Bool := (digit? c).isSome

def digitChar (n : Nat) : Char := Char.ofNat (48 + n)

theorem digit?_digitChar : ∀ n < 10, digit? (digitChar n) = some n := by decide

/-- `int` of a run of digits. -/
def readNat (text : Text) : Nat := text.foldl (fun n c => 10 * n + (digit? c).getD 0) 0

/-- `str` of a natural number. -/
def natText (n : Nat) : Text :=
  if n = 0 then ['0'] else (Nat.digits 10 n).reverse.map digitChar

theorem natText_digits (n : Nat) : ∀ c ∈ natText n, ∃ d < 10, c = digitChar d := by
  unfold natText
  split
  · intro c hc
    rw [mem_singleton.mp hc]
    exact ⟨0, by decide, rfl⟩
  · intro c hc
    obtain ⟨d, hd, rfl⟩ := mem_map.mp hc
    exact ⟨d, Nat.digits_lt_base (by decide) (mem_reverse.mp hd), rfl⟩

theorem natText_ne_nil (n : Nat) : natText n ≠ [] := by
  unfold natText
  split
  · simp
  · next hne => simp [Nat.digits_ne_nil_iff_ne_zero, hne]

theorem foldl_digits (ds : List Nat) (hds : ∀ d ∈ ds, d < 10) (start : Nat) :
    (ds.map digitChar).foldl (fun n c => 10 * n + (digit? c).getD 0) start =
      ds.foldl (fun n d => 10 * n + d) start := by
  induction ds generalizing start with
  | nil => rfl
  | cons d ds ih =>
    rw [map_cons, foldl_cons, foldl_cons, digit?_digitChar d (hds d mem_cons_self)]
    exact ih (fun e he => hds e (mem_cons_of_mem _ he)) _

theorem foldl_ofDigits (ds : List Nat) :
    ds.reverse.foldl (fun n d => 10 * n + d) 0 = Nat.ofDigits 10 ds := by
  rw [foldl_reverse]
  induction ds with
  | nil => rfl
  | cons d ds ih =>
    rw [foldr_cons, ih, Nat.ofDigits_cons]
    omega

theorem readNat_natText (n : Nat) : readNat (natText n) = n := by
  unfold natText readNat
  split
  · next hzero =>
    subst hzero
    decide
  · rw [foldl_digits, foldl_ofDigits, Nat.ofDigits_digits]
    intro d hd
    exact Nat.digits_lt_base (by decide) (mem_reverse.mp hd)

theorem natText_head {n : Nat} (hn : n ≠ 0) :
    ∃ d rest, natText n = digitChar d :: rest ∧ 0 < d ∧ d < 10 := by
  have hne : Nat.digits 10 n ≠ [] := Nat.digits_ne_nil_iff_ne_zero.mpr hn
  have hlast := Nat.getLast_digit_ne_zero 10 hn
  have hlt : (Nat.digits 10 n).getLast hne < 10 := Nat.digits_lt_base (by decide) (getLast_mem hne)
  refine ⟨(Nat.digits 10 n).getLast hne, ((Nat.digits 10 n).dropLast.reverse).map digitChar, ?_,
    Nat.pos_of_ne_zero hlast, hlt⟩
  rw [natText, if_neg hn]
  conv_lhs => rw [← dropLast_append_getLast hne]
  simp

end Substrate.Lib.PyText
