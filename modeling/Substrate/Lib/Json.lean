import Mathlib.Data.List.Basic
import Mathlib.Tactic.Common

/-!
The text that `json.dumps` makes of a list of texts and nulls, in ASCII. Two lists of one
length that differ have different texts; and no such text ends in another one after a
bar, so what stands before a bar and such a text can be told apart from it.
-/

namespace Substrate.Lib.Json

open List

abbrev Text := List Char

def quote : Char := Char.ofNat 0x22

def backslash : Char := Char.ofNat 0x5C

def hexDigit (n : Nat) : Char :=
  if n < 10 then Char.ofNat (48 + n) else Char.ofNat (87 + n)

def hex4 (n : Nat) : Text :=
  [hexDigit (n / 4096 % 16), hexDigit (n / 256 % 16), hexDigit (n / 16 % 16), hexDigit (n % 16)]

def unit16 (n : Nat) : Text := backslash :: 'u' :: hex4 n

def shorts : List (Char × Char) :=
  [(quote, quote), (backslash, backslash), ('\n', 'n'), ('\r', 'r'), ('\t', 't'),
    (Char.ofNat 8, 'b'), (Char.ofNat 12, 'f')]

def short (c : Char) : Option Char := (shorts.find? fun entry => entry.1 = c).map Prod.snd

def escape (c : Char) : Text :=
  match short c with
  | some e => [backslash, e]
  | none =>
    if 0x20 ≤ c.toNat ∧ c.toNat ≤ 0x7E then [c]
    else if c.toNat < 0x10000 then unit16 c.toNat
    else
      unit16 (0xD800 + (c.toNat - 0x10000) / 1024) ++ unit16 (0xDC00 + (c.toNat - 0x10000) % 1024)

def encode : Option Text → Text
  | none => ['n', 'u', 'l', 'l']
  | some text => quote :: (text.flatMap escape ++ [quote])

/-- `json.dumps` of a list. -/
def dumps : List (Option Text) → Text
  | [] => ['[', ']']
  | v :: rest => '[' :: (encode v ++ rest.flatMap (fun w => ',' :: ' ' :: encode w) ++ [']'])

def unhex (c : Char) : Nat := if c.toNat < 58 then c.toNat - 48 else c.toNat - 87

theorem unhex_hexDigit : ∀ n < 16, unhex (hexDigit n) = n := by decide

theorem hexDigit_plain : ∀ n < 16, hexDigit n ≠ quote ∧ hexDigit n ≠ backslash := by decide

variable {n m : Nat} {r s x y : Text} {c e d : Char} {vs ws : List (Option Text)} {scan : Scan}

theorem hexDigit_inj (hn : n < 16) (hm : m < 16) (h : hexDigit n = hexDigit m) : n = m := by
  rw [← unhex_hexDigit n hn, ← unhex_hexDigit m hm, h]

theorem hex4_append_inj (hn : n < 65536) (hm : m < 65536) (h : hex4 n ++ r = hex4 m ++ s) :
    n = m ∧ r = s := by
  unfold hex4 at h
  simp only [cons_append, nil_append, List.cons.injEq] at h
  obtain ⟨h₃, h₂, h₁, h₀, hrest⟩ := h
  have e₃ := hexDigit_inj (Nat.mod_lt _ (by decide)) (Nat.mod_lt _ (by decide)) h₃
  have e₂ := hexDigit_inj (Nat.mod_lt _ (by decide)) (Nat.mod_lt _ (by decide)) h₂
  have e₁ := hexDigit_inj (Nat.mod_lt _ (by decide)) (Nat.mod_lt _ (by decide)) h₁
  have e₀ := hexDigit_inj (Nat.mod_lt _ (by decide)) (Nat.mod_lt _ (by decide)) h₀
  exact ⟨by omega, hrest⟩

theorem short_mem (h : short c = some e) : (c, e) ∈ shorts := by
  unfold short at h
  obtain ⟨entry, hfind, rfl⟩ := Option.map_eq_some_iff.mp h
  have hkey := List.find?_some hfind
  have hmem := mem_of_find?_eq_some hfind
  rw [← of_decide_eq_true hkey]
  exact hmem

theorem shorts_inj : ∀ p ∈ shorts, ∀ q ∈ shorts, p.2 = q.2 → p.1 = q.1 := by decide

theorem short_inj (hc : short c = some e) (hd : short d = some e) : c = d :=
  shorts_inj (c, e) (short_mem hc) (d, e) (short_mem hd) rfl

theorem short_ne_u (h : short c = some e) : e ≠ 'u' := by
  have hall : ∀ p ∈ shorts, p.2 ≠ 'u' := by decide
  exact hall (c, e) (short_mem h)

theorem short_quote : short quote = some quote := by decide

theorem short_backslash : short backslash = some backslash := by decide

inductive Units (c : Char) : Text → Prop where
  | one (h : c.toNat < 0x10000) : Units c (unit16 c.toNat)
  | two (h : 0x10000 ≤ c.toNat) :
      Units c (unit16 (0xD800 + (c.toNat - 0x10000) / 1024) ++
        unit16 (0xDC00 + (c.toNat - 0x10000) % 1024))

theorem escape_cases (c : Char) : (escape c = [c] ∧ c ≠ quote ∧ c ≠ backslash) ∨
      (∃ e, short c = some e ∧ escape c = [backslash, e]) ∨ Units c (escape c) := by
  unfold escape
  cases hshort : short c with
  | some e => exact .inr (.inl ⟨e, rfl, rfl⟩)
  | none =>
    dsimp only
    split
    · left
      refine ⟨rfl, fun heq => ?_, fun heq => ?_⟩
      · rw [heq, short_quote] at hshort
        cases hshort
      · rw [heq, short_backslash] at hshort
        cases hshort
    · right
      right
      split
      · next hlt => exact .one hlt
      · next hge => exact .two (by omega)

theorem toNat_valid (c : Char) : c.toNat < 0xD800 ∨ 0xDFFF < c.toNat ∧ c.toNat < 0x110000 := c.valid

theorem Units.inj (hx : Units c x) (hy : Units d y) (h : x ++ r = y ++ s) : c = d ∧ r = s := by
  have hc := toNat_valid c
  have hd := toNat_valid d
  have hnat : c.toNat = d.toNat ∧ r = s := by
    cases hx with
    | one hlt =>
      cases hy with
      | one hlt' =>
        simp only [unit16, cons_append, List.cons.injEq, true_and] at h
        exact hex4_append_inj (by omega) (by omega) h
      | two hge' =>
        simp only [unit16, cons_append, List.cons.injEq, true_and, append_assoc] at h
        have hfirst := (hex4_append_inj (by omega) (by omega) h).1
        omega
    | two hge =>
      cases hy with
      | one hlt' =>
        simp only [unit16, cons_append, List.cons.injEq, true_and, append_assoc] at h
        have hfirst := (hex4_append_inj (by omega) (by omega) h).1
        omega
      | two hge' =>
        simp only [unit16, cons_append, List.cons.injEq, true_and, append_assoc] at h
        obtain ⟨hhigh, hrest⟩ := hex4_append_inj (by omega) (by omega) h
        simp only [List.cons.injEq, true_and] at hrest
        obtain ⟨hlow, heq⟩ := hex4_append_inj (by omega) (by omega) hrest
        exact ⟨by omega, heq⟩
  exact ⟨Char.toNat_inj.mp hnat.1, hnat.2⟩

theorem Units.head (h : Units c x) : ∃ rest, x = backslash :: 'u' :: rest := by
  cases h with
  | one _ | two _ => exact ⟨_, rfl⟩

theorem escape_append_inj (h : escape c ++ r = escape d ++ s) : c = d ∧ r = s := by
  rcases escape_cases c with ⟨hc, hcq, hcb⟩ | ⟨e, hce, hc⟩ | hc
  · rcases escape_cases d with ⟨hd, _, _⟩ | ⟨e', _, hd⟩ | hd
    · rw [hc, hd] at h
      exact List.cons.inj h
    · rw [hc, hd] at h
      exact absurd (List.cons.inj h).1 hcb
    · obtain ⟨rest, hrest⟩ := hd.head
      rw [hc, hrest] at h
      exact absurd (List.cons.inj h).1 hcb
  · rcases escape_cases d with ⟨hd, _, hdb⟩ | ⟨e', hde, hd⟩ | hd
    · rw [hc, hd] at h
      exact absurd (List.cons.inj h).1.symm hdb
    · rw [hc, hd] at h
      have htail := List.cons.inj (List.cons.inj h).2
      have heq : e = e' := htail.1
      subst heq
      exact ⟨short_inj hce hde, htail.2⟩
    · obtain ⟨rest, hrest⟩ := hd.head
      rw [hc, hrest] at h
      exact absurd (List.cons.inj (List.cons.inj h).2).1 (short_ne_u hce)
  · rcases escape_cases d with ⟨hd, _, hdb⟩ | ⟨e', hde, hd⟩ | hd
    · obtain ⟨rest, hrest⟩ := hc.head
      rw [hd, hrest] at h
      exact absurd (List.cons.inj h).1.symm hdb
    · obtain ⟨rest, hrest⟩ := hc.head
      rw [hd, hrest] at h
      exact absurd (List.cons.inj (List.cons.inj h).2).1.symm (short_ne_u hde)
    · exact hc.inj hd h

theorem escape_head (c : Char) : ∃ first rest, escape c = first :: rest ∧ first ≠ quote := by
  rcases escape_cases c with ⟨hc, hcq, _⟩ | ⟨e, _, hc⟩ | hc
  · exact ⟨c, [], hc, hcq⟩
  · exact ⟨backslash, [e], hc, by decide⟩
  · obtain ⟨rest, hrest⟩ := hc.head
    exact ⟨backslash, 'u' :: rest, hrest, by decide⟩

theorem literal_append_inj (h : x.flatMap escape ++ quote :: r = y.flatMap escape ++ quote :: s) :
    x = y ∧ r = s := by
  induction x generalizing y with
  | nil =>
    cases y with
    | nil => exact ⟨rfl, (List.cons.inj h).2⟩
    | cons d y =>
      obtain ⟨first, rest, hfirst, hne⟩ := escape_head d
      rw [flatMap_cons, hfirst] at h
      exact absurd (List.cons.inj h).1.symm hne
  | cons c x ih =>
    cases y with
    | nil =>
      obtain ⟨first, rest, hfirst, hne⟩ := escape_head c
      rw [flatMap_cons, hfirst] at h
      exact absurd (List.cons.inj h).1 hne
    | cons d y =>
      rw [flatMap_cons, flatMap_cons, append_assoc, append_assoc] at h
      obtain ⟨rfl, hrest⟩ := escape_append_inj h
      obtain ⟨rfl, heq⟩ := ih hrest
      exact ⟨rfl, heq⟩

theorem encode_append_inj {v w : Option Text} (h : encode v ++ r = encode w ++ s) :
    v = w ∧ r = s := by
  have hquote : 'n' ≠ quote := by decide
  cases v with
  | none =>
    cases w with
    | none => exact ⟨rfl, append_cancel_left h⟩
    | some y => exact absurd (List.cons.inj h).1 hquote
  | some x =>
    cases w with
    | none => exact absurd (List.cons.inj h).1.symm hquote
    | some y =>
      unfold encode at h
      rw [cons_append, cons_append, append_assoc, append_assoc] at h
      obtain ⟨rfl, heq⟩ := literal_append_inj (List.cons.inj h).2
      exact ⟨rfl, heq⟩

theorem dumps_inj (hlength : vs.length = ws.length) (h : dumps vs = dumps ws) : vs = ws := by
  have htail : ∀ (vs ws : List (Option Text)), vs.length = ws.length →
      vs.flatMap (fun w => ',' :: ' ' :: encode w) ++ [']'] =
        ws.flatMap (fun w => ',' :: ' ' :: encode w) ++ [']'] → vs = ws := by
    intro vs
    induction vs with
    | nil =>
      intro ws hlength _
      exact (length_eq_zero_iff.mp hlength.symm).symm
    | cons v vs ih =>
      intro ws hlength h
      cases ws with
      | nil => cases hlength
      | cons w ws =>
        rw [flatMap_cons, flatMap_cons, append_assoc, append_assoc] at h
        obtain ⟨rfl, hrest⟩ := encode_append_inj (List.cons.inj (List.cons.inj h).2).2
        rw [ih ws (Nat.succ.inj hlength) hrest]
  cases vs with
  | nil => exact (length_eq_zero_iff.mp hlength.symm).symm
  | cons v vs =>
    cases ws with
    | nil => cases hlength
    | cons w ws =>
      simp only [dumps, append_assoc] at h
      obtain ⟨rfl, hrest⟩ := encode_append_inj (List.cons.inj h).2
      rw [htail vs ws (Nat.succ.inj hlength) hrest]

/-- Where a reader is in such a text. It gives up at a bar or a backslash outside. -/
inductive Scan where
  | outside | inside | escaped | broken
  deriving DecidableEq, Repr

def bar : Char := '|'

def Scan.next : Scan → Char → Scan
  | .outside, c =>
    if c = quote then .inside else if c = backslash ∨ c = bar then .broken else .outside
  | .inside, c => if c = quote then .outside else if c = backslash then .escaped else .inside
  | .escaped, _ => .inside
  | .broken, _ => .broken

def Scan.read (scan : Scan) (text : Text) : Scan := text.foldl Scan.next scan

theorem Scan.read_append (scan : Scan) (x y : Text) :
    scan.read (x ++ y) = (scan.read x).read y := foldl_append

theorem Scan.read_cons (scan : Scan) (c : Char) (x : Text) :
    scan.read (c :: x) = (scan.next c).read x := rfl

theorem Scan.read_broken (x : Text) : Scan.broken.read x = .broken := by
  induction x with
  | nil => rfl
  | cons c x ih => exact ih

theorem read_inside (h : ∀ c ∈ x, c ≠ quote ∧ c ≠ backslash) : Scan.inside.read x = .inside := by
  induction x with
  | nil => rfl
  | cons c x ih =>
    obtain ⟨hquote, hbackslash⟩ := h c mem_cons_self
    have hnext : Scan.inside.next c = .inside := by
      simp only [Scan.next, if_neg hquote, if_neg hbackslash]
    rw [Scan.read_cons, hnext]
    exact ih fun d hd => h d (mem_cons_of_mem _ hd)

theorem inside_hex4 (n : Nat) : Scan.inside.read (hex4 n) = .inside := by
  apply read_inside
  intro c hc
  unfold hex4 at hc
  simp only [mem_cons, not_mem_nil, or_false] at hc
  rcases hc with rfl | rfl | rfl | rfl
  all_goals exact hexDigit_plain _ (Nat.mod_lt _ (by decide))

theorem inside_unit16 (n : Nat) : Scan.inside.read (unit16 n) = .inside := inside_hex4 n

theorem inside_escape (c : Char) : Scan.inside.read (escape c) = .inside := by
  rcases escape_cases c with ⟨hc, hquote, hbackslash⟩ | ⟨e, _, hc⟩ | hc
  · rw [hc]
    apply read_inside
    intro d hd
    rw [mem_singleton.mp hd]
    exact ⟨hquote, hbackslash⟩
  · rw [hc]
    rfl
  · generalize escape c = x at hc
    cases hc with
    | one _ => exact inside_unit16 _
    | two _ =>
      rw [Scan.read_append, inside_unit16]
      exact inside_unit16 _

theorem inside_literal (x : Text) : Scan.inside.read (x.flatMap escape) = .inside := by
  induction x with
  | nil => rfl
  | cons c x ih =>
    rw [flatMap_cons, Scan.read_append, inside_escape]
    exact ih

theorem outside_encode (v : Option Text) : Scan.outside.read (encode v) = .outside := by
  cases v with
  | none => decide
  | some x =>
    change Scan.inside.read (x.flatMap escape ++ [quote]) = .outside
    rw [Scan.read_append, inside_literal]
    decide

theorem outside_dumps (vs : List (Option Text)) : Scan.outside.read (dumps vs) = .outside := by
  have htail : ∀ vs : List (Option Text),
      Scan.outside.read (vs.flatMap fun w => ',' :: ' ' :: encode w) = .outside := by
    intro vs
    induction vs with
    | nil => rfl
    | cons v vs ih =>
      rw [flatMap_cons, Scan.read_append]
      change (Scan.outside.read (encode v)).read _ = .outside
      rw [outside_encode]
      exact ih
  cases vs with
  | nil => decide
  | cons v vs =>
    change Scan.outside.read (encode v ++ vs.flatMap _ ++ [']']) = .outside
    rw [Scan.read_append, Scan.read_append, outside_encode, htail]
    decide

/-- What is read of a text from inside stays inside or gives up. -/
def Scan.Lost (scan : Scan) : Prop := scan = .inside ∨ scan = .broken

theorem outside_escape (c : Char) :
    Scan.outside.read (escape c) = .outside ∨ Scan.outside.read (escape c) = .broken := by
  rcases escape_cases c with ⟨hc, hquote, hbackslash⟩ | ⟨e, _, hc⟩ | hc
  · rw [hc]
    change Scan.outside.next c = .outside ∨ Scan.outside.next c = .broken
    unfold Scan.next
    dsimp only
    rw [if_neg hquote]
    split
    · exact .inr rfl
    · exact .inl rfl
  · rw [hc]
    exact .inr rfl
  · obtain ⟨rest, hrest⟩ := hc.head
    rw [hrest]
    exact .inr (Scan.read_broken _)

theorem outside_literal (x : Text) : Scan.outside.read (x.flatMap escape) = .outside ∨
      Scan.outside.read (x.flatMap escape) = .broken := by
  induction x with
  | nil => exact .inl rfl
  | cons c x ih =>
    rw [flatMap_cons, Scan.read_append]
    rcases outside_escape c with h | h
    · rw [h]
      exact ih
    · rw [h]
      exact .inr (Scan.read_broken _)

theorem Scan.Lost.encode (h : scan.Lost) (v : Option Text) : (scan.read (encode v)).Lost := by
  rcases h with rfl | rfl
  · cases v with
    | none => exact .inl (by decide)
    | some x =>
      change (Scan.outside.read (x.flatMap escape ++ [quote])).Lost
      rw [Scan.read_append]
      rcases outside_literal x with h | h
      · rw [h]
        exact .inl (by decide)
      · rw [h]
        exact .inr (Scan.read_broken _)
  · exact .inr (Scan.read_broken _)

theorem Scan.Lost.plain (h : scan.Lost) (hx : ∀ c ∈ x, c ≠ quote ∧ c ≠ backslash) :
    (scan.read x).Lost := by
  rcases h with rfl | rfl
  · exact .inl (read_inside hx)
  · exact .inr (Scan.read_broken _)

theorem Scan.Lost.dumps (h : scan.Lost) (vs : List (Option Text)) :
    (scan.read (dumps vs)).Lost := by
  have htail : ∀ (vs : List (Option Text)) {scan : Scan}, scan.Lost →
      (scan.read (vs.flatMap fun w => ',' :: ' ' :: Json.encode w)).Lost := by
    intro vs
    induction vs with
    | nil => exact fun h => h
    | cons v vs ih =>
      intro scan h
      rw [flatMap_cons, Scan.read_append]
      apply ih
      have hcomma : (scan.read [',', ' ']).Lost := h.plain (by simp [quote, backslash])
      exact hcomma.encode v
  cases vs with
  | nil => exact h.plain (by simp [Json.dumps, quote, backslash])
  | cons v vs =>
    have hopen : (scan.read ['[']).Lost := h.plain (by simp [quote, backslash])
    have hitems := htail vs (hopen.encode v)
    have hclose : (((scan.read ['[']).read (Json.encode v)).read
        (vs.flatMap fun w => ',' :: ' ' :: Json.encode w) |>.read [']']).Lost :=
      hitems.plain (by simp [quote, backslash])
    rw [← Scan.read_append, ← Scan.read_append, ← Scan.read_append] at hclose
    simp only [Json.dumps, append_assoc]
    exact hclose

theorem dumps_ne_append_bar (vs ws : List (Option Text)) (x : Text) :
    dumps vs ≠ x ++ bar :: dumps ws := by
  intro h
  have hread := outside_dumps vs
  rw [h, Scan.read_append, Scan.read_cons] at hread
  have hlost : ((Scan.outside.read x).next bar).Lost := by
    cases Scan.outside.read x with
    | outside => exact .inr (by decide)
    | inside => exact .inl (by decide)
    | escaped => exact .inl rfl
    | broken => exact .inr rfl
  rcases hlost.dumps ws with hinside | hbroken
  · rw [hinside] at hread
    cases hread
  · rw [hbroken] at hread
    cases hread

theorem append_bar_inj (hlength : vs.length = ws.length)
    (h : x ++ bar :: dumps vs = y ++ bar :: dumps ws) : x = y ∧ vs = ws := by
  rcases append_eq_append_iff.mp h with ⟨a, ha, hrest⟩ | ⟨a, ha, hrest⟩
  · cases a with
    | nil =>
      rw [append_nil] at ha
      exact ⟨ha.symm, dumps_inj hlength (List.cons.inj hrest).2⟩
    | cons c a => exact absurd (List.cons.inj hrest).2 (dumps_ne_append_bar vs ws a)
  · cases a with
    | nil =>
      rw [append_nil] at ha
      exact ⟨ha, (dumps_inj hlength.symm (List.cons.inj hrest).2).symm⟩
    | cons c a => exact absurd (List.cons.inj hrest).2 (dumps_ne_append_bar ws vs a)

end Substrate.Lib.Json
