import Substrate.Frontmatter.Writing

/-!
Numbers are read back as they were written: integers, and floats in their shortest decimal
form, with or without an exponent.
-/

namespace Substrate.Frontmatter

open Lib PyText List

variable {py : Interpreter}

theorem digitChar_kinds : ∀ d < 10, isDigit (digitChar d) = true ∧
    isAsciiDigit (digitChar d) = true ∧ isSpace (digitChar d) = false ∧
    digitChar d ≠ '-' ∧ digitChar d ≠ '+' ∧ digitChar d ≠ '.' ∧ digitChar d ≠ 'e' ∧
    digitChar d ≠ 'E' ∧ (0 < d → digitChar d ≠ '0') := by decide

theorem digitChar_lower : ∀ d < 10, (digitChar d).toLower = digitChar d ∧
    digitChar d ≠ 'n' ∧ digitChar d ≠ 't' ∧ digitChar d ≠ 'f' ∧ digitChar d ≠ '~' := by decide

variable {ds : List Nat} {tail : Text}

theorem isDigit_of_mem (hds : ∀ d ∈ ds, d < 10) : ∀ c ∈ ds.map digitChar, isDigit c = true := by
  intro c hc
  obtain ⟨d, hd, rfl⟩ := mem_map.mp hc
  exact (digitChar_kinds d (hds d hd)).1

def NotDigit (text : Text) : Prop := ∀ c, text.head? = some c → isDigit c = false

theorem takeWhile_digits (hds : ∀ d ∈ ds, d < 10) (htail : NotDigit tail) :
    (ds.map digitChar ++ tail).takeWhile isDigit = ds.map digitChar := by
  rw [takeWhile_append_of_pos (isDigit_of_mem hds)]
  have hnone : tail.takeWhile isDigit = [] := by
    cases tail with
    | nil => rfl
    | cons c rest => rw [takeWhile_cons_of_neg (by simp [htail c rfl])]
  rw [hnone, append_nil]

theorem dropWhile_digits (hds : ∀ d ∈ ds, d < 10) (htail : NotDigit tail) :
    (ds.map digitChar ++ tail).dropWhile isDigit = tail := by
  rw [dropWhile_append_of_pos (isDigit_of_mem hds)]
  cases tail with
  | nil => rfl
  | cons c rest => rw [dropWhile_cons_of_neg (by simp [htail c rfl])]

theorem digitsOf_digits (hds : ∀ d ∈ ds, d < 10) : digitsOf (ds.map digitChar) = ds := by
  unfold digitsOf
  rw [List.map_map]
  conv_rhs => rw [← map_id ds]
  apply map_congr_left
  intro d hd
  simp [digit?_digitChar d (hds d hd)]

theorem digitChar_zero : digitChar 0 = '0' := rfl

def signText (negative : Bool) : Text := if negative then ['-'] else []

theorem sign_signText (negative : Bool) {d : Nat} (hd : d < 10) (rest : Text) :
    sign (signText negative ++ digitChar d :: rest) = (negative, digitChar d :: rest) := by
  obtain ⟨-, -, -, hminus, hplus, -⟩ := digitChar_kinds d hd
  cases negative with
  | true => rfl
  | false =>
    unfold sign signText
    split
    · next heq => exact absurd (List.cons.inj heq).1 hminus
    · next heq => exact absurd (List.cons.inj heq).1 hplus
    · rfl

/-- A token that begins with a sign or a digit and ends in a digit. -/
structure Numeric (token : Text) : Prop where
  head : ∃ negative d rest, d < 10 ∧ token = signText negative ++ digitChar d :: rest
  last : ∃ d before, d < 10 ∧ token = before ++ [digitChar d]

namespace Numeric

variable {token : Text}

theorem head_kinds (h : Numeric token) : ∃ c rest, token = c :: rest ∧ isSpace c = false ∧
    c.toLower = c ∧ c ≠ 'n' ∧ c ≠ 't' ∧ c ≠ 'f' ∧ c ≠ '~' := by
  obtain ⟨negative, d, rest, hd, rfl⟩ := h.head
  cases negative with
  | true => exact ⟨'-', _, rfl, by decide⟩
  | false =>
    exact ⟨digitChar d, rest, rfl, (digitChar_kinds d hd).2.2.1, digitChar_lower d hd⟩

theorem strip_eq (h : Numeric token) : strip token = token := by
  apply strip_of_head_last
  · intro c hc
    obtain ⟨c', rest, rfl, hspace, -⟩ := h.head_kinds
    cases hc
    exact hspace
  · intro c hc
    obtain ⟨d, before, hd, rfl⟩ := h.last
    rw [List.getLast?_concat, Option.some.injEq] at hc
    rw [← hc]
    exact (digitChar_kinds d hd).2.2.1

theorem not_word (h : Numeric token) : token ≠ [] ∧ token ≠ ['~'] ∧ lowered token ≠ nullWord ∧
    lowered token ≠ trueWord ∧ lowered token ≠ falseWord := by
  obtain ⟨c, rest, rfl, -, hlower, hn, ht, hf, htilde⟩ := h.head_kinds
  simp [lowered, nullWord, trueWord, falseWord, hlower, hn, ht, hf, htilde]

theorem plain_eq (h : Numeric token) : plain py token =
    match intToken token with
    | some (negative, digits) =>
      if py.maxDigits < digits.length then .error .raised
      else .ok (.int (if negative then -readNat digits else readNat digits))
    | none =>
      match floatToken token with
      | some decimal => decimal.map fun d => .float (py.round d)
      | none => .ok (.str token) := by
  obtain ⟨hnil, htilde, hnull, htrue, hfalse⟩ := h.not_word
  unfold plain
  rw [h.strip_eq]
  simp only [hnil, htilde, hnull, htrue, hfalse, or_self, if_false]
  all_goals rfl

end Numeric

theorem natText_eq (n : Nat) : ∃ ds : List Nat, ds ≠ [] ∧ (∀ d ∈ ds, d < 10) ∧
    natText n = ds.map digitChar := by
  unfold natText
  split
  · exact ⟨[0], by simp, by simp, rfl⟩
  · next hne =>
    refine ⟨(Nat.digits 10 n).reverse, ?_, ?_, rfl⟩
    · simp [Nat.digits_ne_nil_iff_ne_zero, hne]
    · intro d hd
      exact Nat.digits_lt_base (by decide) (mem_reverse.mp hd)

theorem intText_eq (n : Int) : intText n = signText (n < 0) ++ natText n.natAbs := by
  unfold intText signText
  by_cases hneg : n < 0 <;> simp [hneg]

variable {ds : List Nat}

theorem numeric_digits (negative : Bool) (hne : ds ≠ []) (hds : ∀ d ∈ ds, d < 10) :
    Numeric (signText negative ++ ds.map digitChar) where
  head := by
    obtain ⟨d, rest, rfl⟩ := exists_cons_of_ne_nil hne
    exact ⟨negative, d, rest.map digitChar, hds d mem_cons_self, rfl⟩
  last := by
    refine ⟨ds.getLast hne, signText negative ++ ds.dropLast.map digitChar,
      hds _ (getLast_mem hne), ?_⟩
    conv_lhs => rw [← dropLast_append_getLast hne]
    simp

theorem numeric_intText (n : Int) : Numeric (intText n) := by
  obtain ⟨ds, hne, hds, heq⟩ := natText_eq n.natAbs
  rw [intText_eq, heq]
  exact numeric_digits _ hne hds

theorem natText_zero : natText 0 = ['0'] := rfl

theorem natText_form (n : Nat) : natText n = ['0'] ∨
    natText n ≠ [] ∧ (natText n).head? ≠ some '0' ∧ (natText n).all isAsciiDigit = true := by
  by_cases hzero : n = 0
  · exact .inl (by rw [hzero, natText_zero])
  · right
    obtain ⟨d, rest, heq, hpos, hd⟩ := natText_head hzero
    refine ⟨natText_ne_nil n, ?_, ?_⟩
    · rw [heq]
      intro hhead
      exact (digitChar_kinds d hd).2.2.2.2.2.2.2.2 hpos (Option.some.inj hhead)
    · rw [all_eq_true]
      intro c hc
      obtain ⟨d, hd, rfl⟩ := natText_digits n c hc
      exact (digitChar_kinds d hd).2.1

theorem intToken_intText (n : Int) :
    intToken (intText n) = some (decide (n < 0), natText n.natAbs) := by
  obtain ⟨ds, hne, hds, heq⟩ := natText_eq n.natAbs
  obtain ⟨d, rest, rfl⟩ := exists_cons_of_ne_nil hne
  have hsign : sign (intText n) = (decide (n < 0), natText n.natAbs) := by
    rw [intText_eq, heq]
    exact sign_signText _ (hds d mem_cons_self) _
  unfold intToken
  rw [hsign]
  exact if_pos (natText_form n.natAbs)

theorem plain_intText {n : Int} (hn : (natText n.natAbs).length ≤ py.maxDigits) :
    plain py (intText n) = .ok (.int n) := by
  rw [(numeric_intText n).plain_eq, intToken_intText]
  dsimp only
  rw [if_neg (by omega), readNat_natText]
  by_cases hneg : n < 0
  · simp only [hneg, decide_true, if_true]
    congr 2
    omega
  · simp only [hneg, decide_false]
    congr 2
    simp
    omega

/-- A number in normal form: no zero at either end of its digits. -/
structure Decimal.Normal (d : Decimal) : Prop where
  digits_lt : ∀ n ∈ d.digits, n < 10
  head_ne : d.digits.head? ≠ some 0
  last_ne : d.digits.getLast? ≠ some 0
  zero : d.digits = [] → d.point = 0

instance (d : Decimal) : Decidable d.Normal :=
  decidable_of_iff ((∀ n ∈ d.digits, n < 10) ∧ d.digits.head? ≠ some 0 ∧
      d.digits.getLast? ≠ some 0 ∧ (d.digits = [] → d.point = 0))
    ⟨fun ⟨hlt, hhead, hlast, hzero⟩ => ⟨hlt, hhead, hlast, hzero⟩,
      fun ⟨hlt, hhead, hlast, hzero⟩ => ⟨hlt, hhead, hlast, hzero⟩⟩

theorem dropWhile_zeros (n : Nat) (hhead : ds.head? ≠ some 0) :
    (List.replicate n 0 ++ ds).dropWhile (fun d => d = 0) = ds := by
  rw [dropWhile_append_of_pos]
  · cases ds with
    | nil => rfl
    | cons d ds =>
      rw [dropWhile_cons_of_neg]
      intro hd
      exact hhead (by rw [of_decide_eq_true hd]; rfl)
  · intro d hd
    simp [(mem_replicate.mp hd).2]

theorem rdropWhile_zeros (n : Nat) (hlast : ds.getLast? ≠ some 0) :
    (ds ++ List.replicate n 0).rdropWhile (fun d => d = 0) = ds := by
  rw [List.rdropWhile, reverse_append, reverse_replicate, dropWhile_zeros, reverse_reverse]
  rwa [List.head?_reverse]

theorem Decimal.of_zeros {d : Decimal} (hd : d.Normal) (before after : Nat) :
    Decimal.of d.negative (List.replicate before 0 ++ (d.digits ++ List.replicate after 0))
      (d.point + before) = d := by
  unfold Decimal.of
  dsimp only
  by_cases hnil : d.digits = []
  · have hall : (List.replicate before 0 ++ (d.digits ++ List.replicate after 0)).dropWhile
        (fun d => d = 0) = [] := by
      rw [hnil, dropWhile_eq_nil_iff]
      simp
    rw [hall]
    simp only [rdropWhile_nil, if_true]
    cases d with
    | mk negative digits point =>
      simp only at hnil
      have hpoint := hd.zero hnil
      simp only at hpoint
      rw [hnil, hpoint]
  · have hhead : (d.digits ++ List.replicate after 0).head? ≠ some 0 := by
      rw [List.head?_append_of_ne_nil _ hnil]
      exact hd.head_ne
    rw [dropWhile_zeros _ hhead, rdropWhile_zeros _ hd.last_ne, if_neg hnil]
    cases d with
    | mk negative digits point =>
      simp only [length_append, length_replicate, Decimal.mk.injEq, true_and]
      omega

theorem powerText_eq (e : Int) : ∃ ds : List Nat, ds ≠ [] ∧ (∀ d ∈ ds, d < 10) ∧
    readNat (ds.map digitChar) = e.natAbs ∧
    powerText e = 'e' :: (if e < 0 then '-' else '+') :: ds.map digitChar := by
  obtain ⟨ds, hne, hds, heq⟩ := natText_eq e.natAbs
  have hread := readNat_natText e.natAbs
  unfold powerText
  rw [heq] at hread ⊢
  dsimp only
  by_cases hshort : (ds.map digitChar).length < 2
  · rw [if_pos hshort]
    refine ⟨0 :: ds, by simp, ?_, ?_, rfl⟩
    · intro d hd
      rcases mem_cons.mp hd with rfl | hd
      · decide
      · exact hds d hd
    · rw [← hread]
      rfl
  · rw [if_neg hshort]
    exact ⟨ds, hne, hds, hread, rfl⟩

theorem exponent?_powerText (e : Int) : exponent? (powerText e) = some (e, []) := by
  obtain ⟨ds, hne, hds, hread, heq⟩ := powerText_eq e
  have hnil : NotDigit [] := nofun
  have htake : (ds.map digitChar).takeWhile isDigit = ds.map digitChar := by
    simpa using takeWhile_digits hds hnil
  have hdrop : (ds.map digitChar).dropWhile isDigit = [] := by
    simpa using dropWhile_digits hds hnil
  have hsome : ds.map digitChar ≠ [] := by simpa using hne
  rw [heq]
  by_cases hneg : e < 0
  · simp only [hneg, if_true, exponent?, sign, htake, hdrop, hsome, if_false, hread]
    congr 2
    omega
  · simp only [hneg, if_false, exponent?, sign, htake, hdrop, hsome, hread]
    congr 2
    simp
    omega

inductive Tail : Text → Int → Prop
  | none : Tail [] 0
  | exponent (e : Int) : Tail (powerText e) e

theorem Tail.notDigit {tail : Text} {e : Int} (h : Tail tail e) : NotDigit tail := by
  cases h with
  | none => exact nofun
  | exponent e =>
    intro c hc
    cases hc
    decide

/-- How a number in normal form is written: with a point, or with an exponent only. -/
inductive Decimal.Written (d : Decimal) : Text → Prop
  | point (ws fs : List Nat) {tail : Text} (e : Int) (before after : Nat) (hws : ws ≠ [])
      (hfs : fs ≠ [])
      (hdigits : ws ++ fs = List.replicate before 0 ++ (d.digits ++ List.replicate after 0))
      (hpoint : ws.length + e = d.point + before) (htail : Tail tail e) :
      Decimal.Written d
        (signText d.negative ++ (ws.map digitChar ++ '.' :: (fs.map digitChar ++ tail)))
  | whole (e : Int) (hdigits : d.digits ≠ []) (hpoint : d.digits.length + e = d.point) :
      Decimal.Written d (signText d.negative ++ (d.digits.map digitChar ++ Frontmatter.powerText e))

namespace Decimal.Written

variable {d : Decimal} {text : Text}

theorem digits_lt_of_eq (hd : d.Normal) {ds : List Nat} {before after : Nat}
    (heq : ds = List.replicate before 0 ++ (d.digits ++ List.replicate after 0)) :
    ∀ n ∈ ds, n < 10 := by
  intro n hn
  rw [heq, mem_append, mem_append] at hn
  rcases hn with hn | hn | hn
  · simp [(mem_replicate.mp hn).2]
  · exact hd.digits_lt n hn
  · simp [(mem_replicate.mp hn).2]

theorem numeric (hd : d.Normal) (h : d.Written text) : Numeric text := by
  have htail : ∀ {body tail : Text} {e : Int}, Tail tail e →
      (∃ n before, n < 10 ∧ body = before ++ [digitChar n]) →
      ∃ n before, n < 10 ∧ body ++ tail = before ++ [digitChar n] := by
    intro body tail e htail hbody
    cases htail with
    | none => simpa using hbody
    | exponent e =>
      obtain ⟨ds, hne, hds, -, heq⟩ := powerText_eq e
      refine ⟨ds.getLast hne, body ++ 'e' :: (if e < 0 then '-' else '+') ::
        ds.dropLast.map digitChar, hds _ (getLast_mem hne), ?_⟩
      rw [heq]
      conv_lhs => rw [← dropLast_append_getLast hne]
      simp
  cases h with
  | @point ws fs tail e before after hws hfs hdigits hpoint htail' =>
    have hlt := digits_lt_of_eq hd hdigits
    constructor
    · obtain ⟨n, rest, rfl⟩ := exists_cons_of_ne_nil hws
      exact ⟨d.negative, n, _, hlt n (by simp), rfl⟩
    · have hbody : ∃ n before, n < 10 ∧
          signText d.negative ++ (ws.map digitChar ++ '.' :: fs.map digitChar) =
            before ++ [digitChar n] := by
        refine ⟨fs.getLast hfs, signText d.negative ++ (ws.map digitChar ++ '.' ::
          fs.dropLast.map digitChar), hlt _ ?_, ?_⟩
        · exact mem_append_right _ (getLast_mem hfs)
        · conv_lhs => rw [← dropLast_append_getLast hfs]
          simp
      simpa using htail htail' hbody
  | @whole e hdigits hpoint =>
    constructor
    · obtain ⟨n, rest, heq⟩ := exists_cons_of_ne_nil hdigits
      exact ⟨d.negative, n, rest.map digitChar ++ Frontmatter.powerText e,
        hd.digits_lt n (by simp [heq]), by simp [heq]⟩
    · have hbody := (numeric_digits d.negative hdigits hd.digits_lt).last
      simpa using htail (.exponent e) hbody

theorem intToken_eq (hd : d.Normal) (h : d.Written text) : intToken text = none := by
  have hnone : ∀ {n : Nat} {rest : Text} (c : Char), n < 10 → c ∈ rest → isAsciiDigit c = false →
      intToken (signText d.negative ++ digitChar n :: rest) = none := by
    intro n rest c hn hc hdigit
    unfold intToken
    rw [sign_signText _ hn]
    dsimp only
    apply if_neg
    rintro (hzero | ⟨-, -, hall⟩)
    · rw [(List.cons.inj hzero).2] at hc
      cases hc
    · rw [all_cons, Bool.and_eq_true, all_eq_true] at hall
      have hcontra := hall.2 c hc
      rw [hdigit] at hcontra
      cases hcontra
  cases h with
  | @point ws fs tail e before after hws hfs hdigits hpoint htail =>
    have hlt := digits_lt_of_eq hd hdigits
    obtain ⟨n, rest, rfl⟩ := exists_cons_of_ne_nil hws
    apply hnone '.' (hlt n (by simp))
    · simp
    · decide
  | @whole e hdigits hpoint =>
    obtain ⟨n, rest, heq⟩ := exists_cons_of_ne_nil hdigits
    rw [heq]
    apply hnone 'e' (hd.digits_lt n (by simp [heq]))
    · simp [Frontmatter.powerText]
    · decide

theorem floatToken_eq (hd : d.Normal) (h : d.Written text) : floatToken text = some (.ok d) := by
  cases h with
  | @point ws fs tail e before after hws hfs hdigits hpoint htail =>
    have hlt := digits_lt_of_eq hd hdigits
    have hwslt : ∀ n ∈ ws, n < 10 := fun n hn => hlt n (mem_append_left _ hn)
    have hfslt : ∀ n ∈ fs, n < 10 := fun n hn => hlt n (mem_append_right _ hn)
    have hdot : NotDigit ('.' :: (fs.map digitChar ++ tail)) := by
      intro c hc
      cases hc
      decide
    have hvalue := Decimal.of_zeros hd before after
    rw [← hdigits, ← hpoint] at hvalue
    have hsign : sign (signText d.negative ++ (ws.map digitChar ++ '.' ::
        (fs.map digitChar ++ tail))) =
        (d.negative, ws.map digitChar ++ '.' :: (fs.map digitChar ++ tail)) := by
      obtain ⟨n, rest, rfl⟩ := exists_cons_of_ne_nil hws
      exact sign_signText _ (hwslt n mem_cons_self) _
    unfold floatToken
    rw [hsign]
    dsimp only
    rw [takeWhile_digits hwslt hdot, dropWhile_digits hwslt hdot]
    split
    · next rest heq =>
      obtain rfl := (List.cons.inj heq).2
      have hdigits' : digitsOf (ws.map digitChar ++ fs.map digitChar) = ws ++ fs := by
        rw [← map_append, digitsOf_digits hlt]
      rw [takeWhile_digits hfslt htail.notDigit, dropWhile_digits hfslt htail.notDigit,
        hdigits', length_map, if_neg (by simp [hws])]
      cases htail with
      | none => exact congrArg (fun d => some (Except.ok d)) hvalue
      | exponent e =>
        have hread := exponent?_powerText e
        unfold Frontmatter.powerText at hread ⊢
        dsimp only
        rw [hread]
        exact congrArg (fun d => some (Except.ok d)) hvalue
    · next hne =>
      exact absurd rfl (hne _)
  | @whole e hdigits hpoint =>
    have hE : NotDigit (Frontmatter.powerText e) := (Tail.exponent e).notDigit
    have hvalue := Decimal.of_zeros hd 0 0
    have hsign : sign (signText d.negative ++ (d.digits.map digitChar ++ Frontmatter.powerText e)) =
          (d.negative, d.digits.map digitChar ++ Frontmatter.powerText e) := by
      obtain ⟨n, rest, heq⟩ := exists_cons_of_ne_nil hdigits
      rw [heq]
      exact sign_signText _ (hd.digits_lt n (by simp [heq])) _
    unfold floatToken
    rw [hsign]
    dsimp only
    rw [takeWhile_digits hd.digits_lt hE, dropWhile_digits hd.digits_lt hE]
    split
    · next rest heq =>
      exact absurd (List.cons.inj heq).1 (by decide)
    · rw [if_neg (by simpa using hdigits), exponent?_powerText, digitsOf_digits hd.digits_lt,
        length_map]
      dsimp only
      rw [hpoint]
      simpa using hvalue

theorem plain_eq (hd : d.Normal) (h : d.Written text) :
    plain py text = .ok (.float (py.round d)) := by
  rw [(h.numeric hd).plain_eq, h.intToken_eq hd, h.floatToken_eq hd]
  rfl

end Decimal.Written

namespace Decimal

variable {d : Decimal}

theorem toNat_add {p : Int} (h : p ≤ 0) : 1 + (0 : Int) = p + ((1 + (-p).toNat : Nat) : Int) := by
  omega

theorem written_pointText (hne : d.digits ≠ []) :
    d.Written (signText d.negative ++ d.pointText) := by
  unfold pointText text
  dsimp only
  split
  · next hle =>
    have hbefore : ([0] : List Nat) ++ (List.replicate (-d.point).toNat 0 ++ d.digits) =
        List.replicate (1 + (-d.point).toNat) 0 ++ (d.digits ++ List.replicate 0 0) := by
      rw [Nat.add_comm, replicate_succ]
      simp
    have hwritten : d.Written _ := Written.point [0] _ 0 (1 + (-d.point).toNat) 0 (by simp)
      (by simp [hne]) hbefore (by simpa using toNat_add hle) .none
    simpa [digitChar_zero] using hwritten
  split
  · next hpos hlong =>
    have hafter : (d.digits ++ List.replicate (d.point.toNat - d.digits.length) 0) ++ [0] =
        List.replicate 0 0 ++
          (d.digits ++ List.replicate (d.point.toNat - d.digits.length + 1) 0) := by
      rw [replicate_succ']
      simp
    have hwritten : d.Written _ := Written.point _ [0] 0 0 (d.point.toNat - d.digits.length + 1)
      (by simp [hne]) (by simp) hafter (by simp; omega) .none
    simpa [digitChar_zero] using hwritten
  · next hpos hshort =>
    have hsplit : d.digits.take d.point.toNat ++ d.digits.drop d.point.toNat =
        List.replicate 0 0 ++ (d.digits ++ List.replicate 0 0) := by
      simp
    have hwritten : d.Written _ := Written.point _ _ 0 0 0 (by simp [hne]; omega) (by simp; omega)
      hsplit (by simp; omega) .none
    simpa using hwritten

theorem drop_ne_nil {n : Nat} (h : n < d.digits.length) : d.digits.drop n ≠ [] := by
  intro hnil
  have hlength := congrArg List.length hnil
  rw [length_drop, length_nil] at hlength
  omega

theorem written_powerText (hne : d.digits ≠ []) :
    d.Written (signText d.negative ++ d.powerText) := by
  have hpos := length_pos_iff.mpr hne
  unfold powerText text
  split
  · next hone =>
    have htake : d.digits.take 1 = d.digits := take_of_length_le hone
    have hwritten : d.Written _ := Written.whole (d.point - 1) hne (by omega)
    rw [← map_take, htake]
    simpa using hwritten
  · next hmore =>
    have hsplit : d.digits.take 1 ++ d.digits.drop 1 =
        List.replicate 0 0 ++ (d.digits ++ List.replicate 0 0) := by
      rw [take_append_drop]
      simp
    have hwritten : d.Written _ := Written.point _ _ (d.point - 1) 0 0 (by simp [hne])
      (drop_ne_nil (by omega)) hsplit (by rw [length_take]; omega) (.exponent _)
    simpa using hwritten

theorem written_repr (hd : d.Normal) : d.Written d.repr := by
  unfold repr
  by_cases hnil : d.digits = []
  · have hzero := hd.zero hnil
    have hwritten : d.Written _ := Written.point [0] [0] 0 1 1 (by simp) (by simp)
      (by simp [hnil]) (by simp [hzero]) .none
    rw [if_pos hnil]
    exact hwritten
  · rw [if_neg hnil]
    change d.Written (signText d.negative ++ _)
    by_cases hpoint : -4 < d.point ∧ d.point ≤ 16
    · rw [if_pos hpoint]
      exact written_pointText hnil
    · rw [if_neg hpoint]
      exact written_powerText hnil

theorem written_withPoint (hd : d.Normal) : d.Written (withPoint d.repr) := by
  have hrepr := written_repr hd
  generalize d.repr = text at hrepr
  unfold withPoint
  cases hrepr with
  | @point ws fs tail e before after hws hfs hdigits hpoint htail =>
    rw [if_neg (by simp)]
    exact Written.point ws fs e before after hws hfs hdigits hpoint htail
  | @whole e hdigits hpoint =>
    have hplain : ∀ c ∈ signText d.negative ++ d.digits.map digitChar, c ≠ 'e' ∧ c ≠ '.' := by
      intro c hc
      rcases mem_append.mp hc with hc | hc
      · unfold signText at hc
        split at hc <;> simp_all
      · obtain ⟨n, hn, rfl⟩ := mem_map.mp hc
        obtain ⟨-, -, -, -, -, hdot, he, -⟩ := digitChar_kinds n (hd.digits_lt n hn)
        exact ⟨he, hdot⟩
    have hpower : ∃ rest, Frontmatter.powerText e = 'e' :: rest ∧ '.' ∉ rest := by
      obtain ⟨ds, -, hds, -, heq⟩ := powerText_eq e
      refine ⟨_, heq, ?_⟩
      intro hdot
      rcases mem_cons.mp hdot with hsign | hdot
      · split at hsign <;> cases hsign
      · obtain ⟨n, hn, heq'⟩ := mem_map.mp hdot
        exact (digitChar_kinds n (hds n hn)).2.2.2.2.2.1 heq'
    obtain ⟨rest, hrest, hdot⟩ := hpower
    have hnot : ∀ c ∈ signText d.negative ++ d.digits.map digitChar, decide (c ≠ 'e') = true :=
      fun c hc => decide_eq_true (hplain c hc).1
    have htake : (signText d.negative ++ (d.digits.map digitChar ++ 'e' :: rest)).takeWhile
        (fun c => c ≠ 'e') = signText d.negative ++ d.digits.map digitChar := by
      rw [← append_assoc, takeWhile_append_of_pos hnot]
      simp
    have hdrop : (signText d.negative ++ (d.digits.map digitChar ++ 'e' :: rest)).dropWhile
        (fun c => c ≠ 'e') = 'e' :: rest := by
      rw [← append_assoc, dropWhile_append_of_pos hnot]
      simp
    have hwritten : d.Written _ := Written.point d.digits [0] e 0 1 hdigits (by simp)
      (by simp) (by simpa using hpoint) (.exponent e)
    rw [hrest, if_pos, htake, hdrop, ← hrest]
    · simpa [digitChar_zero] using hwritten
    · refine ⟨by simp, ?_⟩
      intro hmem
      rw [← append_assoc, mem_append] at hmem
      rcases hmem with hmem | hmem
      · exact (hplain _ hmem).2 rfl
      · simp [hdot] at hmem

end Decimal

end Substrate.Frontmatter
