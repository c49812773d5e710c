import Substrate.Frontmatter.Writing

/-!
A JSON string is read back as it was written, wherever it stands, and hides what looks like
a comment in it.
-/

namespace Substrate.Frontmatter

open Lib PyText List Option

theorem escape_form (c : Char) : (escape c = [c] ∧ c ≠ quote ∧ c ≠ backslash ∧ 0x20 ≤ c.toNat) ∨
    (∃ e, Json.short c = some e ∧ escape c = [backslash, e]) ∨
    (c.toNat < 0x20 ∧ escape c = Json.unit16 c.toNat) := by
  unfold escape
  cases hshort : Json.short c with
  | some e => exact .inr (.inl ⟨e, rfl, rfl⟩)
  | none =>
    dsimp only
    by_cases hlt : c.toNat < 0x20
    · exact .inr (.inr ⟨hlt, if_pos hlt⟩)
    · refine .inl ⟨if_neg hlt, ?_, ?_, by omega⟩
      · rintro rfl
        rw [Json.short_quote] at hshort
        cases hshort
      · rintro rfl
        rw [Json.short_backslash] at hshort
        cases hshort

theorem hex4_plain (n : Nat) : ∀ c ∈ Json.hex4 n, c ≠ quote ∧ c ≠ backslash := by
  intro c hc
  simp only [Json.hex4, mem_cons, not_mem_nil, or_false] at hc
  rcases hc with rfl | rfl | rfl | rfl
  all_goals exact Json.hexDigit_plain _ (Nat.mod_lt _ (by decide))

variable {c : Char} {rest text : Text} {before : Option Char}

theorem scanQuoted_plain (hc : c ≠ quote) (hb : c ≠ backslash) (hrest : rest ≠ []) :
    scanQuoted quote (c :: rest) = (c :: (scanQuoted quote rest).1, (scanQuoted quote rest).2) := by
  obtain ⟨d, more, rfl⟩ := exists_cons_of_ne_nil hrest
  simp [scanQuoted, hc, hb]

theorem scanQuoted_backslash (d : Char) (rest : Text) : scanQuoted quote (backslash :: d :: rest) =
    (backslash :: d :: (scanQuoted quote rest).1, (scanQuoted quote rest).2) := by
  simp [scanQuoted]

theorem scanQuoted_plains (h : ∀ c ∈ text, c ≠ quote ∧ c ≠ backslash) (hrest : rest ≠ []) :
    scanQuoted quote (text ++ rest) =
      (text ++ (scanQuoted quote rest).1, (scanQuoted quote rest).2) := by
  induction text with
  | nil => rfl
  | cons c text ih =>
    obtain ⟨hc, hb⟩ := h c mem_cons_self
    rw [cons_append, scanQuoted_plain hc hb (by simp [hrest]),
      ih fun d hd => h d (mem_cons_of_mem _ hd)]
    rfl

theorem scanQuoted_escape (c : Char) (hrest : rest ≠ []) : scanQuoted quote (escape c ++ rest) =
      (escape c ++ (scanQuoted quote rest).1, (scanQuoted quote rest).2) := by
  rcases escape_form c with ⟨h, hc, hb, -⟩ | ⟨e, -, h⟩ | ⟨-, h⟩
  · rw [h]
    exact scanQuoted_plain hc hb hrest
  · rw [h]
    exact scanQuoted_backslash e rest
  · rw [h]
    change scanQuoted quote (backslash :: 'u' :: (Json.hex4 c.toNat ++ rest)) = _
    rw [scanQuoted_backslash, scanQuoted_plains (hex4_plain _) hrest]
    rfl

theorem scanQuoted_literal (text rest : Text) :
    scanQuoted quote (text.flatMap escape ++ quote :: rest) =
      (text.flatMap escape ++ [quote], some rest) := by
  induction text with
  | nil =>
    have hne : quote ≠ backslash := by decide
    have happ : quote ≠ apostrophe := by decide
    cases rest with
    | nil => simp [scanQuoted]
    | cons d rest => simp [scanQuoted, hne, happ]
  | cons c text ih =>
    rw [flatMap_cons, append_assoc, scanQuoted_escape c (by simp), ih, append_assoc]

theorem hexDigit?_hexDigit : ∀ n < 16, hexDigit? (Json.hexDigit n) = some n := by decide

theorem unescaped?_short : ∀ p ∈ Json.shorts, unescaped? p.2 = some p.1 := by decide

theorem units_plain (hc : c ≠ quote) (hb : c ≠ backslash) (hspace : 0x20 ≤ c.toNat) :
    units (c :: rest) = (units rest).map fun more => c.toNat :: more := by
  rw [units.eq_def]
  dsimp only
  rw [if_neg hc, if_neg hb, if_neg (by omega)]

theorem units_escape (c : Char) (rest : Text) :
    units (escape c ++ rest) = (units rest).map fun more => c.toNat :: more := by
  have hne : backslash ≠ quote := by decide
  rcases escape_form c with ⟨h, hc, hb, hspace⟩ | ⟨e, hshort, h⟩ | ⟨hlt, h⟩
  · rw [h]
    exact units_plain hc hb hspace
  · have hu := Json.short_ne_u hshort
    have hback := unescaped?_short (c, e) (Json.short_mem hshort)
    rw [h, cons_append, cons_append, nil_append, units.eq_def]
    dsimp only
    rw [if_neg hne, if_pos rfl]
    split
    · next heq => exact absurd (List.cons.inj heq).1 hu
    · next d more _ heq =>
      obtain ⟨rfl, rfl⟩ := List.cons.inj heq
      rw [hback]
    · next heq => cases heq
  · have hunit : unit? (Json.hexDigit (c.toNat / 4096 % 16)) (Json.hexDigit (c.toNat / 256 % 16))
        (Json.hexDigit (c.toNat / 16 % 16)) (Json.hexDigit (c.toNat % 16)) = some c.toNat := by
      have hdigit : ∀ n, hexDigit? (Json.hexDigit (n % 16)) = some (n % 16) := fun n =>
        hexDigit?_hexDigit _ (Nat.mod_lt _ (by decide))
      simp only [unit?, hdigit]
      simp only [bind_eq_bind, bind_some, Option.some.injEq]
      omega
    rw [h, Json.unit16, Json.hex4]
    simp only [cons_append, nil_append]
    rw [units.eq_def]
    dsimp only
    rw [if_neg hne, if_pos rfl]
    simp only [hunit]

theorem units_literal (text : Text) :
    units (text.flatMap escape ++ [quote]) = some (text.map Char.toNat) := by
  induction text with
  | nil => decide
  | cons c text ih =>
    rw [flatMap_cons, append_assoc, units_escape, ih]
    rfl

theorem codePoint_toNat (c : Char) : codePoint c.toNat = c := by
  have hvalid := Json.toNat_valid c
  rw [codePoint, if_neg (by omega)]
  exact Char.ofNat_toNat c

theorem ofUnits_toNat (text : Text) : ofUnits (text.map Char.toNat) = text := by
  induction text with
  | nil => rfl
  | cons c text ih =>
    have hvalid := Json.toNat_valid c
    cases text with
    | nil => simp [ofUnits, codePoint_toNat]
    | cons d rest =>
      simp only [map_cons] at ih ⊢
      rw [ofUnits, if_neg (by omega), codePoint_toNat, ih]

theorem quoted_literal (text : Text) : quoted quote (text.flatMap escape ++ [quote]) = text := by
  rw [quoted, if_pos rfl, loads, units_literal, map_some, ofUnits_toNat, getD_some]

/-- No comment begins in a text, after a character and perhaps in a quoted string. -/
def Clear (inside before : Option Char) (text : Text) : Prop :=
  beforeComment inside before text = none

theorem clear_nil (inside before : Option Char) : Clear inside before [] := by
  cases inside <;> rfl

theorem clear_inside (hb : c ≠ backslash)
    (h : Clear (if c = quote then none else some quote) (some c) rest) :
    Clear (some quote) before (c :: rest) := by
  unfold Clear at h ⊢
  cases rest with
  | nil => rfl
  | cons d rest => simp [beforeComment, hb, h]

theorem clear_backslash {d : Char} (h : Clear (some quote) (some d) rest) :
    Clear (some quote) before (backslash :: d :: rest) := by
  unfold Clear at h ⊢
  simp [beforeComment, h]

theorem clear_outside (hc : c ≠ '#') (hquote : isQuote c = false) (h : Clear none (some c) rest) :
    Clear none before (c :: rest) := by
  unfold Clear at h ⊢
  cases rest with
  | nil => simp [beforeComment, hc]
  | cons d rest => simp [beforeComment, hc, hquote, h]

theorem clear_outsides (h : ∀ c ∈ text, c ≠ '#' ∧ isQuote c = false)
    (hrest : ∀ b, Clear none b rest) : Clear none before (text ++ rest) := by
  induction text generalizing before with
  | nil => exact hrest before
  | cons c text ih =>
    obtain ⟨hhash, hquote⟩ := h c mem_cons_self
    exact clear_outside hhash hquote (ih fun d hd => h d (mem_cons_of_mem _ hd))

theorem clear_open (hbefore : opensAfter before = true) (h : Clear (some quote) (some quote) rest) :
    Clear none before (quote :: rest) := by
  have hquote : isQuote quote = true := by decide
  have hne : quote ≠ '#' := by decide
  unfold Clear at h ⊢
  cases rest with
  | nil => simp [beforeComment, hne]
  | cons d rest => simp [beforeComment, hquote, hbefore, h]

theorem clear_plains (h : ∀ c ∈ text, c ≠ quote ∧ c ≠ backslash)
    (hrest : ∀ b, Clear (some quote) b rest) : Clear (some quote) before (text ++ rest) := by
  induction text generalizing before with
  | nil => exact hrest before
  | cons c text ih =>
    obtain ⟨hc, hb⟩ := h c mem_cons_self
    apply clear_inside hb
    rw [if_neg hc]
    exact ih fun d hd => h d (mem_cons_of_mem _ hd)

theorem clear_escape (c : Char) (hrest : ∀ b, Clear (some quote) b rest) :
    Clear (some quote) before (escape c ++ rest) := by
  rcases escape_form c with ⟨h, hc, hb, -⟩ | ⟨e, -, h⟩ | ⟨-, h⟩
  · rw [h]
    apply clear_plains _ hrest
    intro d hd
    rw [mem_singleton.mp hd]
    exact ⟨hc, hb⟩
  · rw [h]
    exact clear_backslash (hrest _)
  · rw [h]
    exact clear_backslash (clear_plains (hex4_plain _) hrest)

theorem clear_literal (text : Text) (hbefore : opensAfter before = true)
    (hrest : Clear none (some quote) rest) : Clear none before (literal text ++ rest) := by
  have hinside : ∀ b, Clear (some quote) b (text.flatMap escape ++ quote :: rest) := by
    induction text with
    | nil =>
      intro b
      apply clear_inside (by decide)
      rw [if_pos rfl]
      exact hrest
    | cons c text ih =>
      intro b
      rw [flatMap_cons, append_assoc]
      exact clear_escape c ih
  have hopen := clear_open hbefore (hinside (some quote))
  simpa [literal] using hopen

theorem stripComment_clear (h : Clear none none text) : stripComment text = text := by
  unfold stripComment
  split
  · rfl
  · have hnone : beforeComment none none text = none := h
    rw [hnone]

theorem escape_printed (c : Char) : ∀ d ∈ escape c, 0x20 ≤ d.toNat := by
  rcases escape_form c with ⟨h, -, -, hspace⟩ | ⟨e, hshort, h⟩ | ⟨-, h⟩
  · rw [h]
    simpa using hspace
  · have hall : ∀ p ∈ Json.shorts, 0x20 ≤ p.2.toNat := by decide
    have hback : 0x20 ≤ backslash.toNat := by decide
    have he := hall (c, e) (Json.short_mem hshort)
    rw [h]
    simpa using ⟨hback, he⟩
  · have hall : ∀ n < 16, 0x20 ≤ (Json.hexDigit n).toNat := by decide
    have hdigit : ∀ n, 0x20 ≤ (Json.hexDigit (n % 16)).toNat := fun n =>
      hall _ (Nat.mod_lt _ (by decide))
    rw [h]
    intro d hd
    simp only [Json.unit16, Json.hex4, mem_cons, not_mem_nil, or_false] at hd
    rcases hd with rfl | rfl | rfl | rfl | rfl | rfl
    · decide
    · decide
    all_goals exact hdigit _

theorem literal_printed (text : Text) : ∀ c ∈ literal text, 0x20 ≤ c.toNat := by
  intro c hc
  simp only [literal, mem_cons, mem_append, mem_flatMap, not_mem_nil, or_false] at hc
  rcases hc with rfl | ⟨d, -, hd⟩ | rfl
  · decide
  · exact escape_printed d c hd
  · decide

end Substrate.Frontmatter
