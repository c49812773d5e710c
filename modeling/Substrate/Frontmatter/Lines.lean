import Substrate.Frontmatter.Flows

/-!
What is read of the lines of one key: the key and the value as they were written, unless one
of them is written as it is and ends in a line break.
-/

namespace Substrate.Frontmatter

open Lib PyText List

variable {py : Interpreter}

def isCutKey (key : Text) : Bool := isBareKey key ∧ key.getLast? = some '\n'

def isCutText (text : Text) : Bool := isBareText text ∧ text.getLast? = some '\n'

def isCutValue : Value → Bool
  | .str text => isCutText text
  | _ => false

variable {c : Char} {text w : Text}

theorem isSafe_of_isKeyChar (h : isKeyChar c = true) : isSafe c = true := by
  simp only [isKeyChar, isSafe, Bool.or_eq_true, mem_cons, decide_eq_true_eq] at h ⊢
  tauto

theorem ascii_of_isSafe (h : isSafe c = true) : c.toNat < 128 := by
  simp only [isSafe, isLetter, isAsciiDigit, Bool.or_eq_true, decide_eq_true_eq, Char.le_def,
    mem_cons, not_mem_nil, or_false] at h
  rcases h with ((⟨-, h⟩ | ⟨-, h⟩) | ⟨-, h⟩) | h
  · exact lt_of_le_of_lt (UInt32.le_iff_toNat_le.mp h) (by decide)
  · exact lt_of_le_of_lt (UInt32.le_iff_toNat_le.mp h) (by decide)
  · exact lt_of_le_of_lt (UInt32.le_iff_toNat_le.mp h) (by decide)
  · rcases h with rfl | rfl | rfl | rfl | rfl | rfl | rfl | rfl | rfl | rfl <;> decide

theorem safe_kinds (h : isSafe c = true) : isQuote c = false ∧ c ≠ '#' ∧ c ≠ '\n' ∧
    c ≠ '\r' ∧ c ≠ ':' ∧ c ≠ '[' ∧ c ≠ '\x7b' := by
  have hall : ∀ n < 128, isSafe (Char.ofNat n) = true → isQuote (Char.ofNat n) = false ∧
      Char.ofNat n ≠ '#' ∧ Char.ofNat n ≠ '\n' ∧ Char.ofNat n ≠ '\r' ∧ Char.ofNat n ≠ ':' ∧
      Char.ofNat n ≠ '[' ∧ Char.ofNat n ≠ '\x7b' := by
    decide
  have hascii := ascii_of_isSafe h
  rw [← Char.ofNat_toNat c] at h ⊢
  exact hall _ hascii h

theorem keyChar_kinds (h : isKeyChar c = true) : isSpace c = false := by
  have hall : ∀ n < 128, isKeyChar (Char.ofNat n) = true → isSpace (Char.ofNat n) = false := by
    decide
  have hascii := ascii_of_isSafe (isSafe_of_isKeyChar h)
  rw [← Char.ofNat_toNat c] at h ⊢
  exact hall _ hascii h

theorem letter_kinds (h : isLetter c = true) : inToken c ∧ isSafe c = true ∧
    isDigit c = false ∧ isAsciiDigit c = false ∧ c ≠ '-' ∧ c ≠ '+' ∧ c ≠ '.' ∧ c ≠ '~' := by
  have hsafe : isSafe c = true := by simp [isSafe, h]
  have hall : ∀ n < 128, isLetter (Char.ofNat n) = true → inToken (Char.ofNat n) ∧
      isSafe (Char.ofNat n) = true ∧ isDigit (Char.ofNat n) = false ∧
      isAsciiDigit (Char.ofNat n) = false ∧ Char.ofNat n ≠ '-' ∧ Char.ofNat n ≠ '+' ∧
      Char.ofNat n ≠ '.' ∧ Char.ofNat n ≠ '~' := by
    decide
  have hascii := ascii_of_isSafe hsafe
  rw [← Char.ofNat_toNat c] at h ⊢
  exact hall _ hascii h

theorem plain_letter {rest : Text} (hc : isLetter c = true)
    (hstrip : strip (c :: rest) = c :: rest) :
    plain py (c :: rest) = .ok (if lowered (c :: rest) = nullWord then .null
      else if lowered (c :: rest) = trueWord then .bool true
      else if lowered (c :: rest) = falseWord then .bool false else .str (c :: rest)) := by
  obtain ⟨-, -, hdigit, hascii, hminus, hplus, hdot, htilde⟩ := letter_kinds hc
  have hsign : sign (c :: rest) = (false, c :: rest) := by
    unfold sign
    split
    · next heq => exact absurd (List.cons.inj heq).1 hminus
    · next heq => exact absurd (List.cons.inj heq).1 hplus
    · rfl
  have hint : intToken (c :: rest) = none := by
    unfold intToken
    rw [hsign]
    apply if_neg
    rintro (hzero | ⟨-, -, hall⟩)
    · rw [(List.cons.inj hzero).1] at hc
      exact absurd hc (by decide)
    · simp [hascii] at hall
  have hfloat : floatToken (c :: rest) = none := by
    unfold floatToken
    rw [hsign]
    dsimp only
    rw [takeWhile_cons_of_neg (by simp [hdigit]), dropWhile_cons_of_neg (by simp [hdigit])]
    split
    · next heq => exact absurd (List.cons.inj heq).1 hdot
    · exact if_pos rfl
  unfold plain
  simp only [hstrip, hint, hfloat]
  have hnil : ¬ (c :: rest = [] ∨ c :: rest = ['~'] ∨ lowered (c :: rest) = nullWord) ↔
      lowered (c :: rest) ≠ nullWord := by
    simp [htilde]
  by_cases hnull : lowered (c :: rest) = nullWord
  · simp [hnull]
  · rw [if_neg (hnil.mpr hnull), if_neg hnull]
    split
    · rfl
    split
    · rfl
    · rfl

theorem matchesPlain_form {first other : Char → Bool} (h : matchesPlain first other text = true) :
    ∃ c w, first c = true ∧ (∀ d ∈ w, other d = true) ∧
      (text = c :: w ∨ text = c :: (w ++ ['\n'])) := by
  cases text with
  | nil => cases h
  | cons c rest =>
    simp only [matchesPlain, Bool.and_eq_true, Bool.or_eq_true, all_eq_true, decide_eq_true_eq] at h
    obtain ⟨hc, hrest | ⟨hlast, hrest⟩⟩ := h
    · exact ⟨c, rest, hc, hrest, .inl rfl⟩
    · refine ⟨c, rest.dropLast, hc, hrest, .inr ?_⟩
      rw [dropLast_append_getLast? _ hlast]

theorem safe_space (h : isSafe c = true) (hspace : isSpace c = true) : c = ' ' := by
  have hall : ∀ n < 128, isSafe (Char.ofNat n) = true → isSpace (Char.ofNat n) = true →
      Char.ofNat n = ' ' := by
    decide
  have hascii := ascii_of_isSafe h
  rw [← Char.ofNat_toNat c] at h hspace ⊢
  exact hall _ hascii h hspace

structure SafeLine (text : Text) : Prop where
  head : ∃ c rest, text = c :: rest ∧ isLetter c = true
  safe : ∀ c ∈ text, isSafe c = true
  strip_eq : strip text = text

theorem safe_of_mem_cons (hc : isLetter c = true) (hw : ∀ d ∈ w, isSafe d = true) :
    ∀ d ∈ c :: w, isSafe d = true := by
  intro d hd
  rcases mem_cons.mp hd with rfl | hd
  · exact (letter_kinds hc).2.1
  · exact hw d hd

theorem safeLine_rstrip (hc : isLetter c = true) (hw : ∀ d ∈ w, isSafe d = true) :
    SafeLine (rstrip (c :: w)) := by
  have hspace : isSpace c = false := (letter_kinds hc).1.1
  have hstart : rstrip (c :: w) <+: c :: w := rdropWhile_prefix isSpace _
  have heq : rstrip (c :: w) = c :: rstrip w := rstrip_cons_of_not hspace w
  have hlstrip : lstrip (rstrip (c :: w)) = rstrip (c :: w) := by
    rw [heq]
    exact lstrip_cons_of_not hspace
  refine ⟨⟨c, rstrip w, heq, hc⟩, ?_, ?_⟩
  · intro d hd
    exact safe_of_mem_cons hc hw d (hstart.mem hd)
  · rw [strip, hlstrip]
    exact rdropWhile_idempotent isSpace (c :: w)

/-- A string that is written as it is: the reader has its first line, and that is all of it
unless it was cut. -/
theorem safeLine_strip (h : isBareText text = true) :
    SafeLine (strip text) ∧ (strip text = text ↔ isCutText text = false) ∧
      (strip text = text ∨ ∃ spaces, (∀ c ∈ spaces, c = ' ') ∧
        text = strip text ++ spaces ++ ['\n']) := by
  have hbare := h
  simp only [isBareText, decide_eq_true_eq] at hbare
  obtain ⟨hsafe, -, hlast⟩ := hbare
  obtain ⟨c, w, hc, hw, rfl | rfl⟩ := matchesPlain_form hsafe
  · have hspace : isSpace c = false := (letter_kinds hc).1.1
    have hall := safe_of_mem_cons hc hw
    have hstrip : strip (c :: w) = rstrip (c :: w) := by
      rw [strip, lstrip_cons_of_not hspace]
    have hrstrip : rstrip (c :: w) = c :: w := by
      apply rstrip_of_last
      intro d hd
      by_contra hspace'
      have hblank := safe_space (hall d (mem_of_getLast? hd)) (by simpa using hspace')
      rw [hblank] at hd
      exact hlast hd
    have hcut : isCutText (c :: w) = false := by
      simp only [isCutText, decide_eq_false_iff_not]
      rintro ⟨-, hbreak⟩
      exact (safe_kinds (hall _ (mem_of_getLast? hbreak))).2.2.1 rfl
    rw [hstrip]
    exact ⟨safeLine_rstrip hc hw, by simp [hrstrip, hcut], .inl hrstrip⟩
  · have hspace : isSpace c = false := (letter_kinds hc).1.1
    have hall := safe_of_mem_cons hc hw
    have hbreak : isSpace '\n' = true := by decide
    have hstrip : strip (c :: (w ++ ['\n'])) = rstrip (c :: w) := by
      rw [strip, lstrip_cons_of_not hspace, ← cons_append]
      exact rdropWhile_concat_pos isSpace _ _ hbreak
    have hsplit : rstrip (c :: w) ++ (c :: w).rtakeWhile isSpace = c :: w :=
      rdropWhile_append_rtakeWhile
    have hcut : isCutText (c :: (w ++ ['\n'])) = true := by
      simp only [isCutText, decide_eq_true_eq]
      exact ⟨h, by rw [← cons_append, List.getLast?_concat]⟩
    have hlength := congrArg List.length hsplit
    rw [hstrip]
    refine ⟨safeLine_rstrip hc hw, ?_, .inr ⟨(c :: w).rtakeWhile isSpace, ?_, ?_⟩⟩
    · rw [hcut]
      constructor
      · intro heq
        rw [length_append, heq] at hlength
        simp only [length_cons, length_append, length_nil] at hlength
        omega
      · exact fun h => by cases h
    · intro d hd
      have hmem : d ∈ c :: w := List.IsSuffix.mem hd (rtakeWhile_suffix isSpace _)
      exact safe_space (hall d hmem) (mem_rtakeWhile_imp hd)
    · rw [hsplit, cons_append]

def valueLine : Value → Text
  | .str text => if isBareText text then strip text else literal text
  | v => render v

structure ReadsAs (py : Interpreter) (line : Text) (v : Value) : Prop where
  head : ∃ c rest, line = c :: rest ∧ isSpace c = false ∧ c ≠ '|' ∧ c ≠ '>'
  last : ∀ c, line.getLast? = some c → isSpace c = false
  breaks : ∀ c ∈ line, c ≠ '\n' ∧ c ≠ '\r'
  comment : stripComment line = line
  flow_eq : ∀ fuel, 2 * line.length + 2 ≤ fuel → flow py fuel false line = .ok (v, [])

theorem break_of_printed (h : 0x20 ≤ c.toNat) : c ≠ '\n' ∧ c ≠ '\r' := by
  constructor
  · rintro rfl
    exact absurd h (by decide)
  · rintro rfl
    exact absurd h (by decide)

namespace ReadsAs

variable {line : Text} {v : Value}

theorem of_token (h : Token line) (hplain : plain py line = .ok v) : ReadsAs py line v where
  head := by
    obtain ⟨c, rest, heq, hspace, -, -, -, -, -, hbar, hfold, -⟩ := h.head
    exact ⟨c, rest, heq, hspace, hbar, hfold⟩
  last := fun c hc => (h.chars c (mem_of_getLast? hc)).1
  breaks := by
    intro c hc
    obtain ⟨-, -, -, -, -, -, -, -, hspace⟩ := h.chars c hc
    exact break_of_printed hspace
  comment := by
    have hclear : Clear none none (line ++ []) := h.clear fun b => clear_nil none b
    rw [append_nil] at hclear
    exact stripComment_clear hclear
  flow_eq := by
    intro fuel hfuel
    obtain ⟨fuel, rfl⟩ : ∃ n, fuel = n + 1 := ⟨fuel - 1, by omega⟩
    obtain ⟨c, rest, rfl, hc⟩ := h.head
    rw [flow_alone hc, hplain]
    rfl

theorem of_literal (text : Text) : ReadsAs py (literal text) (.str text) where
  head := ⟨quote, _, rfl, by decide, by decide, by decide⟩
  last := by
    intro c hc
    rw [literal, ← cons_append, List.getLast?_concat, Option.some.injEq] at hc
    rw [← hc]
    decide
  breaks := fun c hc => break_of_printed (literal_printed text c hc)
  comment := rfl
  flow_eq := by
    intro fuel hfuel
    obtain ⟨fuel, rfl⟩ : ∃ n, fuel = n + 1 := ⟨fuel - 1, by omega⟩
    have hread := @flow_literal py false text [] fuel
    rwa [append_nil] at hread

theorem of_safe (h : SafeLine line) (hplain : plain py line = .ok v) : ReadsAs py line v where
  head := by
    obtain ⟨c, rest, heq, hc⟩ := h.head
    obtain ⟨⟨hspace, -, -, -, -, -, hbar, hfold, -⟩, -⟩ := letter_kinds hc
    exact ⟨c, rest, heq, hspace, hbar, hfold⟩
  last := by
    intro c hc
    have hrstrip : rstrip line = line := by
      obtain ⟨d, rest, heq, hd⟩ := h.head
      have hstrip := h.strip_eq
      rwa [strip, heq, lstrip_cons_of_not (letter_kinds hd).1.1, ← heq] at hstrip
    have hne : line ≠ [] := by
      rintro rfl
      cases hc
    rw [List.getLast?_eq_getLast_of_ne_nil hne, Option.some.injEq] at hc
    have hnot := rdropWhile_eq_self_iff.mp hrstrip hne
    rw [hc] at hnot
    simpa using hnot
  breaks := fun c hc => ⟨(safe_kinds (h.safe c hc)).2.2.1, (safe_kinds (h.safe c hc)).2.2.2.1⟩
  comment := by
    have hclear : Clear none none (line ++ []) := by
      apply clear_outsides _ fun b => clear_nil none b
      intro c hc
      obtain ⟨hquote, hhash, -⟩ := safe_kinds (h.safe c hc)
      exact ⟨hhash, hquote⟩
    rw [append_nil] at hclear
    exact stripComment_clear hclear
  flow_eq := by
    intro fuel hfuel
    obtain ⟨fuel, rfl⟩ : ∃ n, fuel = n + 1 := ⟨fuel - 1, by omega⟩
    obtain ⟨c, rest, rfl, hc⟩ := h.head
    rw [flow_alone (letter_kinds hc).1, hplain]
    rfl

theorem of_collection {c d : Char} {inner : Text} (hline : line = c :: (inner ++ [d]))
    (hc : isSpace c = false ∧ c ≠ '|' ∧ c ≠ '>') (hd : isSpace d = false)
    (hprinted : ∀ e ∈ line, 0x20 ≤ e.toNat) (hclear : Clear none none line)
    (hflow : ∀ fuel, 2 * line.length + 2 ≤ fuel → flow py fuel false line = .ok (v, [])) :
    ReadsAs py line v where
  head := ⟨c, inner ++ [d], hline, hc⟩
  last := by
    intro e he
    rw [hline, ← cons_append, List.getLast?_concat, Option.some.injEq] at he
    rw [← he]
    exact hd
  breaks := fun e he => break_of_printed (hprinted e he)
  comment := stripComment_clear hclear
  flow_eq := hflow

end ReadsAs

variable {text : Text}

theorem cut_of_trimmed (h : Trimmed text) : isCutText text = false := by
  cases hcut : isCutText text with
  | false => rfl
  | true =>
    have hbare : isBareText text = true := by
      simp only [isCutText, decide_eq_true_eq] at hcut
      exact hcut.1
    have hwhole := (safeLine_strip hbare).2.1.mp h
    rw [hcut] at hwhole
    cases hwhole

structure Settled (py : Interpreter) (v : Value) : Prop where
  proper : everywhere (isProper py) v = true
  written : everywhere (isWritten py) v = true
  uncut : isCutValue v = false

theorem plain_strip (h : isBareText text = true) :
    ∃ w, plain py (strip text) = .ok w ∧ (w = .str text ↔ isCutText text = false) ∧
      Settled py w := by
  obtain ⟨hsafe, hcut, -⟩ := safeLine_strip h
  obtain ⟨c, rest, heq, hc⟩ := hsafe.head
  have hplain := @plain_letter py _ _ hc (by rw [← heq]; exact hsafe.strip_eq)
  rw [← heq] at hplain
  refine ⟨_, hplain, ?_, ?_⟩
  · by_cases hwhole : isCutText text = false
    · have hstrip := hcut.mpr hwhole
      simp only [isBareText, decide_eq_true_eq] at h
      have hwords := h.2.1
      simp only [yamlWords, mem_cons, not_or] at hwords
      obtain ⟨htrue, hfalse, -, -, -, -, hnull, -⟩ := hwords
      simp [hstrip, hwhole, htrue, hfalse, hnull]
    · have hne : strip text ≠ text := fun heq => hwhole (hcut.mp heq)
      split
      · simp [hwhole]
      split
      · simp [hwhole]
      split
      · simp [hwhole]
      · simp [hne, hwhole]
  · split
    · exact ⟨rfl, rfl, rfl⟩
    split
    · exact ⟨rfl, rfl, rfl⟩
    split
    · exact ⟨rfl, rfl, rfl⟩
    · exact ⟨rfl, rfl, cut_of_trimmed hsafe.strip_eq⟩

theorem valueLine_reads (v : Value) (hproper : everywhere (isProper py) v = true)
    (hwritten : everywhere (isWritten py) v = true) :
    ∃ w, ReadsAs py (valueLine v) w ∧ (w = v ↔ isCutValue v = false) ∧ Settled py w := by
  have hcases := dumps_cases hproper hwritten
  have hclear : Clear none none (dumps v ++ []) :=
    clear_dumps v hproper hwritten none rfl fun b => clear_nil none b
  have hprinted := dumps_printed v hproper hwritten
  rw [append_nil] at hclear
  have htoken : Token (dumps v) ∧ plain py (dumps v) = .ok v → ReadsAs py (dumps v) v :=
    fun h => .of_token h.1 h.2
  have hself : ∀ w, w = v → isCutValue v = false → Settled py w := by
    rintro w rfl huncut
    exact ⟨hproper, hwritten, huncut⟩
  cases v with
  | null | bool b | int n =>
    exact ⟨_, htoken (by simpa using hcases), by simp [isCutValue], hself _ rfl rfl⟩
  | float x =>
    have hown := everywhere_self hproper
    cases x with
    | infinite negative => cases hown
    | finite d =>
      simp only [isProper, Bool.and_eq_true, decide_eq_true_eq] at hown
      have hpoint := Decimal.written_withPoint hown.1
      have hplain := @Decimal.Written.plain_eq py _ _ hown.1 hpoint
      rw [hown.2] at hplain
      exact ⟨_, .of_token (hpoint.token hown.1) hplain, by simp [isCutValue], hself _ rfl rfl⟩
  | str text =>
    by_cases hbare : isBareText text = true
    · obtain ⟨w, hplain, hcut, hsettled⟩ := @plain_strip py _ hbare
      refine ⟨w, ?_, hcut, hsettled⟩
      rw [valueLine, if_pos hbare]
      exact .of_safe (safeLine_strip hbare).1 hplain
    · have huncut : isCutValue (.str text) = false := by simp [isCutValue, isCutText, hbare]
      refine ⟨.str text, ?_, by simp [huncut], hself _ rfl huncut⟩
      rw [valueLine, if_neg hbare]
      exact .of_literal text
  | list vs =>
    have hsettled := hself _ rfl rfl
    simp only [everywhere, Bool.and_eq_true] at hproper hwritten
    refine ⟨.list vs, .of_collection rfl (by decide) (by decide) hprinted hclear ?_,
      by simp [isCutValue], hsettled⟩
    intro fuel hfuel
    obtain ⟨fuel, rfl⟩ : ∃ n, fuel = n + 1 := ⟨fuel - 1, by omega⟩
    have hopen : isSpace '[' = false := by decide
    have htext : valueLine (.list vs) = '[' :: (dumpsItems true vs ++ [']']) := rfl
    rw [htext, length_cons] at hfuel
    have hitems := items_dumps vs hproper.2 hwritten.2 [] [] fuel (by omega)
    rw [htext]
    simp only [flow, lstrip_cons_of_not hopen, if_true, lstrip_items hproper.2 hwritten.2, hitems]
    rfl
  | map entries =>
    have hsettled := hself _ rfl rfl
    simp only [everywhere, isProper, Bool.and_eq_true, decide_eq_true_eq] at hproper hwritten
    refine ⟨.map entries, .of_collection rfl (by decide) (by decide) hprinted hclear ?_,
      by simp [isCutValue], hsettled⟩
    intro fuel hfuel
    obtain ⟨fuel, rfl⟩ : ∃ n, fuel = n + 1 := ⟨fuel - 1, by omega⟩
    have hopen : isSpace '\x7b' = false := by decide
    have hlist : '\x7b' ≠ '[' := by decide
    have htext : valueLine (.map entries) = '\x7b' :: (dumpsEntries true entries ++ ['\x7d']) := rfl
    rw [htext, length_cons] at hfuel
    have hentries := entries_dumps entries hproper.2 hwritten.2 [] hproper.1 [] fuel (by omega)
    rw [htext]
    simp only [flow, lstrip_cons_of_not hopen, hlist, if_false, if_true, lstrip_entries, hentries]
    rfl

def keyText (key : Text) : Text := if isBareKey key then key else literal key

structure KeyLine (key : Text) : Prop where
  ne_nil : key ≠ []
  head : key.head? ≠ some '-'
  chars : ∀ c ∈ key, isKeyChar c = true

theorem bareKey_form {key : Text} (h : isBareKey key = true) :
    (KeyLine key ∧ isCutKey key = false) ∨
      (isCutKey key = true ∧ ∃ stem, KeyLine stem ∧ key = stem ++ ['\n']) := by
  have hbare := h
  simp only [isBareKey, decide_eq_true_eq] at hbare
  obtain ⟨c, w, hc, hw, heq⟩ := matchesPlain_form hbare.1
  have hall : ∀ d ∈ c :: w, isKeyChar d = true := by
    intro d hd
    rcases mem_cons.mp hd with rfl | hd
    · simp only [Bool.or_eq_true, decide_eq_true_eq] at hc
      rcases hc with hc | rfl
      · simp [isKeyChar, hc]
      · decide
    · exact hw d hd
  have hhead : c ≠ '-' := by
    rintro rfl
    exact absurd hc (by decide)
  rcases heq with rfl | rfl
  · refine .inl ⟨⟨by simp, by simpa using hhead, hall⟩, ?_⟩
    simp only [isCutKey, decide_eq_false_iff_not]
    rintro ⟨-, hbreak⟩
    exact absurd (hall _ (mem_of_getLast? hbreak)) (by decide)
  · refine .inr ⟨?_, c :: w, ⟨by simp, by simpa using hhead, hall⟩, by simp⟩
    simp only [isCutKey, decide_eq_true_eq]
    exact ⟨h, by rw [← cons_append, List.getLast?_concat]⟩

/-- A line that begins a key, or a value. -/
theorem unskipped {c : Char} {rest : Text} (hspace : isSpace c = false) (hhash : c ≠ '#') :
    isSkipped (c :: rest) = false ∧ isIndented (c :: rest) = false := by
  have hne : strip (c :: rest) ≠ [] := by
    rw [strip, lstrip_cons_of_not hspace]
    intro hnil
    have hall := rdropWhile_eq_nil_iff.mp hnil c mem_cons_self
    rw [hspace] at hall
    cases hall
  have hblank : c ≠ ' ' ∧ c ≠ '\t' := by
    constructor
    · rintro rfl
      exact absurd hspace (by decide)
    · rintro rfl
      exact absurd hspace (by decide)
  constructor
  · simp [isSkipped, hne, lstrip_cons_of_not hspace, hhash]
  · simp [isIndented, hblank.1, hblank.2]

namespace KeyLine

variable {key : Text}

theorem kinds (h : KeyLine key) : ∀ c ∈ key, isSpace c = false ∧ isQuote c = false ∧ c ≠ '#' ∧
    c ≠ '\n' ∧ c ≠ '\r' ∧ c ≠ ':' ∧ c ≠ '[' ∧ c ≠ '\x7b' := by
  intro c hc
  exact ⟨keyChar_kinds (h.chars c hc), safe_kinds (isSafe_of_isKeyChar (h.chars c hc))⟩

theorem strip_eq (h : KeyLine key) : strip key = key := by
  apply strip_of_head_last
  · intro c hc
    exact (h.kinds c (mem_of_mem_head? hc)).1
  · intro c hc
    exact (h.kinds c (mem_of_getLast? hc)).1

theorem unskipped (h : KeyLine key) (rest : Text) :
    isSkipped (key ++ rest) = false ∧ isIndented (key ++ rest) = false := by
  obtain ⟨c, more, rfl⟩ := exists_cons_of_ne_nil h.ne_nil
  obtain ⟨hspace, -, hhash, -⟩ := h.kinds c mem_cons_self
  exact Frontmatter.unskipped hspace hhash

theorem splitKey_eq (h : KeyLine key) {after : Text} (hafter : after.head?.all isSpace = true) :
    splitKey (key ++ ':' :: after) = some (key, strip after) := by
  have hnot : ∀ c ∈ key, decide (¬ (c = ':' ∨ c = '#')) = true := by
    intro c hc
    obtain ⟨-, -, hhash, -, -, hcolon, -⟩ := h.kinds c hc
    simp [hhash, hcolon]
  have htake : (key ++ ':' :: after).takeWhile (fun c => ¬ (c = ':' ∨ c = '#')) = key := by
    rw [takeWhile_append_of_pos hnot]
    simp
  have hdrop : (key ++ ':' :: after).dropWhile (fun c => ¬ (c = ':' ∨ c = '#')) = ':' :: after := by
    rw [dropWhile_append_of_pos hnot]
    simp
  have hstrip := h.strip_eq
  obtain ⟨c, more, rfl⟩ := exists_cons_of_ne_nil h.ne_nil
  obtain ⟨hspace, hquote, hhash, -, -, hcolon, hlist, hdict⟩ := h.kinds c mem_cons_self
  simp only [cons_append] at htake hdrop ⊢
  simp only [splitKey, hquote, hspace, hhash, hcolon, hlist, hdict, htake, hdrop, hafter, hstrip]
  simp

theorem splitKey_none (h : KeyLine key) : splitKey key = none := by
  have hdrop : key.dropWhile (fun c => ¬ (c = ':' ∨ c = '#')) = [] := by
    rw [dropWhile_eq_nil_iff]
    intro c hc
    obtain ⟨-, -, hhash, -, -, hcolon, -⟩ := h.kinds c hc
    simp [hhash, hcolon]
  obtain ⟨c, more, rfl⟩ := exists_cons_of_ne_nil h.ne_nil
  obtain ⟨hspace, hquote, hhash, -, -, hcolon, hlist, hdict⟩ := h.kinds c mem_cons_self
  simp only [splitKey, hquote, hspace, hhash, hcolon, hlist, hdict, hdrop]
  simp

end KeyLine

theorem splitKey_literal (key after : Text) :
    splitKey (literal key ++ ':' :: ' ' :: after) = some (key, strip (' ' :: after)) := by
  have hquote : isQuote quote = true := by decide
  have hscan := scanQuoted_literal key (':' :: ' ' :: after)
  simp only [literal, splitKey, cons_append, append_assoc, nil_append, hquote,
    if_true, hscan, quoted_literal]
  simp

end Substrate.Frontmatter
