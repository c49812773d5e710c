import Substrate.Frontmatter.Brackets
import Substrate.Frontmatter.Numbers
import Substrate.Frontmatter.Strings

/-!
What `json.dumps` makes of a value is read back as a flow value, in a collection and alone,
and no comment begins in it.
-/

namespace Substrate.Frontmatter

open Lib PyText List

variable {py : Interpreter}

/-- What a value must be to come from a mapping of Python: floats are doubles in their
shortest form, and the keys of a mapping differ. -/
def isProper (py : Interpreter) : Value → Bool
  | .float (.finite d) => decide d.Normal && decide (py.round d = .finite d)
  | .float (.infinite _) => false
  | .map entries => decide (entries.map Prod.fst).Nodup
  | _ => true

/-- A text that goes on with what ends an item, if at all. -/
def Delimited (text : Text) : Prop := ∀ c, text.head? = some c → endsItem c = true

theorem delimited_cons {c : Char} {rest : Text} (h : endsItem c = true) : Delimited (c :: rest) := by
  intro d hd
  cases hd
  exact h

def inToken (c : Char) : Prop := isSpace c = false ∧ isQuote c = false ∧ endsItem c = false ∧
    c ≠ '[' ∧ c ≠ '\x7b' ∧ c ≠ '#' ∧ c ≠ '|' ∧ c ≠ '>' ∧ 0x20 ≤ c.toNat

instance (c : Char) : Decidable (inToken c) := by
  unfold inToken
  infer_instance

structure Token (text : Text) : Prop where
  ne_nil : text ≠ []
  chars : ∀ c ∈ text, inToken c

theorem inToken_of_all {text : Text} (h : (text.all fun c => decide (inToken c)) = true) :
    ∀ c ∈ text, inToken c := by
  intro c hc
  have hc := all_eq_true.mp h c hc
  exact of_decide_eq_true hc

theorem digitChar_inToken : ∀ d < 10, inToken (digitChar d) := by decide

theorem token_words : Token nullWord ∧ Token trueWord ∧ Token falseWord := by
  refine ⟨⟨by decide, ?_⟩, ⟨by decide, ?_⟩, ⟨by decide, ?_⟩⟩
  · exact inToken_of_all (by decide)
  · exact inToken_of_all (by decide)
  · exact inToken_of_all (by decide)

theorem inToken_digits {ds : List Nat} (hds : ∀ d ∈ ds, d < 10) :
    ∀ c ∈ ds.map digitChar, inToken c := by
  intro c hc
  obtain ⟨d, hd, rfl⟩ := mem_map.mp hc
  exact digitChar_inToken d (hds d hd)

theorem inToken_sign (negative : Bool) : ∀ c ∈ signText negative, inToken c := by
  cases negative
  · exact inToken_of_all (by decide)
  · exact inToken_of_all (by decide)

theorem token_intText (n : Int) : Token (intText n) where
  ne_nil := (numeric_intText n).not_word.1
  chars := by
    obtain ⟨ds, -, hds, heq⟩ := natText_eq n.natAbs
    rw [intText_eq, heq]
    intro c hc
    rcases mem_append.mp hc with hc | hc
    · exact inToken_sign _ c hc
    · exact inToken_digits hds c hc

theorem inToken_tail {tail : Text} {e : Int} (h : Tail tail e) : ∀ c ∈ tail, inToken c := by
  cases h with
  | none => simp
  | exponent e =>
    obtain ⟨ds, -, hds, -, heq⟩ := powerText_eq e
    rw [heq]
    intro c hc
    rcases mem_cons.mp hc with rfl | hc
    · decide
    rcases mem_cons.mp hc with rfl | hc
    · split <;> decide
    · exact inToken_digits hds c hc

theorem Decimal.Written.token {d : Decimal} {text : Text} (hd : d.Normal) (h : d.Written text) :
    Token text where
  ne_nil := (h.numeric hd).not_word.1
  chars := by
    cases h with
    | @point ws fs tail e before after hws hfs hdigits hpoint htail =>
      have hlt := Decimal.Written.digits_lt_of_eq hd hdigits
      intro c hc
      rcases mem_append.mp hc with hc | hc
      · exact inToken_sign _ c hc
      rcases mem_append.mp hc with hc | hc
      · exact inToken_digits (fun n hn => hlt n (mem_append_left _ hn)) c hc
      rcases mem_cons.mp hc with rfl | hc
      · decide
      rcases mem_append.mp hc with hc | hc
      · exact inToken_digits (fun n hn => hlt n (mem_append_right _ hn)) c hc
      · exact inToken_tail htail c hc
    | @whole e hdigits hpoint =>
      intro c hc
      rcases mem_append.mp hc with hc | hc
      · exact inToken_sign _ c hc
      rcases mem_append.mp hc with hc | hc
      · exact inToken_digits hd.digits_lt c hc
      · exact inToken_tail (.exponent e) c hc

namespace Token

variable {text : Text}

theorem head (h : Token text) : ∃ c rest, text = c :: rest ∧ inToken c := by
  obtain ⟨c, rest, rfl⟩ := exists_cons_of_ne_nil h.ne_nil
  exact ⟨c, rest, rfl, h.chars c mem_cons_self⟩

theorem flow_eq (h : Token text) {rest : Text} (hrest : Delimited rest) (fuel : Nat) :
    flow py (fuel + 1) true (text ++ rest) = (plain py text).map fun v => (v, rest) := by
  have hplain : ∀ c ∈ text, decide (¬ endsItem c = true) = true := by
    intro c hc
    simp [(h.chars c hc).2.2.1]
  have hstop : rest.takeWhile (fun c => ¬ endsItem c) = [] ∧
      rest.dropWhile (fun c => ¬ endsItem c) = rest := by
    cases rest with
    | nil => exact ⟨rfl, rfl⟩
    | cons c rest => simp [hrest c rfl]
  have htake : (text ++ rest).takeWhile (fun c => ¬ endsItem c) = text := by
    rw [takeWhile_append_of_pos hplain, hstop.1, append_nil]
  have hdrop : (text ++ rest).dropWhile (fun c => ¬ endsItem c) = rest := by
    rw [dropWhile_append_of_pos hplain, hstop.2]
  obtain ⟨c, more, rfl, hspace, hquote, hends, hlist, hdict, -⟩ := h.head
  simp only [cons_append] at htake hdrop ⊢
  simp only [flow, lstrip_cons_of_not hspace, hlist, hdict, hquote, if_false, htake, hdrop]
  simp

theorem clear (h : Token text) {before : Option Char} {rest : Text}
    (hrest : ∀ b, Clear none b rest) : Clear none before (text ++ rest) := by
  apply clear_outsides _ hrest
  intro c hc
  obtain ⟨-, hquote, -, -, -, hhash, -⟩ := h.chars c hc
  exact ⟨hhash, hquote⟩

end Token

theorem flow_alone {c : Char} (hc : inToken c) (rest : Text) (fuel : Nat) :
    flow py (fuel + 1) false (c :: rest) = (plain py (c :: rest)).map fun v => (v, []) := by
  obtain ⟨hspace, hquote, hends, hlist, hdict, -⟩ := hc
  simp [flow, lstrip_cons_of_not hspace, hlist, hdict, hquote]

theorem plain_words : plain py nullWord = .ok .null ∧ plain py trueWord = .ok (.bool true) ∧
    plain py falseWord = .ok (.bool false) := by
  refine ⟨?_, ?_, ?_⟩ <;> rfl

theorem everywhere_self {p : Value → Bool} {v : Value} (h : everywhere p v = true) :
    p v = true := by
  cases v <;> simp_all [everywhere]

theorem dumps_cases {v : Value} (hproper : everywhere (isProper py) v = true)
    (hwritten : everywhere (isWritten py) v = true) :
    (Token (dumps v) ∧ plain py (dumps v) = .ok v) ∨ (∃ text, v = .str text) ∨
      (∃ items, v = .list items) ∨ ∃ entries, v = .map entries := by
  have hself := everywhere_self hproper
  have hshort := everywhere_self hwritten
  cases v with
  | null => exact .inl ⟨token_words.1, plain_words.1⟩
  | bool b =>
    cases b with
    | false => exact .inl ⟨token_words.2.2, plain_words.2.2⟩
    | true => exact .inl ⟨token_words.2.1, plain_words.2.1⟩
  | int n => exact .inl ⟨token_intText n, plain_intText (of_decide_eq_true hshort)⟩
  | float x =>
    cases x with
    | infinite negative => cases hself
    | finite d =>
      simp only [isProper, Bool.and_eq_true, decide_eq_true_eq] at hself
      have hrepr := Decimal.written_repr hself.1
      refine .inl ⟨hrepr.token hself.1, ?_⟩
      change plain py d.repr = _
      rw [hrepr.plain_eq hself.1, hself.2]
  | str text => exact .inr (.inl ⟨text, rfl⟩)
  | list items => exact .inr (.inr (.inl ⟨items, rfl⟩))
  | map entries => exact .inr (.inr (.inr ⟨entries, rfl⟩))

theorem dumps_head {v : Value} (hproper : everywhere (isProper py) v = true)
    (hwritten : everywhere (isWritten py) v = true) :
    ∃ c rest, dumps v = c :: rest ∧ isSpace c = false ∧ c ≠ ']' ∧ c ≠ '\x7d' := by
  rcases dumps_cases hproper hwritten with
    ⟨htoken, -⟩ | ⟨text, rfl⟩ | ⟨items, rfl⟩ | ⟨entries, rfl⟩
  · obtain ⟨c, rest, heq, hspace, -, hends, -⟩ := htoken.head
    refine ⟨c, rest, heq, hspace, ?_, ?_⟩
    · rintro rfl
      cases hends
    · rintro rfl
      cases hends
  · exact ⟨quote, _, rfl, by decide, by decide, by decide⟩
  · exact ⟨'[', _, rfl, by decide, by decide, by decide⟩
  · exact ⟨'\x7b', _, rfl, by decide, by decide, by decide⟩

theorem lstrip_items {vs : List Value} (hproper : everyItem (isProper py) vs = true)
    (hwritten : everyItem (isWritten py) vs = true) (rest : Text) :
    lstrip (dumpsItems true vs ++ ']' :: rest) = dumpsItems true vs ++ ']' :: rest := by
  cases vs with
  | nil => exact lstrip_cons_of_not (by decide)
  | cons v vs =>
    simp only [everyItem, Bool.and_eq_true] at hproper hwritten
    obtain ⟨c, more, heq, hspace, -⟩ := dumps_head hproper.1 hwritten.1
    simp only [dumpsItems, heq]
    exact lstrip_cons_of_not hspace

theorem lstrip_entries (entries : List (Text × Value)) (rest : Text) :
    lstrip (dumpsEntries true entries ++ '\x7d' :: rest) =
      dumpsEntries true entries ++ '\x7d' :: rest := by
  cases entries with
  | nil | cons entry entries => exact lstrip_cons_of_not (by decide)

theorem pastComma_comma (rest : Text) : pastComma (',' :: ' ' :: rest) = lstrip rest := by
  have hcomma : isSpace ',' = false := by decide
  have hblank : isSpace ' ' = true := by decide
  simp [pastComma, lstrip_cons_of_not hcomma, lstrip_cons_of_space hblank]

theorem pastComma_items {vs : List Value} (hproper : everyItem (isProper py) vs = true)
    (hwritten : everyItem (isWritten py) vs = true) (rest : Text) :
    pastComma (dumpsItems false vs ++ ']' :: rest) = dumpsItems true vs ++ ']' :: rest := by
  have hlstrip := lstrip_items hproper hwritten rest
  cases vs with
  | nil =>
    have hclose : isSpace ']' = false := by decide
    simp [dumpsItems, pastComma, lstrip_cons_of_not hclose]
  | cons v vs =>
    rw [← hlstrip]
    exact pastComma_comma _

theorem pastComma_entries (entries : List (Text × Value)) (rest : Text) :
    pastComma (dumpsEntries false entries ++ '\x7d' :: rest) =
      dumpsEntries true entries ++ '\x7d' :: rest := by
  have hlstrip := lstrip_entries entries rest
  cases entries with
  | nil =>
    have hclose : isSpace '\x7d' = false := by decide
    simp [dumpsEntries, pastComma, lstrip_cons_of_not hclose]
  | cons entry entries =>
    rw [← hlstrip]
    exact pastComma_comma _

theorem delimited_items (vs : List Value) (rest : Text) :
    Delimited (dumpsItems false vs ++ ']' :: rest) := by
  cases vs with
  | nil => exact delimited_cons (by decide)
  | cons v vs => exact @delimited_cons ',' _ (by decide)

theorem delimited_entries (entries : List (Text × Value)) (rest : Text) :
    Delimited (dumpsEntries false entries ++ '\x7d' :: rest) := by
  cases entries with
  | nil => exact delimited_cons (by decide)
  | cons entry entries => exact @delimited_cons ',' _ (by decide)

theorem entryKey_literal (key rest : Text) :
    entryKey (literal key ++ ':' :: rest) = (key, ':' :: rest) := by
  have hquote : isQuote quote = true := by decide
  have hcolon : isSpace ':' = false := by decide
  have hscan := scanQuoted_literal key (':' :: rest)
  simp only [literal, entryKey, cons_append, append_assoc, nil_append, hquote,
    if_true, hscan, quoted_literal, Option.getD_some, lstrip_cons_of_not hcolon]

theorem put_fresh {found : List (Text × Value)} {key : Text} {v : Value}
    (h : key ∉ found.map Prod.fst) : put found key v = found ++ [(key, v)] := if_neg h

theorem flow_literal (inCollection : Bool) (text rest : Text) (fuel : Nat) :
    flow py (fuel + 1) inCollection (literal text ++ rest) = .ok (.str text, rest) := by
  have hspace : isSpace quote = false := by decide
  have hquote : isQuote quote = true := by decide
  have hlist : quote ≠ '[' := by decide
  have hdict : quote ≠ '\x7b' := by decide
  have hscan := scanQuoted_literal text rest
  simp only [literal, flow, cons_append, append_assoc, nil_append,
    lstrip_cons_of_not hspace, hlist, hdict, if_false, hquote, if_true, hscan, quoted_literal,
    Option.getD_some]

mutual

theorem flow_dumps (v : Value) (hproper : everywhere (isProper py) v = true)
    (hwritten : everywhere (isWritten py) v = true) {rest : Text} (hrest : Delimited rest)
    (fuel : Nat) (hfuel : 2 * (dumps v ++ rest).length + 1 ≤ fuel) :
    flow py fuel true (dumps v ++ rest) = .ok (v, rest) := by
  obtain ⟨fuel, rfl⟩ : ∃ n, fuel = n + 1 := ⟨fuel - 1, by omega⟩
  have hscalar : Token (dumps v) ∧ plain py (dumps v) = .ok v →
      flow py (fuel + 1) true (dumps v ++ rest) = .ok (v, rest) := by
    rintro ⟨htoken, hplain⟩
    rw [htoken.flow_eq hrest, hplain]
    rfl
  have hcases := dumps_cases hproper hwritten
  cases v with
  | str text => exact flow_literal true text rest fuel
  | list vs =>
    have hopen : isSpace '[' = false := by decide
    simp only [everywhere, Bool.and_eq_true] at hproper hwritten
    have htext : dumps (.list vs) ++ rest = '[' :: (dumpsItems true vs ++ ']' :: rest) := by
      simp [dumps]
    rw [htext, length_cons] at hfuel
    have hitems := items_dumps vs hproper.2 hwritten.2 [] rest fuel (by omega)
    rw [htext]
    simp only [flow, lstrip_cons_of_not hopen, if_true, lstrip_items hproper.2 hwritten.2, hitems]
    rfl
  | map entries =>
    have hopen : isSpace '\x7b' = false := by decide
    have hlist : '\x7b' ≠ '[' := by decide
    simp only [everywhere, isProper, Bool.and_eq_true, decide_eq_true_eq] at hproper hwritten
    have htext : dumps (.map entries) ++ rest =
        '\x7b' :: (dumpsEntries true entries ++ '\x7d' :: rest) := by
      simp [dumps]
    rw [htext, length_cons] at hfuel
    have hentries := entries_dumps entries hproper.2 hwritten.2 [] hproper.1 rest fuel (by omega)
    rw [htext]
    simp only [flow, lstrip_cons_of_not hopen, hlist, if_false, if_true, lstrip_entries, hentries]
    rfl
  | null | bool b | int n | float x => simpa using hscalar (by simpa using hcases)

theorem items_dumps (vs : List Value) (hproper : everyItem (isProper py) vs = true)
    (hwritten : everyItem (isWritten py) vs = true) (found : List Value) (rest : Text)
    (fuel : Nat) (hfuel : 2 * (dumpsItems true vs ++ ']' :: rest).length + 2 ≤ fuel) :
    items py fuel found (dumpsItems true vs ++ ']' :: rest) = .ok (.list (found ++ vs), rest) := by
  obtain ⟨fuel, rfl⟩ : ∃ n, fuel = n + 1 := ⟨fuel - 1, by omega⟩
  cases vs with
  | nil =>
    rw [append_nil]
    simp [dumpsItems, items]
  | cons v vs =>
    simp only [everyItem, Bool.and_eq_true] at hproper hwritten
    obtain ⟨c, more, heq, hspace, hlist, -⟩ := dumps_head hproper.1 hwritten.1
    have htext : dumpsItems true (v :: vs) ++ ']' :: rest =
        dumps v ++ (dumpsItems false vs ++ ']' :: rest) := by
      simp [dumpsItems]
    have hpast := pastComma_items hproper.2 hwritten.2 rest
    have hshorter := pastComma_length_le (dumpsItems false vs ++ ']' :: rest)
    rw [hpast] at hshorter
    rw [htext] at hfuel ⊢
    have hvalue := flow_dumps v hproper.1 hwritten.1 (delimited_items vs rest) fuel (by omega)
    have hmore := items_dumps vs hproper.2 hwritten.2 (found ++ [v]) rest fuel (by
      rw [heq, length_append, length_cons] at hfuel
      omega)
    rw [heq, cons_append] at hvalue ⊢
    simp only [items, hlist, if_false, hvalue, hpast, hmore]
    simp

theorem entries_dumps (entries : List (Text × Value))
    (hproper : everyEntry (isProper py) entries = true)
    (hwritten : everyEntry (isWritten py) entries = true) (found : List (Text × Value))
    (hkeys : ((found ++ entries).map Prod.fst).Nodup) (rest : Text)
    (fuel : Nat) (hfuel : 2 * (dumpsEntries true entries ++ '\x7d' :: rest).length + 2 ≤ fuel) :
    Frontmatter.entries py fuel found (dumpsEntries true entries ++ '\x7d' :: rest) =
      .ok (.map (found ++ entries), rest) := by
  obtain ⟨fuel, rfl⟩ : ∃ n, fuel = n + 1 := ⟨fuel - 1, by omega⟩
  cases entries with
  | nil =>
    rw [append_nil]
    simp [dumpsEntries, Frontmatter.entries]
  | cons entry entries =>
    obtain ⟨key, v⟩ := entry
    simp only [everyEntry, Bool.and_eq_true] at hproper hwritten
    have hquote : quote ≠ '\x7d' := by decide
    have htext : dumpsEntries true ((key, v) :: entries) ++ '\x7d' :: rest =
        literal key ++ ':' :: ' ' :: (dumps v ++ (dumpsEntries false entries ++ '\x7d' :: rest)) := by
      simp [dumpsEntries]
    have hpast := pastComma_entries entries rest
    have hshorter := pastComma_length_le (dumpsEntries false entries ++ '\x7d' :: rest)
    rw [hpast] at hshorter
    rw [htext] at hfuel ⊢
    have hfuel' : 2 * (dumps v ++ (dumpsEntries false entries ++ '\x7d' :: rest)).length + 4 ≤
        fuel := by
      simp only [literal, length_append, length_cons] at hfuel ⊢
      omega
    have hvalue := flow_dumps v hproper.1 hwritten.1 (delimited_entries entries rest) fuel
      (by omega)
    have hfresh : key ∉ found.map Prod.fst := by
      rw [map_append, map_cons] at hkeys
      intro hmem
      exact disjoint_of_nodup_append hkeys hmem mem_cons_self
    have hmore := entries_dumps entries hproper.2 hwritten.2 (found ++ [(key, v)])
      (by simpa using hkeys) rest fuel (by
        rw [length_append] at hfuel'
        omega)
    have hkey := entryKey_literal key
      (' ' :: (dumps v ++ (dumpsEntries false entries ++ '\x7d' :: rest)))
    have hblank : isSpace ' ' = true := by decide
    rw [← flow_space hblank] at hvalue
    have hhead : literal key ++ ':' :: ' ' ::
        (dumps v ++ (dumpsEntries false entries ++ '\x7d' :: rest)) = quote ::
          (key.flatMap escape ++ [quote] ++ ':' :: ' ' ::
            (dumps v ++ (dumpsEntries false entries ++ '\x7d' :: rest))) := rfl
    rw [hhead] at hkey ⊢
    simp only [Frontmatter.entries, hquote, if_false, hkey, if_true, hvalue, put_fresh hfresh,
      hpast, hmore]
    simp

end

mutual

theorem clear_dumps (v : Value) (hproper : everywhere (isProper py) v = true)
    (hwritten : everywhere (isWritten py) v = true) (before : Option Char)
    (hbefore : opensAfter before = true) {rest : Text} (hrest : ∀ b, Clear none b rest) :
    Clear none before (dumps v ++ rest) := by
  have hcases := dumps_cases hproper hwritten
  cases v with
  | str text => exact clear_literal text hbefore (hrest _)
  | list vs =>
    simp only [everywhere, Bool.and_eq_true] at hproper hwritten
    have htext : dumps (.list vs) ++ rest = '[' :: (dumpsItems true vs ++ ']' :: rest) := by
      simp [dumps]
    rw [htext]
    apply clear_outside (by decide) (by decide)
    apply clear_items vs hproper.2 hwritten.2 true (fun _ => by decide)
    intro b
    exact clear_outside (by decide) (by decide) (hrest _)
  | map entries =>
    simp only [everywhere, Bool.and_eq_true] at hproper hwritten
    have htext : dumps (.map entries) ++ rest =
        '\x7b' :: (dumpsEntries true entries ++ '\x7d' :: rest) := by
      simp [dumps]
    rw [htext]
    apply clear_outside (by decide) (by decide)
    apply clear_entries entries hproper.2 hwritten.2 true (fun _ => by decide)
    intro b
    exact clear_outside (by decide) (by decide) (hrest _)
  | null | bool b | int n | float x =>
    exact Token.clear (by simpa using hcases : Token _ ∧ _).1 hrest

theorem clear_items (vs : List Value) (hproper : everyItem (isProper py) vs = true)
    (hwritten : everyItem (isWritten py) vs = true) (first : Bool) {before : Option Char}
    (hbefore : first = true → opensAfter before = true) {rest : Text}
    (hrest : ∀ b, Clear none b rest) : Clear none before (dumpsItems first vs ++ rest) := by
  cases vs with
  | nil => exact hrest before
  | cons v vs =>
    simp only [everyItem, Bool.and_eq_true] at hproper hwritten
    have hmore : ∀ b, Clear none b (dumpsItems false vs ++ rest) := fun b =>
      clear_items vs hproper.2 hwritten.2 false nofun hrest
    cases first with
    | true =>
      have hvalue := clear_dumps v hproper.1 hwritten.1 before (hbefore rfl) hmore
      simpa [dumpsItems] using hvalue
    | false =>
      have hvalue := clear_dumps v hproper.1 hwritten.1 (some ' ') (by decide) hmore
      have hcomma : Clear none before (',' :: ' ' :: (dumps v ++ (dumpsItems false vs ++ rest))) :=
        clear_outside (by decide) (by decide) (clear_outside (by decide) (by decide) hvalue)
      simpa [dumpsItems] using hcomma

theorem clear_entries (entries : List (Text × Value))
    (hproper : everyEntry (isProper py) entries = true)
    (hwritten : everyEntry (isWritten py) entries = true) (first : Bool) {before : Option Char}
    (hbefore : first = true → opensAfter before = true) {rest : Text}
    (hrest : ∀ b, Clear none b rest) : Clear none before (dumpsEntries first entries ++ rest) := by
  cases entries with
  | nil => exact hrest before
  | cons entry entries =>
    obtain ⟨key, v⟩ := entry
    simp only [everyEntry, Bool.and_eq_true] at hproper hwritten
    have hmore : ∀ b, Clear none b (dumpsEntries false entries ++ rest) := fun b =>
      clear_entries entries hproper.2 hwritten.2 false nofun hrest
    have hvalue := clear_dumps v hproper.1 hwritten.1 (some ' ') (by decide) hmore
    have hkey : ∀ b, opensAfter b = true → Clear none b
        (literal key ++ ':' :: ' ' :: (dumps v ++ (dumpsEntries false entries ++ rest))) :=
      fun b hb => clear_literal key hb
        (clear_outside (by decide) (by decide) (clear_outside (by decide) (by decide) hvalue))
    cases first with
    | true =>
      have hopen := hkey before (hbefore rfl)
      simpa [dumpsEntries] using hopen
    | false =>
      have hcomma : Clear none before (',' :: ' ' :: (literal key ++ ':' :: ' ' ::
          (dumps v ++ (dumpsEntries false entries ++ rest)))) :=
        clear_outside (by decide) (by decide)
          (clear_outside (by decide) (by decide) (hkey (some ' ') (by decide)))
      simpa [dumpsEntries] using hcomma

end

mutual

theorem dumps_printed (v : Value) (hproper : everywhere (isProper py) v = true)
    (hwritten : everywhere (isWritten py) v = true) : ∀ c ∈ dumps v, 0x20 ≤ c.toNat := by
  have hcases := dumps_cases hproper hwritten
  have htoken : Token (dumps v) → ∀ c ∈ dumps v, 0x20 ≤ c.toNat := by
    intro h c hc
    obtain ⟨-, -, -, -, -, -, -, -, hspace⟩ := h.chars c hc
    exact hspace
  cases v with
  | str text => exact literal_printed text
  | list vs =>
    simp only [everywhere, Bool.and_eq_true] at hproper hwritten
    have hitems := items_printed vs hproper.2 hwritten.2 true
    intro c hc
    simp only [dumps, mem_cons, mem_append, not_mem_nil, or_false] at hc
    rcases hc with rfl | hc | rfl
    · decide
    · exact hitems c hc
    · decide
  | map entries =>
    simp only [everywhere, Bool.and_eq_true] at hproper hwritten
    have hentries := entries_printed entries hproper.2 hwritten.2 true
    intro c hc
    simp only [dumps, mem_cons, mem_append, not_mem_nil, or_false] at hc
    rcases hc with rfl | hc | rfl
    · decide
    · exact hentries c hc
    · decide
  | null | bool b | int n | float x => exact htoken (by simpa using hcases : Token _ ∧ _).1

theorem items_printed (vs : List Value) (hproper : everyItem (isProper py) vs = true)
    (hwritten : everyItem (isWritten py) vs = true) (first : Bool) :
    ∀ c ∈ dumpsItems first vs, 0x20 ≤ c.toNat := by
  cases vs with
  | nil => simp [dumpsItems]
  | cons v vs =>
    simp only [everyItem, Bool.and_eq_true] at hproper hwritten
    have hvalue := dumps_printed v hproper.1 hwritten.1
    have hmore := items_printed vs hproper.2 hwritten.2 false
    intro c hc
    simp only [dumpsItems, mem_append] at hc
    rcases hc with hc | hc | hc
    · cases first with
      | true => cases hc
      | false =>
        have hall : ∀ c ∈ [',', ' '], 0x20 ≤ c.toNat := by simp
        exact hall c hc
    · exact hvalue c hc
    · exact hmore c hc

theorem entries_printed (entries : List (Text × Value))
    (hproper : everyEntry (isProper py) entries = true)
    (hwritten : everyEntry (isWritten py) entries = true) (first : Bool) :
    ∀ c ∈ dumpsEntries first entries, 0x20 ≤ c.toNat := by
  cases entries with
  | nil => simp [dumpsEntries]
  | cons entry entries =>
    obtain ⟨key, v⟩ := entry
    simp only [everyEntry, Bool.and_eq_true] at hproper hwritten
    have hvalue := dumps_printed v hproper.1 hwritten.1
    have hmore := entries_printed entries hproper.2 hwritten.2 false
    intro c hc
    simp only [dumpsEntries, mem_append, mem_cons] at hc
    rcases hc with hc | hc | rfl | rfl | hc | hc
    · cases first with
      | true => cases hc
      | false =>
        have hall : ∀ c ∈ [',', ' '], 0x20 ≤ c.toNat := by simp
        exact hall c hc
    · exact literal_printed key c hc
    · decide
    · decide
    · exact hvalue c hc
    · exact hmore c hc

end

end Substrate.Frontmatter
