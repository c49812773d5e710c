import Substrate.Frontmatter.Brackets

/-!
Reading frontmatter ends, and gives a mapping, unless a flow value that it reads has a
closing brace where an item of a list should begin. Every other loop goes on by a line or by
a character each time, so that fuel for the number of lines is enough.
-/

namespace Substrate.Frontmatter

open Lib PyText List

variable {py : Interpreter}

namespace Run

variable {α β : Type} {x : Run α}

def Honest (py : Interpreter) (x : Run α) : Prop :=
  x.outcome = .error .endless ↔ ∃ s ∈ x.reads, Stray py s

theorem honest_done (a : α) : Honest py (done a) := by
  simp [Honest, done]

theorem honest_readPlain (s : Text) : Honest py (readPlain py s) := by
  have hends : plain py s ≠ .error .endless := by
    intro h
    exact nomatch plain_error h
  simp [Honest, readPlain, hends]

theorem honest_readFlow (s : Text) : Honest py (readFlow py s) := by
  simp only [Honest, readFlow, mem_singleton, exists_eq_left]
  constructor
  · exact stray_of_endless (by omega)
  · intro hstray
    exact flow_endless hstray _

theorem andThen_ok {f : α → Run β} {a : α} (ha : x.outcome = .ok a) :
    x.andThen f = ⟨x.reads ++ (f a).reads, (f a).outcome⟩ := by
  simp [andThen, ha]

theorem andThen_error {f : α → Run β} {why : Halt} (hwhy : x.outcome = .error why) :
    x.andThen f = ⟨x.reads, .error why⟩ := by
  simp [andThen, hwhy]

theorem Honest.followed {y : Run β} (hx : Honest py x) (hends : x.outcome ≠ .error .endless)
    (hy : Honest py y) : Honest py (Run.mk (x.reads ++ y.reads) y.outcome) := by
  have hnone : ¬ ∃ s ∈ x.reads, Stray py s := fun h => hends (hx.mpr h)
  have hiff : y.outcome = .error .endless ↔ ∃ s ∈ y.reads, Stray py s := hy
  simp only [Honest, hiff, mem_append]
  constructor
  · rintro ⟨s, hs, hstray⟩
    exact ⟨s, .inr hs, hstray⟩
  · rintro ⟨s, hs | hs, hstray⟩
    · exact (hnone ⟨s, hs, hstray⟩).elim
    · exact ⟨s, hs, hstray⟩

theorem Honest.andThen {f : α → Run β} (hx : Honest py x)
    (hf : ∀ a, x.outcome = .ok a → Honest py (f a)) : Honest py (x.andThen f) := by
  cases ha : x.outcome with
  | ok a =>
    rw [andThen_ok ha]
    apply hx.followed _ (hf a ha)
    simp [ha]
  | error why =>
    have hiff : x.outcome = .error .endless ↔ ∃ s ∈ x.reads, Stray py s := hx
    rw [andThen_error ha]
    simp only [Honest, ← hiff, ha, Except.error.injEq]

/-- A run of the reader of lines that ends unless it read a stray brace, and then has come to
a line no sooner than `first`. -/
structure Reads (py : Interpreter) (first : Nat) (x : Run (α × Nat)) : Prop where
  honest : Honest py x
  first_le : ∀ a i, x.outcome = .ok (a, i) → first ≤ i

variable {first : Nat}

theorem reads_done {i : Nat} (a : α) (h : first ≤ i) :
    Reads py first (done (a, i)) where
  honest := honest_done _
  first_le := by
    intro b j hok
    cases hok
    exact h

theorem Reads.andThen {γ : Type} {x : Run γ} {f : γ → Run (β × Nat)} (hx : Honest py x)
    (hf : ∀ a, x.outcome = .ok a → Reads py first (f a)) :
    Reads py first (x.andThen f) where
  honest := hx.andThen fun a ha => (hf a ha).honest
  first_le := by
    intro b j hok
    cases ha : x.outcome with
    | ok a =>
      rw [andThen_ok ha] at hok
      exact (hf a ha).first_le b j hok
    | error why =>
      rw [andThen_error ha] at hok
      cases hok

theorem Reads.mono {first' : Nat} {x : Run (α × Nat)} (h : Reads py first x)
    (hle : first' ≤ first) :
    Reads py first' x where
  honest := h.honest
  first_le := fun a i hok => hle.trans (h.first_le a i hok)

end Run

theorem le_pastSkipped (skip : Text → Bool) (lines : List Text) (j : Nat) :
    j ≤ pastSkipped skip lines j := Nat.le_add_right _ _

variable {lines : List Text} {i column fuel : Nat} {rest : Text} {c : Char}

theorem lt_length_of_getElem? {line : Text} (h : lines[i]? = some line) :
    i < lines.length := (List.getElem?_eq_some_iff.mp h).1

theorem splitKey_head {content key : Text} (h : splitKey content = some (key, rest)) :
    content.head? ≠ some '#' := by
  intro hhash
  cases content with
  | nil => cases hhash
  | cons c more =>
    cases hhash
    have hquote : isQuote '#' = false := by decide
    simp [splitKey, hquote] at h

theorem lstrip_indented (column : Nat) (content : Text) :
    lstrip (List.replicate column ' ' ++ content) = lstrip content := by
  have hspace : isSpace ' ' = true := by decide
  induction column with
  | zero => rfl
  | succ column ih =>
    rw [replicate_succ, cons_append, lstrip_cons_of_space hspace]
    exact ih

theorem indentOf_indented (hc : isSpace c = false) :
    indentOf (List.replicate column ' ' ++ c :: rest) = column := by
  have hne : c ≠ ' ' := by
    rintro rfl
    exact absurd hc (by decide)
  unfold indentOf
  induction column with
  | zero => simp [hne]
  | succ column ih =>
    rw [replicate_succ, cons_append, takeWhile_cons_of_pos (by simp), length_cons, ih]

theorem strip_head {text : Text} (h : strip text = c :: rest) : isSpace c = false := by
  have hprefix : strip text <+: lstrip text := rdropWhile_prefix isSpace (l := lstrip text)
  rw [h] at hprefix
  obtain ⟨more, hmore⟩ := hprefix
  exact lstrip_head hmore.symm

theorem sequence_at_item {indent : Nat} {found : List Value}
    (hline : lines[i]? = some (List.replicate column ' ' ++ c :: rest)) (hc : isSpace c = false)
    (hhash : c ≠ '#') (hcolumn : column ≠ indent) :
    sequence py (fuel + 1) lines i indent found = .done (found, i) := by
  have hstrip : lstrip (List.replicate column ' ' ++ c :: rest) = c :: rest := by
    rw [lstrip_indented, lstrip_cons_of_not hc]
  have hskipped : isSkipped (List.replicate column ' ' ++ c :: rest) = false := by
    have hne : strip (List.replicate column ' ' ++ c :: rest) ≠ [] := by
      rw [strip, hstrip]
      intro hnil
      have hall := rdropWhile_eq_nil_iff.mp hnil c mem_cons_self
      rw [hc] at hall
      cases hall
    simp [isSkipped, hne, hstrip, hhash]
  have hindent : indentOf (List.replicate column ' ' ++ c :: rest) ≠ indent := by
    rwa [indentOf_indented hc]
  simp only [sequence, hline, hskipped]
  rw [if_neg (by simp), if_pos (.inl hindent)]

theorem blocks_read (py : Interpreter) (fuel : Nat) :
    (∀ lines i indent rest, 4 * (lines.length - i) + 1 ≤ fuel →
      (value py fuel lines i indent rest).Reads py (i + 1)) ∧
    (∀ lines i indent, 4 * (lines.length - i) + 4 ≤ fuel →
      (block py fuel lines i indent).Reads py i) ∧
    (∀ lines i indent found, 4 * (lines.length - i) + 2 ≤ fuel →
      (mapping py fuel lines i indent found).Reads py i) ∧
    (∀ lines i indent found, 4 * (lines.length - i) + 3 ≤ fuel →
      (sequence py fuel lines i indent found).Reads py i) := by
  induction fuel with
  | zero =>
    refine ⟨?_, ?_, ?_, ?_⟩ <;> intros <;> omega
  | succ fuel ih =>
    obtain ⟨hvalue, hblock, hmapping, hsequence⟩ := ih
    refine ⟨?_, ?_, ?_, ?_⟩
    · intro lines i indent rest hfuel
      unfold value
      dsimp only
      generalize (if rest.head? = some '|' ∨ rest.head? = some '>' then rest
        else stripComment rest) = rest
      cases rest with
      | nil =>
        dsimp only
        have hj := le_pastSkipped isSkipped lines (i + 1)
        split
        · exact Run.reads_done _ hj
        · next line hline =>
          have hlt := lt_length_of_getElem? hline
          split
          · apply (hblock lines _ _ _).mono hj
            omega
          · exact Run.reads_done _ le_rfl
      | cons c more =>
        dsimp only
        split
        · exact Run.reads_done _ (Nat.le_add_right _ _)
        · apply Run.Reads.andThen (Run.honest_readFlow _)
          rintro ⟨v, tail⟩ -
          dsimp only
          split
          · apply Run.Reads.andThen (Run.honest_readPlain _)
            intro w _
            exact Run.reads_done _ le_rfl
          · exact Run.reads_done _ le_rfl
    · intro lines i indent hfuel
      unfold block
      split
      · have hread := hsequence lines i indent [] (by omega)
        apply Run.Reads.andThen hread.honest
        rintro ⟨found, j⟩ hok
        exact Run.reads_done _ (hread.first_le _ _ hok)
      · have hread := hmapping lines i indent [] (by omega)
        apply Run.Reads.andThen hread.honest
        rintro ⟨found, j⟩ hok
        exact Run.reads_done _ (hread.first_le _ _ hok)
    · intro lines i indent found hfuel
      unfold mapping
      split
      · exact Run.reads_done _ le_rfl
      · next line hline =>
        have hlt := lt_length_of_getElem? hline
        have hnext := hmapping lines (i + 1) indent found (by omega)
        split
        · exact hnext.mono (Nat.le_succ i)
        split
        · exact Run.reads_done _ le_rfl
        split
        · exact hnext.mono (Nat.le_succ i)
        · next key rest hkey =>
          have hread := hvalue lines i indent rest (by omega)
          apply Run.Reads.andThen hread.honest
          rintro ⟨v, j⟩ hok
          have hj := hread.first_le _ _ hok
          apply (hmapping lines j indent _ (by omega)).mono
          omega
    · intro lines i indent found hfuel
      unfold sequence
      split
      · exact Run.reads_done _ le_rfl
      next line hline =>
      have hlt := lt_length_of_getElem? hline
      have hnext := fun found => hsequence lines (i + 1) indent found (by omega)
      split
      · exact (hnext found).mono (Nat.le_succ i)
      split
      · exact Run.reads_done _ le_rfl
      dsimp only
      split
      · have hj := le_pastSkipped (fun line => strip line = []) lines (i + 1)
        split
        · exact (hnext _).mono (Nat.le_succ i)
        next next hline' =>
        have hlt' := lt_length_of_getElem? hline'
        split
        · have hread := hblock lines (pastSkipped (fun line => strip line = []) lines (i + 1))
            (indentOf next) (by omega)
          apply Run.Reads.andThen hread.honest
          rintro ⟨v, j⟩ hok
          have hle := hread.first_le _ _ hok
          apply (hsequence lines j indent _ (by omega)).mono
          omega
        · exact (hnext _).mono (Nat.le_succ i)
      split
      · next hcontent hkey =>
        generalize hitem : List.drop 1 (lstrip line) = item at hcontent hkey ⊢
        have hcolumn : indent + 1 + (item.length - (lstrip item).length) ≠ indent := by omega
        generalize indent + 1 + (item.length - (lstrip item).length) = column at hcolumn ⊢
        obtain ⟨c, rest, hc⟩ := exists_cons_of_ne_nil hcontent
        obtain ⟨⟨key, more⟩, hsplit⟩ := Option.isSome_iff_exists.mp hkey.1
        have hspace : isSpace c = false := strip_head hc
        have hhash : c ≠ '#' := by
          rintro rfl
          exact splitKey_head hsplit (by rw [hc]; rfl)
        rw [hc]
        have hlines : (lines.set i (List.replicate column ' ' ++ c :: rest)).length =
            lines.length := length_set
        have hline' : (lines.set i (List.replicate column ' ' ++ c :: rest))[i]? =
            some (List.replicate column ' ' ++ c :: rest) := List.getElem?_set_self hlt
        generalize lines.set i (List.replicate column ' ' ++ c :: rest) = lines' at hlines hline' ⊢
        have hread := hmapping lines' i column [] (by omega)
        apply Run.Reads.andThen hread.honest
        rintro ⟨v, j⟩ hok
        have hj := hread.first_le _ _ hok
        dsimp only
        -- an item that the mapping did not read at all ends the sequence
        rcases Nat.eq_or_lt_of_le hj with rfl | hlater
        · obtain ⟨fuel, rfl⟩ : ∃ n, fuel = n + 1 := ⟨fuel - 1, by omega⟩
          rw [sequence_at_item hline' hspace hhash hcolumn]
          exact Run.reads_done _ le_rfl
        · apply (hsequence lines' j indent _ (by omega)).mono
          omega
      · apply Run.Reads.andThen (Run.honest_readFlow _)
        rintro ⟨v, tail⟩ -
        exact (hnext _).mono (Nat.le_succ i)

theorem lt_rawValue (lines : List Text) (i : Nat) (rest : Text) : i < (rawValue lines i rest).2 :=
  le_pastSkipped _ lines (i + 1)

theorem loadLines_honest (i : Nat) (found : List (Text × Value))
    (hfuel : lines.length - i + 1 ≤ fuel) :
    (loadLines py fuel lines i found).Honest py ∧
      (loadLines py fuel lines i found).outcome ≠ .error .raised := by
  induction fuel generalizing i found with
  | zero => omega
  | succ fuel ih =>
    unfold loadLines
    split
    · exact ⟨Run.honest_done _, nofun⟩
    next line hline =>
    have hlt := lt_length_of_getElem? hline
    have hnext := ih (i + 1) found (by omega)
    split
    · exact hnext
    split
    · exact hnext
    next key rest hkey =>
    have hread := (blocks_read py (5 * lines.length + 5)).1 lines i 0 rest (by omega)
    dsimp only
    split
    · next hendless =>
      have hhonest := hread.honest
      simp only [Run.Honest, hendless] at hhonest ⊢
      exact ⟨hhonest, nofun⟩
    · next hraised =>
      have hraw := lt_rawValue lines i rest
      have hmore := ih (rawValue lines i rest).2
        (put found key (rawValue lines i rest).1) (by omega)
      exact ⟨hread.honest.followed (by simp [hraised]) hmore.1, hmore.2⟩
    · next v j hok =>
      have hj := hread.first_le _ _ hok
      have hmore := ih j (put found key v) (by omega)
      exact ⟨hread.honest.followed (by simp [hok]) hmore.1, hmore.2⟩

/-- `load_mapping` gives a mapping exactly when no flow value that it reads has a closing
brace where an item of a list should begin. It never raises, and on such a value the loop
over the items of the list does not end, whatever the number of its turns. -/
theorem load_mapping_ends (py : Interpreter) (text : Text) :
    ((∃ found, (loadMapping py text).outcome = .ok found) ↔
      ∀ s ∈ (loadMapping py text).reads, ¬ Stray py s) ∧
    (loadMapping py text).outcome ≠ .error .raised ∧
    ∀ s ∈ (loadMapping py text).reads, Stray py s →
      ∀ fuel, flow py fuel false s = .error .endless := by
  obtain ⟨hhonest, hraised⟩ : (loadMapping py text).Honest py ∧ _ :=
    loadLines_honest 0 [] (by omega)
  refine ⟨?_, hraised, fun s _ hstray fuel => flow_endless hstray fuel⟩
  have hiff : (loadMapping py text).outcome = .error .endless ↔
      ∃ s ∈ (loadMapping py text).reads, Stray py s := hhonest
  constructor
  · rintro ⟨found, hok⟩ s hs hstray
    have hendless := hiff.mpr ⟨s, hs, hstray⟩
    rw [hok] at hendless
    cases hendless
  · intro hnone
    cases houtcome : (loadMapping py text).outcome with
    | ok found => exact ⟨found, rfl⟩
    | error halt =>
      cases halt with
      | raised => exact (hraised houtcome).elim
      | endless =>
        obtain ⟨s, hs, hstray⟩ := hiff.mp houtcome
        exact (hnone s hs hstray).elim

/-- The text `a: [}`. -/
theorem brace_in_list :
    (loadMapping ⟨.finite, 4300⟩ ['a', ':', ' ', '[', '\x7d']).outcome = .error .endless ∧
      (loadMapping ⟨.finite, 4300⟩ ['a', ':', ' ', '[', '\x7d']).reads = [['[', '\x7d']] ∧
      ∀ fuel, flow ⟨.finite, 4300⟩ fuel false ['[', '\x7d'] = .error .endless := by
  have hstray : Stray ⟨.finite, 4300⟩ ['[', '\x7d'] := .inl ⟨rfl, _, Leads.refl _, rfl⟩
  have hreads : (loadMapping ⟨.finite, 4300⟩ ['a', ':', ' ', '[', '\x7d']).reads =
      [['[', '\x7d']] := by decide +kernel
  refine ⟨?_, hreads, flow_endless hstray⟩
  apply (loadLines_honest 0 [] (by omega)).1.mpr
  rw [show loadLines _ _ _ 0 [] = loadMapping ⟨.finite, 4300⟩ ['a', ':', ' ', '[', '\x7d'] from rfl,
    hreads]
  exact ⟨_, mem_cons_self, hstray⟩

end Substrate.Frontmatter
