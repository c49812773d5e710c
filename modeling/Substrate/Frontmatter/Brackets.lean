import Substrate.Frontmatter.Reading

/-!
Where the items of a flow value stand. A machine with a stack of open brackets goes through
the text once and gives no values; the flow reader follows it, and never ends exactly when
the machine stands at a closing brace where an item of a list should begin.
-/

namespace Substrate.Frontmatter

open Lib PyText List

variable {py : Interpreter}

inductive Bracket where
  | list
  | dict
  deriving DecidableEq, Repr

abbrev Place := List Bracket × Text

/-- Past the beginning of a value in a collection: a bracket is opened, a string or a plain
scalar is passed. There is no place after a scalar that cannot be read. -/
def begun (py : Interpreter) (opened : List Bracket) (s : Text) : Option Place :=
  match lstrip s with
  | [] => some (opened, [])
  | c :: rest =>
    if c = '[' then some (.list :: opened, lstrip rest)
    else if c = '\x7b' then some (.dict :: opened, lstrip rest)
    else if isQuote c then some (opened, pastComma ((scanQuoted c rest).2.getD []))
    else
      match plain py ((c :: rest).takeWhile fun c => ¬ endsItem c) with
      | .error _ => none
      | .ok _ => some (opened, pastComma ((c :: rest).dropWhile fun c => ¬ endsItem c))

/-- From where an item, an entry or a closing bracket stands to the next such place. -/
def onward (py : Interpreter) : Place → Option Place
  | ([], s) => some ([], s)
  | (_ :: opened, []) => some (opened, [])
  | (.list :: opened, c :: rest) =>
    if c = ']' then some (opened, pastComma rest) else begun py (.list :: opened) (c :: rest)
  | (.dict :: opened, c :: rest) =>
    if c = '\x7d' then some (opened, pastComma rest)
    else
      match (entryKey (c :: rest)).2 with
      | [] => some (.dict :: opened, [])
      | d :: after =>
        if d = ':' then begun py (.dict :: opened) after
        else some (.dict :: opened, pastComma (d :: after))

def move (py : Interpreter) (place : Option Place) : Option Place := place.bind (onward py)

def Leads (py : Interpreter) : Option Place → Option Place → Prop :=
  Relation.ReflTransGen fun before after => move py before = after

def Misplaced : Place → Prop
  | (.list :: _, c :: _) => c = '\x7d'
  | _ => False

/-- The machine comes to a closing brace where an item should begin. -/
def Reaches (py : Interpreter) (start : Option Place) : Prop :=
  ∃ place, Leads py start (some place) ∧ Misplaced place

/-- A flow value with a closing brace where an item of a list should begin, in that list or
in one within it. -/
def Stray (py : Interpreter) (s : Text) : Prop :=
  match lstrip s with
  | [] => False
  | c :: rest =>
    (c = '[' ∧ Reaches py (some ([.list], lstrip rest))) ∨
      (c = '\x7b' ∧ Reaches py (some ([.dict], lstrip rest)))

namespace Leads

theorem refl (place : Option Place) : Leads py place place := Relation.ReflTransGen.refl

theorem trans {a b c : Option Place} (hab : Leads py a b) (hbc : Leads py b c) : Leads py a c :=
  Relation.ReflTransGen.trans hab hbc

theorem onward {place : Place} {next b : Option Place} (hnext : Frontmatter.onward py place = next)
    (h : Leads py next b) : Leads py (some place) b := by
  apply Relation.ReflTransGen.head _ h
  exact hnext

theorem fixed {a b : Option Place} (hfixed : move py a = a) (h : Leads py a b) : b = a := by
  induction h with
  | refl => rfl
  | tail _ hmove ih =>
    rw [← hmove, ih]
    exact hfixed

theorem unique {start a b : Option Place} (ha : Leads py start a) (hb : Leads py start b)
    (hfixed : move py a = a) (hfixed' : move py b = b) : a = b := by
  have hright : Relator.RightUnique fun before after => move py before = after := by
    intro x y z hy hz
    exact hy.symm.trans hz
  rcases Relation.ReflTransGen.total_of_right_unique hright ha hb with h | h
  · exact (fixed hfixed h).symm
  · exact fixed hfixed' h

end Leads

theorem plain_nil : plain py [] = .ok .null := by
  simp [plain, strip, lstrip, rstrip]

theorem isSpace_brace : isSpace '\x7d' = false := by decide

theorem pastComma_brace (rest : Text) : pastComma ('\x7d' :: rest) = '\x7d' :: rest := by
  rw [pastComma, lstrip_cons_of_not isSpace_brace]
  simp

theorem move_misplaced {place : Place} (h : Misplaced place) : move py (some place) = some place := by
  obtain ⟨opened, s⟩ := place
  cases opened with
  | nil => exact h.elim
  | cons bracket opened =>
    cases bracket with
    | dict => exact h.elim
    | list =>
      cases s with
      | nil => exact h.elim
      | cons c rest =>
        have hbrace : c = '\x7d' := h
        subst hbrace
        have hquote : isQuote '\x7d' = false := by decide
        have hends : endsItem '\x7d' = true := by decide
        simp [move, onward, begun, lstrip_cons_of_not isSpace_brace, hquote, hends, plain_nil,
          pastComma_brace]

theorem not_reaches {start final : Option Place} (h : Leads py start final)
    (hfixed : move py final = final) (hfinal : ∀ place, final = some place → ¬ Misplaced place) :
    ¬ Reaches py start := by
  rintro ⟨place, hlead, hmisplaced⟩
  have heq := Leads.unique h hlead hfixed (move_misplaced hmisplaced)
  exact hfinal place heq hmisplaced

theorem Reaches.of_leads {start next : Option Place} (h : Leads py start next)
    (hnext : Reaches py next) : Reaches py start := by
  obtain ⟨place, hlead, hmisplaced⟩ := hnext
  exact ⟨place, h.trans hlead, hmisplaced⟩

theorem pastComma_length_le (s : Text) : (pastComma s).length ≤ s.length := by
  have hle := lstrip_length_le s
  unfold pastComma
  cases hs : lstrip s with
  | nil => simp
  | cons c rest =>
    rw [hs, length_cons] at hle
    have hrest := lstrip_length_le rest
    dsimp only
    split
    · omega
    · simp only [length_cons]
      omega

theorem pastComma_comma_length_le (rest : Text) :
    (pastComma (',' :: rest)).length ≤ rest.length := by
  have hcomma : isSpace ',' = false := by decide
  rw [pastComma, lstrip_cons_of_not hcomma]
  simpa using lstrip_length_le rest

theorem dropWhile_length_le (keep : Char → Bool) (s : Text) :
    (s.dropWhile keep).length ≤ s.length := (dropWhile_suffix keep).length_le

theorem scanQuoted_length_le (q : Char) (s : Text) :
    ((scanQuoted q s).2.getD []).length ≤ s.length := by
  fun_induction scanQuoted q s with
  | case1 => simp
  | case2 c => split <;> simp
  | case3 c d rest hescape token after hscan ih =>
    simp only [hscan, length_cons] at ih ⊢
    omega
  | case4 d rest hdouble token after hscan hescape ih =>
    simp only [hscan, length_cons] at ih ⊢
    omega
  | case5 d rest hdouble hescape => simp
  | case6 c d rest hescape hclose token after hscan ih =>
    simp only [hscan, length_cons] at ih ⊢
    omega

theorem entryKey_length_le (c : Char) (rest : Text) :
    (entryKey (c :: rest)).2.length ≤ rest.length := by
  unfold entryKey
  dsimp only
  split
  · exact (lstrip_length_le _).trans (scanQuoted_length_le c rest)
  · split
    · simp
    · next hne =>
      have hname : endsName c = false := by
        by_contra hends
        exact hne (.inl (by simp [hends]))
      rw [dropWhile_cons_of_pos (by simp [hname])]
      exact dropWhile_length_le _ rest

theorem map_ok_iff {ε α β : Type} {x : Except ε α} {f : α → β} {b : β} :
    x.map f = .ok b ↔ ∃ a, x = .ok a ∧ f a = b := by
  cases x <;> simp [Except.map]

theorem left_length_le (py : Interpreter) (fuel : Nat) :
    (∀ inCollection s v after, flow py fuel inCollection s = .ok (v, after) →
      after.length ≤ s.length) ∧
    (∀ found s v after, items py fuel found s = .ok (v, after) → after.length ≤ s.length) ∧
    (∀ found s v after, entries py fuel found s = .ok (v, after) → after.length ≤ s.length) := by
  induction fuel with
  | zero => simp [flow, items, entries]
  | succ fuel ih =>
    obtain ⟨hflow, hitems, hentries⟩ := ih
    refine ⟨?_, ?_, ?_⟩
    · intro inCollection s v after h
      have hle := lstrip_length_le s
      unfold flow at h
      cases hs : lstrip s with
      | nil =>
        simp only [hs, Except.ok.injEq, Prod.mk.injEq] at h
        rw [← h.2]
        exact Nat.zero_le _
      | cons c rest =>
        rw [hs, length_cons] at hle
        have hrest := lstrip_length_le rest
        simp only [hs] at h
        split at h
        · have := hitems _ _ _ _ h
          omega
        split at h
        · have := hentries _ _ _ _ h
          omega
        split at h
        · have := scanQuoted_length_le c rest
          simp only [Except.ok.injEq, Prod.mk.injEq] at h
          rw [← h.2]
          omega
        split at h
        · obtain ⟨w, hw, heq⟩ := map_ok_iff.mp h
          simp only [Prod.mk.injEq] at heq
          rw [← heq.2]
          exact (dropWhile_length_le _ _).trans hle
        · obtain ⟨w, hw, heq⟩ := map_ok_iff.mp h
          simp only [Prod.mk.injEq] at heq
          rw [← heq.2]
          exact Nat.zero_le _
    · intro found s v after h
      cases s with
      | nil => simp_all [items]
      | cons c rest =>
        simp only [items] at h
        split at h
        · simp only [Except.ok.injEq, Prod.mk.injEq] at h
          rw [← h.2]
          exact Nat.le_succ _
        cases hitem : flow py fuel true (c :: rest) with
        | error halt => simp [hitem] at h
        | ok found' =>
          obtain ⟨w, left⟩ := found'
          simp only [hitem] at h
          have hfirst := hflow _ _ _ _ hitem
          have hcomma := pastComma_length_le left
          have hmore := hitems _ _ _ _ h
          omega
    · intro found s v after h
      cases s with
      | nil => simp_all [entries]
      | cons c rest =>
        have hkey := entryKey_length_le c rest
        simp only [entries] at h
        split at h
        · simp only [Except.ok.injEq, Prod.mk.injEq] at h
          rw [← h.2]
          exact Nat.le_succ _
        cases hleft : (entryKey (c :: rest)).2 with
        | nil =>
          simp only [hleft] at h
          have hmore := hentries _ _ _ _ h
          simp only [length_nil] at hmore
          omega
        | cons d more =>
          simp only [hleft] at h
          simp only [hleft, length_cons] at hkey
          split at h
          · cases hvalue : flow py fuel true more with
            | error halt => simp [hvalue] at h
            | ok found' =>
              obtain ⟨w, left⟩ := found'
              simp only [hvalue] at h
              have hfirst := hflow _ _ _ _ hvalue
              have hcomma := pastComma_length_le left
              have hmore := hentries _ _ _ _ h
              simp only [length_cons]
              omega
          · have hcomma := pastComma_length_le (d :: more)
            have hmore := hentries _ _ _ _ h
            simp only [length_cons] at hcomma ⊢
            omega

theorem flow_space {c : Char} (hspace : isSpace c = true) (fuel : Nat) (inCollection : Bool)
    (rest : Text) : flow py fuel inCollection (c :: rest) = flow py fuel inCollection rest := by
  cases fuel with
  | zero => rfl
  | succ fuel => simp only [flow, lstrip_cons_of_space hspace]

theorem next_length_le {fuel : Nat} {c : Char} {rest after : Text} {v : Value}
    (h : flow py fuel true (c :: rest) = .ok (v, after)) (hlist : c ≠ ']') (hdict : c ≠ '\x7d') :
    (pastComma after).length ≤ rest.length := by
  have hcomma := pastComma_length_le after
  cases hspace : isSpace c with
  | true =>
    rw [flow_space hspace] at h
    exact hcomma.trans ((left_length_le py fuel).1 _ _ _ _ h)
  | false =>
    cases fuel with
    | zero => cases h
    | succ fuel =>
      obtain ⟨-, hitems, hentries⟩ := left_length_le py fuel
      have hrest := lstrip_length_le rest
      simp only [flow, lstrip_cons_of_not hspace] at h
      split at h
      · have hleft := hitems _ _ _ _ h
        omega
      split at h
      · have hleft := hentries _ _ _ _ h
        omega
      split at h
      · have hleft := scanQuoted_length_le c rest
        simp only [Except.ok.injEq, Prod.mk.injEq] at h
        rw [← h.2] at hcomma ⊢
        omega
      rw [if_pos trivial] at h
      obtain ⟨w, hw, heq⟩ := map_ok_iff.mp h
      simp only [Prod.mk.injEq] at heq
      rw [← heq.2] at hcomma ⊢
      cases hends : endsItem c with
      | true =>
        have hc : c = ',' := by
          simpa [endsItem, hlist, hdict] using hends
        rw [dropWhile_cons_of_neg (by simp [hends]), hc]
        exact pastComma_comma_length_le rest
      | false =>
        rw [dropWhile_cons_of_pos (by simp [hends])] at hcomma ⊢
        exact hcomma.trans (dropWhile_length_le _ rest)

theorem flow_brace (fuel : Nat) (rest : Text) :
    flow py (fuel + 1) true ('\x7d' :: rest) = .ok (.null, '\x7d' :: rest) := by
  have hquote : isQuote '\x7d' = false := by decide
  have hends : endsItem '\x7d' = true := by decide
  simp [flow, lstrip_cons_of_not isSpace_brace, hquote, hends, plain_nil, Except.map]

theorem items_brace (fuel : Nat) (found : List Value) (rest : Text) :
    items py fuel found ('\x7d' :: rest) = .error .endless := by
  induction fuel generalizing found with
  | zero => rfl
  | succ fuel ih =>
    cases fuel with
    | zero => simp [items, flow]
    | succ fuel =>
      rw [items, if_neg (by decide), flow_brace]
      dsimp only
      rw [pastComma_brace]
      exact ih _

theorem floatToken_error {token : Text} {halt : Halt} (h : floatToken token = some (.error halt)) :
    halt = .raised := by
  unfold floatToken at h
  repeat' split at h
  all_goals simp_all

theorem plain_error {s : Text} {halt : Halt} (h : plain py s = .error halt) : halt = .raised := by
  unfold plain at h
  dsimp only at h
  split at h
  · cases h
  split at h
  · cases h
  split at h
  · cases h
  split at h
  · split at h
    · cases h
      rfl
    · cases h
  split at h
  · next decimal hfloat =>
    cases decimal with
    | error why =>
      cases h
      exact floatToken_error hfloat
    | ok d => cases h
  · cases h

/-- What a run of the reader says of the machine: a value leads it past the value, an
exception leads it nowhere, and a loop that does not end, unless there was too little fuel,
to a misplaced brace. -/
def Follows (py : Interpreter) (start : Option Place) (opened : List Bracket) (short : Prop) :
    Except Halt (Value × Text) → Prop
  | .ok (_, after) => Leads py start (some (opened, pastComma after))
  | .error .raised => Leads py start none
  | .error .endless => short ∨ Reaches py start

namespace Follows

variable {start next : Option Place} {opened : List Bracket} {short short' : Prop}
  {x : Except Halt (Value × Text)}

theorem of_leads (h : Leads py start next) (hnext : Follows py next opened short x)
    (hshort : short → short') : Follows py start opened short' x := by
  cases x with
  | ok found => exact h.trans hnext
  | error halt =>
    cases halt with
    | raised => exact h.trans hnext
    | endless => exact hnext.imp hshort fun hreach => hreach.of_leads h

theorem weaken (h : Follows py start opened short x) (hshort : short → short') :
    Follows py start opened short' x := h.of_leads (Leads.refl start) hshort

theorem andThen {inner : List Bracket} {y : Except Halt (Value × Text)}
    (hx : Follows py start inner short x) (hshort : short → short')
    (herror : ∀ halt, x = .error halt → y = .error halt)
    (hok : ∀ v after, x = .ok (v, after) →
      Follows py (some (inner, pastComma after)) opened short' y) :
    Follows py start opened short' y := by
  cases hvalue : x with
  | ok found =>
    obtain ⟨v, after⟩ := found
    rw [hvalue] at hx
    exact (hok v after hvalue).of_leads hx id
  | error halt =>
    rw [herror halt hvalue]
    rw [hvalue] at hx
    cases halt with
    | raised => exact hx
    | endless => exact hx.imp_left hshort

end Follows

theorem follows (py : Interpreter) (fuel : Nat) :
    (∀ opened s, Follows py (begun py opened s) opened (fuel < 2 * s.length + 1)
      (flow py fuel true s)) ∧
    (∀ opened found s, Follows py (some (.list :: opened, s)) opened (fuel < 2 * s.length + 2)
      (items py fuel found s)) ∧
    (∀ opened found s, Follows py (some (.dict :: opened, s)) opened (fuel < 2 * s.length + 2)
      (entries py fuel found s)) := by
  induction fuel with
  | zero =>
    refine ⟨fun _ _ => .inl ?_, fun _ _ _ => .inl ?_, fun _ _ _ => .inl ?_⟩ <;> omega
  | succ fuel ih =>
    obtain ⟨hflow, hitems, hentries⟩ := ih
    refine ⟨?_, ?_, ?_⟩
    · intro opened s
      have hle := lstrip_length_le s
      unfold flow begun
      cases hs : lstrip s with
      | nil => exact Leads.refl _
      | cons c rest =>
        rw [hs, length_cons] at hle
        have hrest := lstrip_length_le rest
        dsimp only
        split
        · apply (hitems opened [] (lstrip rest)).weaken
          omega
        split
        · apply (hentries opened [] (lstrip rest)).weaken
          omega
        split
        · exact Leads.refl _
        · rw [if_pos rfl]
          cases hplain : plain py ((c :: rest).takeWhile fun c => ¬ endsItem c) with
          | ok v => exact Leads.refl _
          | error halt =>
            have hraised := plain_error hplain
            subst hraised
            exact Leads.refl _
    · intro opened found s
      cases s with
      | nil =>
        apply Leads.onward rfl
        exact Leads.refl _
      | cons c rest =>
        by_cases hclose : c = ']'
        · have hmove : onward py (.list :: opened, c :: rest) = some (opened, pastComma rest) := by
            simp [onward, hclose]
          simp only [items, hclose, if_true]
          rw [hclose] at hmove
          exact Leads.onward hmove (Leads.refl _)
        · have hmove : onward py (.list :: opened, c :: rest) =
              begun py (.list :: opened) (c :: rest) := by
            simp [onward, hclose]
          by_cases hbrace : c = '\x7d'
          · rw [hbrace, items_brace]
            exact .inr ⟨_, Leads.refl _, rfl⟩
          · apply Follows.of_leads (Leads.onward hmove (Leads.refl _)) _ id
            apply (hflow (.list :: opened) (c :: rest)).andThen
            · intro hshort
              omega
            · intro halt herror
              simp [items, hclose, herror]
            · intro v after hok
              simp only [items, hclose, if_false, hok]
              apply (hitems opened (found ++ [v]) (pastComma after)).weaken
              intro hshort
              have hstrict : (pastComma after).length ≤ rest.length := by
                exact next_length_le hok hclose hbrace
              simp only [length_cons]
              omega
    · intro opened found s
      cases s with
      | nil =>
        apply Leads.onward rfl
        exact Leads.refl _
      | cons c rest =>
        have hkey := entryKey_length_le c rest
        by_cases hclose : c = '\x7d'
        · have hmove : onward py (.dict :: opened, c :: rest) = some (opened, pastComma rest) := by
            simp [onward, hclose]
          simp only [entries, hclose, if_true]
          rw [hclose] at hmove
          exact Leads.onward hmove (Leads.refl _)
        · cases hleft : (entryKey (c :: rest)).2 with
          | nil =>
            have hmove : onward py (.dict :: opened, c :: rest) = some (.dict :: opened, []) := by
              simp [onward, hclose, hleft]
            simp only [entries, hclose, if_false, hleft]
            apply Follows.of_leads (Leads.onward hmove (Leads.refl _)) (hentries opened _ [])
            simp only [length_cons, length_nil]
            omega
          | cons d more =>
            rw [hleft, length_cons] at hkey
            by_cases hcolon : d = ':'
            · have hmove : onward py (.dict :: opened, c :: rest) =
                  begun py (.dict :: opened) more := by
                simp [onward, hclose, hleft, hcolon]
              apply Follows.of_leads (Leads.onward hmove (Leads.refl _)) _ id
              apply (hflow (.dict :: opened) more).andThen
              · simp only [length_cons]
                omega
              · intro halt herror
                simp [entries, hclose, hleft, hcolon, herror]
              · intro v after hok
                have hafter := (left_length_le py fuel).1 _ _ _ _ hok
                have hcomma := pastComma_length_le after
                simp only [entries, hclose, if_false, hleft, hcolon, if_true, hok]
                apply (hentries opened _ (pastComma after)).weaken
                simp only [length_cons]
                omega
            · have hmove : onward py (.dict :: opened, c :: rest) =
                  some (.dict :: opened, pastComma (d :: more)) := by
                simp [onward, hclose, hleft, hcolon]
              have hcomma := pastComma_length_le (d :: more)
              simp only [entries, hclose, if_false, hleft, hcolon]
              apply Follows.of_leads (Leads.onward hmove (Leads.refl _))
                (hentries opened _ (pastComma (d :: more)))
              simp only [length_cons] at hcomma ⊢
              omega

theorem move_closed (s : Text) : move py (some ([], s)) = some ([], s) := rfl

theorem Follows.endless {start : Place} {short : Prop} {x : Except Halt (Value × Text)}
    (h : Follows py (some start) [] short x) (hreach : Reaches py (some start)) :
    x = .error .endless := by
  cases x with
  | ok found =>
    refine (not_reaches h (move_closed _) ?_ hreach).elim
    intro place hplace
    cases hplace
    exact id
  | error halt =>
    cases halt with
    | raised =>
      refine (not_reaches h rfl ?_ hreach).elim
      intro place hplace
      cases hplace
    | endless => rfl

theorem flow_alone_cases (py : Interpreter) (fuel : Nat) (s : Text) :
    (∃ rest, lstrip s = '[' :: rest ∧ flow py (fuel + 1) false s = items py fuel [] (lstrip rest)) ∨
    (∃ rest, lstrip s = '\x7b' :: rest ∧
      flow py (fuel + 1) false s = entries py fuel [] (lstrip rest)) ∨
    ((∀ rest, lstrip s ≠ '[' :: rest ∧ lstrip s ≠ '\x7b' :: rest) ∧
      flow py (fuel + 1) false s ≠ .error .endless) := by
  unfold flow
  cases hs : lstrip s with
  | nil => simp
  | cons c rest =>
    by_cases hlist : c = '['
    · simp [hlist]
    by_cases hdict : c = '\x7b'
    · have hne : ('\x7b' : Char) ≠ '[' := by decide
      simp [hdict, hne]
    · refine .inr (.inr ⟨fun rest' => ?_, ?_⟩)
      · simp [hlist, hdict]
      simp only [hlist, hdict, if_false]
      split
      · exact nofun
      · intro herror
        cases hplain : plain py (c :: rest) with
        | ok v => simp [hplain, Except.map] at herror
        | error halt =>
          have hraised := plain_error hplain
          simp [hplain, hraised, Except.map] at herror

theorem flow_endless {s : Text} (hstray : Stray py s) (fuel : Nat) :
    flow py fuel false s = .error .endless := by
  cases fuel with
  | zero => rfl
  | succ fuel =>
    obtain ⟨-, hitems, hentries⟩ := follows py fuel
    unfold Stray at hstray
    rcases flow_alone_cases py fuel s with
      ⟨rest, hs, hflow⟩ | ⟨rest, hs, hflow⟩ | ⟨hs, -⟩
    · rw [hs] at hstray
      rw [hflow]
      apply (hitems [] [] (lstrip rest)).endless
      simpa using hstray
    · rw [hs] at hstray
      rw [hflow]
      apply (hentries [] [] (lstrip rest)).endless
      simpa using hstray
    · cases hstrip : lstrip s with
      | nil => simp [hstrip] at hstray
      | cons c rest =>
        rw [hstrip] at hstray hs
        rcases hstray with ⟨rfl, -⟩ | ⟨rfl, -⟩
        · exact ((hs rest).1 rfl).elim
        · exact ((hs rest).2 rfl).elim

theorem stray_of_endless {fuel : Nat} {s : Text} (hfuel : 2 * s.length + 1 ≤ fuel)
    (h : flow py fuel false s = .error .endless) : Stray py s := by
  obtain ⟨fuel, rfl⟩ : ∃ n, fuel = n + 1 := ⟨fuel - 1, by omega⟩
  have hle := lstrip_length_le s
  obtain ⟨-, hitems, hentries⟩ := follows py fuel
  unfold Stray
  rcases flow_alone_cases py fuel s with
    ⟨rest, hs, hflow⟩ | ⟨rest, hs, hflow⟩ | ⟨-, hends⟩
  · have hrest := lstrip_length_le rest
    have hfollows := hitems [] [] (lstrip rest)
    rw [← hflow, h] at hfollows
    rw [hs, length_cons] at hle
    have hreach := hfollows.resolve_left (by omega)
    simpa [hs] using hreach
  · have hrest := lstrip_length_le rest
    have hfollows := hentries [] [] (lstrip rest)
    rw [← hflow, h] at hfollows
    rw [hs, length_cons] at hle
    have hreach := hfollows.resolve_left (by omega)
    simpa [hs] using hreach
  · exact (hends h).elim

end Substrate.Frontmatter
