import Mathlib.Data.List.Induction
import Substrate.Lib.Json

/-!
The text that `json.dumps` makes of nested lists of texts. An item can be told from what
follows it. A list does not end in another one: its brackets stay open until its end, and
what is read of it from inside of a literal never comes out.
-/

namespace Substrate.Lib.Json

open List

universe u v w

def array : List Text → Text
  | [] => ['[', ']']
  | item :: rest => '[' :: (item ++ rest.flatMap (fun next => ',' :: ' ' :: next) ++ [']'])

/-- A way to write values that can be told from what follows, and that never begins as a
list ends. -/
structure Code {α : Type u} (write : α → Text) : Prop where
  inj : ∀ a b r s, write a ++ r = write b ++ s → a = b ∧ r = s
  head : ∀ a, ∃ c rest, write a = c :: rest ∧ c ≠ ']'

theorem code_encode : Code fun text => encode (some text) where
  inj := by
    intro a b r s h
    obtain ⟨heq, hrest⟩ := encode_append_inj h
    exact ⟨Option.some.inj heq, hrest⟩
  head := fun a => ⟨quote, _, rfl, by decide⟩

section Code

variable {α : Type u} {β : Type v} {γ : Type w} {f : α → Text} {g : β → Text} {h : γ → Text}

theorem Code.comp (hf : Code f) {k : β → α} (hk : Function.Injective k) :
    Code fun b => f (k b) where
  inj := by
    intro a b r s heq
    obtain ⟨hab, hrest⟩ := hf.inj _ _ r s heq
    exact ⟨hk hab, hrest⟩
  head := fun b => hf.head (k b)

theorem rest_append_inj (hf : Code f) {as bs : List α} {r s : Text}
    (heq : (as.map f).flatMap (fun next => ',' :: ' ' :: next) ++ ']' :: r =
      (bs.map f).flatMap (fun next => ',' :: ' ' :: next) ++ ']' :: s) : as = bs ∧ r = s := by
  have hcomma : ',' ≠ ']' := by decide
  induction as generalizing bs with
  | nil =>
    cases bs with
    | nil => exact ⟨rfl, (List.cons.inj heq).2⟩
    | cons b bs => exact absurd (List.cons.inj heq).1.symm hcomma
  | cons a as ih =>
    cases bs with
    | nil => exact absurd (List.cons.inj heq).1 hcomma
    | cons b bs =>
      simp only [map_cons, flatMap_cons, cons_append, append_assoc,
        List.cons.injEq, true_and] at heq
      obtain ⟨rfl, hrest⟩ := hf.inj _ _ _ _ heq
      obtain ⟨rfl, hend⟩ := ih hrest
      exact ⟨rfl, hend⟩

theorem Code.array (hf : Code f) : Code fun items : List α => array (items.map f) where
  inj := by
    intro as bs r s heq
    cases as with
    | nil =>
      cases bs with
      | nil => exact ⟨rfl, append_cancel_left heq⟩
      | cons b bs =>
        obtain ⟨c, rest, hc, hne⟩ := hf.head b
        simp only [Json.array, map_nil, map_cons, hc, cons_append, List.cons.injEq, true_and] at heq
        exact absurd heq.1.symm hne
    | cons a as =>
      cases bs with
      | nil =>
        obtain ⟨c, rest, hc, hne⟩ := hf.head a
        simp only [Json.array, map_nil, map_cons, hc, cons_append, List.cons.injEq, true_and] at heq
        exact absurd heq.1 hne
      | cons b bs =>
        simp only [Json.array, map_cons, cons_append, append_assoc,
          List.cons.injEq, true_and, nil_append] at heq
        obtain ⟨rfl, hrest⟩ := hf.inj _ _ _ _ heq
        obtain ⟨rfl, hend⟩ := rest_append_inj hf hrest
        exact ⟨rfl, hend⟩
  head := by
    intro as
    cases as with
    | nil => exact ⟨'[', [']'], rfl, by decide⟩
    | cons a as => exact ⟨'[', _, rfl, by decide⟩

theorem Code.pair (hf : Code f) (hg : Code g) :
    Code fun t : α × β => Json.array [f t.1, g t.2] where
  inj := by
    rintro ⟨a, b⟩ ⟨a', b'⟩ r s heq
    simp only [Json.array, flatMap_cons, flatMap_nil, cons_append,
      append_assoc, List.cons.injEq, true_and, nil_append] at heq
    obtain ⟨ha, hfirst⟩ := hf.inj _ _ _ _ heq
    obtain ⟨hb, hsecond⟩ := hg.inj _ _ _ _ (List.cons.inj (List.cons.inj hfirst).2).2
    exact ⟨by rw [ha, hb], (List.cons.inj hsecond).2⟩
  head := fun _ => ⟨'[', _, rfl, by decide⟩

theorem Code.triple (hf : Code f) (hg : Code g) (hh : Code h) :
    Code fun t : α × β × γ => Json.array [f t.1, g t.2.1, h t.2.2] where
  inj := by
    rintro ⟨a, b, c⟩ ⟨a', b', c'⟩ r s heq
    simp only [Json.array, flatMap_cons, flatMap_nil, cons_append,
      append_assoc, List.cons.injEq, true_and, nil_append] at heq
    obtain ⟨ha, hfirst⟩ := hf.inj _ _ _ _ heq
    obtain ⟨hb, hsecond⟩ := hg.inj _ _ _ _ (List.cons.inj (List.cons.inj hfirst).2).2
    obtain ⟨hc, hthird⟩ := hh.inj _ _ _ _ (List.cons.inj (List.cons.inj hsecond).2).2
    exact ⟨by rw [ha, hb, hc], (List.cons.inj hthird).2⟩
  head := fun _ => ⟨'[', _, rfl, by decide⟩

end Code

abbrev Level := Scan × Int

def Level.next : Level → Char → Level
  | (.outside, d), c =>
    (Scan.next .outside c, if c = '[' then d + 1 else if c = ']' then d - 1 else d)
  | (scan, d), c => (scan.next c, d)

def Level.read (level : Level) (text : Text) : Level := text.foldl Level.next level

def Level.start : Level := (.outside, 0)

theorem Level.read_append (level : Level) (x y : Text) :
    level.read (x ++ y) = (level.read x).read y := foldl_append

theorem Level.next_fst (level : Level) (c : Char) : (level.next c).1 = level.1.next c := by
  obtain ⟨scan, d⟩ := level
  cases scan <;> rfl

theorem Level.read_fst (level : Level) (x : Text) : (level.read x).1 = level.1.read x := by
  induction x generalizing level with
  | nil => rfl
  | cons c x ih =>
    change ((level.next c).read x).1 = (level.1.next c).read x
    rw [ih, Level.next_fst]

theorem Level.next_shift (scan : Scan) (d e : Int) (c : Char) : Level.next (scan, d + e) c =
      ((Level.next (scan, d) c).1, (Level.next (scan, d) c).2 + e) := by
  cases scan with
  | outside =>
    unfold Level.next
    dsimp only
    split
    · rw [Int.add_right_comm]
    · split
      · congr 1
        omega
      · rfl
  | inside | escaped | broken => rfl

theorem Level.read_shift (scan : Scan) (d e : Int) (x : Text) : Level.read (scan, d + e) x =
      ((Level.read (scan, d) x).1, (Level.read (scan, d) x).2 + e) := by
  induction x generalizing scan d with
  | nil => rfl
  | cons c x ih =>
    change Level.read (Level.next (scan, d + e) c) x = _
    rw [Level.next_shift, ih]
    rfl

/-- A text that closes the lists it opens and no others, and out of which one does not
come who reads it from inside of a literal. -/
structure Nested (text : Text) : Prop where
  whole : Level.start.read text = Level.start
  part : ∀ x y, text = x ++ y → (Level.start.read x).1 = .outside → 0 ≤ (Level.start.read x).2
  lost : ∀ scan : Scan, scan.Lost → (scan.read text).Lost

variable {text x y : Text} {items others : List Text}

theorem Nested.read_from (h : Nested text) (d : Int) :
    Level.read (.outside, d) text = (.outside, d) := by
  have hshift := Level.read_shift .outside 0 d text
  have hwhole : Level.read (.outside, 0) text = (.outside, 0) := h.whole
  rw [hwhole, Int.zero_add] at hshift
  exact hshift

theorem Nested.append (hx : Nested x) (hy : Nested y) :
    Nested (x ++ y) where
  whole := by rw [Level.read_append, hx.whole, hy.whole]
  part := by
    intro a b hab hout
    rcases append_eq_append_iff.mp hab with ⟨c, rfl, hc⟩ | ⟨c, hc, _⟩
    · rw [Level.read_append, hx.whole] at hout ⊢
      exact hy.part c b hc hout
    · exact hx.part a c hc hout
  lost := by
    intro scan hscan
    rw [Scan.read_append]
    exact hy.lost _ (hx.lost _ hscan)

theorem nested_nil : Nested [] where
  whole := rfl
  part := by
    intro x y h _
    rw [(append_eq_nil_iff.mp h.symm).1]
    exact Int.le_refl _
  lost := fun _ h => h

theorem nested_plain {c : Char}
    (h : c ≠ quote ∧ c ≠ backslash ∧ c ≠ bar ∧ c ≠ '[' ∧ c ≠ ']') : Nested [c] := by
  obtain ⟨hquote, hbackslash, hbar, hopen, hclose⟩ := h
  have hnext : Level.start.read [c] = Level.start := by
    change Level.next (.outside, 0) c = (.outside, 0)
    unfold Level.next Scan.next
    simp only [if_neg hquote, if_neg (not_or.mpr ⟨hbackslash, hbar⟩), if_neg hopen, if_neg hclose]
  refine ⟨hnext, fun x y hxy _ => ?_, fun scan hscan => hscan.plain ?_⟩
  · cases x with
    | nil => exact Int.le_refl _
    | cons d x =>
      have hx : x = [] := by
        have htail := (List.cons.inj hxy).2
        exact (append_eq_nil_iff.mp htail.symm).1
      rw [hx, ← (List.cons.inj hxy).1, hnext]
      exact Int.le_refl _
  · intro d hd
    rw [mem_singleton.mp hd]
    exact ⟨hquote, hbackslash⟩

structure Held (text : Text) : Prop where
  whole : Scan.inside.read text = .inside
  part : ∀ x y, text = x ++ y → Scan.inside.read x ≠ .outside

theorem Held.append (hx : Held x) (hy : Held y) :
    Held (x ++ y) where
  whole := by rw [Scan.read_append, hx.whole, hy.whole]
  part := by
    intro a b hab
    rcases append_eq_append_iff.mp hab with ⟨c, rfl, hc⟩ | ⟨c, hc, _⟩
    · rw [Scan.read_append, hx.whole]
      exact hy.part c b hc
    · exact hx.part a c hc

theorem held_plain (h : ∀ c ∈ text, c ≠ quote ∧ c ≠ backslash) :
    Held text where
  whole := read_inside h
  part := by
    intro x y hxy
    rw [read_inside fun c hc => h c (by rw [hxy]; exact mem_append_left _ hc)]
    intro heq
    cases heq

theorem held_escaped (e : Char) : Held [backslash, e] where
  whole := rfl
  part := by
    intro x y hxy
    cases x with
    | nil => nofun
    | cons c x =>
      obtain ⟨rfl, hrest⟩ := List.cons.inj hxy
      cases x with
      | nil => nofun
      | cons d x =>
        have hx := (append_eq_nil_iff.mp (List.cons.inj hrest).2.symm).1
        rw [hx]
        nofun

theorem held_unit16 (n : Nat) : Held (unit16 n) := by
  refine (held_escaped 'u').append (held_plain ?_)
  intro c hc
  simp only [mem_cons, not_mem_nil, or_false] at hc
  rcases hc with rfl | rfl | rfl | rfl
  all_goals exact hexDigit_plain _ (Nat.mod_lt _ (by decide))

theorem held_escape (c : Char) : Held (escape c) := by
  rcases escape_cases c with ⟨hc, hquote, hbackslash⟩ | ⟨e, _, hc⟩ | hc
  · rw [hc]
    apply held_plain
    intro d hd
    rw [mem_singleton.mp hd]
    exact ⟨hquote, hbackslash⟩
  · rw [hc]
    exact held_escaped e
  · generalize escape c = x at hc
    cases hc with
    | one _ => exact held_unit16 _
    | two _ => exact (held_unit16 _).append (held_unit16 _)

theorem held_literal (x : Text) : Held (x.flatMap escape) := by
  induction x with
  | nil => exact held_plain nofun
  | cons c x ih =>
    rw [flatMap_cons]
    exact (held_escape c).append ih

theorem Held.depth (h : Held text) (d : Int) (hxy : text = x ++ y) :
    (Level.read (.inside, d) x).2 = d := by
  induction x using List.reverseRecOn generalizing y with
  | nil => rfl
  | append_singleton x c ih =>
    rw [append_assoc] at hxy
    have hdepth := ih hxy
    have hin : (Level.read (.inside, d) x).1 ≠ .outside := by
      rw [Level.read_fst]
      exact h.part x _ hxy
    rw [Level.read_append]
    generalize Level.read (.inside, d) x = level at hdepth hin
    obtain ⟨scan, e⟩ := level
    cases scan with
    | outside => exact absurd rfl hin
    | inside | escaped | broken => exact hdepth

theorem Level.read_held (h : Held x) (d : Int) : Level.read (.inside, d) x = (.inside, d) := by
  have hfst := (Level.read_fst (.inside, d) x).trans h.whole
  have hsnd := h.depth d (append_nil x).symm
  exact Prod.ext hfst hsnd

theorem nested_encode (text : Text) : Nested (encode (some text)) where
  whole := by
    change Level.read (.inside, 0) (text.flatMap escape ++ [quote]) = Level.start
    rw [Level.read_append, Level.read_held (held_literal text)]
    rfl
  part := by
    intro x y hxy _
    cases x with
    | nil => exact Int.le_refl _
    | cons c x =>
      obtain ⟨rfl, hrest⟩ := List.cons.inj hxy
      change 0 ≤ (Level.read (.inside, 0) x).2
      rcases append_eq_append_iff.mp hrest with ⟨a, rfl, ha⟩ | ⟨a, ha, _⟩
      · rw [Level.read_append, Level.read_held (held_literal text)]
        cases a with
        | nil => exact Int.le_refl _
        | cons d a =>
          obtain ⟨rfl, htail⟩ := List.cons.inj ha
          rw [(append_eq_nil_iff.mp htail.symm).1]
          exact Int.le_refl _
      · exact Int.le_of_eq ((held_literal text).depth 0 ha).symm
  lost := fun _ h => h.encode (some text)

theorem nested_rest (h : ∀ item ∈ items, Nested item) :
    Nested (items.flatMap fun next => ',' :: ' ' :: next) := by
  induction items with
  | nil => exact nested_nil
  | cons item rest ih =>
    rw [flatMap_cons]
    have hcomma : Nested [','] := nested_plain (by decide)
    have hblank : Nested [' '] := nested_plain (by decide)
    have hitem := h item mem_cons_self
    exact ((hcomma.append hblank).append hitem).append
      (ih fun next hnext => h next (mem_cons_of_mem _ hnext))

def inner : List Text → Text
  | [] => []
  | item :: rest => item ++ rest.flatMap fun next => ',' :: ' ' :: next

theorem array_eq (items : List Text) : array items = '[' :: (inner items ++ [']']) := by
  cases items <;> rfl

theorem nested_inner (h : ∀ item ∈ items, Nested item) : Nested (inner items) := by
  cases items with
  | nil => exact nested_nil
  | cons item rest =>
    exact (h item mem_cons_self).append
      (nested_rest fun next hnext => h next (mem_cons_of_mem _ hnext))

theorem open_within (h : ∀ item ∈ items, Nested item) (hxy : array items = x ++ y) (hx : x ≠ [])
    (hy : y ≠ []) (hout : (Level.start.read x).1 = .outside) : 1 ≤ (Level.start.read x).2 := by
  have hinner := nested_inner h
  obtain ⟨c, z, rfl⟩ := exists_cons_of_ne_nil hx
  rw [array_eq] at hxy
  obtain ⟨rfl, hrest⟩ := List.cons.inj hxy
  have hshift : Level.start.read ('[' :: z) = Level.read (.outside, 0 + 1) z := rfl
  rw [hshift, Level.read_shift] at hout ⊢
  have hpart : ∃ w, inner items = z ++ w := by
    rcases append_eq_append_iff.mp hrest with ⟨a, hz, ha⟩ | ⟨a, ha, _⟩
    · cases a with
      | nil => exact ⟨[], by rw [hz]; simp⟩
      | cons d a =>
        have htail := (List.cons.inj ha).2
        exact absurd (append_eq_nil_iff.mp htail.symm).2 hy
    · exact ⟨a, ha⟩
  obtain ⟨w, hw⟩ := hpart
  have hdepth := hinner.part z w hw hout
  change 0 ≤ (Level.read (.outside, 0) z).2 at hdepth
  dsimp only
  omega

theorem nested_array (h : ∀ item ∈ items, Nested item) : Nested (array items) := by
  have hinner := nested_inner h
  have hwhole : Level.start.read (array items) = Level.start := by
    rw [array_eq]
    change Level.read (.outside, 1) (inner items ++ [']']) = Level.start
    rw [Level.read_append, hinner.read_from]
    rfl
  refine ⟨hwhole, fun x y hxy hout => ?_, fun scan hscan => ?_⟩
  · by_cases hx : x = []
    · rw [hx]
      exact Int.le_refl _
    · by_cases hy : y = []
      · rw [hy, append_nil] at hxy
        rw [← hxy, hwhole]
        exact Int.le_refl _
      · have hopen := open_within h hxy hx hy hout
        omega
  · have hfirst : (scan.read ['[']).Lost := hscan.plain (by simp [quote, backslash])
    have hlast := (hinner.lost _ hfirst).plain (x := [']']) (by simp [quote, backslash])
    rw [← Scan.read_append, ← Scan.read_append] at hlast
    rw [array_eq]
    exact hlast

theorem array_ne_append (h : ∀ item ∈ items, Nested item) (h' : ∀ item ∈ others, Nested item)
    (hx : x ≠ []) : array items ≠ x ++ array others := by
  intro heq
  have hwhole := (nested_array h).whole
  have hne : array others ≠ [] := by
    rw [array_eq]
    exact cons_ne_nil _ _
  rw [heq, Level.read_append] at hwhole
  have hlast := nested_array h'
  have hopen := open_within h heq hx hne
  cases hlevel : Level.start.read x with
  | mk scan d =>
    rw [hlevel] at hwhole hopen
    have hscan := congrArg Prod.fst hwhole
    rw [Level.read_fst] at hscan
    have hlost : scan ≠ .outside → False := by
      intro hin
      have hafter : (scan.read (array others)).Lost := by
        cases scan with
        | outside => exact absurd rfl hin
        | inside => exact hlast.lost _ (.inl rfl)
        | broken => exact hlast.lost _ (.inr rfl)
        | escaped =>
          have hfirst := hlast.lost .inside (.inl rfl)
          rw [array_eq] at hfirst ⊢
          exact hfirst
      rcases hafter with h | h
      · rw [h] at hscan
        cases hscan
      · rw [h] at hscan
        cases hscan
    by_cases hout : scan = .outside
    · subst hout
      rw [hlast.read_from] at hwhole
      have hzero := congrArg Prod.snd hwhole
      have hone := hopen rfl
      change d = 0 at hzero
      change 1 ≤ d at hone
      omega
    · exact hlost hout

theorem append_array_inj (h : ∀ item ∈ items, Nested item) (h' : ∀ item ∈ others, Nested item)
    (heq : x ++ array items = y ++ array others) : x = y ∧ array items = array others := by
  rcases append_eq_append_iff.mp heq with ⟨a, ha, hrest⟩ | ⟨a, ha, hrest⟩
  · by_cases hnil : a = []
    · rw [hnil, append_nil] at ha
      rw [hnil, nil_append] at hrest
      exact ⟨ha.symm, hrest⟩
    · exact absurd hrest (array_ne_append h h' hnil)
  · by_cases hnil : a = []
    · rw [hnil, append_nil] at ha
      rw [hnil, nil_append] at hrest
      exact ⟨ha, hrest.symm⟩
    · exact absurd hrest (array_ne_append h' h hnil)

end Substrate.Lib.Json
