import Substrate.Blobs.Custody

/-!
Rows and their files. However the steps of operations fall between each other, an
operation commits only names of files that it has in hand, and removes only files that no
row will come to name.
-/

namespace Substrate.Blobs

open Documents Files Lib List Function

/-- Among all the others, the process does what is in order and ends with `Q`. -/
abbrev Safe {ι α : Type} [DecidableEq ι] (i : ι) (what : Work)
    (Q : Except Trouble α → Custody ι → Prop) (p : Op α) (s : Custody ι) : Prop :=
  (stage ι).Sound (discipline ι Custody.Careful) i what Q p s

namespace Safe

variable {ι α β : Type} [DecidableEq ι] {i : ι} {what : Work} {s : Custody ι}
  {Q : Except Trouble α → Custody ι → Prop}

theorem seq {p : Op β} {f : β → Op α} (h : Safe i what
      (fun r s =>
        match r with
        | .ok b => Safe i what Q (f b) s
        | .error trouble => Q (.error trouble) s) p s) :
    Safe i what Q (p >>= f) s := by
  apply Stage.Sound.bind
  apply h.mono
  intro r s' h'
  cases r with
  | ok b | error trouble => exact h'

theorem look {query : Store → α} (h : ∀ s', s'.Inv → s.Rely i s' → Q (.ok (query s'.store)) s') :
    Safe i what Q (Blobs.look query) s :=
  Stage.Sound.perform fun s' hinv hrely _ _ => ⟨trivial, h s' hinv hrely⟩

theorem clock {Q : Except Trouble Nat → Custody ι → Prop}
    (h : ∀ s', s'.Inv → s.Rely i s' → ∀ now, Q (.ok now) s') :
    Safe i what Q Blobs.clock s :=
  Stage.Sound.perform fun s' hinv hrely c _ => ⟨trivial, h s' hinv hrely c.now⟩

theorem issue {Q : Except Trouble String → Custody ι → Prop}
    (h : ∀ s', s'.Inv → s.Rely i s' → ∀ c, c.fresh ∉ s'.issued →
      Q (.ok c.fresh) (s'.apply i what .issue c)) :
    Safe i what Q Blobs.issue s :=
  Stage.Sound.perform fun s' hinv hrely c hallowed => ⟨trivial, h s' hinv hrely c hallowed.1⟩

theorem tried {deed : Deed} {Q : Except Trouble (Except Trouble Unit) → Custody ι → Prop}
    (h : ∀ s', s'.Inv → s.Rely i s' → ∀ c, s'.Ordinary deed c → s'.Careful deed c →
      s'.InOrder i deed ∧ Q (.ok (deed.result c s'.store)) (s'.apply i what deed c)) :
    Safe i what Q (Blobs.tried deed) s :=
  Stage.Sound.perform fun s' hinv hrely c hallowed => h s' hinv hrely c hallowed.1 hallowed.2

theorem act {deed : Deed} {Q : Except Trouble Unit → Custody ι → Prop}
    (h : ∀ s', s'.Inv → s.Rely i s' → ∀ c, s'.InOrder i deed ∧
      Q (deed.result c s'.store) (s'.apply i what deed c)) :
    Safe i what Q (Blobs.act deed) s :=
  Stage.Sound.perform fun s' hinv hrely c _ => h s' hinv hrely c

end Safe

variable {ι : Type} [DecidableEq ι] {i : ι} {what : Work} {s s' : Custody ι}

/-- The links are in hand, and so are the files, with their bytes. -/
structure Kept (i : ι) (known : List (String × List UInt8)) (linked : List String)
    (s : Custody ι) : Prop where
  linked : ∀ blob ∈ linked, s.holder blob = some i
  known : ∀ file ∈ known, s.holder file.1 = some i ∧ s.Has file.1 file.2

omit [DecidableEq ι] in
theorem Kept.rely {known : List (String × List UInt8)} {linked : List String}
    (h : Kept i known linked s) (hrely : s.Rely i s') : Kept i known linked s' where
  linked blob hmem := (hrely.held blob (h.linked blob hmem)).1
  known file hmem :=
    ⟨(hrely.held _ (h.known file hmem).1).1, hrely.has (h.known file hmem).1 (h.known file hmem).2⟩

omit [DecidableEq ι] in
theorem Kept.same {known : List (String × List UInt8)} {linked : List String}
    (h : Kept i known linked s) (hholder : s'.holder = s.holder)
    (hblobs : s'.store.blobs = s.store.blobs) : Kept i known linked s' where
  linked blob hmem := by
    rw [hholder]
    exact h.linked blob hmem
  known file hmem := by
    obtain ⟨hheld, found, hget, hbytes⟩ := h.known file hmem
    exact ⟨by rw [hholder]; exact hheld, found, by rw [hblobs]; exact hget, hbytes⟩

def Removable (i : ι) (blobs : List String) (s : Custody ι) : Prop :=
  ∀ blob ∈ blobs, s.holder blob = some i ∨ s.Spent blob

omit [DecidableEq ι] in
theorem Removable.rely {blobs : List String} (h : Removable i blobs s) (hrely : s.Rely i s') :
    Removable i blobs s' := by
  intro blob hmem
  rcases h blob hmem with hheld | hspent
  · exact .inl (hrely.held blob hheld).1
  · exact .inr (hrely.spent blob hspent)

theorem Removable.remove {blob : String} {blobs : List String} (hinv : s.Inv)
    (h : Removable i (blob :: blobs) s) (c : Chance) :
    Removable i blobs (s.apply i what (.remove blob) c) := by
  have hspent : ∀ other, s.Spent other → (s.apply i what (.remove blob) c).Spent other := by
    intro other hother
    refine ⟨hother.issued, ?_, hother.unnamed⟩
    change update s.holder blob none other = none
    by_cases heq : other = blob
    · rw [heq, update_self]
    · rw [update_of_ne heq]
      exact hother.free
  intro other hmem
  rcases h other (mem_cons_of_mem _ hmem) with hheld | hother
  · by_cases heq : other = blob
    · subst heq
      have hne : s.holder other ≠ none := by
        rw [hheld]
        exact Option.some_ne_none i
      exact .inr ⟨hinv.holder other hne, update_self _ _ _, hinv.unnamed hne⟩
    · refine .inl ?_
      change update s.holder blob none other = some i
      rw [update_of_ne heq]
      exact hheld
  · exact .inr (hspent other hother)

theorem safe_removeAll {blobs : List String} (h : Removable i blobs s) :
    Safe i what (fun _ _ => True) (removeAll blobs) s := by
  induction blobs generalizing s with
  | nil => trivial
  | cons blob rest ih =>
    apply Safe.seq
    apply Safe.act
    intro s₁ hinv hrely c
    have h₁ := h.rely hrely
    refine ⟨h₁ blob mem_cons_self, ?_⟩
    exact ih (h₁.remove hinv c)

/-- What a transaction leaves, when it goes well or does not. -/
def Ended {α : Type} (i : ι) (known : List (String × List UInt8)) (P : α → Custody ι → Prop)
    (r : Except Trouble (List String × Except Trouble α)) (s : Custody ι) : Prop :=
  ∃ linked result, r = .ok (linked, result) ∧
    match result with
    | .error _ => Kept i known linked s
    | .ok a => P a s

/-- What is done within a transaction comes to a lawful change. -/
def Prepared {α : Type} (i : ι) (what : Work) (known : List (String × List UInt8))
    (P : α → Custody ι → Prop)
    (r : Except Trouble (List String × Except Trouble (Change × α))) (s : Custody ι) : Prop :=
  ∃ linked result, r = .ok (linked, result) ∧ Kept i known linked s ∧
    ∀ change a, result = .ok (change, a) → s.owner = some i ∧ s.Lawful i change ∧
      ∀ s₁, s₁.Inv → s.Rely i s₁ → ∀ c, (Deed.commit change).fault c s₁.store = none →
        P a (s₁.apply i what (.commit change) c)

section

variable {α : Type} {known : List (String × List UInt8)} {P : α → Custody ι → Prop}

theorem safe_rollback {linked : List String} {trouble : Trouble} (h : Kept i known linked s) :
    Safe i what (Ended i known P)
      (do
        act .rollback
        pure (linked, .error trouble)) s := by
  apply Safe.seq
  apply Safe.act
  intro s₁ _ hrely c
  refine ⟨trivial, ?_⟩
  exact ⟨linked, .error trouble, rfl, (h.rely hrely).same rfl rfl⟩

theorem safe_once {body : Body α} {linked : List String}
    (hbody : ∀ s, s.owner = some i → Kept i known linked s →
      Safe i what (Prepared i what known P) (body linked) s)
    (h : Kept i known linked s) : Safe i what (Ended i known P) (once body linked) s := by
  apply Safe.seq
  apply Safe.tried
  intro s₁ _ hrely c _ _
  refine ⟨trivial, ?_⟩
  have h₁ := h.rely hrely
  have hbegun : Kept i known linked (s₁.apply i what .begin_ c) := by
    unfold Custody.apply
    split
    · exact h₁
    · exact h₁.same rfl rfl
  cases hresult : (Deed.begin_).result c s₁.store with
  | error trouble => exact ⟨linked, .error trouble, rfl, hbegun⟩
  | ok _ =>
    have howner : (s₁.apply i what .begin_ c).owner = some i := by
      unfold Deed.result at hresult
      unfold Custody.apply
      cases hfault : (Deed.begin_).fault c s₁.store with
      | some trouble =>
        rw [hfault] at hresult
        cases hresult
      | none => rfl
    apply Safe.seq
    apply (hbody _ howner hbegun).mono
    rintro r s₂ ⟨linked', result, rfl, hkept, hready⟩
    cases result with
    | error trouble => exact safe_rollback hkept
    | ok pair =>
      obtain ⟨change, a⟩ := pair
      obtain ⟨howner₂, hlawful, hafter⟩ := hready change a rfl
      apply Safe.seq
      apply Safe.tried
      intro s₃ hinv₃ hrely₃ c _ hcareful
      refine ⟨⟨(hrely₃.rows howner₂).1, hlawful.rely howner₂ hrely₃⟩, ?_⟩
      have hkept₃ := hkept.rely hrely₃
      cases hfault : (Deed.commit change).fault c s₃.store with
      | some trouble =>
        have hresult : (Deed.commit change).result c s₃.store = .error trouble := by
          unfold Deed.result
          rw [hfault]
        have hsame : s₃.apply i what (.commit change) c = s₃ := by
          unfold Custody.apply
          rw [hfault]
        rw [hresult, hsame]
        exact safe_rollback hkept₃
      | none =>
        cases hlate : c.late with
        | false =>
          have hresult : (Deed.commit change).result c s₃.store = .ok () := by
            unfold Deed.result
            rw [hfault, hlate]
            rfl
          rw [hresult]
          exact ⟨linked', .ok a, rfl, hafter s₃ hinv₃ hrely₃ c hfault⟩
        | true =>
          have hresult : (Deed.commit change).result c s₃.store = .error .cancelled := by
            unfold Deed.result
            rw [hfault, hlate]
            rfl
          have hnames : change.names = false := by
            cases hnames : change.names with
            | false => rfl
            | true =>
              have hfalse := hcareful hnames
              rw [hlate] at hfalse
              cases hfalse
          rw [hresult]
          refine safe_rollback (hkept₃.same ?_ ?_)
          · unfold Custody.apply
            rw [hfault]
            simp [Custody.remember, hnames, Custody.close]
          · unfold Custody.apply
            rw [hfault]
            rfl

theorem safe_run {body : Body α} (hbody : ∀ linked s, s.owner = some i → Kept i known linked s →
      Safe i what (Prepared i what known P) (body linked) s) :
    ∀ (again : Nat) {linked : List String} {s : Custody ι}, Kept i known linked s →
      Safe i what (Ended i known P) (run body again linked) s
  | 0, linked, s, h => safe_once (hbody linked) h
  | again + 1, linked, s, h => by
      apply Safe.seq
      apply (safe_once (hbody linked) h).mono
      rintro r s₁ ⟨linked', result, rfl, hresult⟩
      cases result with
      | error trouble =>
        dsimp only
        split
        · exact safe_run hbody again hresult
        · exact ⟨linked', .error trouble, rfl, hresult⟩
      | ok a => exact ⟨linked', .ok a, rfl, hresult⟩

end

omit [DecidableEq ι] in
theorem fault_none {deed : Deed} {c : Chance} (h : deed.result c s.store = .ok ()) :
    deed.fault c s.store = none := by
  unfold Deed.result at h
  cases hfault : deed.fault c s.store with
  | some trouble =>
    rw [hfault] at h
    cases h
  | none => rfl

theorem spent_after {change : Change} {c : Chance} (hinv : s.Inv) {key : Path} {row : BlobRow}
    (hget : s.store.rows.get? key = some row)
    (hgone : ∀ key' row', (change.apply s.store.rows).get? key' = some row' → row'.blob ≠ row.blob)
    (hfault : (Deed.commit change).fault c s.store = none) :
    (s.apply i what (.commit change) c).Spent row.blob := by
  have happly : s.apply i what (.commit change) c =
      { s.remember i (.commit change) c with
        store := (Deed.commit change).effect c s.store } := by
    unfold Custody.apply
    rw [hfault]
  have hfree := hinv.unheld key row hget
  rw [happly]
  refine ⟨?_, ?_, hgone⟩
  · simp only [Custody.remember]
    split
    · exact hinv.rows key row hget
    · exact hinv.rows key row hget
  · simp only [Custody.remember]
    split
    · simp [Custody.release, Custody.close, hfree]
    · exact hfree

def AllSpent (blobs : List String) (s : Custody ι) : Prop := ∀ blob ∈ blobs, s.Spent blob

omit [DecidableEq ι] in
theorem AllSpent.removable {blobs : List String} (h : AllSpent blobs s) (i : ι) :
    Removable i blobs s := fun blob hmem => .inr (h blob hmem)

theorem prepared_error {α : Type} {known : List (String × List UInt8)} {linked : List String}
    {P : α → Custody ι → Prop} {trouble : Trouble} (h : Kept i known linked s) :
    Prepared i what known P (.ok (linked, .error trouble)) s :=
  ⟨linked, .error trouble, rfl, h, nofun⟩

theorem safe_uploadBody {quota : Path → Option Nat} {key : Path} {data : List UInt8}
    {contentType blob : String} (linked : List String) (s : Custody ι)
    (howner : s.owner = some i)
    (h : Kept i [(blob, data)] linked s) :
    Safe i what (Prepared i what [(blob, data)] fun replaced => AllSpent replaced.toList)
      (uploadBody quota key data contentType blob linked) s := by
  apply Safe.seq
  apply Safe.look
  intro s₁ _ hrely₁
  dsimp only
  split
  · exact prepared_error (h.rely hrely₁)
  · apply Safe.seq
    apply Safe.clock
    intro s₂ _ hrely₂ now
    have hkept := (h.rely hrely₁).rely hrely₂
    obtain ⟨howner₁, _⟩ := hrely₁.rows howner
    obtain ⟨howner₂, hrows₂, _⟩ := hrely₂.rows howner₁
    obtain ⟨hheld, hhas⟩ := hkept.known _ mem_cons_self
    refine ⟨linked, _, rfl, hkept, ?_⟩
    intro change a heq
    obtain ⟨rfl, rfl⟩ := Prod.mk.inj (Except.ok.inj heq)
    refine ⟨howner₂, ⟨hheld, hhas⟩, ?_⟩
    intro s₃ hinv₃ hrely₃ c hfault
    obtain ⟨_, hrows₃, _⟩ := hrely₃.rows howner₂
    intro old hold
    cases hprevious : s₁.store.rows.get? key with
    | none =>
      rw [hprevious] at hold
      cases hold
    | some row =>
      rw [hprevious] at hold
      obtain rfl := mem_singleton.mp hold
      have hget : s₃.store.rows.get? key = some row := by
        rw [hrows₃, hrows₂]
        exact hprevious
      refine spent_after hinv₃ hget (fun key' row' hget' heq' => ?_) hfault
      simp only [Change.apply, Table.get?_set] at hget'
      split at hget'
      · cases hget'
        have hfree := hinv₃.unheld key row hget
        rw [← heq', (hrely₃.held blob hheld).1] at hfree
        cases hfree
      · next hkey => exact hkey (hinv₃.distinct key' key row' row hget' hget heq')

theorem safe_checked {key : Path} {Q : Except Trouble Unit → Custody ι → Prop}
    (hok : Q (.ok ()) s) (herror : ∀ trouble, Q (.error trouble) s) :
    Safe i what Q (checked key) s := by
  unfold checked
  split
  · exact herror _
  · exact hok

theorem safe_upload (quota : Path → Option Nat) (key : Path) (data : List UInt8)
    (contentType : String) :
    Safe i what (fun _ _ => True) (upload quota key data contentType) s := by
  apply Safe.seq
  refine safe_checked ?_ fun _ => trivial
  apply Safe.seq
  apply Safe.issue
  intro s₁ hinv₁ _ c hfresh
  have hheld : (s₁.apply i what .issue c).holder c.fresh = some i := update_self _ _ _
  generalize s₁.apply i what .issue c = s₂ at hheld
  generalize c.fresh = blob at hheld
  apply Safe.seq
  apply Safe.act
  intro s₃ _ hrely₃ c
  have hheld₃ := (hrely₃.held blob hheld).1
  refine ⟨hheld₃, ?_⟩
  cases hresult : (Deed.write blob data).result c s₃.store with
  | error trouble => trivial
  | ok _ =>
    have hfault := fault_none hresult
    have hkept : Kept i [(blob, data)] [] (s₃.apply i what (.write blob data) c) := by
      refine ⟨fun other hmem => (nomatch hmem), fun file hmem => ?_⟩
      obtain rfl := mem_singleton.mp hmem
      unfold Custody.apply
      rw [hfault]
      refine ⟨hheld₃, ⟨data, c.now⟩, ?_, rfl⟩
      simp [Deed.effect]
    apply Safe.seq
    apply (safe_run safe_uploadBody (attempts - 1) hkept).mono
    rintro r s₄ ⟨linked, result, rfl, hend⟩
    cases result with
    | error trouble =>
      apply Safe.seq
      apply Safe.act
      intro s₅ _ hrely₅ c
      refine ⟨.inl (hrely₅.held blob (hend.known _ mem_cons_self).1).1, ?_⟩
      exact trivial
    | ok replaced => exact safe_removeAll (AllSpent.removable hend i)

theorem spent_dropped {keys : List Path} {c : Chance} (hinv : s.Inv) {key : Path} {row : BlobRow}
    (hget : s.store.rows.get? key = some row) (hkey : key ∈ keys)
    (hfault : (Deed.commit (.drop keys)).fault c s.store = none) :
    (s.apply i what (.commit (.drop keys)) c).Spent row.blob := by
  refine spent_after hinv hget (fun key' row' hget' heq => ?_) hfault
  simp only [Change.apply, Table.get?_filter, Option.filter_eq_some_iff] at hget'
  have hsame := hinv.distinct key' key row' row hget'.1 hget heq
  have hnot : key' ∉ keys := of_decide_eq_true hget'.2
  exact hnot (hsame ▸ hkey)

theorem safe_deleteBody {key : Path} (linked : List String) (s : Custody ι)
    (howner : s.owner = some i)
    (h : Kept i [] linked s) :
    Safe i what (Prepared i what [] fun gone => AllSpent gone.toList) (deleteBody key linked) s := by
  apply Safe.seq
  apply Safe.look
  intro s₁ _ hrely₁
  dsimp only
  obtain ⟨howner₁, _⟩ := hrely₁.rows howner
  cases hget : s₁.store.rows.get? key with
  | none =>
    refine ⟨linked, _, rfl, h.rely hrely₁, ?_⟩
    intro change a heq
    obtain ⟨rfl, rfl⟩ := Prod.mk.inj (Except.ok.inj heq)
    exact ⟨howner₁, trivial, nofun⟩
  | some row =>
    refine ⟨linked, _, rfl, h.rely hrely₁, ?_⟩
    intro change a heq
    obtain ⟨rfl, rfl⟩ := Prod.mk.inj (Except.ok.inj heq)
    refine ⟨howner₁, trivial, ?_⟩
    intro s₂ hinv₂ hrely₂ c hfault blob hmem
    obtain rfl := mem_singleton.mp hmem
    refine spent_dropped hinv₂ ?_ mem_cons_self hfault
    rw [(hrely₂.rows howner₁).2.1]
    exact hget

omit [DecidableEq ι] in
theorem kept_nil (i : ι) (s : Custody ι) : Kept i [] [] s :=
  ⟨fun _ hmem => (nomatch hmem), fun _ hmem => (nomatch hmem)⟩

theorem safe_delete (key : Path) : Safe i what (fun _ _ => True) (delete key) s := by
  apply Safe.seq
  refine safe_checked ?_ fun _ => trivial
  apply Safe.seq
  apply (safe_run safe_deleteBody (attempts - 1) (kept_nil i s)).mono
  rintro r s₁ ⟨linked, result, rfl, hend⟩
  cases result with
  | error trouble => exact trivial
  | ok gone => exact safe_removeAll (AllSpent.removable hend i)

theorem safe_deletePrefixBody {start : Path} (linked : List String) (s : Custody ι)
    (howner : s.owner = some i)
    (h : Kept i [] linked s) :
    Safe i what (Prepared i what [] AllSpent) (deletePrefixBody start linked) s := by
  apply Safe.seq
  apply Safe.look
  intro s₁ _ hrely₁
  obtain ⟨howner₁, _⟩ := hrely₁.rows howner
  refine ⟨linked, _, rfl, h.rely hrely₁, ?_⟩
  intro change a heq
  obtain ⟨rfl, rfl⟩ := Prod.mk.inj (Except.ok.inj heq)
  refine ⟨howner₁, trivial, ?_⟩
  intro s₂ hinv₂ hrely₂ c hfault blob hmem
  obtain ⟨⟨key, row⟩, hfound, rfl⟩ := mem_map.mp hmem
  have hrow : s₁.store.rows.get? key = some row := Table.mem_rows_iff.mp (mem_of_mem_filter hfound)
  have hget : s₂.store.rows.get? key = some row := by
    rw [(hrely₂.rows howner₁).2.1]
    exact hrow
  exact spent_dropped hinv₂ hget (mem_map.mpr ⟨(key, row), hfound, rfl⟩) hfault

theorem safe_deletePrefix (start : Path) :
    Safe i what (fun _ _ => True) (deletePrefix start) s := by
  apply Safe.seq
  refine safe_checked ?_ fun _ => trivial
  apply Safe.seq
  apply (safe_run safe_deletePrefixBody (attempts - 1) (kept_nil i s)).mono
  rintro r s₁ ⟨linked, result, rfl, hend⟩
  cases result with
  | error trouble => exact trivial
  | ok blobs =>
    apply Safe.seq
    apply (safe_removeAll (AllSpent.removable hend i)).mono
    intro r s₂ _
    cases r with
    | ok _ | error trouble => trivial

theorem safe_linkAll {source destination : Path} {entries : List (Path × BlobRow)} :
    ∀ {copied : List Copied} {linked : List String} {s : Custody ι}, s.owner = some i →
      Kept i [] linked s → s.Lawful i (.copy copied) →
      (∀ entry ∈ entries, s.store.rows.get? entry.1 = some entry.2) →
      Safe i what (Prepared i what [] fun _ _ => True)
        (linkAll source destination entries copied linked) s := by
  induction entries with
  | nil =>
    intro copied linked s howner h hlawful _
    refine ⟨linked, _, rfl, h, ?_⟩
    intro change a heq
    obtain ⟨rfl, rfl⟩ := Prod.mk.inj (Except.ok.inj heq)
    exact ⟨howner, hlawful, fun _ _ _ _ _ => trivial⟩
  | cons entry rest ih =>
    intro copied linked s howner h hlawful hentries
    obtain ⟨key, row⟩ := entry
    apply Safe.seq
    apply Safe.issue
    intro s₁ hinv₁ hrely₁ c hfresh
    obtain ⟨howner₁, hrows₁, _⟩ := hrely₁.rows howner
    have h₁ := h.rely hrely₁
    have hlawful₁ := hlawful.rely howner hrely₁
    -- what was in hand before is not under the new name
    have hother : ∀ blob, s₁.holder blob = some i → blob ≠ c.fresh := by
      intro blob hheld heq
      have hne : s₁.holder blob ≠ none := by
        rw [hheld]
        exact Option.some_ne_none i
      exact hfresh (heq ▸ hinv₁.holder blob hne)
    have hlinked : ∀ blob ∈ linked, blob ≠ c.fresh :=
      fun blob hmem => hother blob (h₁.linked blob hmem)
    have hcopied : ∀ file ∈ copied, file.row.blob ≠ c.fresh :=
      fun file hmem => hother _ (hlawful₁.2 file hmem).1
    have hissued : Kept i [] (linked ++ [c.fresh]) (s₁.apply i what .issue c) := by
      refine ⟨fun blob hmem => ?_, fun file hmem => (nomatch hmem)⟩
      change update s₁.holder c.fresh (some i) blob = some i
      rcases mem_append.mp hmem with hold | hnew
      · rw [update_of_ne (hlinked blob hold)]
        exact h₁.linked blob hold
      · rw [mem_singleton.mp hnew, update_self]
    have hlawful₂ : (s₁.apply i what .issue c).Lawful i (.copy copied) := by
      refine ⟨hlawful₁.1, fun file hmem => ?_⟩
      obtain ⟨hheld, data, hcontents, hhas⟩ := hlawful₁.2 file hmem
      refine ⟨?_, data, hcontents, hhas⟩
      change update s₁.holder c.fresh (some i) file.row.blob = some i
      rw [update_of_ne (hcopied file hmem)]
      exact hheld
    have howner₂ : (s₁.apply i what .issue c).owner = some i := howner₁
    have hrows₂ : (s₁.apply i what .issue c).store.rows = s.store.rows := hrows₁
    generalize s₁.apply i what .issue c = s₂ at hissued hlawful₂ howner₂ hrows₂
    generalize c.fresh = blob at hlinked hcopied hissued
    apply Safe.seq
    apply Safe.tried
    intro s₃ hinv₃ hrely₃ c _ _
    obtain ⟨howner₃, hrows₃, _⟩ := hrely₃.rows howner₂
    have h₃ := hissued.rely hrely₃
    have hlawful₃ := hlawful₂.rely howner₂ hrely₃
    have hmine : s₃.holder blob = some i := h₃.linked blob (mem_append_right _ mem_cons_self)
    refine ⟨hmine, ?_⟩
    have hsame : (s₃.apply i what (.link row.blob blob) c).holder = s₃.holder ∧
        (s₃.apply i what (.link row.blob blob) c).owner = s₃.owner ∧
        (s₃.apply i what (.link row.blob blob) c).contents = s₃.contents ∧
        (s₃.apply i what (.link row.blob blob) c).store.rows = s₃.store.rows := by
      unfold Custody.apply
      split
      · exact ⟨rfl, rfl, rfl, rfl⟩
      · refine ⟨rfl, rfl, rfl, ?_⟩
        simp only [Deed.effect]
        split <;> rfl
    obtain ⟨hholder, howner₄, hcontents₄, hrows₄⟩ := hsame
    have hkept₄ : Kept i [] (linked ++ [blob]) (s₃.apply i what (.link row.blob blob) c) := by
      refine ⟨fun other hmem => ?_, fun file hmem => (nomatch hmem)⟩
      rw [hholder]
      exact h₃.linked other hmem
    cases hresult : (Deed.link row.blob blob).result c s₃.store with
    | error trouble =>
      refine prepared_error ⟨fun other hmem => ?_, fun file hmem => (nomatch hmem)⟩
      exact hkept₄.linked other (mem_append_left _ hmem)
    | ok _ =>
      have hfault := fault_none hresult
      -- the link has the bytes of its source
      have hget : s₃.store.rows.get? key = some row := by
        rw [hrows₃, hrows₂]
        exact hentries _ mem_cons_self
      obtain ⟨data, hdata, found, hfound, hbytes⟩ := hinv₃.good key row hget
      have hblobs : (s₃.apply i what (.link row.blob blob) c).store.blobs =
          s₃.store.blobs.set blob (some found) := by
        unfold Custody.apply
        rw [hfault]
        simp only [Deed.effect, hfound]
      have hlawful₄ : ∀ new : BlobRow, new.blob = blob →
          (s₃.apply i what (.link row.blob blob) c).Lawful i
            (.copy (copied ++ [⟨key, targetOf source destination key, new⟩])) := by
        intro new hnew
        refine ⟨?_, fun file hmem => ?_⟩
        · rw [map_append, map_singleton]
          refine hlawful₃.1.append (nodup_singleton _) ?_
          intro other hold hmem
          obtain ⟨file, hfile, rfl⟩ := mem_map.mp hold
          rw [mem_singleton, hnew] at hmem
          exact hcopied file hfile hmem
        · rcases mem_append.mp hmem with hold | hlast
          · obtain ⟨hheld, data', hcontents, other, hother, hbytes'⟩ := hlawful₃.2 file hold
            refine ⟨by rw [hholder]; exact hheld, data', by rw [hcontents₄]; exact hcontents,
              other, ?_, hbytes'⟩
            rw [hblobs, Table.get?_set, if_neg (hcopied file hold)]
            exact hother
          · obtain rfl := mem_singleton.mp hlast
            dsimp only
            refine ⟨by rw [hholder, hnew]; exact hmine, data,
              by rw [hcontents₄]; exact hdata, found, ?_, hbytes⟩
            rw [hblobs, hnew, Table.get?_set, if_pos rfl]
      have howner₄' := howner₄.trans howner₃
      have hentries₄ : ∀ entry ∈ rest,
          (s₃.apply i what (.link row.blob blob) c).store.rows.get? entry.1 = some entry.2 := by
        intro entry hmem
        rw [hrows₄, hrows₃, hrows₂]
        exact hentries entry (mem_cons_of_mem _ hmem)
      generalize s₃.apply i what (.link row.blob blob) c = s₄ at *
      apply Safe.seq
      apply Safe.clock
      intro s₅ _ hrely₅ now
      obtain ⟨howner₅, hrows₅, _⟩ := hrely₅.rows howner₄'
      refine ih howner₅ (hkept₄.rely hrely₅)
        ((hlawful₄ ⟨_, blob, _, _, now⟩ rfl).rely howner₄' hrely₅) fun entry hmem => ?_
      rw [hrows₅]
      exact hentries₄ entry hmem

theorem safe_copyBody {quota : Path → Option Nat} {source destination : Path}
    (linked : List String) (s : Custody ι) (howner : s.owner = some i) (h : Kept i [] linked s) :
    Safe i what (Prepared i what [] fun _ _ => True) (copyBody quota source destination linked)
      s := by
  apply Safe.seq
  apply Safe.look
  intro s₁ _ hrely₁
  dsimp only
  split
  · exact prepared_error (h.rely hrely₁)
  · refine safe_linkAll (hrely₁.rows howner).1 (h.rely hrely₁)
      ⟨nodup_nil, nofun⟩ fun entry hmem => ?_
    have hrow := (perm_inOrder _).mem_iff.mp hmem
    exact Table.mem_rows_iff.mp (mem_of_mem_filter hrow)

theorem safe_copyPrefix (quota : Path → Option Nat) (source destination : Path) :
    Safe i what (fun _ _ => True) (copyPrefix quota source destination) s := by
  apply Safe.seq
  refine safe_checked ?_ fun _ => trivial
  apply Safe.seq
  refine safe_checked ?_ fun _ => trivial
  apply Safe.seq
  apply (safe_run safe_copyBody (attempts - 1) (kept_nil i s)).mono
  rintro r s₁ ⟨linked, result, rfl, hend⟩
  cases result with
  | error trouble =>
    apply Safe.seq
    apply (safe_removeAll fun blob hmem => .inl (hend.linked blob hmem)).mono
    intro r s₂ _
    cases r with
    | ok _ | error trouble => trivial
  | ok copied => trivial

theorem safe_sweep {referenced : List String} {old : Nat → Bool} {names : List String} :
    ∀ {s : Custody ι}, Safe i what (fun _ _ => True) (sweep referenced old names) s := by
  induction names with
  | nil => exact fun {_} => trivial
  | cons blob rest ih =>
    intro s
    unfold sweep
    split
    · exact ih
    · apply Safe.seq
      apply Safe.look
      intro s₁ _ _
      dsimp only
      split
      · apply Safe.seq
        apply Safe.act
        intro s₂ _ _ c
        refine ⟨trivial, ?_⟩
        apply Safe.seq
        apply ih.mono
        intro r s₃ _
        cases r with
        | ok _ | error trouble => trivial
      · exact ih

theorem safe_collectGarbage (minAge : Nat) :
    Safe i what (fun _ _ => True) (collectGarbage minAge) s := by
  apply Safe.seq
  have hbody : ∀ linked (s : Custody ι), s.owner = some i → Kept i [] linked s →
      Safe i what (Prepared i what [] fun _ _ => True) (referencedBody linked) s := by
    intro linked s howner h
    apply Safe.seq
    apply Safe.look
    intro s₁ _ hrely₁
    refine ⟨linked, _, rfl, h.rely hrely₁, ?_⟩
    intro change a heq
    obtain ⟨rfl, rfl⟩ := Prod.mk.inj (Except.ok.inj heq)
    exact ⟨(hrely₁.rows howner).1, trivial, fun _ _ _ _ _ => trivial⟩
  apply (safe_run hbody (attempts - 1) (kept_nil i s)).mono
  rintro r s₁ ⟨linked, result, rfl, _⟩
  cases result with
  | error trouble => trivial
  | ok referenced =>
    apply Safe.seq
    apply Safe.clock
    intro s₂ _ _ now
    apply Safe.seq
    apply Safe.look
    intro s₃ _ _
    exact safe_sweep

theorem safe_discard {α : Type} {p : Op α} (h : Safe i what (fun _ _ => True) p s) :
    Safe i what (fun _ _ => True) (discard p) s := by
  apply Safe.seq
  apply h.mono
  intro r s₁ _
  cases r with
  | ok _ | error trouble => trivial

theorem safe_work (i : ι) (what : Work) (s : Custody ι) :
    Safe i what (fun _ _ => True) what.process s := by
  cases what with
  | upload quota key data contentType => exact safe_upload quota key data contentType
  | delete key => exact safe_delete key
  | deletePrefix start => exact safe_discard (safe_deletePrefix start)
  | copyPrefix quota source destination =>
    exact safe_discard (safe_copyPrefix quota source destination)
  | collectGarbage minAge => exact safe_discard (safe_collectGarbage minAge)

abbrev Uses (ι : Type) := World ι Chance Store (Custody ι) Deed Trouble Unit Work

def Custody.fresh (ι : Type) : Custody ι :=
  ⟨⟨Table.empty, Table.empty⟩, fun _ => none, fun _ => none, none, []⟩

/-- What can come about while all steps meet a condition. -/
def Reaches {ι : Type} [DecidableEq ι] (met : Custody ι → Deed → Chance → Prop) (w : Uses ι) :
    Prop :=
  Steps (stage ι).step (Stage.CanStep (discipline ι met) Work.process)
    ⟨Custody.fresh ι, fun _ => none⟩ w

omit [DecidableEq ι] in
theorem inv_fresh : (Custody.fresh ι).Inv where
  good _ _ hget := nomatch hget
  absent _ _ := rfl
  distinct _ _ _ _ hget := nomatch hget
  unheld _ _ hget := nomatch hget
  rows _ _ hget := nomatch hget
  holder _ hne := absurd rfl hne

/-- As long as the steps are careful, whatever operations are at work and wherever they
stop, every row names a file with the bytes that were uploaded for its key, or for the
key that it was copied from. -/
theorem rows_name_contents {w : Uses ι} (h : Reaches Custody.Careful w) :
    (∀ key row, w.state.store.rows.get? key = some row → w.state.Good key row) ∧
      ∀ key, w.state.store.rows.get? key = none → w.state.contents key = none := by
  have hinit : (stage ι).Fine (discipline ι Custody.Careful)
      (⟨Custody.fresh ι, fun _ => none⟩ : Uses ι) :=
    ⟨inv_fresh, nofun⟩
  have hfine := Stage.fine_run (stage_keeps ι) (fun i what s _ => safe_work i what s) hinit h
  exact ⟨hfine.1.good, hfine.1.absent⟩

namespace Rehearsal

def ordinary (s : Custody Bool) (deed : Deed) (c : Chance) : Bool :=
  match deed with
  | .issue => c.fresh ∉ s.issued
  | .begin_ => s.owner.isNone
  | _ => true

def unnamed (s : Custody Bool) (blob : String) : Bool :=
  s.store.rows.rows.all fun row => row.2.blob ≠ blob

def careful (s : Custody Bool) (deed : Deed) (c : Chance) : Bool :=
  match deed with
  | .commit change => !change.names || !c.late
  | .collect blob => (s.holder blob).isNone && unnamed s blob
  | _ => true

/-- The next step of a process, if it is met. -/
def turn (met : Custody Bool → Deed → Chance → Bool) (i : Bool) (c : Chance) (w : Uses Bool) :
    Option (Uses Bool) :=
  match w.running i with
  | some (_, .act deed _) =>
    if ordinary w.state deed c && met w.state deed c then some ((stage Bool).step (.act i c) w)
    else none
  | _ => none

/-- An entry of a script: a process begins its work, or takes its next step, or ends. -/
inductive Cue where
  | start (i : Bool) (what : Work)
  | act (i : Bool) (c : Chance)
  | stop (i : Bool)

def play (met : Custody Bool → Deed → Chance → Bool) : List Cue → Uses Bool → Option (Uses Bool)
  | [], w => some w
  | .start i what :: rest, w =>
    if (w.running i).isNone then play met rest ((stage Bool).step (.start i what what.process) w)
    else none
  | .act i c :: rest, w => (turn met i c w).bind (play met rest)
  | .stop i :: rest, w => play met rest ((stage Bool).step (.stop i) w)

def goes (i : Bool) (now : Nat) (fresh : List String) : List Cue :=
  fresh.map fun name => .act i ⟨none, false, name, now⟩

/-- A file is uploaded as `s/a` at time 0, under the name `b`. -/
def filed : List Cue := .start false (.upload (fun _ => none) ['s', '/', 'a'] [1, 2] "") ::
    goes false 0 ["b", "", "", "", "", ""] ++ [.stop false]

/-- All that is under `s` is copied to `t`, up to the commit, with a link `d`. -/
def copying : List Cue :=
  .start false (.copyPrefix (fun _ => none) ['s'] ['t']) :: goes false 5000 ["", "", "d", "", ""]

def reading : List Cue := .start true (.collectGarbage 3600) :: goes true 5000 ["", "", ""]

end Rehearsal

theorem ordinary_of {s : Custody Bool} {deed : Deed} {c : Chance}
    (h : Rehearsal.ordinary s deed c = true) : s.Ordinary deed c := by
  cases deed with
  | issue =>
    have hfresh : c.fresh ∉ s.issued := of_decide_eq_true h
    exact hfresh
  | begin_ => exact Option.isNone_iff_eq_none.mp h
  | _ => trivial

theorem careful_of {s : Custody Bool} {deed : Deed} {c : Chance}
    (h : Rehearsal.careful s deed c = true) : s.Careful deed c := by
  cases deed with
  | commit change =>
    intro hnames
    simp only [Rehearsal.careful, hnames, Bool.not_true, Bool.false_or, Bool.not_eq_true'] at h
    exact h
  | collect blob =>
    obtain ⟨hfree, hall⟩ := (Bool.and_eq_true _ _).mp h
    refine ⟨Option.isNone_iff_eq_none.mp hfree, fun key row hget => ?_⟩
    exact of_decide_eq_true (all_eq_true.mp hall (key, row) (Table.mem_rows_iff.mpr hget))
  | _ => trivial

theorem steps_of_play {met : Custody Bool → Deed → Chance → Bool}
    {met' : Custody Bool → Deed → Chance → Prop}
    (hmet : ∀ s deed c, met s deed c = true → met' s deed c) {script : List Rehearsal.Cue} :
    ∀ {w w' : Uses Bool}, Rehearsal.play met script w = some w' →
      Steps (stage Bool).step (Stage.CanStep (discipline Bool met') Work.process) w w' := by
  induction script with
  | nil =>
    intro w w' h
    cases h
    exact .refl _
  | cons cue rest ih =>
    intro w w' h
    cases cue with
    | start i what =>
      simp only [Rehearsal.play] at h
      split at h
      · next hnone =>
          have hfirst : Steps (stage Bool).step
              (Stage.CanStep (discipline Bool met') Work.process) w
              ((stage Bool).step (.start i what what.process) w) :=
            Steps.single _ ⟨Option.isNone_iff_eq_none.mp hnone, rfl⟩
          exact hfirst.trans (ih h)
      · cases h
    | act i c =>
      obtain ⟨w₁, hturn, hrest⟩ := Option.bind_eq_some_iff.mp h
      unfold Rehearsal.turn at hturn
      split at hturn
      · next what deed next hrunning =>
          split at hturn
          · next hcan =>
              cases hturn
              obtain ⟨hordinary, hallowed⟩ := (Bool.and_eq_true _ _).mp hcan
              have hfirst : Steps (stage Bool).step
                  (Stage.CanStep (discipline Bool met') Work.process) w
                  ((stage Bool).step (.act i c) w) :=
                Steps.single _
                  ⟨what, deed, next, hrunning, ordinary_of hordinary, hmet _ _ _ hallowed⟩
              exact hfirst.trans (ih hrest)
          · cases hturn
      · cases hturn
    | stop i =>
      have hfirst : Steps (stage Bool).step
          (Stage.CanStep (discipline Bool met') Work.process) w ((stage Bool).step (.stop i) w) :=
        Steps.single _ trivial
      exact hfirst.trans (ih h)

/-- A copy that is committed before the garbage is collected. -/
theorem rows_name_contents_copied : ∃ w : Uses Bool, Reaches Custody.Careful w ∧ ∃ row,
      w.state.store.rows.get? ['t', '/', 'a'] = some row ∧ w.state.Good ['t', '/', 'a'] row := by
  have hplay : ∃ w row, Rehearsal.play Rehearsal.careful
        (Rehearsal.filed ++ Rehearsal.copying ++ Rehearsal.goes false 5000 [""] ++
          Rehearsal.reading ++ Rehearsal.goes true 5000 ["", ""])
        (⟨Custody.fresh Bool, fun _ => none⟩ : Uses Bool) = some w ∧
      w.state.store.rows.get? ['t', '/', 'a'] = some row :=
    ⟨_, _, rfl, rfl⟩
  obtain ⟨w, row, hplay, hget⟩ := hplay
  have hreaches : Reaches Custody.Careful w := steps_of_play (fun _ _ _ => careful_of) hplay
  exact ⟨w, hreaches, row, hget, (rows_name_contents hreaches).1 _ row hget⟩

/-- Garbage is collected while a copy is under way. Its link is as old as its source, and
its row is committed when the file is gone. -/
theorem collected_before_commit : ∃ w : Uses Bool, Reaches (fun _ _ _ => True) w ∧ ∃ key row,
      w.state.store.rows.get? key = some row ∧ w.state.store.blobs.get? row.blob = none := by
  have hplay : ∃ w row, Rehearsal.play (fun _ _ _ => true)
        (Rehearsal.filed ++ Rehearsal.reading ++ Rehearsal.copying ++
          Rehearsal.goes true 5000 ["", "", "", ""] ++ Rehearsal.goes false 5000 [""])
        (⟨Custody.fresh Bool, fun _ => none⟩ : Uses Bool) = some w ∧
      w.state.store.rows.get? ['t', '/', 'a'] = some row ∧
        w.state.store.blobs.get? row.blob = none :=
    ⟨_, _, rfl, rfl, rfl⟩
  obtain ⟨w, row, hplay, hrest⟩ := hplay
  exact ⟨w, steps_of_play (fun _ _ _ _ => trivial) hplay, _, row, hrest⟩

end Substrate.Blobs
