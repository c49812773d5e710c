import Substrate.Blobs.Keeping
import Substrate.Lib.Runs

/-!
What stays in the folder when one call after the other runs to its end. A call can be
refused, and its steps can fail. A copy leaves files behind when it replaces rows, and
when its transaction is run again after links were made; nothing else does.
-/

namespace Substrate.Blobs

open Documents Files Lib List Option

def Deed.keeps : Deed → Bool
  | .collect _ => false
  | _ => true

/-- One call alone: no step is cancelled once it is done, and when the call is calm, no
transaction has to be run again. -/
def alone (calm : Bool) : Discipline Unit Chance (Custody Unit) Deed Work where
  inv := Custody.Inv
  rely _ s s' := s' = s
  allowed _ _ deed c s := s.Ordinary deed c ∧ c.late = false ∧
    (calm = true → c.fault ≠ some .locked)
  inOrder _ _ deed _ _ := deed.keeps = true

instance (s : Custody Unit) (deed : Deed) (c : Chance) : Decidable (s.Ordinary deed c) := by
  cases deed <;> (unfold Custody.Ordinary; infer_instance)

structure Call where
  what : Work
  chances : List Chance

/-- The state in which a process ends. -/
def finish (what : Work) : List Chance → Op Unit → Custody Unit → Option (Custody Unit)
  | [], .ret _, s => some s
  | [], .raise _, s => some s
  | c :: chances, .act deed next, s =>
    if s.Ordinary deed c ∧ c.late = false then
      finish what chances (next c s.store) (s.apply () what deed c)
    else none
  | _, _, _ => none

def Call.step (call : Call) (s : Custody Unit) : Option (Custody Unit) :=
  match call.what with
  | .collectGarbage _ => none
  | what => (finish what call.chances what.process s).map (Custody.leave ())

def Names (rows : Rows) (blob : String) : Prop := ∃ key row, rows.get? key = some row ∧ row.blob = blob

/-- In the folder there are the files that the rows name. -/
def Exact (s : Store) : Prop := ∀ blob, s.blobs.get? blob ≠ none ↔ Names s.rows blob

/-- A copy is refused, or replaces nothing, and its transaction is not run again. -/
def Meets (s : Custody Unit) (call : Call) : Prop :=
  match call.what with
  | .copyPrefix quota sourcePrefix destPrefix =>
    let source := FileTable.stem sourcePrefix
    let destination := FileTable.stem destPrefix
    let found := inside s.store.rows source
    (∃ trouble, enforce quota s.store.rows (FileTable.tenantOf destination)
        (found.map fun entry => entry.2.size).sum
        (replaced s.store.rows source destination found) = .error trouble) ∨
      (∀ entry ∈ found, s.store.rows.get? (targetOf source destination entry.1) = none) ∧
        ∀ c ∈ call.chances, c.fault ≠ some .locked
  | _ => True

/-- Alone, the process ends with `Q`. -/
abbrev Alone {α : Type} (calm : Bool) (what : Work)
    (Q : Except Trouble α → Custody Unit → Prop) (p : Op α) (s : Custody Unit) : Prop :=
  (stage Unit).Sound (alone calm) () what Q p s

namespace Alone

variable {α β : Type} {calm : Bool} {what : Work} {s : Custody Unit}
  {Q : Except Trouble α → Custody Unit → Prop}

theorem seq {p : Op β} {f : β → Op α} (h : Alone calm what
      (fun r s =>
        match r with
        | .ok b => Alone calm what Q (f b) s
        | .error trouble => Q (.error trouble) s) p s) :
    Alone calm what Q (p >>= f) s := by
  apply Stage.Sound.bind
  apply h.mono
  intro r s' h'
  cases r with
  | ok b | error trouble => exact h'

theorem look {query : Store → α} (h : s.Inv → Q (.ok (query s.store)) s) :
    Alone calm what Q (Blobs.look query) s := by
  apply Stage.Sound.perform
  rintro s' hinv rfl c _
  exact ⟨rfl, h hinv⟩

theorem clock {Q : Except Trouble Nat → Custody Unit → Prop} (h : ∀ now, Q (.ok now) s) :
    Alone calm what Q Blobs.clock s := by
  apply Stage.Sound.perform
  rintro s' _ rfl c _
  exact ⟨rfl, h c.now⟩

theorem issue {Q : Except Trouble String → Custody Unit → Prop}
    (h : s.Inv → ∀ c, c.fresh ∉ s.issued → Q (.ok c.fresh) (s.apply () what .issue c)) :
    Alone calm what Q Blobs.issue s := by
  apply Stage.Sound.perform
  rintro s' hinv rfl c hallowed
  exact ⟨rfl, h hinv c hallowed.1⟩

variable {c : Chance} {deed : Deed}

theorem outcome (what : Work) (s : Custody Unit) (deed : Deed) (hlate : c.late = false) :
    (∃ trouble, deed.fault c s.store = some trouble ∧ deed.result c s.store = .error trouble ∧
        s.apply () what deed c = s) ∨
      deed.fault c s.store = none ∧ deed.result c s.store = .ok () := by
  unfold Deed.result Custody.apply
  cases hfault : deed.fault c s.store with
  | some trouble => exact .inl ⟨trouble, rfl, rfl, rfl⟩
  | none =>
    refine .inr ⟨rfl, ?_⟩
    rw [hlate, Bool.and_false]
    rfl

theorem locked_of_fault (h : deed.fault c s.store = some .locked) : c.fault = some .locked := by
  cases deed with
  | link source destination =>
    simp only [Deed.fault] at h
    cases hc : c.fault with
    | some other =>
      rw [hc] at h
      exact h
    | none =>
      rw [hc] at h
      simp only [none_or] at h
      split at h
      · cases h
      · cases h
  | _ =>
    simp only [Deed.fault] at h
    split at h
    · exact h
    · cases h

theorem tried {Q : Except Trouble (Except Trouble Unit) → Custody Unit → Prop}
    (hkeeps : deed.keeps = true)
    (herror : s.Inv → ∀ trouble, (calm = true → trouble ≠ .locked) → Q (.ok (.error trouble)) s)
    (hok : s.Inv → ∀ c, deed.fault c s.store = none → Q (.ok (.ok ())) (s.apply () what deed c)) :
    Alone calm what Q (Blobs.tried deed) s := by
  apply Stage.Sound.perform
  rintro s' hinv rfl c ⟨_, hlate, hcalm⟩
  refine ⟨hkeeps, ?_⟩
  change Q (.ok (deed.result c s'.store)) (s'.apply () what deed c)
  rcases outcome what s' deed hlate with ⟨trouble, hfault, hresult, hsame⟩ | ⟨hfault, hresult⟩
  · rw [hresult, hsame]
    refine herror hinv trouble fun hquiet heq => ?_
    rw [heq] at hfault
    exact hcalm hquiet (locked_of_fault hfault)
  · rw [hresult]
    exact hok hinv c hfault

theorem act {Q : Except Trouble Unit → Custody Unit → Prop} (hkeeps : deed.keeps = true)
    (herror : s.Inv → ∀ trouble, deed.fails = true → Q (.error trouble) s)
    (hok : s.Inv → ∀ c, deed.fault c s.store = none → Q (.ok ()) (s.apply () what deed c)) :
    Alone calm what Q (Blobs.act deed) s := by
  apply Stage.Sound.perform
  rintro s' hinv rfl c ⟨_, hlate, _⟩
  refine ⟨hkeeps, ?_⟩
  change Q (deed.result c s'.store) (s'.apply () what deed c)
  rcases outcome what s' deed hlate with ⟨trouble, hfault, hresult, hsame⟩ | ⟨hfault, hresult⟩
  · have hfails : deed.fails = true := by
      cases deed <;> first | rfl | (simp [Deed.fault, Deed.fails] at hfault)
    rw [hresult, hsame]
    exact herror hinv trouble hfails
  · rw [hresult]
    exact hok hinv c hfault

end Alone

/-- In the folder there are the files that the rows name, and some others. -/
structure Over (extra : List String) (s : Custody Unit) : Prop where
  folder : ∀ blob, s.store.blobs.get? blob ≠ none ↔ Names s.store.rows blob ∨ blob ∈ extra
  unnamed : ∀ blob ∈ extra, ¬Names s.store.rows blob
  nodup : extra.Nodup
  issued : ∀ blob ∈ extra, blob ∈ s.issued

variable {calm : Bool} {what : Work} {s s' : Custody Unit} {extra : List String}

theorem Over.exact (h : Over [] s) : Exact s.store := by
  intro blob
  simpa using h.folder blob

theorem Over.same (h : Over extra s) (hstore : s'.store = s.store) (hissued : s'.issued = s.issued) :
    Over extra s' := by
  constructor
  · rw [hstore]
    exact h.folder
  · rw [hstore]
    exact h.unnamed
  · exact h.nodup
  · rw [hissued]
    exact h.issued

variable {blob : String}

theorem Over.new (h : Over extra s) (hinv : s.Inv) (hfresh : blob ∉ s.issued) :
    ¬Names s.store.rows blob ∧ blob ∉ extra := by
  constructor
  · rintro ⟨key, row, hget, rfl⟩
    exact hfresh (hinv.rows key row hget)
  · intro hmem
    exact hfresh (h.issued blob hmem)

theorem Over.add (h : Over extra s) (hnames : ¬Names s.store.rows blob) (hextra : blob ∉ extra)
    (hissued : blob ∈ s.issued) (hrows : s'.store.rows = s.store.rows)
    (hsame : s'.issued = s.issued) (found : Blob)
    (hblobs : s'.store.blobs = s.store.blobs.set blob (some found)) :
    Over (extra ++ [blob]) s' := by
  constructor
  · intro other
    rw [hrows, hblobs, Table.get?_set]
    by_cases heq : other = blob
    · subst heq
      simp
    · rw [if_neg heq, h.folder other]
      simp [heq]
  · intro other hmem
    rw [hrows]
    rcases mem_append.mp hmem with hold | hnew
    · exact h.unnamed other hold
    · rw [mem_singleton.mp hnew]
      exact hnames
  · refine h.nodup.append (nodup_singleton blob) ?_
    intro other hmem hnew
    rw [mem_singleton.mp hnew] at hmem
    exact hextra hmem
  · intro other hmem
    rw [hsame]
    rcases mem_append.mp hmem with hold | hnew
    · exact h.issued other hold
    · rw [mem_singleton.mp hnew]
      exact hissued

theorem alone_removeAll (h : Over extra s) :
    Alone calm what (fun r s' => r = .ok () ∧ Over [] s') (removeAll extra) s := by
  induction extra generalizing s with
  | nil => exact ⟨rfl, h⟩
  | cons blob rest ih =>
    apply Alone.seq
    apply Alone.act rfl
    · nofun
    · intro _ c _
      refine ih ⟨fun other => ?_, fun other hmem => h.unnamed other (mem_cons_of_mem _ hmem),
        h.nodup.of_cons, fun other hmem => h.issued other (mem_cons_of_mem _ hmem)⟩
      change (s.store.blobs.erase blob).get? other ≠ none ↔ _
      rw [Table.get?_erase]
      have hfolder := h.folder other
      rw [mem_cons] at hfolder
      have hnot : blob ∉ rest := (nodup_cons.mp h.nodup).1
      by_cases heq : other = blob
      · subst heq
        have hunnamed := h.unnamed other mem_cons_self
        simp only [if_true, ne_eq, not_true_eq_false, false_iff, not_or]
        exact ⟨hunnamed, hnot⟩
      · rw [if_neg heq, hfolder]
        simp only [heq, false_or]
        exact Iff.rfl

/-- What a transaction leaves over, when it goes well or leaves the rows as they were. -/
def Leaves {α : Type} (rows : Rows) (held : List String) (P : α → Custody Unit → Prop)
    (links : List String → Prop)
    (r : Except Trouble (List String × Except Trouble α)) (s : Custody Unit) : Prop :=
  ∃ linked result, r = .ok (linked, result) ∧
    match result with
    | .error _ => links linked ∧ s.store.rows = rows ∧ Over (held ++ linked) s
    | .ok a => P a s

/-- What is done within a transaction leaves its links over, until the change is
committed. If it can be run again, it has made none. -/
def Comes {α : Type} (calm : Bool) (what : Work) (rows : Rows) (held : List String)
    (P : α → Custody Unit → Prop) (links : List String → Prop)
    (r : Except Trouble (List String × Except Trouble (Change × α))) (s : Custody Unit) : Prop :=
  ∃ linked result, r = .ok (linked, result) ∧ links linked ∧ s.store.rows = rows ∧
    Over (held ++ linked) s ∧
    match result with
    | .error trouble => trouble.retryable = true → linked = []
    | .ok (change, a) => (calm = true ∨ linked = []) ∧ ∀ c, s.Inv →
        (Deed.commit change).fault c s.store = none →
        P a (s.apply () what (.commit change) c)

def NoLinks (linked : List String) : Prop := linked = []

theorem noLinks_nil : NoLinks [] := rfl

section

variable {α : Type} {rows : Rows} {held : List String} {P : α → Custody Unit → Prop}
  {links : List String → Prop} {body : Body α}

theorem alone_rollback {linked : List String} {trouble : Trouble} (hrows : s.store.rows = rows)
    (h : Over (held ++ linked) s)
    {R : Except Trouble (List String × Except Trouble α) → Custody Unit → Prop}
    (hR : ∀ s', s'.store.rows = rows → Over (held ++ linked) s' →
      R (.ok (linked, .error trouble)) s') :
    Alone calm what R
      (do
        act .rollback
        pure (linked, .error trouble)) s := by
  apply Alone.seq
  apply Alone.act rfl
  · nofun
  · exact fun _ c _ => hR _ hrows (h.same rfl rfl)

theorem alone_once (hnil : links []) (hbody : ∀ s, s.store.rows = rows → Over held s →
      Alone calm what (Comes calm what rows held P links) (body []) s)
    (hrows : s.store.rows = rows) (h : Over held s) :
    Alone calm what
      (fun r s => Leaves rows held P links r s ∧ ∀ linked trouble, r = .ok (linked, .error trouble) →
        trouble.retryable = true → linked = [])
      (once body []) s := by
  have hnone : Over (held ++ []) s := by
    rw [append_nil]
    exact h
  apply Alone.seq
  apply Alone.tried rfl
  · intro _ trouble _
    refine ⟨⟨[], .error trouble, rfl, hnil, hrows, hnone⟩, fun linked trouble' heq _ => ?_⟩
    exact (Prod.mk.inj (Except.ok.inj heq)).1.symm
  · intro _ c hbegin
    have hbegun : (s.apply () what .begin_ c).store.rows = rows ∧
        Over held (s.apply () what .begin_ c) := by
      unfold Custody.apply
      rw [hbegin]
      exact ⟨hrows, h.same rfl rfl⟩
    apply Alone.seq
    apply (hbody _ hbegun.1 hbegun.2).mono
    rintro r s₁ ⟨linked, result, rfl, hlinks, hrows₁, hover, hready⟩
    have hfailed : ∀ trouble, (trouble.retryable = true → linked = []) → ∀ s',
        s'.store.rows = rows → Over (held ++ linked) s' →
        Leaves rows held P links (.ok (linked, .error trouble)) s' ∧ ∀ linked' trouble',
          (.ok (linked, .error trouble) : Except Trouble (List String × Except Trouble α)) =
            .ok (linked', .error trouble') → trouble'.retryable = true → linked' = [] := by
      intro trouble hagain s' hrows' hover'
      refine ⟨⟨linked, .error trouble, rfl, hlinks, hrows', hover'⟩, fun linked' trouble' heq hretry => ?_⟩
      obtain ⟨hlinked, hresult⟩ := Prod.mk.inj (Except.ok.inj heq)
      rw [← hlinked]
      rw [← Except.error.inj hresult] at hretry
      exact hagain hretry
    cases result with
    | error trouble => exact alone_rollback hrows₁ hover (hfailed trouble hready)
    | ok pair =>
      obtain ⟨change, a⟩ := pair
      apply Alone.seq
      apply Alone.tried rfl
      · intro _ trouble hcalm
        refine alone_rollback hrows₁ hover (hfailed trouble fun hretry => ?_)
        rcases hready.1 with hquiet | hlinked
        · have hne := hcalm hquiet
          cases trouble with
          | locked => exact absurd rfl hne
          | _ => cases hretry
        · exact hlinked
      · intro hinv c hcommit
        refine ⟨⟨linked, .ok a, rfl, hready.2 c hinv hcommit⟩, fun _ _ heq => ?_⟩
        have hresult := (Prod.mk.inj (Except.ok.inj heq)).2
        cases hresult

theorem alone_run (hnil : links []) (hbody : ∀ s, s.store.rows = rows → Over held s →
      Alone calm what (Comes calm what rows held P links) (body []) s) :
    ∀ (again : Nat) {s : Custody Unit}, s.store.rows = rows → Over held s →
      Alone calm what (Leaves rows held P links) (run body again []) s
  | 0, s, hrows, h => (alone_once hnil hbody hrows h).mono fun _ _ h => h.1
  | again + 1, s, hrows, h => by
      apply Alone.seq
      apply (alone_once hnil hbody hrows h).mono
      rintro r s₁ ⟨⟨linked, result, rfl, hresult⟩, hagain⟩
      cases result with
      | error trouble =>
        dsimp only
        split
        · next hretry =>
            obtain rfl := hagain linked trouble rfl hretry
            obtain ⟨_, hrows', hover⟩ := hresult
            rw [append_nil] at hover
            exact alone_run hnil hbody again hrows' hover
        · exact ⟨linked, .error trouble, rfl, hresult⟩
      | ok a => exact ⟨linked, .ok a, rfl, hresult⟩

end

variable {c : Chance} {change : Change} {key : Path} {α : Type} {trouble : Trouble}
    {rows : Rows} {files : List Copied}

theorem applied {deed : Deed} (hfault : deed.fault c s.store = none) :
    s.apply () what deed c = { s.remember () deed c with store := deed.effect c s.store } := by
  unfold Custody.apply
  rw [hfault]

theorem commit_issued : (s.apply () what (.commit change) c).issued = s.issued := by
  unfold Custody.apply
  split
  · rfl
  · simp only [Custody.remember]
    split <;> rfl

theorem Over.commit {extra' : List String} (h : Over extra s)
    (hfault : (Deed.commit change).fault c s.store = none)
    (hfolder : ∀ blob, Names (change.apply s.store.rows) blob ∨ blob ∈ extra' ↔
      Names s.store.rows blob ∨ blob ∈ extra)
    (hunnamed : ∀ blob ∈ extra', ¬Names (change.apply s.store.rows) blob) (hnodup : extra'.Nodup)
    (hissued : ∀ blob ∈ extra', blob ∈ s.issued) :
    Over extra' (s.apply () what (.commit change) c) := by
  have hstore : (s.apply () what (.commit change) c).store =
      { s.store with rows := change.apply s.store.rows } := by
    rw [applied hfault]
    rfl
  constructor
  · intro blob
    rw [hstore, hfolder blob]
    exact h.folder blob
  · rw [hstore]
    exact hunnamed
  · exact hnodup
  · rw [commit_issued]
    exact hissued

theorem Over.put {row : BlobRow} {data : List UInt8} (h : Over [row.blob] s) (hinv : s.Inv)
    (hfault : (Deed.commit (.put key row data)).fault c s.store = none) :
    Over ((s.store.rows.get? key).map BlobRow.blob).toList
      (s.apply () what (.commit (.put key row data)) c) := by
  have hnew := h.unnamed row.blob mem_cons_self
  have hnames : ∀ blob, Names ((Change.put key row data).apply s.store.rows) blob ↔
      blob = row.blob ∨ ∃ key' row', key' ≠ key ∧ s.store.rows.get? key' = some row' ∧
        row'.blob = blob := by
    intro blob
    constructor
    · rintro ⟨key', row', hget, rfl⟩
      simp only [Change.apply, Table.get?_set] at hget
      split at hget
      · cases hget
        exact .inl rfl
      · next hkey => exact .inr ⟨key', row', hkey, hget, rfl⟩
    · rintro (rfl | ⟨key', row', hkey, hget, rfl⟩)
      · exact ⟨key, row, by simp [Change.apply], rfl⟩
      · exact ⟨key', row', by simp [Change.apply, hkey, hget], rfl⟩
  cases hprevious : s.store.rows.get? key with
  | none =>
    refine h.commit hfault (fun blob => ?_) (by simp) nodup_nil (by simp)
    rw [hnames]
    constructor
    · rintro ((rfl | ⟨key', row', _, hget, rfl⟩) | hmem)
      · exact .inr mem_cons_self
      · exact .inl ⟨key', row', hget, rfl⟩
      · cases hmem
    · rintro (⟨key', row', hget, rfl⟩ | hmem)
      · refine .inl (.inr ⟨key', row', fun heq => ?_, hget, rfl⟩)
        rw [heq, hprevious] at hget
        cases hget
      · exact .inl (.inl (mem_singleton.mp hmem))
  | some old =>
    have hne : old.blob ≠ row.blob := fun heq => hnew ⟨key, old, hprevious, heq⟩
    refine h.commit hfault (fun blob => ?_) (fun blob hmem => ?_) (nodup_singleton _)
      fun blob hmem => ?_
    · rw [hnames]
      simp only [map_some, toList_some, mem_singleton]
      constructor
      · rintro ((rfl | ⟨key', row', _, hget, rfl⟩) | rfl)
        · exact .inr rfl
        · exact .inl ⟨key', row', hget, rfl⟩
        · exact .inl ⟨key, old, hprevious, rfl⟩
      · rintro (⟨key', row', hget, rfl⟩ | rfl)
        · by_cases hkey : key' = key
          · rw [hkey, hprevious] at hget
            exact .inr (congrArg BlobRow.blob (Option.some.inj hget)).symm
          · exact .inl (.inr ⟨key', row', hkey, hget, rfl⟩)
        · exact .inl (.inl rfl)
    · obtain rfl := mem_singleton.mp hmem
      rw [hnames]
      rintro (heq | ⟨key', row', hkey, hget, heq⟩)
      · exact hne heq
      · exact hkey (hinv.distinct key' key row' old hget hprevious heq)
    · obtain rfl := mem_singleton.mp hmem
      exact hinv.rows key old hprevious

theorem alone_checked {Q : Except Trouble Unit → Custody Unit → Prop} (hok : Q (.ok ()) s)
    (herror : ∀ trouble, Q (.error trouble) s) : Alone calm what Q (checked key) s := by
  unfold checked
  split
  · exact herror _
  · exact hok

/-- The call leaves the folder as the rows have it. -/
abbrev Tidy {α : Type} (calm : Bool) (what : Work) (p : Op α) (s : Custody Unit) : Prop :=
  Alone calm what (fun _ s' => Over [] s') p s

theorem tidy_removeAll (h : Over extra s) :
    Tidy calm what (do
      removeAll extra
      (.raise trouble : Op α)) s := by
  apply Alone.seq
  apply (alone_removeAll h).mono
  rintro r s₁ ⟨rfl, hover⟩
  exact hover

theorem tidy_upload (quota : Path → Option Nat) (key : Path) (data : List UInt8)
    (contentType : String) (h : Over [] s) :
    Tidy false what (upload quota key data contentType) s := by
  apply Alone.seq
  refine alone_checked ?_ fun _ => h
  apply Alone.seq
  apply Alone.issue
  intro hinv c hfresh
  have hnew := h.new hinv hfresh
  have hover : Over [] (s.apply () what .issue c) := ⟨h.folder, h.unnamed, h.nodup, nofun⟩
  have hissued : c.fresh ∈ (s.apply () what .issue c).issued := mem_cons_self
  have hunnamed : ¬Names (s.apply () what .issue c).store.rows c.fresh := hnew.1
  generalize s.apply () what .issue c = s₁ at hover hissued hunnamed
  generalize c.fresh = blob at hissued hunnamed
  apply Alone.seq
  apply Alone.act rfl
  · exact fun _ _ _ => hover
  · intro _ c hwrite
    have hwritten : (s₁.apply () what (.write blob data) c).store.rows = s₁.store.rows ∧
        Over [blob] (s₁.apply () what (.write blob data) c) := by
      rw [applied hwrite]
      exact ⟨rfl, hover.add hunnamed nofun hissued rfl rfl ⟨data, c.now⟩ rfl⟩
    apply Alone.seq
    have hbody : ∀ s, s.store.rows = s₁.store.rows → Over [blob] s → Alone false what
        (Comes false what s₁.store.rows [blob] (fun replaced => Over replaced.toList) NoLinks)
        (uploadBody quota key data contentType blob []) s := by
      intro s hrows h
      apply Alone.seq
      apply Alone.look
      intro _
      dsimp only
      split
      · exact ⟨[], _, rfl, rfl, hrows, h, fun _ => rfl⟩
      · apply Alone.seq
        apply Alone.clock
        intro now
        exact ⟨[], _, rfl, rfl, hrows, h, .inr rfl, fun c hinv hcommit => h.put hinv hcommit⟩
    apply (alone_run noLinks_nil hbody (attempts - 1) hwritten.1 hwritten.2).mono
    rintro r s₂ ⟨linked, result, rfl, hend⟩
    cases result with
    | error trouble =>
      obtain ⟨rfl, _, hover₂⟩ := hend
      exact tidy_removeAll hover₂
    | ok replaced => exact (alone_removeAll hend).mono fun _ _ h => h.2

theorem Over.drop (found : List (Path × BlobRow)) (h : Over [] s) (hinv : s.Inv)
    (hfound : ∀ entry ∈ found, s.store.rows.get? entry.1 = some entry.2)
    (hnodup : (found.map Prod.fst).Nodup)
    (hfault : (Deed.commit (.drop (found.map Prod.fst))).fault c s.store = none) :
    Over (found.map fun entry => entry.2.blob)
      (s.apply () what (.commit (.drop (found.map Prod.fst))) c) := by
  have hnames : ∀ blob, Names ((Change.drop (found.map Prod.fst)).apply s.store.rows) blob ↔
      ∃ key row, key ∉ found.map Prod.fst ∧ s.store.rows.get? key = some row ∧ row.blob = blob := by
    intro blob
    constructor
    · rintro ⟨key, row, hget, rfl⟩
      simp only [Change.apply, Table.get?_filter, filter_eq_some_iff] at hget
      exact ⟨key, row, of_decide_eq_true hget.2, hget.1, rfl⟩
    · rintro ⟨key, row, hkey, hget, rfl⟩
      refine ⟨key, row, ?_, rfl⟩
      simp only [Change.apply, Table.get?_filter, filter_eq_some_iff]
      exact ⟨hget, decide_eq_true hkey⟩
  refine h.commit hfault (fun blob => ?_) (fun blob hmem => ?_) ?_ fun blob hmem => ?_
  · rw [hnames]
    constructor
    · rintro (⟨key, row, _, hget, rfl⟩ | hmem)
      · exact .inl ⟨key, row, hget, rfl⟩
      · obtain ⟨entry, hentry, rfl⟩ := mem_map.mp hmem
        exact .inl ⟨entry.1, entry.2, hfound entry hentry, rfl⟩
    · rintro (⟨key, row, hget, rfl⟩ | hmem)
      · by_cases hkey : key ∈ found.map Prod.fst
        · obtain ⟨entry, hentry, rfl⟩ := mem_map.mp hkey
          obtain rfl := Option.some.inj (hget.symm.trans (hfound entry hentry))
          exact .inr (mem_map.mpr ⟨entry, hentry, rfl⟩)
        · exact .inl ⟨key, row, hkey, hget, rfl⟩
      · cases hmem
  · obtain ⟨entry, hentry, rfl⟩ := mem_map.mp hmem
    rw [hnames]
    rintro ⟨key, row, hkey, hget, heq⟩
    have hsame := hinv.distinct key entry.1 row entry.2 hget (hfound entry hentry) heq
    exact hkey (hsame ▸ mem_map.mpr ⟨entry, hentry, rfl⟩)
  · refine List.Nodup.map_on ?_ hnodup.of_map
    intro entry hentry entry' hentry' heq
    have hkey := hinv.distinct entry.1 entry'.1 entry.2 entry'.2 (hfound entry hentry)
      (hfound entry' hentry') heq
    exact inj_on_of_nodup_map hnodup hentry hentry' hkey
  · obtain ⟨entry, hentry, rfl⟩ := mem_map.mp hmem
    exact hinv.rows entry.1 entry.2 (hfound entry hentry)

theorem tidy_delete (key : Path) (h : Over [] s) : Tidy false what (delete key) s := by
  apply Alone.seq
  refine alone_checked ?_ fun _ => h
  apply Alone.seq
  have hbody : ∀ s', s'.store.rows = s.store.rows → Over [] s' → Alone false what
      (Comes false what s.store.rows [] (fun gone => Over gone.toList) NoLinks)
      (deleteBody key []) s' := by
    intro s' hrows h
    apply Alone.seq
    apply Alone.look
    intro hinv
    dsimp only
    cases hget : s'.store.rows.get? key with
    | none =>
      refine ⟨[], _, rfl, rfl, hrows, h, .inr rfl, fun c _ hcommit => ?_⟩
      exact h.commit hcommit (fun _ => Iff.rfl) nofun nodup_nil nofun
    | some row =>
      refine ⟨[], _, rfl, rfl, hrows, h, .inr rfl, fun c _ hcommit => ?_⟩
      refine Over.drop [(key, row)] h hinv (fun entry hmem => ?_) (nodup_singleton key) hcommit
      rw [mem_singleton.mp hmem]
      exact hget
  apply (alone_run noLinks_nil hbody (attempts - 1) rfl h).mono
  rintro r s₁ ⟨linked, result, rfl, hend⟩
  cases result with
  | error trouble =>
    obtain ⟨rfl, _, hover⟩ := hend
    exact hover
  | ok gone => exact (alone_removeAll hend).mono fun _ _ h => h.2

theorem tidy_deletePrefix (start : Path) (h : Over [] s) :
    Tidy false what (deletePrefix start) s := by
  apply Alone.seq
  refine alone_checked ?_ fun _ => h
  apply Alone.seq
  have hbody : ∀ s', s'.store.rows = s.store.rows → Over [] s' →
      Alone false what (Comes false what s.store.rows [] Over NoLinks)
        (deletePrefixBody start []) s' := by
    intro s' hrows h
    apply Alone.seq
    apply Alone.look
    intro hinv
    refine ⟨[], _, rfl, rfl, hrows, h, .inr rfl, fun c _ hcommit => ?_⟩
    refine Over.drop _ h hinv (fun entry hmem => ?_) ?_ hcommit
    · exact Table.mem_rows_iff.mp (mem_of_mem_filter hmem)
    · exact s'.store.rows.nodup.sublist (filter_sublist.map _)
  apply (alone_run noLinks_nil hbody (attempts - 1) rfl h).mono
  rintro r s₁ ⟨linked, result, rfl, hend⟩
  cases result with
  | error trouble =>
    obtain ⟨rfl, _, hover⟩ := hend
    exact hover
  | ok blobs =>
    apply Alone.seq
    apply (alone_removeAll hend).mono
    rintro r s₂ ⟨rfl, hover⟩
    exact hover

theorem stem_stem (start : Path) : FileTable.stem (FileTable.stem start) = FileTable.stem start := by
  unfold FileTable.stem
  dsimp only
  by_cases hbare : (start.rdropWhile fun c => c = '/') = []
  · simp only [hbare, if_true]
  · rw [if_neg hbare, rdropWhile_idempotent, if_neg hbare]

theorem targetOf_inj {start : Path} (destination : Path) {entry entry' : Path × BlobRow}
    (h : entry ∈ inside rows (FileTable.stem start))
    (h' : entry' ∈ inside rows (FileTable.stem start))
    (heq : targetOf (FileTable.stem start) destination entry.1 =
      targetOf (FileTable.stem start) destination entry'.1) : entry.1 = entry'.1 := by
  have hkey : ∀ entry : Path × BlobRow, entry ∈ inside rows (FileTable.stem start) →
      entry.1 = FileTable.stem start ++ entry.1.drop (FileTable.stem start).length := by
    intro entry hmem
    have hfound := of_mem_filter ((perm_inOrder _).mem_iff.mp hmem)
    have hprefix : FileTable.stem start ++ ['/'] <+: entry.1 := by
      have := isPrefixOf_iff_prefix.mp hfound
      rwa [stem_stem] at this
    exact prefix_iff_eq_append.mp ((prefix_append _ _).trans hprefix) |>.symm
  rw [hkey entry h, hkey entry' h', append_cancel_left heq]

theorem copied_mem (hnodup : (files.map Copied.target).Nodup) {file : Copied}
    (hfile : file ∈ files) :
    ((Change.copy files).apply rows).get? file.target = some file.row := by
  simp only [Change.apply]
  induction files using List.reverseRecOn with
  | nil => cases hfile
  | append_singleton files last ih =>
    rw [foldl_append, foldl_cons, foldl_nil, Table.get?_set]
    rw [map_append, map_singleton] at hnodup
    rcases mem_append.mp hfile with hold | hlast
    · have hne : file.target ≠ last.target := by
        intro heq
        have hdisjoint := (nodup_append.mp hnodup).2.2
        exact hdisjoint _ (mem_map.mpr ⟨file, hold, rfl⟩) _ mem_cons_self heq
      rw [if_neg hne]
      exact ih hnodup.of_append_left hold
    · rw [mem_singleton.mp hlast, if_pos rfl]

theorem Over.copy (h : Over (files.map fun file => file.row.blob) s)
    (hnodup : (files.map Copied.target).Nodup)
    (hnew : ∀ file ∈ files, s.store.rows.get? file.target = none)
    (hfault : (Deed.commit (.copy files)).fault c s.store = none) :
    Over [] (s.apply () what (.commit (.copy files)) c) := by
  refine h.commit hfault (fun blob => ?_) nofun nodup_nil nofun
  have hplace := fun key => Custody.copied files s.store.rows s.contents s.contents key
  constructor
  · rintro (⟨key, row, hget, rfl⟩ | hmem)
    · rcases hplace key with ⟨file, hfile, _, hrow, _⟩ | ⟨hrow, _⟩
      · obtain rfl := Option.some.inj (hget.symm.trans hrow)
        exact .inr (mem_map.mpr ⟨file, hfile, rfl⟩)
      · exact .inl ⟨key, row, hrow.symm.trans hget, rfl⟩
    · cases hmem
  · rintro (⟨key, row, hget, rfl⟩ | hmem)
    · refine .inl ⟨key, row, ?_, rfl⟩
      rcases hplace key with ⟨file, hfile, hkey, _, _⟩ | ⟨hrow, _⟩
      · have hnone := hnew file hfile
        rw [hkey, hget] at hnone
        cases hnone
      · exact hrow.trans hget
    · obtain ⟨file, hfile, rfl⟩ := mem_map.mp hmem
      exact .inl ⟨file.target, file.row, copied_mem hnodup hfile, rfl⟩

theorem alone_linkAll {source destination : Path} {entries : List (Path × BlobRow)} :
    ∀ (copied : List Copied) {s : Custody Unit}, Over (copied.map fun file => file.row.blob) s →
      Alone true what (fun r s' => ∃ linked result, r = .ok (linked, result) ∧ Over linked s' ∧
          s'.store.rows = s.store.rows ∧
          match result with
          | .error trouble => trouble ≠ .locked
          | .ok (change, _) => ∃ files : List Copied, change = .copy files ∧
              linked = files.map (fun file => file.row.blob) ∧
              files.map Copied.target = copied.map Copied.target ++
                entries.map fun entry => targetOf source destination entry.1)
        (linkAll source destination entries copied (copied.map fun file => file.row.blob)) s := by
  induction entries with
  | nil =>
    intro copied s h
    exact ⟨_, _, rfl, h, rfl, copied, rfl, rfl, (append_nil _).symm⟩
  | cons entry rest ih =>
    intro copied s h
    obtain ⟨key, row⟩ := entry
    apply Alone.seq
    apply Alone.issue
    intro hinv c hfresh
    have hnew := h.new hinv hfresh
    have hover : Over (copied.map fun file => file.row.blob) (s.apply () what .issue c) :=
      ⟨h.folder, h.unnamed, h.nodup, fun blob hmem => mem_cons_of_mem _ (h.issued blob hmem)⟩
    have hissued : c.fresh ∈ (s.apply () what .issue c).issued := mem_cons_self
    have hrows : (s.apply () what .issue c).store.rows = s.store.rows := rfl
    generalize s.apply () what .issue c = s₁ at hover hissued hrows
    generalize c.fresh = blob at hnew hissued
    apply Alone.seq
    apply Alone.tried rfl
    · intro _ trouble hlocked
      exact ⟨_, _, rfl, hover, hrows, hlocked rfl⟩
    · intro _ c hlink
      have hsource : ∃ found, s₁.store.blobs.get? row.blob = some found := by
        cases hget : s₁.store.blobs.get? row.blob with
        | some found => exact ⟨found, rfl⟩
        | none => simp [Deed.fault, hget] at hlink
      obtain ⟨found, hfound⟩ := hsource
      have happly : s₁.apply () what (.link row.blob blob) c =
          { s₁.remember () (.link row.blob blob) c with
            store := (Deed.link row.blob blob).effect c s₁.store } := applied hlink
      have hlinked : Over ((copied.map fun file => file.row.blob) ++ [blob])
          (s₁.apply () what (.link row.blob blob) c) := by
        rw [happly]
        refine hover.add ?_ hnew.2 hissued ?_ rfl found ?_
        · rw [hrows]
          exact hnew.1
        · simp only [Deed.effect, hfound]
        · simp only [Deed.effect, hfound]
      have hrows₂ : (s₁.apply () what (.link row.blob blob) c).store.rows = s.store.rows := by
        rw [happly, ← hrows]
        simp only [Deed.effect, hfound]
      generalize s₁.apply () what (.link row.blob blob) c = s₂ at hlinked hrows₂
      apply Alone.seq
      apply Alone.clock
      intro now
      let new : BlobRow := ⟨FileTable.tenantOf (targetOf source destination key), blob, row.size,
        row.contentType, now⟩
      let file : Copied := ⟨key, targetOf source destination key, new⟩
      have hmap : (copied ++ [file]).map (fun file => file.row.blob) =
          (copied.map fun file => file.row.blob) ++ [blob] := by
        rw [map_append, map_singleton]
      rw [← hmap] at hlinked
      have hrest := ih (copied ++ [file]) hlinked
      rw [hmap] at hrest
      apply hrest.mono
      rintro r s₃ ⟨linked, result, rfl, hover₃, hrows₃, hresult⟩
      refine ⟨linked, result, rfl, hover₃, hrows₃.trans hrows₂, ?_⟩
      cases result with
      | error trouble => exact hresult
      | ok pair =>
        obtain ⟨files, hchange, hlinked', htargets⟩ := hresult
        refine ⟨files, hchange, hlinked', ?_⟩
        rw [htargets, map_append, append_assoc]
        rfl

theorem tidy_copyPrefix (quota : Path → Option Nat) (sourcePrefix destPrefix : Path) (h : Over [] s)
    (hnew : ∀ entry ∈ inside s.store.rows (FileTable.stem sourcePrefix),
      s.store.rows.get? (targetOf (FileTable.stem sourcePrefix) (FileTable.stem destPrefix) entry.1) =
        none) :
    Tidy true what (copyPrefix quota sourcePrefix destPrefix) s := by
  apply Alone.seq
  refine alone_checked ?_ fun _ => h
  apply Alone.seq
  refine alone_checked ?_ fun _ => h
  apply Alone.seq
  have hbody : ∀ s', s'.store.rows = s.store.rows → Over [] s' → Alone true what
      (Comes true what s.store.rows [] (fun _ => Over []) fun _ => True)
      (copyBody quota (FileTable.stem sourcePrefix) (FileTable.stem destPrefix) []) s' := by
    intro s' hrows h
    apply Alone.seq
    apply Alone.look
    intro _
    dsimp only
    split
    · exact ⟨[], _, rfl, trivial, hrows, h, fun _ => rfl⟩
    · apply (alone_linkAll [] h).mono
      rintro r s₁ ⟨linked, result, rfl, hover, hrows₁, hresult⟩
      refine ⟨linked, result, rfl, trivial, hrows₁.trans hrows, hover, ?_⟩
      cases result with
      | error trouble =>
        cases trouble with
        | locked => exact absurd rfl hresult
        | _ => nofun
      | ok pair =>
        obtain ⟨change, n⟩ := pair
        obtain ⟨files, rfl, rfl, htargets⟩ := hresult
        refine ⟨.inl rfl, fun c _ hcommit => hover.copy ?_ (fun file hfile => ?_) hcommit⟩
        · rw [htargets]
          refine List.Nodup.map_on ?_ (List.Nodup.of_map Prod.fst ?_)
          · intro entry hentry entry' hentry' heq
            have hkey := targetOf_inj _ hentry hentry' heq
            have hget := Table.mem_rows_iff.mp
              (mem_of_mem_filter ((perm_inOrder _).mem_iff.mp hentry))
            have hget' := Table.mem_rows_iff.mp
              (mem_of_mem_filter ((perm_inOrder _).mem_iff.mp hentry'))
            rw [hkey] at hget
            exact Prod.ext hkey (Option.some.inj (hget.symm.trans hget'))
          · refine ((perm_inOrder _).map Prod.fst).nodup_iff.mpr ?_
            exact s'.store.rows.nodup.sublist (filter_sublist.map _)
        · have hmem : file.target ∈ files.map Copied.target := mem_map.mpr ⟨file, hfile, rfl⟩
          rw [htargets, map_nil, nil_append] at hmem
          obtain ⟨entry, hentry, htarget⟩ := mem_map.mp hmem
          rw [hrows₁, ← htarget, hrows]
          rw [hrows] at hentry
          exact hnew entry hentry
  apply (alone_run trivial hbody (attempts - 1) rfl h).mono
  rintro r s₁ ⟨linked, result, rfl, hend⟩
  cases result with
  | error trouble => exact tidy_removeAll hend.2.2
  | ok copied => exact hend

theorem tidy_refused (quota : Path → Option Nat) (sourcePrefix destPrefix : Path) (h : Over [] s)
    (hrefused : enforce quota s.store.rows (FileTable.tenantOf (FileTable.stem destPrefix))
      ((inside s.store.rows (FileTable.stem sourcePrefix)).map fun entry => entry.2.size).sum
      (replaced s.store.rows (FileTable.stem sourcePrefix) (FileTable.stem destPrefix)
        (inside s.store.rows (FileTable.stem sourcePrefix))) = .error trouble) :
    Tidy false what (copyPrefix quota sourcePrefix destPrefix) s := by
  apply Alone.seq
  refine alone_checked ?_ fun _ => h
  apply Alone.seq
  refine alone_checked ?_ fun _ => h
  apply Alone.seq
  have hbody : ∀ s', s'.store.rows = s.store.rows → Over [] s' → Alone false what
      (Comes false what s.store.rows [] (fun _ => Over []) NoLinks)
      (copyBody quota (FileTable.stem sourcePrefix) (FileTable.stem destPrefix) []) s' := by
    intro s' hrows h
    apply Alone.seq
    apply Alone.look
    intro _
    dsimp only
    rw [hrows, hrefused]
    exact ⟨[], _, rfl, rfl, hrows, h, fun _ => rfl⟩
  apply (alone_run noLinks_nil hbody (attempts - 1) rfl h).mono
  rintro r s₁ ⟨linked, result, rfl, hend⟩
  cases result with
  | error trouble => exact tidy_removeAll hend.2.2
  | ok copied => exact hend

theorem tidy_discard {p : Op α} (h : Tidy calm what p s) : Tidy calm what (discard p) s := by
  apply Alone.seq
  apply h.mono
  intro r s₁ hover
  cases r with
  | ok _ | error trouble => exact hover

theorem finish_spec {Q : Custody Unit → Prop} {chances : List Chance}
    (hcalm : calm = true → ∀ c ∈ chances, c.fault ≠ some .locked) :
    ∀ {p : Op Unit} {s s' : Custody Unit}, s.Inv → Safe () what (fun _ _ => True) p s →
      Alone calm what (fun _ s => Q s) p s → finish what chances p s = some s' → s'.Inv ∧ Q s' := by
  induction chances with
  | nil =>
    intro p s s' hinv _ halone h
    cases p with
    | ret a | raise trouble =>
      cases h
      exact ⟨hinv, halone⟩
    | act deed next => cases h
  | cons c rest ih =>
    intro p s s' hinv hsafe halone h
    cases p with
    | ret a | raise trouble => cases h
    | act deed next =>
      simp only [finish] at h
      split at h
      · next hcan =>
          obtain ⟨hkeeps, hrest⟩ := halone s hinv rfl c
            ⟨hcan.1, hcan.2, fun hquiet => hcalm hquiet c mem_cons_self⟩
          have hcareful : s.Careful deed c := by
            cases deed with
            | commit change => exact fun _ => hcan.2
            | collect blob => cases hkeeps
            | _ => trivial
          obtain ⟨hin, hsafe'⟩ := hsafe s hinv (.refl () s) c ⟨hcan.1, hcareful⟩
          have hinv' := (Custody.act_keeps what hinv hcan.1 hcareful hin).1
          exact ih (fun hquiet c' hc' => hcalm hquiet c' (mem_cons_of_mem _ hc')) hinv' hsafe'
            hrest h
      · cases h

theorem over_leave (h : Over [] s) : Over [] (s.leave ()) := h.same rfl rfl

theorem step_over {call : Call} (hinv : s.Inv) (hover : Over [] s)
    (hstep : call.step s = some s') (hmeets : Meets s call) : s'.Inv ∧ Over [] s' := by
  have hend : ∀ calm : Bool, (calm = true → ∀ c ∈ call.chances, c.fault ≠ some .locked) →
      (finish call.what call.chances call.what.process s).map (Custody.leave ()) = some s' →
      Tidy calm call.what call.what.process s → s'.Inv ∧ Over [] s' := by
    intro calm hcalm hfinish htidy
    obtain ⟨s₁, hplayed, rfl⟩ := map_eq_some_iff.mp hfinish
    obtain ⟨hinv₁, hover₁⟩ := finish_spec hcalm hinv (safe_work () call.what s) htidy hplayed
    exact ⟨(Custody.leave_keeps () hinv₁).1, over_leave hover₁⟩
  obtain ⟨what, chances⟩ := call
  cases what with
  | collectGarbage minAge => cases hstep
  | upload quota key data contentType =>
    exact hend false nofun hstep (tidy_upload quota key data contentType hover)
  | delete key => exact hend false nofun hstep (tidy_delete key hover)
  | deletePrefix start =>
    exact hend false nofun hstep (tidy_discard (tidy_deletePrefix start hover))
  | copyPrefix quota sourcePrefix destPrefix =>
    rcases hmeets with ⟨trouble, hrefused⟩ | ⟨hnew, hquiet⟩
    · exact hend false nofun hstep
        (tidy_discard (tidy_refused quota sourcePrefix destPrefix hover hrefused))
    · exact hend true (fun _ => hquiet) hstep
        (tidy_discard (tidy_copyPrefix quota sourcePrefix destPrefix hover hnew))

theorem over_fresh : Over [] (Custody.fresh Unit) := by
  refine ⟨fun blob => ?_, fun _ hmem => (nomatch hmem), nodup_nil, fun _ hmem => (nomatch hmem)⟩
  constructor
  · exact fun hne => absurd rfl hne
  · rintro (⟨_, _, hget, _⟩ | hmem)
    · cases hget
    · cases hmem

/-- When each copy is refused or replaces nothing, and is not run again, then after every
call there are the files in the folder that the rows name, and no others. -/
theorem nothing_left {calls : List Call} {ms : List (Taken (Custody Unit) Call)}
    (h : moves Call.step calls (Custody.fresh Unit) = some ms)
    (hmeets : ∀ m ∈ ms, Meets m.before m.act) : ∀ m ∈ ms, Exact m.after.store := by
  refine fine_of_meets (P := fun s => s.Inv ∧ Over [] s) ?_ ⟨inv_fresh, over_fresh⟩ h hmeets
  intro s call s' hgood hstep hmeet
  obtain ⟨hinv, hover⟩ := step_over hgood.1 hgood.2 hstep hmeet
  exact ⟨hover.exact, hinv, hover⟩

def wells (names : List String) : List Chance := names.map fun name => ⟨none, false, name, 0⟩

/-- `s/a` is uploaded, copied to `t/a` and deleted. -/
theorem nothing_left_moved : ∃ ms, moves Call.step
        [⟨.upload (fun _ => none) ['s', '/', 'a'] [1] "", wells ["b", "", "", "", "", ""]⟩,
          ⟨.copyPrefix (fun _ => none) ['s'] ['t'], wells ["", "", "d", "", "", ""]⟩,
          ⟨.delete ['s', '/', 'a'], wells ["", "", "", ""]⟩] (Custody.fresh Unit) = some ms ∧
      ms.length = 3 ∧ ∀ m ∈ ms, Exact m.after.store := by
  refine ⟨_, rfl, rfl, nothing_left (rfl : moves Call.step
    [⟨.upload (fun _ => none) ['s', '/', 'a'] [1] "", wells ["b", "", "", "", "", ""]⟩,
      ⟨.copyPrefix (fun _ => none) ['s'] ['t'], wells ["", "", "d", "", "", ""]⟩,
      ⟨.delete ['s', '/', 'a'], wells ["", "", "", ""]⟩] (Custody.fresh Unit) = some _) ?_⟩
  intro m hm
  rcases mem_cons.mp hm with rfl | hm
  · trivial
  rcases mem_cons.mp hm with rfl | hm
  · exact .inr ⟨by decide, by decide⟩
  · obtain rfl := mem_singleton.mp hm
    trivial

/-- The file that a copy replaces stays in the folder. -/
theorem replaced_stays : ∃ ms, moves Call.step
        [⟨.upload (fun _ => none) ['s', '/', 'a'] [1] "", wells ["b", "", "", "", "", ""]⟩,
          ⟨.upload (fun _ => none) ['t', '/', 'a'] [2] "", wells ["c", "", "", "", "", ""]⟩,
          ⟨.copyPrefix (fun _ => none) ['s'] ['t'], wells ["", "", "d", "", "", ""]⟩]
        (Custody.fresh Unit) = some ms ∧
      ∃ m ∈ ms, ¬Exact m.after.store := by
  refine ⟨_, rfl, _, getLast_mem (cons_ne_nil _ _), fun hexact => ?_⟩
  obtain ⟨key, row, hget, hblob⟩ := (hexact "c").mp (by decide)
  have hmem := Table.mem_rows_iff.mpr hget
  rcases mem_cons.mp hmem with heq | hmem
  · cases heq
    exact absurd hblob (by decide)
  · cases mem_singleton.mp hmem
    exact absurd hblob (by decide)

end Substrate.Blobs
