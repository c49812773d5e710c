import Substrate.Files.Deeds

/-!
The contents of live files. Every operation of the files service, however its steps fall
between those of the others, does only what is in order: it commits only objects that it
has seen and has in hand, and deletes only objects that are spent or in its hand.
-/

namespace Substrate.Files

open Lib List Function

/-- Among all the others, the process does what is in order and ends with `Q`. -/
abbrev Safe {ι α : Type} [DecidableEq ι] (i : ι) (what : Work)
    (Q : Except Problem α → Custody ι → Prop) (p : Op α) (s : Custody ι) : Prop :=
  (stage ι).Sound (discipline ι Custody.Careful) i what Q p s

namespace Safe

variable {ι α β : Type} [DecidableEq ι] {i : ι} {what : Work} {s : Custody ι}
  {Q : Except Problem α → Custody ι → Prop}

theorem seq {p : Op β} {f : β → Op α} (h : Safe i what
      (fun r s =>
        match r with
        | .ok b => Safe i what Q (f b) s
        | .error e => Q (.error e) s) p s) :
    Safe i what Q (p >>= f) s := by
  apply Stage.Sound.bind
  apply h.mono
  intro r s' h'
  cases r with
  | ok b | error e => exact h'

theorem catching {p : Op α} {handler : Problem → Op α} (h : Safe i what
      (fun r s =>
        match r with
        | .ok a => Q (.ok a) s
        | .error e => Safe i what Q (handler e) s) p s) :
    Safe i what Q (p.catching handler) s := by
  apply Stage.Sound.catching
  apply h.mono
  intro r s' h'
  cases r with
  | ok a | error e => exact h'

theorem both {p : Op β} {f : β → Op α} (h : Safe i what (fun _ _ => True) p s)
    (hf : ∀ b s, Safe i what (fun _ _ => True) (f b) s) :
    Safe i what (fun _ _ => True) (p >>= f) s := by
  apply seq
  apply h.mono
  intro r s' _
  cases r with
  | ok b => exact hf b s'
  | error e => trivial

theorem idle {p : Op α} (h : Idle p) (hQ : ∀ r s', s.Rely i s' → Q r s') : Safe i what Q p s := by
  have hlater : ∀ {s' : Custody ι}, s.Rely i s' → Safe i what Q p s' := by
    induction p with
    | ret a | raise e => exact hQ _ _
    | act deed next ih =>
      intro s' hrely s₁ hinv hrely₁ c _
      rcases h.1 with rfl | rfl
      · exact ⟨trivial, ih c _ (h.2 c _) (hrely.trans hrely₁)⟩
      · have hsame := Custody.same_keeps
          { s₁.store with issued := c.fresh :: s₁.store.issued } hinv rfl rfl
        exact ⟨trivial, ih c _ (h.2 c _) ((hrely.trans hrely₁).trans (hsame.2 i))⟩
  exact hlater (.refl i s)

variable {deed : Deed}

theorem perform {answer : Chance → Store → Except Problem α}
    (h : ∀ s', s'.Inv → s.Rely i s' → ∀ c, s'.Ordinary deed →
      s'.InOrder i what deed ∧ Q (answer c s'.store) (s'.apply i what deed c)) :
    Safe i what Q (Process.perform deed answer) s :=
  Stage.Sound.perform fun s' hinv hrely c hallowed => h s' hinv hrely c hallowed.1

theorem transact {call : Call} {t : Transaction α}
    (h : ∀ s', s'.Inv → s.Rely i s' → ∀ c, s'.Ordinary (.call call) →
      s'.InOrder i what (.call call) ∧
        Q ((database.run t s'.store.tables).map Prod.fst) (s'.apply i what (.call call) c)) :
    Safe i what Q (Files.transact call t) s :=
  perform h

theorem free {answer : Chance → Store → Except Problem α}
    (h : ∀ s : Custody ι, s.InOrder i what deed) :
    Safe i what (fun _ _ => True) (Process.perform deed answer) s :=
  perform fun s' _ _ _ _ => ⟨h s', trivial⟩

theorem discard {p : Op α} (h : Safe i what (fun _ _ => True) p s) :
    Safe i what (fun _ _ => True) (discard p) s :=
  both h fun _ _ => trivial

theorem each {γ : Type} {f : γ → Op Unit} {items : List γ}
    (hturn : ∀ item s, Safe i what (fun _ _ => True) (f item) s) :
    Safe i what (fun _ _ => True) (Process.each f items) s := by
  have hloop : Safe i what (fun r _ => r = .ok () → True) (Process.each f items) s :=
    Stage.Sound.each (fun item _ s _ => (hturn item s).mono fun _ _ _ _ => trivial) trivial
  exact hloop.mono fun _ _ _ => trivial

end Safe

section

variable {ι : Type} {i : ι} {s s' : Custody ι}

structure Tracked (id : String) (row : UploadRow) (s : Custody ι) : Prop where
  known : id ∈ s.ids
  same : ∀ row', s.store.tables.uploads.get? id = some row' →
    row' = { row with state := row'.state }

/-- The object fits the contents, unless it is gone. -/
def Checked (key : ObjectKey) (content : Content) (s : Custody ι) : Prop :=
  ∀ blob, s.store.objects.get? key = some blob → Fits blob content

theorem Tracked.rely {id : String} {row : UploadRow} (h : Tracked id row s)
    (hrely : s.Rely i s') : Tracked id row s' := by
  obtain ⟨hid, hrow⟩ := hrely.uploads id h.known
  refine ⟨hid, fun row' hget => ?_⟩
  obtain ⟨old, hold, heq⟩ := hrow row' hget
  rw [heq, h.same old hold]

variable {key : ObjectKey}

theorem Checked.rely {content : Content} (h : Checked key content s) (hmine : s.Mine i key)
    (hrely : s.Rely i s') : Checked key content s' := by
  intro blob hget
  rcases (hrely.mine key hmine).2 with hsame | ⟨_, hgone⟩
  · exact h blob (hsame ▸ hget)
  · rw [hgone] at hget
    cases hget

theorem stored_rely (hvolume : key.ofVolume = true) (h : (s.store.objects.get? key).isSome = true)
    (hmine : s.Mine i key) (hrely : s.Rely i s') : (s'.store.objects.get? key).isSome = true := by
  rcases (hrely.mine key hmine).2 with hsame | ⟨hsession, _⟩
  · rw [hsame]
    exact h
  · rw [hvolume] at hsession
    cases hsession

def UploadRow.content (row : UploadRow) (verified : String × Bool) : Content :=
  ⟨row.size, verified.1, verified.2, row.contentType⟩

structure Ready (i : ι) (key : ObjectKey) (content : Content) (s : Custody ι) : Prop where
  mine : s.Mine i key
  checked : Checked key content s
  stored : key.ofVolume = true → (s.store.objects.get? key).isSome = true

theorem Ready.rely {content : Content} (h : Ready i key content s) (hrely : s.Rely i s') :
    Ready i key content s' :=
  ⟨hrely.mine_of h.mine, h.checked.rely h.mine hrely,
    fun hvolume => stored_rely hvolume (h.stored hvolume) h.mine hrely⟩

structure Carries (i : ι) (s s' : Custody ι) : Prop where
  mine : ∀ key, s.Mine i key → s'.Mine i key
  tracked : ∀ id row, Tracked id row s → Tracked id row s'

theorem Carries.of_rely (h : s.Rely i s') : Carries i s s' :=
  ⟨fun _ hmine => h.mine_of hmine, fun _ _ htracked => htracked.rely h⟩

theorem Carries.trans {s₁ s₂ s₃ : Custody ι} (h : Carries i s₁ s₂) (h' : Carries i s₂ s₃) :
    Carries i s₁ s₃ :=
  ⟨fun key hmine => h'.mine key (h.mine key hmine),
    fun id row htracked => h'.tracked id row (h.tracked id row htracked)⟩

end

section

variable {ι : Type} [DecidableEq ι] {i : ι} {what : Work} {s s' : Custody ι}

theorem idle_upload (id : String) : Idle (upload id) := Idle.perform (.inl rfl) _

theorem idle_clock : Idle clock := Idle.perform (.inl rfl) _

theorem idle_issue : Idle issue := Idle.perform (.inr rfl) _

variable {id contentType sha256 volume : String} {settings : Settings} {caller : Principal}
    {key newKey : ObjectKey} {size stamp : Nat} {path : Path} {ifMatch : Option Nat}
    {ifNoneMatch parts : Bool} {row : UploadRow} {why : Reason} {state : UploadState}
    {α : Type} {problem : Problem} {rule : WriteRule}
    {order : List ((String × Nat) × VersionRow) → List ((String × Nat) × VersionRow)}
    {t : Tables} {garbage : List ObjectKey}

theorem safe_sendBytes (hclient : what.IsClient) :
    Safe i what (fun _ _ => True) (sendBytes id) s := by
  apply Safe.both (Safe.idle (idle_upload id) fun _ _ _ => trivial)
  intro row s'
  split
  · exact Safe.free fun _ => .inl hclient
  · trivial

theorem safe_openUpload {target : Option (String × Path)} {multipart : Bool}
    (hvolume : target.isSome = true → key.ofVolume = true) :
    Safe i what (fun _ _ => True)
      (openUpload settings caller target key size contentType sha256 multipart) s := by
  apply Safe.both (Safe.idle (Idle.perform (.inr rfl) _) fun _ _ _ => trivial)
  intro uploadId s₁
  apply Safe.both (Safe.idle idle_issue fun _ _ _ => trivial)
  intro id s₂
  apply Safe.both (Safe.idle idle_clock fun _ _ _ => trivial)
  intro now s₃
  exact Safe.both (Safe.free fun _ => ⟨rfl, hvolume⟩) fun _ _ => trivial

theorem safe_initiateUpload : Safe i what (fun _ _ => True)
      (initiateUpload settings volume caller path size contentType sha256 ifMatch ifNoneMatch)
        s := by
  unfold initiateUpload
  split
  · trivial
  · apply Safe.both (Safe.idle (Idle.failFast _ _ _ _ _) fun _ _ _ => trivial)
    intro _ s₁
    apply Safe.both (Safe.idle (Idle.pendingAllowed _) fun _ _ _ => trivial)
    intro _ s₂
    apply Safe.both (Safe.idle idle_issue fun _ _ _ => trivial)
    exact fun name s₃ => safe_openUpload fun _ => rfl

theorem safe_createSession :
    Safe i what (fun _ _ => True) (createSession settings caller size contentType sha256) s := by
  unfold createSession
  split
  · trivial
  · apply Safe.both (Safe.idle (Idle.pendingAllowed _) fun _ _ _ => trivial)
    intro _ s₁
    apply Safe.both (Safe.idle idle_issue fun _ _ _ => trivial)
    intro session s₂
    apply Safe.both (Safe.idle idle_issue fun _ _ _ => trivial)
    exact fun name s₃ => safe_openUpload fun hnone => nomatch hnone

theorem safe_claim (htracked : Tracked id row s) : Safe i what
      (fun r s' => r = .ok () → Tracked id row s' ∧ s'.Mine i row.objectKey)
      (claim id row caller) s := by
  unfold claim
  split
  · exact fun heq => by cases heq
  · apply Safe.seq
    apply Safe.idle idle_clock
    intro r s₁ hrely₁
    cases r with
    | error e => exact fun heq => by cases heq
    | ok now =>
      dsimp only
      split
      · exact fun heq => by cases heq
      · apply Safe.seq
        apply Safe.transact
        intro s₂ hinv hrely₂ c _
        refine ⟨.inl ⟨rfl, rfl⟩, ?_⟩
        have htracked₂ := htracked.rely (hrely₁.trans hrely₂)
        simp only [Custody.run_moveUpload]
        cases hfound : (s₂.store.tables.uploads.get? id).filter fun row =>
            row.state = .pending with
        | none =>
          apply Safe.seq
          apply Safe.idle (idle_upload id)
          intro r s₃ _
          cases r with
          | error e | ok current => exact fun heq => by cases heq
        | some found =>
          intro _
          obtain ⟨hget, hstate⟩ := Option.filter_eq_some_iff.mp hfound
          have hkey : found.objectKey = row.objectKey := by
            rw [htracked₂.same found hget]
          have happlied : s₂.apply i what (.call (.moveUpload id .pending .completing)) c =
              (s₂.take i found.objectKey).withTables
                (Custody.moved s₂.store.tables id found .completing) := by
            simp only [Custody.apply, Custody.remember, Deed.apply, Call.apply,
              Custody.after_moveUpload, hfound]
            rfl
          rw [happlied]
          constructor
          · refine ⟨htracked₂.known, fun row' hget' => ?_⟩
            obtain ⟨old, hold, heq, _⟩ := Custody.moved_uploads hget hget'
            rw [heq, htracked₂.same old hold]
          · rw [← hkey]
            exact ⟨update_self _ _ _,
              (hinv.pending id found hget (of_decide_eq_true hstate)).2⟩

theorem safe_delete {keys : List ObjectKey} (hkeys : ∀ key ∈ keys, s.Spent key ∨ s.Mine i key) :
    Safe i what (fun _ s' => Carries i s s') (deleteObjects why keys) s := by
  apply Safe.perform
  intro s₁ _ hrely c _
  refine ⟨.inr fun key hmem => (hkeys key hmem).imp (hrely.spent key) hrely.mine_of, ?_⟩
  constructor
  · exact fun key h => ⟨(hrely.mine_of h).held, (hrely.mine_of h).uncommitted⟩
  · intro id row h
    have htracked := h.rely hrely
    simp only [Custody.apply, Custody.remember, Deed.apply]
    split
    · exact htracked
    · exact ⟨htracked.known, htracked.same⟩

theorem safe_suppress {P : Custody ι → Prop} {p : Op Unit}
    (h : Safe i what (fun _ s' => P s') p s) :
    Safe i what (fun _ s' => P s') (suppress p) s := by
  apply Safe.catching
  apply h.mono
  intro r s' h'
  cases r with
  | ok _ | error e => exact h'

theorem safe_checkedObject (hmine : s.Mine i row.objectKey) : Safe i what
      (fun r s' => Carries i s s' ∧
        ∀ verified, r = .ok verified → Ready i row.objectKey (row.content verified) s')
      (checkedObject id row) s := by
  have hrejected : ∀ {s₁ : Custody ι} {problem : Problem}, Carries i s s₁ → Safe i what
        (fun r s' => Carries i s s' ∧
          ∀ verified, r = .ok verified → Ready i row.objectKey (row.content verified) s')
        (do
          deleteObjects (.rejected id) [row.objectKey]
          fail problem) s₁ := by
    intro s₁ problem hcarries
    apply Safe.seq
    have hmine₁ : ∀ key ∈ [row.objectKey], s₁.Spent key ∨ s₁.Mine i key := by
      intro key hmem
      rw [mem_singleton.mp hmem]
      exact .inr (hcarries.mine _ hmine)
    apply (safe_delete hmine₁).mono
    intro r s₂ h₂
    cases r with
    | ok _ | error e => exact ⟨hcarries.trans h₂, fun _ heq => by cases heq⟩
  apply Safe.seq
  apply Safe.perform
  intro s₁ hinv hrely₁ c _
  refine ⟨trivial, ?_⟩
  have happlied : s₁.apply i what .look c = s₁ := rfl
  rw [happlied]
  have hcarries₁ := Carries.of_rely hrely₁
  cases c.fault with
  | true => exact ⟨hcarries₁, fun _ heq => by cases heq⟩
  | false =>
    simp only [Bool.false_eq_true, if_false]
    cases hget : s₁.store.objects.get? row.objectKey with
    | none => exact ⟨hcarries₁, fun _ heq => by cases heq⟩
    | some blob =>
      dsimp only
      split
      · exact hrejected hcarries₁
      · next hsize =>
          split
          · exact hrejected hcarries₁
          · next hsha256 =>
              refine ⟨hcarries₁, ?_⟩
              rintro verified heq
              cases heq
              refine ⟨hrely₁.mine_of hmine, ?_, fun _ => by rw [hget]; rfl⟩
              intro blob' hget'
              rw [hget] at hget'
              cases hget'
              refine ⟨not_not.mp hsize, fun hverified => ?_⟩
              have hkept : blob.checksum.isSome = true := hverified
              obtain ⟨checksum, hchecksum⟩ := Option.isSome_iff_exists.mp hkept
              simp only [UploadRow.content]
              split
              · next hdeclared =>
                  by_contra hne
                  exact hsha256 ⟨hdeclared, hkept, hne⟩
              · rw [hchecksum]
                rfl

theorem safe_verifiedObject (hmine : s.Mine i row.objectKey) : Safe i what
      (fun r s' => Carries i s s' ∧
        ∀ verified, r = .ok verified → Ready i row.objectKey (row.content verified) s')
      (verifiedObject id row parts) s := by
  have hrefl : Carries i s s := .of_rely (.refl i s)
  apply Safe.seq
  unfold assembled
  split
  · split
    · exact ⟨hrefl, fun _ heq => by cases heq⟩
    · apply Safe.perform
      intro s₁ _ hrely c _
      have hmine₁ := hrely.mine_of hmine
      refine ⟨.inr hmine₁, ?_⟩
      have hcarries : Carries i s (s₁.apply i what (.put row.objectKey) c) := by
        constructor
        · exact fun key h => ⟨hrely.held key h.held, (hrely.mine key h).1⟩
        · intro id' row' h
          have htracked := h.rely hrely
          simp only [Custody.apply, Custody.remember, Deed.apply]
          split
          · exact htracked
          · exact ⟨htracked.known, htracked.same⟩
      cases c.fault with
      | true => exact ⟨hcarries, fun _ heq => by cases heq⟩
      | false =>
        cases c.incomplete with
        | true => exact ⟨hcarries, fun _ heq => by cases heq⟩
        | false =>
          apply (safe_checkedObject (hcarries.mine _ hmine)).mono
          exact fun r s₂ h => ⟨hcarries.trans h.1, h.2⟩
  · exact safe_checkedObject hmine

theorem safe_commit {content : Content} {by_ : String} (hvolume : key.ofVolume = true)
    (hseen : Ready i key content s) :
    Safe i what (fun r s' => (∀ other, other ≠ key → s.Mine i other → s'.Mine i other) ∧
        ∀ problem, r = .error problem → Carries i s s')
      (transact (.commit volume path key content by_ ifMatch ifNoneMatch id stamp)
        (commitVersion volume path key content by_ ifMatch ifNoneMatch id stamp)) s := by
  apply Safe.transact
  intro s₁ _ hrely c _
  have hseen₁ := hseen.rely hrely
  obtain ⟨blob, hblob⟩ := Option.isSome_iff_exists.mp (hseen₁.stored hvolume)
  refine ⟨⟨hvolume, hseen₁.mine, blob, hblob, hseen₁.checked blob hblob⟩, ?_⟩
  simp only [Custody.apply, Custody.remember, Deed.apply, Call.apply, after]
  cases hrun : database.run (commitVersion volume path key content by_ ifMatch ifNoneMatch id stamp)
        s₁.store.tables with
  | error e =>
    have hcarries := Carries.of_rely hrely
    exact ⟨fun other _ => hcarries.mine other, fun _ _ => hcarries⟩
  | ok r =>
    refine ⟨fun other hne h => ?_, fun _ heq => by cases heq⟩
    have hmine := hrely.mine_of h
    exact ⟨hmine.held, (update_of_ne hne _ _).trans hmine.uncommitted⟩

theorem safe_commitUpload {verified : String × Bool} (hvolume : key.ofVolume = true)
    (hseen : Ready i key (row.content verified) s) :
    Safe i what (fun r s' => (∀ other, other ≠ key → s.Mine i other → s'.Mine i other) ∧
        ∀ problem, r = .error problem → Carries i s s')
      (commitUpload volume path key row verified caller ifMatch ifNoneMatch) s := by
  apply Safe.seq
  apply Safe.idle idle_issue
  intro r s₁ hrely₁
  cases r with
  | error e => exact ⟨fun _ _ h => hrely₁.mine_of h, fun _ _ => .of_rely hrely₁⟩
  | ok name =>
    apply Safe.seq
    apply Safe.idle idle_clock
    intro r s₂ hrely₂
    have hrely := hrely₁.trans hrely₂
    cases r with
    | error e => exact ⟨fun _ _ h => hrely.mine_of h, fun _ _ => .of_rely hrely⟩
    | ok now =>
      apply (safe_commit hvolume (hseen.rely hrely)).mono
      intro r s₃ h
      exact ⟨fun other hne hmine => h.1 other hne (hrely.mine_of hmine),
        fun problem heq => (Carries.of_rely hrely).trans (h.2 problem heq)⟩

theorem spent_of_finished {c : Chance} (hstate : state ≠ .pending) (hinv : s.Inv)
    (hmine : s.Mine i key) :
    (s.apply i what (.call (.moveUpload id .completing state)) c).Spent key := by
  have hreleased : (s.release i).holder key = none := by
    simp only [Custody.release, if_pos hmine.held]
  have hknown : key ∈ s.keys := by
    apply hinv.holder
    rw [hmine.held]
    exact Option.some_ne_none i
  have hunnamed : ¬Named s.store.tables key := hinv.not_named hmine
  have hpending : ∀ id row, s.store.tables.uploads.get? id = some row → row.objectKey = key →
      row.state ≠ .pending := by
    rintro id row hget rfl hpending
    have hfree := (hinv.pending id row hget hpending).1
    rw [hmine.held] at hfree
    cases hfree
  have hremember : s.remember i (.call (.moveUpload id .completing state)) = s.release i := by
    cases state <;> rfl
  simp only [Custody.apply, hremember, Deed.apply, Call.apply, Custody.after_moveUpload]
  cases hfound : (s.store.tables.uploads.get? id).filter fun row => row.state = .completing with
  | none => exact ⟨hknown, hunnamed, .inr ⟨hreleased, hpending⟩⟩
  | some found =>
    obtain ⟨hget, _⟩ := Option.filter_eq_some_iff.mp hfound
    refine ⟨hknown, hunnamed, .inr ⟨hreleased, fun id' row' hget' hkey hnow => ?_⟩⟩
    obtain ⟨old, hold, heq, ⟨_, hnew⟩ | rfl⟩ := Custody.moved_uploads hget hget'
    · exact hstate (hnew ▸ hnow)
    · exact hpending id' row' hold hkey hnow

theorem safe_over {p : Op α} (hstate : state ≠ .pending) (hmine : s.Mine i key)
    (h : ∀ s' : Custody ι, s'.Spent key → Safe i what (fun _ _ => True) p s') :
    Safe i what (fun _ _ => True)
      (do
        let _ ← move id .completing state
        p) s := by
  apply Safe.seq
  apply Safe.transact
  intro s₁ hinv hrely c _
  refine ⟨.inr ⟨rfl, fun heq => absurd heq hstate⟩, ?_⟩
  have hspent : (s₁.apply i what (.call (.moveUpload id .completing state)) c).Spent key :=
    spent_of_finished hstate hinv (hrely.mine_of hmine)
  have hrest := h _ hspent
  rw [Custody.run_moveUpload]
  cases (s₁.store.tables.uploads.get? id).filter fun row => row.state = .completing with
  | none | some found => exact hrest

theorem safe_discard (hspent : s.Spent key) :
    Safe i what (fun _ _ => True) (suppress (deleteObjects why [key])) s := by
  have hkeys : ∀ other ∈ [key], s.Spent other ∨ s.Mine i other := by
    intro other hmem
    rw [mem_singleton.mp hmem]
    exact .inl hspent
  exact (safe_suppress (safe_delete hkeys)).mono fun _ _ _ => trivial

theorem safe_giveUp (htracked : Tracked id row s) (hmine : s.Mine i row.objectKey) :
    Safe i what (fun _ _ => True) (giveUp id row problem) s := by
  unfold giveUp
  split
  · apply Safe.both
    · apply Safe.transact
      intro s₁ _ hrely c _
      refine ⟨.inr ⟨rfl, fun _ row' hget => ?_⟩, trivial⟩
      rw [(htracked.rely hrely).same row' hget]
      exact hrely.mine_of hmine
    · exact fun _ _ => trivial
  · exact safe_over (fun heq => nomatch heq) hmine fun _ hspent => safe_discard hspent

theorem safe_failing {Q : Except Problem α → Custody ι → Prop} (htracked : Tracked id row s)
    (hmine : s.Mine i row.objectKey) (hQ : ∀ e s', Q (.error e) s') :
    Safe i what Q
      (do
        giveUp id row problem
        fail problem) s := by
  apply Safe.seq
  apply (safe_giveUp htracked hmine).mono
  intro r s' _
  cases r with
  | ok _ => exact hQ _ s'
  | error e => exact hQ e s'

theorem safe_finished (hstate : state ≠ .pending) :
    Safe i what (fun _ _ => True) (move id .completing state) s := by
  apply Safe.transact
  exact fun s₁ _ _ c _ => ⟨.inr ⟨rfl, fun heq => absurd heq hstate⟩, trivial⟩

theorem safe_upload : Safe i what (fun r s' => ∀ row, r = .ok row → Tracked id row s' ∧
        (row.target.isSome = true → row.objectKey.ofVolume = true))
      (upload id) s := by
  apply Safe.perform
  intro s₁ hinv _ c _
  refine ⟨trivial, ?_⟩
  have happlied : s₁.apply i what .look c = s₁ := rfl
  rw [happlied]
  cases hget : s₁.store.tables.uploads.get? id with
  | none => exact fun _ heq => nomatch heq
  | some row =>
    rintro row' heq
    cases heq
    obtain ⟨hid, _, hvolume⟩ := hinv.uploads id row hget
    refine ⟨⟨hid, fun row' hget' => ?_⟩, hvolume⟩
    rw [hget] at hget'
    cases hget'
    rfl

theorem safe_completing (hvolume : row.objectKey.ofVolume = true) (htracked : Tracked id row s)
    (hmine : s.Mine i row.objectKey) :
    Safe i what (fun _ _ => True)
      (do
        let head ← ((do
            let verified ← verifiedObject id row parts
            commitUpload volume path row.objectKey row verified caller ifMatch ifNoneMatch) :
              Op FileRow).catching fun problem => do
            giveUp id row problem
            fail problem
        let _ ← move id .completing .completed
        pure head) s := by
  apply Safe.seq
  apply Safe.catching
  apply Safe.seq
  apply (safe_verifiedObject hmine).mono
  intro r s₁ h₁
  have hfailing : ∀ {Q : Except Problem FileRow → Custody ι → Prop} {s' : Custody ι}
      {problem : Problem}, Carries i s s' → (∀ e s', Q (.error e) s') → Safe i what Q
          (do
            giveUp id row problem
            fail problem) s' :=
    fun hcarries hQ =>
      safe_failing (hcarries.tracked id row htracked) (hcarries.mine _ hmine) hQ
  cases r with
  | error problem => exact hfailing h₁.1 fun _ _ => trivial
  | ok verified =>
    apply (safe_commitUpload hvolume (h₁.2 verified rfl)).mono
    intro r s₂ h₂
    cases r with
    | error problem => exact hfailing (h₁.1.trans (h₂.2 problem rfl)) fun _ _ => trivial
    | ok head => exact Safe.both (safe_finished (fun heq => nomatch heq)) fun _ _ => trivial

theorem safe_completeUpload : Safe i what (fun _ _ => True)
      (completeUpload rule volume caller id parts ifMatch ifNoneMatch) s := by
  apply Safe.seq
  apply safe_upload.mono
  intro r s₁ hrow
  cases r with
  | error e => trivial
  | ok row =>
    obtain ⟨htracked, hvolume⟩ := hrow row rfl
    dsimp only
    cases htarget : row.target with
    | none => trivial
    | some target =>
      obtain ⟨owner, path⟩ := target
      have hkey : row.objectKey.ofVolume = true := hvolume (by rw [htarget]; rfl)
      dsimp only
      split
      · trivial
      · apply Safe.seq
        apply Safe.idle (Idle.allow _)
        intro r s₂ hrely₂
        cases r with
        | error e => trivial
        | ok _ =>
          have hidle : Idle (if row.state = .completed then head volume path
              else (.ret none : Op (Option FileRow))) := by
            split
            · exact Idle.look _
            · trivial
          apply Safe.seq
          apply Safe.idle hidle
          intro r s₃ hrely₃
          cases r with
          | error e => trivial
          | ok found =>
            cases found with
            | some found => trivial
            | none =>
              apply Safe.seq
              apply (safe_claim (htracked.rely (hrely₂.trans hrely₃))).mono
              intro r s₄ hclaimed
              cases r with
              | error e => trivial
              | ok _ =>
                obtain ⟨htracked₄, hmine₄⟩ := hclaimed rfl
                exact safe_completing hkey htracked₄ hmine₄

theorem safe_copyObject {content : Content} (hseen : Ready i row.objectKey content s) : Safe i what
      (fun r s' => Carries i s s' ∧ ∀ u, r = .ok u → Ready i newKey content s' ∧
        newKey ≠ row.objectKey)
      (copyObject row.objectKey newKey) s := by
  apply Safe.perform
  intro s₁ hinv hrely c hfresh
  refine ⟨trivial, ?_⟩
  have hseen₁ := hseen.rely hrely
  have hne : ∀ {key}, s₁.Mine i key → key ≠ newKey := by
    rintro key hmine rfl
    apply hfresh
    apply hinv.holder
    rw [hmine.held]
    exact Option.some_ne_none i
  have huncommitted : s₁.committed newKey = none := by
    by_contra hcommitted
    exact hfresh (hinv.committed newKey hcommitted).1
  have hcarries : Carries i s (s₁.apply i what (.copy row.objectKey newKey) c) := by
    constructor
    · intro key h
      have hmine := hrely.mine_of h
      exact ⟨(update_of_ne (hne hmine) _ _).trans hmine.held, hmine.uncommitted⟩
    · intro id' row' h
      have htracked := h.rely hrely
      simp only [Custody.apply, Custody.remember, Deed.apply]
      split
      · exact ⟨htracked.known, htracked.same⟩
      · split
        · exact ⟨htracked.known, htracked.same⟩
        · exact ⟨htracked.known, htracked.same⟩
  cases hfault : c.fault with
  | true => exact ⟨hcarries, fun _ heq => by cases heq⟩
  | false =>
    cases hsource : s₁.store.objects.get? row.objectKey with
    | none =>
      refine ⟨hcarries, fun _ heq => ?_⟩
      simp at heq
    | some blob =>
      refine ⟨hcarries, fun _ _ => ⟨⟨⟨update_self _ _ _, huncommitted⟩, ?_, ?_⟩,
        (hne hseen₁.mine).symm⟩⟩
      · intro blob' hget
        simp only [Custody.apply, Custody.remember, Deed.apply, hfault, hsource,
          Bool.false_eq_true, if_false, Table.get?_set, if_true] at hget
        cases hget
        exact hseen₁.checked blob hsource
      · intro _
        simp [Custody.apply, Custody.remember, Deed.apply, hfault, hsource]

theorem safe_promoting (hvolume : newKey.ofVolume = true) (htracked : Tracked id row s)
    (hmine : s.Mine i row.objectKey) :
    Safe i what (fun _ _ => True)
      (do
        let verified ← ((do
            let verified ← verifiedObject id row parts
            failFast volume path row.size ifMatch ifNoneMatch
            copyObject row.objectKey newKey
            pure verified) : Op (String × Bool)).catching fun problem => do
            giveUp id row problem
            fail problem
        let head ← (commitUpload volume path newKey row verified caller ifMatch
          ifNoneMatch).catching fun problem => do
            suppress (deleteObjects .copied [newKey])
            giveUp id row problem
            fail problem
        let _ ← move id .completing .promoted
        suppress (deleteObjects (.discarded id) [row.objectKey])
        pure head) s := by
  have hfailing : ∀ {α : Type} {Q : Except Problem α → Custody ι → Prop} {s' : Custody ι}
      {problem : Problem}, Carries i s s' → (∀ e s', Q (.error e) s') → Safe i what Q
          (do
            giveUp id row problem
            fail problem) s' :=
    fun hcarries hQ =>
      safe_failing (hcarries.tracked id row htracked) (hcarries.mine _ hmine) hQ
  apply Safe.seq
  apply Safe.catching
  apply Safe.seq
  apply (safe_verifiedObject hmine).mono
  intro r s₁ h₁
  cases r with
  | error problem => exact hfailing h₁.1 fun _ _ => trivial
  | ok verified =>
    have hseen₁ := h₁.2 verified rfl
    apply Safe.seq
    apply Safe.idle (Idle.failFast _ _ _ _ _)
    intro r s₂ hrely₂
    have hcarries₂ := h₁.1.trans (.of_rely hrely₂)
    cases r with
    | error problem => exact hfailing hcarries₂ fun _ _ => trivial
    | ok _ =>
      apply Safe.seq
      apply (safe_copyObject (hseen₁.rely hrely₂)).mono
      intro r s₃ h₃
      have hcarries₃ := hcarries₂.trans h₃.1
      cases r with
      | error problem => exact hfailing hcarries₃ fun _ _ => trivial
      | ok _ =>
        obtain ⟨hseen₃, hne⟩ := h₃.2 _ rfl
        apply Safe.seq
        apply Safe.catching
        apply (safe_commitUpload hvolume hseen₃).mono
        intro r s₄ h₄
        cases r with
        | error problem =>
          have hcarries₄ := hcarries₃.trans (h₄.2 problem rfl)
          have hkeys : ∀ key ∈ [newKey], s₄.Spent key ∨ s₄.Mine i key := by
            intro key hmem
            rw [mem_singleton.mp hmem]
            exact .inr ((h₄.2 problem rfl).mine newKey hseen₃.mine)
          apply Safe.seq
          apply (safe_suppress (safe_delete hkeys)).mono
          intro r s₅ h₅
          cases r with
          | error e => trivial
          | ok _ => exact hfailing (hcarries₄.trans h₅) fun _ _ => trivial
        | ok head =>
          have hpromoted : UploadState.promoted ≠ .pending := fun heq => nomatch heq
          have hmine₄ := h₄.1 row.objectKey hne.symm (hcarries₃.mine _ hmine)
          exact safe_over hpromoted hmine₄ fun _ hspent =>
            Safe.both (safe_discard hspent) fun _ _ => trivial

theorem safe_promote : Safe i what (fun _ _ => True)
      (promote rule volume caller id path parts ifMatch ifNoneMatch) s := by
  apply Safe.seq
  apply safe_upload.mono
  intro r s₁ hrow
  cases r with
  | error e => trivial
  | ok row =>
    obtain ⟨htracked, _⟩ := hrow row rfl
    dsimp only
    split
    · trivial
    · apply Safe.seq
      apply Safe.idle (Idle.allow _)
      intro r s₂ hrely₂
      cases r with
      | error e => trivial
      | ok _ =>
        apply Safe.seq
        apply (safe_claim (htracked.rely hrely₂)).mono
        intro r s₃ hclaimed
        cases r with
        | error e => trivial
        | ok _ =>
          obtain ⟨htracked₃, hmine₃⟩ := hclaimed rfl
          apply Safe.seq
          apply Safe.idle idle_issue
          intro r s₄ hrely₄
          cases r with
          | error e => trivial
          | ok name =>
            have hvolume : (ObjectKey.object volume name).ofVolume = true := rfl
            exact safe_promoting hvolume (htracked₃.rely hrely₄) (hrely₄.mine_of hmine₃)

theorem safe_uploadBytes {data : List UInt8} :
    Safe i what (fun _ _ => True) (uploadBytes volume path data sha256 contentType) s := by
  apply Safe.both (Safe.idle idle_issue fun _ _ _ => trivial)
  intro name s₁
  let content : Content := ⟨data.length, sha256, true, contentType⟩
  have hwritten : Safe i what (fun r s' => r = .ok () → Ready i (.object volume name) content s')
      (putBytes (.object volume name) ⟨data, some sha256⟩) s₁ := by
    apply Safe.perform
    intro s₂ hinv _ c hfresh
    refine ⟨trivial, ?_⟩
    cases hfault : c.fault with
    | true => exact fun heq => nomatch heq
    | false =>
      intro _
      refine ⟨⟨update_self _ _ _, ?_⟩, ?_, ?_⟩
      · by_contra hcommitted
        exact hfresh (hinv.committed _ hcommitted).1
      · intro blob hget
        simp only [Custody.apply, Custody.remember, Deed.apply, hfault, Bool.false_eq_true,
          if_false, Table.get?_set, if_true] at hget
        cases hget
        exact ⟨rfl, fun _ => rfl⟩
      · intro _
        simp [Custody.apply, Custody.remember, Deed.apply, hfault]
  apply Safe.seq
  apply hwritten.mono
  intro r s₂ hseen
  cases r with
  | error e => trivial
  | ok _ =>
    have hseen₂ := hseen rfl
    apply Safe.seq
    apply Safe.idle idle_issue
    intro r s₃ hrely₃
    cases r with
    | error e => trivial
    | ok id =>
      apply Safe.seq
      apply Safe.idle idle_clock
      intro r s₄ hrely₄
      cases r with
      | error e => trivial
      | ok now =>
        have hseen₄ := (hseen₂.rely hrely₃).rely hrely₄
        apply Safe.both
        · apply Safe.catching
          apply (safe_commit rfl hseen₄).mono
          intro r s₅ h₅
          cases r with
          | ok head => trivial
          | error problem =>
            have hkeys : ∀ key ∈ [ObjectKey.object volume name], s₅.Spent key ∨ s₅.Mine i key := by
              intro key hmem
              rw [mem_singleton.mp hmem]
              exact .inr ((h₅.2 problem rfl).mine _ hseen₄.mine)
            apply Safe.both ((safe_delete hkeys).mono fun _ _ _ => trivial)
            exact fun _ _ => trivial
        · exact fun _ _ => trivial

theorem safe_sweepUploads : Safe i what (fun _ _ => True) (sweepUploads settings) s := by
  apply Safe.both (Safe.idle idle_clock fun _ _ _ => trivial)
  intro now s₁
  apply Safe.both (Safe.idle (Idle.look _) fun _ _ _ => trivial)
  intro expired s₂
  apply Safe.each
  intro entry s₃
  unfold sweepUpload
  split
  · exact Safe.both (Safe.free fun _ => .inl rfl) fun _ _ => Safe.free fun _ => trivial
  · exact Safe.free fun _ => trivial

theorem purge_reported {cutoff limit : Nat} (horder : ∀ rows, (order rows).Perm rows)
    {t' : Tables}
    (h : database.run (purgeVersions cutoff limit order stamp) t = .ok (garbage, t')) :
    ∀ key ∈ garbage, Mentioned t key := by
  obtain ⟨_, a, t₁, n, t₂, n', rfl, -, -, -, rfl⟩ := purgeVersions_run h
  intro key hkey
  obtain ⟨⟨place, row⟩, hrow, hkey'⟩ := mem_map.mp (mem_dedup.mp (mem_of_mem_filter hkey))
  have hdue : (place, row) ∈ dueVersions t cutoff := (horder _).subset (mem_of_mem_take hrow)
  exact ⟨place, row, Table.mem_rows_iff.mp (mem_of_mem_filter hdue), hkey'⟩

omit [DecidableEq ι] in
theorem spent_of_unnamed (hinv : s.Inv) (hmentioned : Mentioned s.store.tables key)
    (hunnamed : ¬Named t key) : (s.withTables t).Spent key := by
  obtain ⟨place, row, hget, rfl⟩ := hmentioned
  have hcommitted := hinv.coherent.seen place row hget
  exact ⟨(hinv.committed _ hcommitted).1, hunnamed, .inl hcommitted⟩

theorem safe_deleteGarbage (hgarbage : ∀ key ∈ garbage, s.Spent key) :
    Safe i what (fun _ _ => True) (deleteGarbage garbage) s := by
  unfold deleteGarbage
  split
  · trivial
  · exact (safe_delete fun key hmem => .inl (hgarbage key hmem)).mono fun _ _ _ => trivial

theorem safe_sweepVersions (horder : ∀ rows, (order rows).Perm rows) :
    Safe i what (fun _ _ => True) (sweepVersions settings order) s := by
  unfold sweepVersions
  split
  · trivial
  · apply Safe.both (Safe.idle idle_clock fun _ _ _ => trivial)
    intro now s₁
    apply Safe.seq
    apply Safe.transact
    intro s₂ hinv _ c _
    refine ⟨horder, ?_⟩
    cases hrun : database.run (purgeVersions (now - settings.retention) settings.purgeLimit order
        now) s₂.store.tables with
    | error e => trivial
    | ok r =>
      have happlied : s₂.apply i what (.call (.purge (now - settings.retention)
          settings.purgeLimit order now)) c = s₂.withTables r.2 := by
        simp only [Custody.apply, Custody.remember, Deed.apply, Call.apply, after, hrun]
        rfl
      rw [happlied]
      apply safe_deleteGarbage
      intro key hkey
      exact spent_of_unnamed hinv (purge_reported horder hrun key hkey)
        ((purgeVersions_ok horder hrun).reported key hkey)

theorem safe_sweepVolumes : Safe i what (fun _ _ => True) sweepVolumes s := by
  apply Safe.both (Safe.idle (Idle.look _) fun _ _ _ => trivial)
  intro volumes s₁
  apply Safe.each
  exact fun volume s₂ =>
    Safe.both (Safe.free fun _ => trivial) fun _ _ => Safe.free fun _ => trivial

theorem safe_forgetUploads : ∀ {chosen : List (UploadRow → Bool)} {s : Custody ι},
    Safe i what (fun _ _ => True) (forgetUploads chosen) s
  | [], _ => trivial
  | _ :: _, _ =>
    Safe.both (Safe.free fun _ => trivial) fun _ _ =>
      Safe.both safe_forgetUploads fun _ _ => trivial

theorem safe_eraseFiles {start : Path} {chosen : List (UploadRow → Bool)} :
    Safe i what (fun _ _ => True) (eraseFiles volume start chosen) s := by
  apply Safe.seq
  apply Safe.transact
  intro s₁ hinv _ c _
  refine ⟨trivial, ?_⟩
  cases hrun : database.run (erasePrefix volume start) s₁.store.tables with
  | error e => trivial
  | ok r =>
    have happlied : s₁.apply i what (.call (.erase volume start)) c = s₁.withTables r.2 := by
      simp only [Custody.apply, Custody.remember, Deed.apply, Call.apply, after, hrun]
      rfl
    rw [happlied]
    apply Safe.both
    · apply safe_deleteGarbage
      intro key hkey
      obtain ⟨⟨place, row, hget, hmentions, _⟩, hnot⟩ :=
        ((erasePrefix_ok hrun).reported key).mp hkey
      apply spent_of_unnamed hinv ⟨place, row, hget, hmentions⟩
      rintro ⟨place', row', hget', hkey', _⟩
      exact hnot ⟨place', row', hget', hkey'⟩
    · intro _ s₂
      apply Safe.both safe_forgetUploads
      intro pending s₃
      exact Safe.each fun entry s₄ => Safe.free fun _ => .inl rfl

theorem safe_work (i : ι) (what : Work) (s : Custody ι) :
    Safe i what (fun _ _ => True) what.process s := by
  cases what with
  | operation op =>
    cases op with
    | initiate settings volume caller path size contentType sha256 ifMatch ifNoneMatch =>
      exact Safe.discard safe_initiateUpload
    | createSession settings caller size contentType sha256 =>
      exact Safe.discard safe_createSession
    | put id => exact safe_sendBytes trivial
    | complete rule volume caller id parts ifMatch ifNoneMatch =>
      exact Safe.discard safe_completeUpload
    | promote rule volume caller id path parts ifMatch ifNoneMatch =>
      exact Safe.discard safe_promote
    | softDelete volume path ifMatch stamp | deletePrefix volume start stamp =>
      exact Safe.discard (Safe.free fun _ => trivial)
    | copyPrefix volume source destination by_ overwrite order newId stamp
    | restore volume path version by_ ifMatch id stamp =>
      exact Safe.discard (Safe.free fun _ => trivial)
    | expire settings => exact safe_sweepUploads
    | purge settings order horder => exact safe_sweepVersions horder
    | erase volume start chosen => exact safe_eraseFiles
  | send key =>
    have hdeed : ∀ s : Custody ι, s.InOrder i (.send key) (.put key) := fun _ => .inl trivial
    simp only [Work.process]
    exact Safe.free hdeed
  | write volume path data sha256 contentType => exact safe_uploadBytes
  | sweep settings order horder =>
    apply Safe.both safe_sweepUploads
    intro _ s₁
    apply Safe.both (safe_sweepVersions horder)
    exact fun _ s₂ => safe_sweepVolumes
  | unregister volume =>
    have hdeed : ∀ s : Custody ι, s.InOrder i (.unregister volume) (.unregister volume) :=
      fun _ => trivial
    simp only [Work.process]
    exact Safe.free hdeed

end

def Custody.fresh (ι : Type) (assets : List String) : Custody ι :=
  ⟨Store.fresh assets, fun _ => none, fun _ => none, [], []⟩

/-- The files service in use. Any number of operations are at work, and each deed meets
a condition. -/
abbrev Uses (ι : Type) := World ι Chance Store (Custody ι) Deed Problem Unit Work

def Reaches {ι : Type} [DecidableEq ι] (met : Custody ι → Work → Deed → Prop)
    (assets : List String) : Uses ι → Prop :=
  Steps (stage ι).step (Stage.CanStep (discipline ι met) Work.process)
    ⟨Custody.fresh ι assets, fun _ => none⟩

theorem inv_fresh (ι : Type) (assets : List String) : (Custody.fresh ι assets).Inv := by
  constructor
  · constructor
    · exact fun _ _ _ hget => nomatch hget
    · exact fun _ _ _ _ hget => nomatch hget
    · exact fun _ _ hget => nomatch hget
    · exact fun _ _ hget => nomatch hget
  · exact fun _ hcommitted => absurd rfl hcommitted
  · exact fun _ hholder => absurd rfl hholder
  · exact fun _ _ hget => nomatch hget
  · exact fun _ _ _ _ hget => nomatch hget
  · exact fun _ _ hget => nomatch hget

/-- In a careful run every version that is not purged names an object that is there
with the bytes of its commit, and these are what the version says of them; and every
live file has such a version for its current contents. -/
theorem contents_kept {ι : Type} [DecidableEq ι] {assets : List String} {w : Uses ι}
    (h : Reaches Custody.Careful assets w) :
    (∀ place version, w.state.store.tables.versions.get? place = some version →
      version.purgedAt = none → w.state.Good version.objectKey version.content) ∧
      ∀ volume path row, w.state.store.tables.files.get? (volume, path) = some row →
        row.live = true → ∃ version,
          w.state.store.tables.versions.get? (row.id, row.version) = some version ∧
            version.purgedAt = none ∧ w.state.Good version.objectKey row.content := by
  have hfine : (stage ι).Fine (discipline ι Custody.Careful) w := by
    apply Stage.fine_run (stage_keeps ι) (fun i what s _ => safe_work i what s) _ h
    exact ⟨inv_fresh ι assets, fun _ _ _ hi => nomatch hi⟩
  have hcoherent : Coherent (fun key => w.state.committed key ≠ none) w.state.Good
      w.state.store.tables := hfine.1.coherent
  refine ⟨hcoherent.good, ?_⟩
  intro volume path row hget hlive
  obtain ⟨version, hversion, _, hcontent, hpurged⟩ := hcoherent.current volume path row hget
  refine ⟨version, hversion, hpurged hlive, ?_⟩
  rw [← hcontent]
  exact hcoherent.good _ version hversion (hpurged hlive)

namespace Rehearsal

/-- The made-up names of a deed are new. No folders are copied here. -/
def ordinary (s : Custody Unit) : Deed → Bool
  | .write key _ => key ∉ s.keys
  | .copy _ destination => destination ∉ s.keys
  | .call (.commit _ _ _ _ _ _ _ id _) => s.store.tables.files.rows.all fun row => row.2.id ≠ id
  | .call (.copyPrefix _ _ _ _ _ _ _ _) => false
  | .call (.createUpload id row) => id ∉ s.ids && row.objectKey ∉ s.keys
  | _ => true

def spares (s : Custody Unit) (key : ObjectKey) : Bool :=
  !s.store.tables.names key && (s.holder key).isNone

def careful (s : Custody Unit) (_ : Work) : Deed → Bool
  | .put key => spares s key
  | .delete why keys => !why.ofRow || keys.all (spares s)
  | .deleteVolume _ => false
  | .call (.restore _ _ _ _ _ _ _) => false
  | _ => true

/-- The state that some deeds of a process lead to. -/
def act (met : Custody Unit → Work → Deed → Bool) :
    List Chance → Work → Op Unit → Custody Unit → Option (Custody Unit)
  | c :: chances, what, .act deed next, s =>
    if ordinary s deed && met s what deed then
      act met chances what (next c s.store) (s.apply () what deed c)
    else none
  | _, _, _, s => some s

def stage (met : Custody Unit → Work → Deed → Bool) :
    List Cue → Custody Unit → Option (Custody Unit)
  | [], s => some s
  | cue :: rest, s =>
    (act met cue.chances (.operation cue.op) cue.op.process (s.release ())).bind
      fun s' => stage met rest (s'.release ())

/-- A file is uploaded, and its completion stops after `deeds` deeds. Then the upload is
swept. -/
def swept (deeds : Nat) : List Cue :=
  [⟨.initiate settings "v" owner ['a'] 1 "" "" none false, 'a', 10, 9⟩,
    ⟨.put "aaaaaaa", 'b', 10, 2⟩,
    ⟨.complete (fun _ _ => .ok ()) "v" owner "aaaaaaa" true none false, 'c', 10, deeds⟩,
    ⟨.expire settings, 'd', 80, 6⟩]

end Rehearsal

variable {s : Custody Unit} {deed : Deed}

theorem ordinary_of (h : Rehearsal.ordinary s deed = true) : s.Ordinary deed := by
  cases deed with
  | write key blob | copy source destination => simpa [Rehearsal.ordinary, Custody.Ordinary] using h
  | call call =>
    cases call with
    | commit volume path key content by_ ifMatch ifNoneMatch id stamp =>
      intro place row hget
      exact of_decide_eq_true (all_eq_true.mp h (place, row) (Table.mem_rows_iff.mpr hget))
    | copyPrefix volume source destination by_ overwrite order newId stamp => cases h
    | createUpload id row =>
      obtain ⟨hid, hkey⟩ := (Bool.and_eq_true _ _).mp h
      exact ⟨of_decide_eq_true hid, of_decide_eq_true hkey⟩
    | _ => trivial
  | _ => trivial

theorem spares_of {key : ObjectKey} (h : Rehearsal.spares s key = true) : s.Spares key := by
  unfold Rehearsal.spares at h
  simp only [Bool.and_eq_true, Bool.not_eq_true', Option.isNone_iff_eq_none] at h
  refine ⟨fun hnamed => ?_, h.2⟩
  rw [names_iff.mpr hnamed] at h
  cases h.1

theorem careful_of {what : Work} (h : Rehearsal.careful s what deed = true) :
    s.Careful what deed := by
  cases deed with
  | put key => exact fun _ => spares_of h
  | delete why keys =>
    intro hrow key hmem _
    simp only [Rehearsal.careful, hrow, Bool.not_true, Bool.false_or, all_eq_true] at h
    exact spares_of (h key hmem)
  | deleteVolume volume => cases h
  | call call =>
    cases call with
    | restore volume path version by_ ifMatch id stamp => cases h
    | _ => trivial
  | _ => trivial

section

variable {met : Custody Unit → Work → Deed → Bool} {met' : Custody Unit → Work → Deed → Prop}

theorem steps_of_act (hmet : ∀ s what deed, met s what deed = true → met' s what deed)
    {what : Work} : ∀ {chances : List Chance} {p : Op Unit} {s s' : Custody Unit},
      Rehearsal.act met chances what p s = some s' →
        ∃ p', Steps (stage Unit).step (Stage.CanStep (discipline Unit met') Work.process)
          (⟨s, fun _ => some (what, p)⟩ : Uses Unit) ⟨s', fun _ => some (what, p')⟩
  | [], p, s, s', h => by
      cases h
      exact ⟨p, .refl _⟩
  | c :: chances, .ret a, s, s', h => by
      cases h
      exact ⟨.ret a, .refl _⟩
  | c :: chances, .raise e, s, s', h => by
      cases h
      exact ⟨.raise e, .refl _⟩
  | c :: chances, .act deed next, s, s', h => by
      unfold Rehearsal.act at h
      split at h
      · next hcan =>
          obtain ⟨hordinary, hallowed⟩ := (Bool.and_eq_true _ _).mp hcan
          obtain ⟨p', hsteps⟩ := steps_of_act hmet h
          have hfirst : Steps (stage Unit).step (Stage.CanStep (discipline Unit met') Work.process)
              (⟨s, fun _ => some (what, .act deed next)⟩ : Uses Unit)
              ⟨s.apply () what deed c, fun _ => some (what, next c s.store)⟩ :=
            Steps.single (Event.act () c) ⟨what, deed, next, rfl, ordinary_of hordinary,
              hmet s what deed hallowed⟩
          exact ⟨p', hfirst.trans hsteps⟩
      · cases h

theorem steps_of_stage (hmet : ∀ s what deed, met s what deed = true → met' s what deed) :
    ∀ {script : List Cue} {s s' : Custody Unit}, Rehearsal.stage met script s = some s' →
      Steps (stage Unit).step (Stage.CanStep (discipline Unit met') Work.process)
        (⟨s, fun _ => none⟩ : Uses Unit) ⟨s', fun _ => none⟩
  | [], s, s', h => by
      cases h
      exact .refl _
  | cue :: rest, s, s', h => by
      obtain ⟨s₁, hact, hrest⟩ := Option.bind_eq_some_iff.mp h
      obtain ⟨p', hsteps⟩ := steps_of_act hmet hact
      have hstart : Steps (stage Unit).step (Stage.CanStep (discipline Unit met') Work.process)
          (⟨s, fun _ => none⟩ : Uses Unit)
          ⟨s.release (), fun _ => some (.operation cue.op, cue.op.process)⟩ :=
        Steps.single (Event.start () (Work.operation cue.op) cue.op.process) (And.intro rfl rfl)
      have hstop := (hstart.trans hsteps).next (Event.stop ()) trivial
      exact hstop.trans (steps_of_stage hmet hrest)

end

/-- A sweep after a completion that was finished. -/
theorem contents_kept_swept : ∃ w : Uses Unit, Reaches Custody.Careful ["v"] w ∧
      ∃ row version, w.state.store.tables.files.get? ("v", ['a']) = some row ∧
        w.state.store.tables.versions.get? (row.id, row.version) = some version ∧
          w.state.Good version.objectKey row.content := by
  have hplay : ∃ s row, Rehearsal.stage Rehearsal.careful (Rehearsal.swept 9)
        (Custody.fresh Unit ["v"]) = some s ∧
      s.store.tables.files.get? ("v", ['a']) = some row ∧ row.live = true :=
    ⟨_, _, rfl, rfl, rfl⟩
  obtain ⟨s, row, hplay, hget, hlive⟩ := hplay
  have hreaches : Reaches Custody.Careful ["v"] (⟨s, fun _ => none⟩ : Uses Unit) :=
    steps_of_stage (fun _ _ _ => careful_of) hplay
  obtain ⟨version, hversion, _, hgood⟩ := (contents_kept hreaches).2 "v" ['a'] row hget hlive
  exact ⟨_, hreaches, row, version, hget, hversion, hgood⟩

/-- A completion stops between its commit and its last step, and the sweep takes its
upload for an unfinished one. -/
theorem swept_after_commit : ∃ w : Uses Unit, Reaches (fun _ _ _ => True) ["v"] w ∧
      ∃ row version, w.state.store.tables.files.get? ("v", ['a']) = some row ∧ row.live = true ∧
          w.state.store.tables.versions.get? (row.id, row.version) = some version ∧
            version.purgedAt = none ∧ w.state.store.objects.get? version.objectKey = none := by
  have hplay : ∃ s row version, Rehearsal.stage (fun _ _ _ => true) (Rehearsal.swept 7)
        (Custody.fresh Unit ["v"]) = some s ∧
      s.store.tables.files.get? ("v", ['a']) = some row ∧ row.live = true ∧
        s.store.tables.versions.get? (row.id, row.version) = some version ∧
          version.purgedAt = none ∧ s.store.objects.get? version.objectKey = none :=
    ⟨_, _, _, rfl, rfl, rfl, rfl, rfl, by decide +kernel⟩
  obtain ⟨s, row, version, hplay, hrest⟩ := hplay
  exact ⟨⟨s, fun _ => none⟩, steps_of_stage (fun _ _ _ _ => trivial) hplay, row, version, hrest⟩

end Substrate.Files
