import Substrate.Journal.Effect

/-!
What an attempt leaves alone. Code that runs on a path stack can only allocate paths that
are ahead of it, so it appends records for those paths, changes what is known about their
effect ids, and touches nothing else.
-/

namespace Substrate

open List

/-- The paths that code running on this stack can still allocate: a later index
of its scope, or something below one. A call's body runs below the index after
the call's own, so a deeper path is ahead only past the top of the stack. -/
def Ahead : PathStack → List Nat → Prop
  | [], _ => False
  | top :: outer, path =>
    ∃ index rest, path = outer.reverse ++ index :: rest ∧ top ≤ index ∧ (rest = [] ∨ top < index)

variable {stack stack' : PathStack} {path : List Nat}

theorem ahead_own (hne : stack ≠ []) : Ahead stack stack.reverse := by
  cases stack with
  | nil => exact absurd rfl hne
  | cons top outer => exact ⟨top, [], by simp, Nat.le_refl _, .inl rfl⟩

theorem Ahead.of_later {top later : Nat} {outer : PathStack} (hle : top ≤ later)
    (h : Ahead (later :: outer) path) : Ahead (top :: outer) path := by
  obtain ⟨index, rest, hpath, hindex, hrest⟩ := h
  refine ⟨index, rest, hpath, by omega, ?_⟩
  rcases hrest with hnil | hlt
  · exact .inl hnil
  · exact .inr (by omega)

theorem Ahead.of_next (h : Ahead (nextStack stack) path) : Ahead stack path := by
  cases stack with
  | nil => exact h
  | cons top outer => exact h.of_later (Nat.le_succ top)

theorem Ahead.of_body (hne : stack ≠ []) (h : Ahead (bodyStack stack) path) : Ahead stack path := by
  cases stack with
  | nil => exact absurd rfl hne
  | cons top outer =>
    obtain ⟨index, rest, rfl, _⟩ := h
    refine ⟨top + 1, index :: rest, ?_, by omega, .inr (by omega)⟩
    simp [nextStack, advance]

theorem own_not_next (stack : PathStack) : ¬ Ahead (nextStack stack) stack.reverse := by
  cases stack with
  | nil => exact id
  | cons top outer =>
    rintro ⟨index, rest, hpath, hindex, _⟩
    rw [reverse_cons] at hpath
    have htail := append_cancel_left hpath
    injection htail with hhead
    omega

theorem own_not_body (stack : PathStack) : ¬ Ahead (bodyStack stack) stack.reverse := by
  rintro ⟨index, rest, hpath, _⟩
  have hlength := congrArg List.length hpath
  cases stack with
  | nil => simp at hlength
  | cons top outer => simp [nextStack, advance] at hlength

theorem Ahead.body_not_next (h : Ahead (bodyStack stack) path) :
    ¬ Ahead (nextStack stack) path := by
  cases stack with
  | nil => exact id
  | cons top outer =>
    obtain ⟨index, rest, rfl, _⟩ := h
    rintro ⟨index', rest', hpath, _, hrest'⟩
    simp only [nextStack, advance, reverse_cons, append_assoc] at hpath
    have htail := append_cancel_left hpath
    injection htail with hhead hrest
    rcases hrest' with rfl | hlt
    · cases hrest
    · omega

def CallIn (c : Config) (paths : List Nat → Prop) (call : CallId) : Prop :=
  ∃ path, paths path ∧ call.id = c.makeId (pathText path) call.kind ∧ call.path = pathText path

/-- A record about this call, of which it holds the kind and the digest if it
holds any. -/
def Record.About (r : Record) (call : CallId) : Prop :=
  r.id = call.id ∧ ∀ other, r.call? = some other → other = call

/-- A stack at the same depth, in the same scope, at the same call or a later
one. -/
def AtOrPast (stack stack' : PathStack) : Prop :=
  ∃ top later outer, stack = top :: outer ∧ stack' = later :: outer ∧ top ≤ later

/-- What a piece of code that stays on these paths may have done. -/
structure Frame (c : Config) (paths : List Nat → Prop) (s s' : Session) : Prop where
  trace : ∃ more, s'.trace = s.trace ++ more ∧
    ∀ event ∈ more, ∀ call, event.call? = some call → CallIn c paths call
  log : ∃ more, s'.log = s.log ++ more ∧ ∀ r ∈ more, ∃ call, CallIn c paths call ∧ r.About call
  known : ∀ id, (∀ call, CallIn c paths call → id ≠ call.id) →
    s'.memory.known id = s.memory.known id
  byPath : s'.memory.byPath = s.memory.byPath

variable {c : Config} {paths : List Nat → Prop}

theorem CallIn.mono {paths' : List Nat → Prop} {call : CallId} (h : CallIn c paths call)
    (hsub : ∀ path, paths path → paths' path) : CallIn c paths' call := by
  obtain ⟨path, hpath, hrest⟩ := h
  exact ⟨path, hsub path hpath, hrest⟩

theorem callAt_in {kind : String} {args : Json} (hpath : paths stack.reverse) :
    CallIn c paths (c.callAt stack kind args) :=
  ⟨_, hpath, rfl, rfl⟩

theorem about_intent (call : CallId) (idempotent : Bool) :
    (Record.intent call idempotent).About call :=
  ⟨rfl, fun _ h => (Option.some.inj h).symm⟩

theorem about_ok (call : CallId) (stored : Stored) (once : Bool) :
    (Record.ok call stored once).About call :=
  ⟨rfl, fun _ h => (Option.some.inj h).symm⟩

theorem about_failed (call : CallId) (error : ErrorInfo) :
    (Record.failed call.id error).About call := ⟨rfl, nofun⟩

theorem about_aborted (call : CallId) (reason : String) :
    (Record.aborted call.id reason).About call := ⟨rfl, nofun⟩

theorem AtOrPast.refl (hne : stack ≠ []) : AtOrPast stack stack := by
  cases stack with
  | nil => exact absurd rfl hne
  | cons top outer => exact ⟨top, top, outer, rfl, rfl, Nat.le_refl _⟩

theorem AtOrPast.next (hne : stack ≠ []) : AtOrPast stack (nextStack stack) := by
  cases stack with
  | nil => exact absurd rfl hne
  | cons top outer => exact ⟨top, top + 1, outer, rfl, rfl, Nat.le_succ top⟩

theorem AtOrPast.trans {stack₁ stack₂ stack₃ : PathStack} (h₁ : AtOrPast stack₁ stack₂)
    (h₂ : AtOrPast stack₂ stack₃) : AtOrPast stack₁ stack₃ := by
  obtain ⟨top, middle, outer, rfl, rfl, hle₁⟩ := h₁
  obtain ⟨_, later, _, heq, rfl, hle₂⟩ := h₂
  injection heq with hmiddle houter
  subst hmiddle houter
  exact ⟨top, later, outer, rfl, rfl, by omega⟩

theorem AtOrPast.ahead (h : AtOrPast stack stack') (hahead : Ahead stack' path) :
    Ahead stack path := by
  obtain ⟨top, later, outer, rfl, rfl, hle⟩ := h
  exact hahead.of_later hle

theorem AtOrPast.ne_nil (h : AtOrPast stack stack') : stack' ≠ [] := by
  obtain ⟨top, later, outer, _, rfl, _⟩ := h
  simp

namespace Frame

theorem refl (s : Session) : Frame c paths s s :=
  ⟨⟨[], by simp⟩, ⟨[], by simp⟩, fun _ _ => rfl, rfl⟩

theorem trans {s₁ s₂ s₃ : Session} (h₁ : Frame c paths s₁ s₂) (h₂ : Frame c paths s₂ s₃) :
    Frame c paths s₁ s₃ := by
  obtain ⟨more₁, htrace₁, hmore₁⟩ := h₁.trace
  obtain ⟨more₂, htrace₂, hmore₂⟩ := h₂.trace
  obtain ⟨new₁, hlog₁, hnew₁⟩ := h₁.log
  obtain ⟨new₂, hlog₂, hnew₂⟩ := h₂.log
  refine ⟨⟨more₁ ++ more₂, by rw [htrace₂, htrace₁, append_assoc], ?_⟩,
    ⟨new₁ ++ new₂, by rw [hlog₂, hlog₁, append_assoc], ?_⟩, ?_, h₂.byPath.trans h₁.byPath⟩
  · intro event hevent
    rcases mem_append.mp hevent with hevent | hevent
    · exact hmore₁ event hevent
    · exact hmore₂ event hevent
  · intro r hr
    rcases mem_append.mp hr with hr | hr
    · exact hnew₁ r hr
    · exact hnew₂ r hr
  · exact fun id hid => (h₂.known id hid).trans (h₁.known id hid)

variable {s s' : Session} {call : CallId}

theorem mono {paths' : List Nat → Prop} (hsub : ∀ path, paths path → paths' path)
    (h : Frame c paths s s') : Frame c paths' s s' := by
  obtain ⟨more, htrace, hmore⟩ := h.trace
  obtain ⟨new, hlog, hnew⟩ := h.log
  refine ⟨⟨more, htrace, ?_⟩, ⟨new, hlog, fun r hr => ?_⟩, fun id hid => h.known id ?_, h.byPath⟩
  · exact fun event hevent call hcall => (hmore event hevent call hcall).mono hsub
  · obtain ⟨call, hcall, habout⟩ := hnew r hr
    exact ⟨call, hcall.mono hsub, habout⟩
  · exact fun call hcall => hid call (hcall.mono hsub)

theorem of_eq (htrace : s'.trace = s.trace) (hlog : s'.log = s.log)
    (hmemory : s'.memory = s.memory) : Frame c paths s s' :=
  ⟨⟨[], by simp [htrace]⟩, ⟨[], by simp [hlog]⟩, fun _ _ => by rw [hmemory], by rw [hmemory]⟩

theorem note (s : Session) {event : Event}
    (hevent : ∀ call, event.call? = some call → CallIn c paths call) :
    Frame c paths s (s.note event) :=
  ⟨⟨[event], rfl, by simpa using hevent⟩, ⟨[], by simp [Session.note]⟩, fun _ _ => rfl, rfl⟩

theorem setKnown (s : Session) (known : Known) (hcall : CallIn c paths call) :
    Frame c paths s (s.setKnown call.id known) := by
  refine ⟨⟨[], by simp [Session.setKnown]⟩, ⟨[], by simp [Session.setKnown]⟩, ?_, rfl⟩
  exact fun other hother => Memory.setKnown_known_of_ne _ _ (hother call hcall)

theorem append (s : Session) {r : Record} (hcall : CallIn c paths call) (habout : r.About call) :
    Frame c paths s (s.append r) := by
  refine ⟨⟨[.wrote r], rfl, by simp [Event.call?]⟩, ?_, fun _ _ => rfl, rfl⟩
  unfold Session.append
  simp only
  split
  · exact ⟨[], by simp⟩
  · exact ⟨[r], rfl, by simpa using ⟨call, hcall, habout⟩⟩

end Frame

namespace Session

theorem commit_keeps {P : Session → Prop} {r : Record}
    (htape : ∀ s tape, P s → P { s with tape := tape }) (happend : ∀ s, P s → P (s.append r))
    {s : Session} (h : P s) : P (s.commit r).2 := by
  unfold commit await
  cases htape' : s.tape with
  | nil => exact h
  | cons tick rest =>
    have hrest := htape s rest h
    have hwritten : ∀ applied : Bool,
        P (if applied then { s with tape := rest }.append r else { s with tape := rest }) := by
      intro applied
      cases applied with
      | true => exact happend _ hrest
      | false => exact hrest
    simp only
    cases tick.commit with
    | acknowledged => exact hwritten true
    | failed applied info | signalled applied signal | died applied => exact hwritten applied

theorem record_keeps {P : Session → Prop} {r : Record}
    (htape : ∀ s tape, P s → P { s with tape := tape }) (happend : ∀ s, P s → P (s.append r))
    (retries : Nat) {s : Session} (h : P s) : P (record retries s r).2 := by
  induction retries generalizing s with
  | zero => exact commit_keeps htape happend h
  | succ retries ih =>
    have hfirst : P (s.commit r).2 := commit_keeps htape happend h
    unfold record
    rcases hcommit : s.commit r with ⟨exit, s'⟩
    rw [hcommit] at hfirst
    cases exit with
    | raised failure => exact ih hfirst
    | value result | signalled signal | cut => exact hfirst

theorem commit_value {s s' : Session} {r : Record} {result : JsonObject}
    (h : s.commit r = (.value result, s')) : ∃ tape, s' = { s with tape := tape }.append r := by
  unfold commit await at h
  cases htape : s.tape with
  | nil => simp [htape] at h
  | cons tick rest =>
    simp only [htape] at h
    cases hcommit : tick.commit with
    | acknowledged =>
      simp only [hcommit, Prod.mk.injEq] at h
      exact ⟨rest, h.2.symm⟩
    | failed applied info | signalled applied signal | died applied => simp [hcommit] at h

def issue (s : Session) (call : CallId) (rest : List Tick) : Session :=
  ({ s with tape := rest }.note (.issued call)).allocPath

theorem atCall_cases (c : Config) (kind : String) (args : Json)
    (step : Tick → CallId → Session → Exit × Session) (s : Session) :
    s.atCall c kind args step = (.cut, s) ∨ ∃ tick rest, s.tape = tick :: rest ∧
        let call := c.callAt s.stack kind args
        (∃ prior, s.memory.byPath call.path = some prior ∧ prior ≠ (kind, call.digest) ∧
          s.atCall c kind args step =
            (.raised (.nonDeterminism call.path prior (kind, call.digest)),
              (s.issue call rest).note (.diverged call))) ∨
        (∀ prior, s.memory.byPath call.path = some prior → prior = (kind, call.digest)) ∧
          s.atCall c kind args step = step tick call (s.issue call rest) := by
  unfold atCall await
  cases htape : s.tape with
  | nil => exact .inl rfl
  | cons tick rest =>
    refine .inr ⟨tick, rest, rfl, ?_⟩
    simp only [identify, note]
    cases hprior : s.memory.byPath (c.callAt s.stack kind args).path with
    | none => exact .inr ⟨by simp, rfl⟩
    | some prior =>
      by_cases hsame : prior = (kind, (c.callAt s.stack kind args).digest)
      · refine .inr ⟨fun other hother => ?_, ?_⟩
        · cases hother
          exact hsame
        · have hmatch : prior = ((c.callAt s.stack kind args).kind,
              (c.callAt s.stack kind args).digest) := hsame
          simp only [hmatch, if_true]
          rfl
      · refine .inl ⟨prior, rfl, hsame, ?_⟩
        have hdiffers : prior ≠ ((c.callAt s.stack kind args).kind,
            (c.callAt s.stack kind args).digest) := hsame
        simp only [hdiffers, if_false]
        rfl

end Session

theorem goOn_cases (call : CallId) (next : Answer → Session → Exit × Session)
    (result : Exit × Session) :
    (∃ answer, result.1.answer? = some answer ∧
      goOn call next result = next answer (result.2.note (.observed call answer))) ∨
    result.1.answer? = none ∧ goOn call next result = result := by
  unfold goOn
  cases hanswer : result.1.answer? with
  | none => exact .inr ⟨rfl, rfl⟩
  | some answer => exact .inl ⟨answer, rfl, rfl⟩

def Event.IsWork (call : CallId) : Event → Prop
  | .called other _ _ | .started other | .returned other _ | .raised other => other = call
  | .attempt | .issued _ | .diverged _ | .wrote _ | .observed _ _ => False

theorem Event.IsWork.call_eq {call : CallId} {event : Event} (h : event.IsWork call) :
    event.call? = some call := by
  cases event with
  | attempt | issued other | diverged other | wrote r | observed other answer => exact h.elim
  | called other idempotent reply | started other | returned other value | raised other =>
    exact congrArg some h

/-- A property that everything the journal does for one call preserves. -/
structure Handles (call : CallId) (P : Session → Prop) : Prop where
  tape : ∀ s tape, P s → P { s with tape := tape }
  note : ∀ s event, event.IsWork call → P s → P (s.note event)
  setKnown : ∀ s known, P s → P (s.setKnown call.id known)
  append : ∀ s r, r.About call → P s → P (s.append r)

namespace Handles

variable {call : CallId} {P Q R : Session → Prop} {s : Session} {r : Record}

theorem exists_and {ι : Type} {P : ι → Session → Prop} {q : ι → Prop}
    (h : ∀ i, Handles call (P i)) : Handles call fun s => ∃ i, P i s ∧ q i where
  tape := fun s tape ⟨i, hs, hq⟩ => ⟨i, (h i).tape s tape hs, hq⟩
  note := fun s event hevent ⟨i, hs, hq⟩ => ⟨i, (h i).note s event hevent hs, hq⟩
  setKnown := fun s known ⟨i, hs, hq⟩ => ⟨i, (h i).setKnown s known hs, hq⟩
  append := fun s r habout ⟨i, hs, hq⟩ => ⟨i, (h i).append s r habout hs, hq⟩

theorem commit (h : Handles call P) (habout : r.About call) (hs : P s) : P (s.commit r).2 :=
  Session.commit_keeps h.tape (fun t => h.append t r habout) hs

theorem record (h : Handles call P) (habout : r.About call) (retries : Nat) (hs : P s) :
    P (Session.record retries s r).2 :=
  Session.record_keeps h.tape (fun t => h.append t r habout) retries hs

theorem recordEnd (h : Handles call P) (habout : r.About call) (exit : Exit) (hs : P s) :
    P (s.recordEnd r exit).2 := by
  have hset : P (s.setKnown r.id { state := .absent }) := habout.1 ▸ h.setKnown s _ hs
  have hrecord := h.record habout Session.outcomeRetries hset
  unfold Session.recordEnd
  rcases hresult : Session.record Session.outcomeRetries (s.setKnown r.id { state := .absent })
    r with ⟨result, s'⟩
  rw [hresult] at hrecord
  cases result <;> exact hrecord

theorem recordValue (h : Handles call P) (value : JsonObject) (stored : Stored) (hs : P s) :
    P (s.recordValue call value stored).2 := by
  have hrecord := h.record (about_ok call stored false) Session.outcomeRetries hs
  unfold Session.recordValue
  rcases hresult : Session.record Session.outcomeRetries s (.ok call stored false) with
    ⟨exit, s'⟩
  rw [hresult] at hrecord
  cases exit with
  | value result => exact h.setKnown s' _ hrecord
  | raised failure | signalled signal | cut => exact hrecord

theorem finish (h : Handles call P) (c : Config) (value : JsonObject) (hs : P s) :
    P (s.finish c call value).2 := by
  unfold Session.finish
  cases c.blob with
  | none => exact h.recordValue value _ hs
  | some blob =>
    by_cases hlarge : blob.large value = true
    · simp only [hlarge, if_true]
      unfold Session.await
      cases s.tape with
      | nil => exact hs
      | cons tick rest =>
        have hrest := h.tape s rest hs
        simp only
        cases tick.world with
        | returns _ => exact h.recordValue value _ hrest
        | raises failure | signals signal => exact hrest
    · simp only [hlarge]
      exact h.recordValue value _ hs

variable {fn : Session → Exit × Session}

theorem runBody (hP : Handles call P) (hQ : Handles call Q) (hweaken : ∀ t, P t → Q t)
    (hfn : ∀ t, P t → Q (fn t).2) (c : Config) (hs : P s) : Q (s.runBody c call fn).2 := by
  have hstarted : P (s.note (.started call)) := hP.note s _ rfl hs
  unfold Session.runBody Session.await
  cases htape : (s.note (.started call)).tape with
  | nil => exact hweaken _ hstarted
  | cons tick rest =>
    have hran := hfn _ (hP.tape _ rest hstarted)
    simp only
    rcases hresult : fn { s.note (.started call) with tape := rest } with ⟨exit, t⟩
    rw [hresult] at hran
    cases exit with
    | value result => exact hQ.finish c result (hQ.note t _ rfl hran)
    | raised failure =>
      exact hQ.recordEnd (about_failed call failure.info) _ (hQ.note t _ rfl hran)
    | signalled signal =>
      exact hQ.recordEnd (about_aborted call "interrupted") _ (hQ.note t _ rfl hran)
    | cut => exact hran

theorem execute (hP : Handles call P) (hQ : Handles call Q) (hweaken : ∀ t, P t → Q t)
    (hfn : ∀ t, P t → Q (fn t).2) (c : Config) (idempotent : Bool) (hs : P s) :
    Q (s.execute c call idempotent fn).2 := by
  unfold Session.execute
  by_cases hintended : s.intended call = true
  · rw [if_pos hintended]
    exact runBody hP hQ hweaken hfn c hs
  · rw [if_neg hintended]
    have hcommit := hP.commit (about_intent call idempotent) hs
    rcases hresult : s.commit (.intent call idempotent) with ⟨exit, s'⟩
    rw [hresult] at hcommit
    cases exit with
    | value result => exact runBody hP hQ hweaken hfn c (hP.setKnown s' _ hcommit)
    | raised failure | signalled signal | cut => exact hweaken _ hcommit

theorem serve (hP : Handles call P) (hQ : Handles call Q) (hweaken : ∀ t, P t → Q t)
    (hfn : ∀ t, P t → Q (fn t).2) (hexit : ∀ t, Q t → R t.exitScope) (c : Config)
    (idempotent : Bool) (hs : R s) (henter : P s.enterScope) (reply : Reply) :
    R (s.serve c call idempotent fn reply).2 := by
  cases reply with
  | answered value | unresolved ref | orphaned => exact hs
  | admitted => exact hexit _ (execute hP hQ hweaken hfn c idempotent henter)

theorem atomicStep (h : Handles call P) (c : Config) (tick : Tick) (hs : P s) :
    P (s.atomicStep c tick call).2 := by
  unfold Session.atomicStep
  cases (s.memory.known call.id).filter (·.state = .completed) with
  | some known =>
    simp only
    cases resolve c known <;> exact hs
  | none =>
    cases tick.world with
    | raises failure | signals signal => exact hs
    | returns value =>
      have hcommit := h.commit (about_ok call (.value value) true) hs
      simp only
      rcases hresult : s.commit (.ok call (.value value) true) with ⟨exit, t⟩
      rw [hresult] at hcommit
      cases exit with
      | value result => exact h.setKnown t _ hcommit
      | raised failure | signalled signal | cut => exact hcommit

end Handles

variable {call : CallId} {s : Session} {kind : String} {args : Json} {stack : PathStack}
    {path : List Nat} {fn : Session → Exit × Session}

theorem Frame.handles (hcall : CallIn c paths call) (s : Session) (within : PathStack → Prop) :
    Handles call fun t => Frame c paths s t ∧ within t.stack where
  tape := fun _ _ h => ⟨h.1.trans (.of_eq rfl rfl rfl), h.2⟩
  note := fun t event hevent h => by
    refine ⟨h.1.trans (.note t fun other hother => ?_), h.2⟩
    rw [hevent.call_eq] at hother
    cases hother
    exact hcall
  setKnown := fun t known h => ⟨h.1.trans (.setKnown t known hcall), h.2⟩
  append := fun t _ habout h => ⟨h.1.trans (.append t hcall habout), h.2⟩

theorem Frame.issue (hpath : paths s.stack.reverse) (rest : List Tick) :
    Frame c paths s (s.issue (c.callAt s.stack kind args) rest) := by
  let t : Session := { s with tape := rest }
  have htape : Frame c paths s t := .of_eq rfl rfl rfl
  have hnote : Frame c paths t (t.note (.issued (c.callAt s.stack kind args))) := by
    refine .note t fun call hcall => ?_
    cases hcall
    exact callAt_in hpath
  exact htape.trans (hnote.trans (.of_eq rfl rfl rfl))

/-- The code of a body stays on the paths ahead of its stack. -/
def Stays (c : Config) (fn : Session → Exit × Session) : Prop :=
  ∀ s, s.stack ≠ [] → Frame c (Ahead s.stack) s (fn s).2 ∧ AtOrPast s.stack (fn s).2.stack

/-- The paths of a call and of what its body calls. -/
def callPaths (stack : PathStack) (path : List Nat) : Prop :=
  path = stack.reverse ∨ Ahead (bodyStack stack) path

theorem callPaths_ahead (hne : stack ≠ []) (h : callPaths stack path) : Ahead stack path := by
  rcases h with rfl | hbody
  · exact ahead_own hne
  · exact hbody.of_body hne

theorem callPaths_not_next (h : callPaths stack path) : ¬ Ahead (nextStack stack) path := by
  rcases h with rfl | hbody
  · exact own_not_next stack
  · exact hbody.body_not_next

/-- What a call does, and where it leaves the path stack: at its next sibling,
unless the worker died in it. -/
structure Leaves (c : Config) (s : Session) (result : Exit × Session) : Prop where
  frame : Frame c (callPaths s.stack) s result.2
  past : AtOrPast s.stack result.2.stack
  next : ∀ answer, result.1.answer? = some answer → result.2.stack = nextStack s.stack

theorem enterScope_stack (hstack : s.stack = nextStack stack) :
    s.enterScope.stack = bodyStack stack := congrArg (0 :: ·) hstack

theorem exitScope_stack (h : AtOrPast (bodyStack stack) s.stack) :
    s.exitScope.stack = nextStack stack := by
  obtain ⟨top, later, outer, hfrom, hto, _⟩ := h
  injection hfrom with _ houter
  change s.stack.tail = nextStack stack
  rw [hto, houter]
  rfl

theorem serve_frame (hcall : CallIn c (callPaths stack) call) (idempotent : Bool)
    (hfn : Stays c fn) (s : Session) (hstack : s.stack = nextStack stack) (reply : Reply) :
    Frame c (callPaths stack) s (s.serve c call idempotent fn reply).2 ∧
      (s.serve c call idempotent fn reply).2.stack = nextStack stack := by
  refine Handles.serve (Frame.handles hcall s (· = bodyStack stack))
    (Frame.handles hcall s (AtOrPast (bodyStack stack))) ?_ ?_
    (R := fun t => Frame c (callPaths stack) s t ∧ t.stack = nextStack stack) ?_ c idempotent
    ⟨.refl s, hstack⟩ ⟨.of_eq rfl rfl rfl, enterScope_stack hstack⟩ reply
  · rintro t ⟨hframe, (ht : t.stack = bodyStack stack)⟩
    rw [ht]
    exact ⟨hframe, .refl (cons_ne_nil _ _)⟩
  · rintro t ⟨hframe, (ht : t.stack = bodyStack stack)⟩
    have hne : t.stack ≠ [] := ht ▸ cons_ne_nil _ _
    obtain ⟨hbody, hpast⟩ := hfn t hne
    rw [ht] at hbody hpast
    exact ⟨hframe.trans (hbody.mono fun _ => .inr), hpast⟩
  · rintro t ⟨hframe, ht⟩
    exact ⟨hframe.trans (.of_eq rfl rfl rfl), exitScope_stack ht⟩

theorem atCall_leaves (kind : String) (args : Json)
    {step : Tick → CallId → Session → Exit × Session} (s : Session) (hne : s.stack ≠ [])
    (hstep : ∀ tick rest, let call := c.callAt s.stack kind args
      Frame c (callPaths s.stack) (s.issue call rest) (step tick call (s.issue call rest)).2 ∧
        (step tick call (s.issue call rest)).2.stack = nextStack s.stack) :
    Leaves c s (s.atCall c kind args step) := by
  have hown : callPaths s.stack s.stack.reverse := .inl rfl
  have hissue : ∀ rest, Frame c (callPaths s.stack) s
      (s.issue (c.callAt s.stack kind args) rest) := Frame.issue hown
  rcases s.atCall_cases c kind args step with heq | ⟨tick, rest, _, hcase⟩
  · rw [heq]
    exact ⟨.refl s, .refl hne, nofun⟩
  · rcases hcase with ⟨prior, _, _, heq⟩ | ⟨_, heq⟩
    · rw [heq]
      refine ⟨(hissue rest).trans (.note _ fun call hcall => ?_), .next hne, fun _ _ => rfl⟩
      cases hcall
      exact callAt_in hown
    · have hrest := hstep tick rest
      rw [heq]
      refine ⟨(hissue rest).trans hrest.1, ?_, fun _ _ => hrest.2⟩
      rw [hrest.2]
      exact .next hne

theorem effect_leaves (kind : String) (args : Json) (idempotent : Bool) (hfn : Stays c fn)
    (s : Session) (hne : s.stack ≠ []) : Leaves c s (s.effect c kind args idempotent fn) := by
  refine atCall_leaves kind args s hne fun tick rest => ?_
  let call := c.callAt s.stack kind args
  let reply := (s.issue call rest).replyTo c call idempotent
  have hcall : CallIn c (callPaths s.stack) call := callAt_in (.inl rfl)
  have hcalled : Frame c (callPaths s.stack) (s.issue call rest)
      ((s.issue call rest).note (.called call idempotent reply)) := by
    refine .note _ fun other hother => ?_
    cases hother
    exact hcall
  have hserved := serve_frame hcall idempotent hfn
    ((s.issue call rest).note (.called call idempotent reply)) rfl reply
  exact ⟨hcalled.trans hserved.1, hserved.2⟩

theorem recordAtomic_leaves (kind : String) (args : Json) (s : Session) (hne : s.stack ≠ []) :
    Leaves c s (s.recordAtomic c kind args) := by
  refine atCall_leaves kind args s hne fun tick rest => ?_
  exact (Frame.handles (callAt_in (.inl rfl)) _ (· = nextStack s.stack)).atomicStep c tick
    ⟨.refl _, rfl⟩

theorem goOn_stays (hne : s.stack ≠ []) {result : Exit × Session} (hleaves : Leaves c s result)
    {next : Answer → Session → Exit × Session} (hnext : ∀ answer, Stays c (next answer)) :
    Frame c (Ahead s.stack) s (goOn (c.callAt s.stack kind args) next result).2 ∧
      AtOrPast s.stack (goOn (c.callAt s.stack kind args) next result).2.stack := by
  have hframe : Frame c (Ahead s.stack) s result.2 :=
    hleaves.frame.mono fun _ => callPaths_ahead hne
  rcases goOn_cases (c.callAt s.stack kind args) next result with
    ⟨answer, hanswer, heq⟩ | ⟨_, heq⟩
  · rw [heq]
    obtain ⟨hlater, hpast⟩ := hnext answer
      (result.2.note (.observed (c.callAt s.stack kind args) answer)) hleaves.past.ne_nil
    refine ⟨(hframe.trans (.note _ fun call hcall => ?_)).trans
      (hlater.mono fun _ => hleaves.past.ahead), hleaves.past.trans hpast⟩
    cases hcall
    exact callAt_in (ahead_own hne)
  · rw [heq]
    exact ⟨hframe, hleaves.past⟩

theorem run_stays (c : Config) (p : Prog) : Stays c (run c p) := by
  induction p with
  | done value | raise failure | interrupt signal => exact fun s hne => ⟨.refl s, .refl hne⟩
  | outside =>
    intro s hne
    unfold run Session.await
    cases s.tape with
    | nil => exact ⟨.refl s, .refl hne⟩
    | cons tick rest =>
      simp only
      cases tick.world <;> exact ⟨.of_eq rfl rfl rfl, .refl hne⟩
  | effect kind args idempotent body next ihBody ihNext =>
    intro s hne
    exact goOn_stays hne (effect_leaves kind args idempotent ihBody s hne) ihNext
  | atomic kind args next ihNext =>
    intro s hne
    exact goOn_stays hne (recordAtomic_leaves kind args s hne) ihNext

end Substrate
