import Substrate.Journal.Frame

/-!
Where answers come from. Every step the journal takes for completed can be
answered, with a value that the step's body returned or that an atomic step
recorded under the same id, whether the value was journaled in place or by
reference.
-/

namespace Substrate

open Session List

/-- The value came from the body of a step with this id, or from an atomic step
recorded under it. -/
def Produced (id : String) (value : JsonObject) (trace : List Event) : Prop :=
  ∃ call : CallId, call.id = id ∧
    (.returned call value ∈ trace ∨ .wrote (.ok call (.value value) true) ∈ trace)

theorem Produced.append {id : String} {value : JsonObject} {trace : List Event}
    (h : Produced id value trace) (more : List Event) : Produced id value (trace ++ more) := by
  obtain ⟨call, hid, hreturned | hwrote⟩ := h
  · exact ⟨call, hid, .inl (mem_append_left _ hreturned)⟩
  · exact ⟨call, hid, .inr (mem_append_left _ hwrote)⟩

/-- Every completed step can be answered, with a value that was produced. -/
def Backed (c : Config) (trace : List Event) (m : Memory) : Prop :=
  ∀ id known, m.known id = some known → known.state = .completed →
    ∃ value, resolve c known = .ok value ∧ Produced id value trace

/-- Every answer in the trace had been produced when it was given. -/
def Honest (trace : List Event) : Prop :=
  ∀ before call idempotent reply, before ++ [.called call idempotent reply] <+: trace →
    (∀ value, reply = .answered value → Produced call.id value before) ∧
      ∀ ref, reply ≠ .unresolved ref

structure Sound (c : Config) (s : Session) : Prop where
  memory : Backed c s.trace s.memory
  log : Backed c s.trace (.ofLog s.log)
  honest : Honest s.trace

/-- Code that answers only with what was produced. -/
def Truthful (c : Config) (fn : Session → Exit × Session) : Prop :=
  ∀ s, Sound c s → Sound c (fn s).2

namespace Backed

variable {c : Config} {trace : List Event} {m : Memory}

theorem append (h : Backed c trace m) (more : List Event) : Backed c (trace ++ more) m := by
  intro id known hknown hdone
  obtain ⟨value, hresolve, hproduced⟩ := h id known hknown hdone
  exact ⟨value, hresolve, hproduced.append more⟩

theorem setKnown (h : Backed c trace m) {id : String} {known : Known}
    (hdone : known.state = .completed →
      ∃ value, resolve c known = .ok value ∧ Produced id value trace) :
    Backed c trace (m.setKnown id known) := by
  intro other known' hknown hstate
  by_cases hid : other = id
  · subst hid
    rw [Memory.setKnown_known_self] at hknown
    cases hknown
    exact hdone hstate
  · rw [Memory.setKnown_known_of_ne _ _ hid] at hknown
    exact h other known' hknown hstate

theorem learn (h : Backed c trace m) {r : Record}
    (hok : ∀ call stored once, r = .ok call stored once →
      ∃ value, stored.Restores c value ∧ Produced call.id value trace) :
    Backed c trace (m.learn r) := by
  cases r with
  | intent call idempotent =>
    simp only [Memory.learn]
    split
    · exact h
    · exact setKnown (m := m.setPath call.path (call.kind, call.digest)) h fun h => by cases h
  | ok call stored once =>
    obtain ⟨value, hrestores, hproduced⟩ := hok call stored once rfl
    exact setKnown h fun _ => ⟨value, hrestores _ rfl rfl, hproduced⟩
  | failed id error | aborted id reason => exact h.setKnown fun h => by cases h

end Backed

namespace Sound

variable {c : Config} {s : Session}

theorem of_eq (h : Sound c s) {s' : Session} (htrace : s'.trace = s.trace)
    (hlog : s'.log = s.log) (hmemory : s'.memory = s.memory) : Sound c s' :=
  ⟨htrace ▸ hmemory ▸ h.memory, htrace ▸ hlog ▸ h.log, htrace ▸ h.honest⟩

variable {event : Event} {r : Record} {value : JsonObject} {fn : Session → Exit × Session}

theorem honest_concat {trace : List Event} (h : Honest trace)
    (hevent : ∀ call idempotent reply, event = .called call idempotent reply →
      (∀ value, reply = .answered value → Produced call.id value trace) ∧
        ∀ ref, reply ≠ .unresolved ref) : Honest (trace ++ [event]) := by
  intro before call idempotent reply hprefix
  rcases prefix_concat_iff.mp hprefix with heq | hprefix
  · obtain ⟨rfl, hlast⟩ := append_inj' heq rfl
    cases hlast
    exact hevent call idempotent reply rfl
  · exact h before call idempotent reply hprefix

theorem note (h : Sound c s)
    (hevent : ∀ call idempotent reply, event = .called call idempotent reply →
      (∀ value, reply = .answered value → Produced call.id value s.trace) ∧
        ∀ ref, reply ≠ .unresolved ref) : Sound c (s.note event) :=
  ⟨h.memory.append [event], h.log.append [event], honest_concat h.honest hevent⟩

theorem note_other (h : Sound c s) (event : Event)
    (hother : ∀ call idempotent reply, event ≠ .called call idempotent reply) :
    Sound c (s.note event) :=
  h.note fun call idempotent reply heq => absurd heq (hother call idempotent reply)

theorem setKnown (h : Sound c s) {id : String} {known : Known} (hdone : known.state = .completed →
      ∃ value, resolve c known = .ok value ∧ Produced id value s.trace) :
    Sound c (s.setKnown id known) :=
  ⟨h.memory.setKnown hdone, h.log, h.honest⟩

theorem append (h : Sound c s) (hok : ∀ call stored once, r = .ok call stored once →
      ∃ value, stored.Restores c value ∧ Produced call.id value (s.trace ++ [.wrote r])) :
    Sound c (s.append r) := by
  refine ⟨h.memory.append _, ?_, honest_concat h.honest nofun⟩
  have hlog := h.log.append [.wrote r]
  unfold Session.append
  simp only
  split
  · exact hlog
  · rw [Memory.ofLog_append_singleton]
    exact hlog.learn hok

theorem recordValue (h : Sound c s) (call : CallId) {stored : Stored}
    (hproduced : Produced call.id value s.trace) (hrestores : stored.Restores c value) :
    Sound c (s.recordValue call value stored).2 := by
  have hrecord := record_keeps
    (P := fun t => Sound c t ∧ Produced call.id value t.trace) (r := .ok call stored false)
    (fun _ _ ht => ⟨ht.1.of_eq rfl rfl rfl, ht.2⟩)
    (fun t ht => ⟨ht.1.append fun _ _ _ heq => by
      cases heq
      exact ⟨value, hrestores, ht.2.append _⟩, ht.2.append _⟩) outcomeRetries ⟨h, hproduced⟩
  unfold Session.recordValue
  rcases hresult : record outcomeRetries s (.ok call stored false) with ⟨exit, s'⟩
  rw [hresult] at hrecord
  cases exit with
  | value result => exact hrecord.1.setKnown fun _ => ⟨value, rfl, hrecord.2⟩
  | raised failure | signalled signal | cut => exact hrecord.1

theorem finish (h : Sound c s) (call : CallId) (hproduced : Produced call.id value s.trace) :
    Sound c (s.finish c call value).2 := by
  have hinline := restores_value c value
  unfold Session.finish
  cases hblob : c.blob with
  | none => exact h.recordValue call hproduced hinline
  | some blob =>
    by_cases hlarge : blob.large value = true
    · simp only [hlarge, if_true]
      unfold await
      cases s.tape with
      | nil => exact h
      | cons tick rest =>
        have hrest : Sound c { s with tape := rest } := h.of_eq rfl rfl rfl
        cases hworld : tick.world with
        | returns _ =>
          have href := restores_ref hblob value
          simpa only [hworld] using hrest.recordValue call hproduced href
        | raises failure | signals signal => simpa only [hworld] using hrest
    · simp only [hlarge]
      exact h.recordValue call hproduced hinline

theorem recordEnd (h : Sound c s) (hend : r.isEnd = true) (exit : Exit) :
    Sound c (s.recordEnd r exit).2 := by
  have hset : Sound c (s.setKnown r.id { state := .absent }) := h.setKnown nofun
  have hrecord := record_keeps (P := Sound c) (r := r) (fun _ _ ht => ht.of_eq rfl rfl rfl)
    (fun _ ht => ht.append fun _ _ _ heq => by subst heq; cases hend) outcomeRetries hset
  unfold Session.recordEnd
  rcases hresult : record outcomeRetries (s.setKnown r.id { state := .absent }) r with
    ⟨result, s'⟩
  rw [hresult] at hrecord
  cases result <;> exact hrecord

theorem runBody (hfn : Truthful c fn) (call : CallId) : Truthful c (Session.runBody c call fn) := by
  intro s h
  have hstarted : Sound c (s.note (.started call)) := h.note_other _ (by simp)
  unfold Session.runBody await
  cases htape : (s.note (.started call)).tape with
  | nil => exact hstarted
  | cons tick rest =>
    have hbody := hfn { s.note (.started call) with tape := rest } (hstarted.of_eq rfl rfl rfl)
    simp only
    rcases hresult : fn { s.note (.started call) with tape := rest } with ⟨exit, t⟩
    rw [hresult] at hbody
    cases exit with
    | value result =>
      have hreturned : Sound c (t.note (.returned call result)) := hbody.note_other _ (by simp)
      have hproduced : Produced call.id result (t.note (.returned call result)).trace :=
        ⟨call, rfl, .inl (mem_append_right _ mem_cons_self)⟩
      exact hreturned.finish call hproduced
    | raised failure =>
      have hraised : Sound c (t.note (.raised call)) := hbody.note_other _ (by simp)
      exact hraised.recordEnd (r := .failed call.id failure.info) rfl _
    | signalled signal =>
      have hraised : Sound c (t.note (.raised call)) := hbody.note_other _ (by simp)
      exact hraised.recordEnd (r := .aborted call.id "interrupted") rfl _
    | cut => exact hbody

theorem commit_intent (h : Sound c s) (call : CallId) (idempotent : Bool) :
    Sound c (s.commit (.intent call idempotent)).2 :=
  commit_keeps (P := Sound c) (r := .intent call idempotent)
    (fun _ _ ht => ht.of_eq rfl rfl rfl) (fun _ ht => ht.append nofun) h

theorem execute (hfn : Truthful c fn) (call : CallId) (idempotent : Bool) :
    Truthful c (Session.execute c call idempotent fn) := by
  intro s h
  unfold Session.execute
  by_cases hintended : s.intended call = true
  · rw [if_pos hintended]
    exact runBody hfn call s h
  · rw [if_neg hintended]
    have hcommit := h.commit_intent call idempotent
    rcases hresult : s.commit (.intent call idempotent) with ⟨exit, s'⟩
    rw [hresult] at hcommit
    cases exit with
    | value result => exact runBody hfn call _ (hcommit.setKnown nofun)
    | raised failure | signalled signal | cut => exact hcommit

theorem replyTo (h : Sound c s) (call : CallId) (idempotent : Bool) :
    (∀ value, s.replyTo c call idempotent = .answered value → Produced call.id value s.trace) ∧
      ∀ ref, s.replyTo c call idempotent ≠ .unresolved ref := by
  unfold Session.replyTo
  cases hknown : s.memory.known call.id with
  | none => simp
  | some known =>
    cases hstate : known.state with
    | completed =>
      obtain ⟨value, hresolve, hproduced⟩ := h.memory call.id known hknown hstate
      simp only [hstate, hresolve, Reply.answered.injEq]
      refine ⟨fun other heq => heq ▸ hproduced, fun ref => by simp⟩
    | pending => cases idempotent <;> simp [hstate]
    | absent => simp [hstate]

theorem serve (hfn : Truthful c fn) (h : Sound c s) (call : CallId) (idempotent : Bool)
    (reply : Reply) : Sound c (s.serve c call idempotent fn reply).2 := by
  cases reply with
  | answered value | unresolved ref | orphaned => exact h
  | admitted =>
    have hexecute := execute hfn call idempotent s.enterScope (h.of_eq rfl rfl rfl)
    exact hexecute.of_eq rfl rfl rfl

theorem atCall {step : Tick → CallId → Session → Exit × Session}
    (hstep : ∀ tick call, Truthful c (step tick call)) (kind : String) (args : Json) :
    Truthful c (Session.atCall c kind args step) := by
  intro s h
  have hissue : ∀ call rest, Sound c (s.issue call rest) := by
    intro call rest
    have htape : Sound c { s with tape := rest } := h.of_eq rfl rfl rfl
    exact (htape.note_other (.issued call) (by simp)).of_eq rfl rfl rfl
  rcases s.atCall_cases c kind args step with heq | ⟨tick, rest, _, hcase⟩
  · rw [heq]
    exact h
  · rcases hcase with ⟨prior, _, _, heq⟩ | ⟨_, heq⟩
    · rw [heq]
      exact (hissue _ rest).note_other _ (by simp)
    · rw [heq]
      exact hstep tick _ _ (hissue _ rest)

theorem effect (hfn : Truthful c fn) (kind : String) (args : Json) (idempotent : Bool) :
    Truthful c (Session.effect c kind args idempotent fn) := by
  refine atCall (fun tick call s h => ?_) kind args
  have hcalled : Sound c (s.note (.called call idempotent (s.replyTo c call idempotent))) := by
    refine h.note fun other idempotent' reply heq => ?_
    cases heq
    exact h.replyTo call idempotent
  exact hcalled.serve hfn call idempotent _

theorem recordAtomic (kind : String) (args : Json) :
    Truthful c (Session.recordAtomic c kind args) := by
  refine atCall (fun tick call s h => ?_) kind args
  unfold Session.atomicStep
  cases (s.memory.known call.id).filter (·.state = .completed) with
  | some known =>
    simp only
    cases resolve c known <;> exact h
  | none =>
    cases hworld : tick.world with
    | raises failure | signals signal => exact h
    | returns value =>
      have happend : ∀ t, Sound c t → Sound c (t.append (.ok call (.value value) true)) := by
        intro t ht
        refine ht.append fun _ _ _ heq => ?_
        cases heq
        exact ⟨value, restores_value c value, call, rfl, .inr (mem_append_right _ mem_cons_self)⟩
      have hcommit : Sound c (s.commit (.ok call (.value value) true)).2 :=
        commit_keeps (P := Sound c) (fun _ _ ht => ht.of_eq rfl rfl rfl) happend h
      simp only
      rcases hresult : s.commit (.ok call (.value value) true) with ⟨exit, t⟩
      rw [hresult] at hcommit
      cases exit with
      | value result =>
        obtain ⟨tape, rfl⟩ := commit_value hresult
        exact hcommit.setKnown fun _ => ⟨value, rfl, call, rfl,
          .inr (mem_append_right _ mem_cons_self)⟩
      | raised failure | signalled signal | cut => exact hcommit

end Sound

theorem goOn_truthful {c : Config} {call : CallId}
    {next : Answer → Session → Exit × Session} (hnext : ∀ answer, Truthful c (next answer))
    {result : Exit × Session} (h : Sound c result.2) : Sound c (goOn call next result).2 := by
  rcases goOn_cases call next result with ⟨answer, _, heq⟩ | ⟨_, heq⟩
  · rw [heq]
    exact hnext answer _ (h.note_other _ (by simp))
  · rw [heq]
    exact h

theorem run_truthful (c : Config) (p : Prog) : Truthful c (run c p) := by
  induction p with
  | done value | raise failure | interrupt signal => exact fun s h => h
  | outside =>
    intro s h
    unfold run await
    cases s.tape with
    | nil => exact h
    | cons tick rest =>
      simp only
      cases tick.world <;> exact h.of_eq rfl rfl rfl
  | effect kind args idempotent body next ihBody ihNext =>
    intro s h
    exact goOn_truthful ihNext (Sound.effect ihBody kind args idempotent s h)
  | atomic kind args next ihNext =>
    intro s h
    exact goOn_truthful ihNext (Sound.recordAtomic kind args s h)

end Substrate
