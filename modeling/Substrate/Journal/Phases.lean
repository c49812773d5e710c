import Mathlib.Data.List.Induction
import Substrate.Journal.Frame

/-!
The phases of a step. For one effect id the trace of a run is read by a small automaton
whose phases say what has become of the step: its body is running, has raised, or is gone,
which means that it returned or that nobody will know.
-/

namespace Substrate

open Session Option

/-- What an event means for one step. `repeats` is a call that declares the step
idempotent, `admitted` one that does not and is let through, and `noted` a
record that the body did not return. -/
inductive Deed where
  | attempt
  | repeats
  | admitted
  | started
  | returned
  | raised
  | noted
  deriving DecidableEq, Repr

def Event.deed (id : String) : Event → Option Deed
  | .attempt => some .attempt
  | .called call idempotent reply =>
    if call.id = id then
      if idempotent then some .repeats
      else match reply with
        | .admitted => some .admitted
        | .answered _ | .unresolved _ | .orphaned => none
    else none
  | .issued _ | .diverged _ | .observed _ _ => none
  | .started call => if call.id = id then some .started else none
  | .returned call _ => if call.id = id then some .returned else none
  | .raised call => if call.id = id then some .raised else none
  | .wrote r => if r.id = id ∧ r.isEnd = true then some .noted else none

variable {id : String} {event : Event} {deed : Deed}

theorem Event.deed_other {call : CallId} (hcall : event.call? = some call) (hne : call.id ≠ id) :
    event.deed id = none := by
  cases event with
  | attempt | wrote r => cases hcall
  | issued other | diverged other | observed other answer => rfl
  | called other idempotent reply | started other | returned other value | raised other =>
    cases hcall
    exact if_neg hne

/-- Some event among these is this deed to the step. -/
def Did (id : String) (events : List Event) (deed : Deed) : Prop :=
  ∃ event ∈ events, event.deed id = some deed

@[simp] theorem did_nil (id : String) (deed : Deed) : ¬ Did id [] deed := by
  rintro ⟨event, hmem, _⟩
  cases hmem

@[simp] theorem did_append {first second : List Event} :
    Did id (first ++ second) deed ↔ Did id first deed ∨ Did id second deed := by
  constructor
  · rintro ⟨event, hmem, hdeed⟩
    rcases List.mem_append.mp hmem with hmem | hmem
    · exact .inl ⟨event, hmem, hdeed⟩
    · exact .inr ⟨event, hmem, hdeed⟩
  · rintro (⟨event, hmem, hdeed⟩ | ⟨event, hmem, hdeed⟩)
    · exact ⟨event, List.mem_append_left _ hmem, hdeed⟩
    · exact ⟨event, List.mem_append_right _ hmem, hdeed⟩

@[simp] theorem did_cons {rest : List Event} :
    Did id (event :: rest) deed ↔ event.deed id = some deed ∨ Did id rest deed := by
  simp [Did]

inductive Phase where
  | fresh
  | running
  | raised (noted : Bool)
  | gone
  | exempt
  deriving DecidableEq, Repr

namespace Phase

/-- What a deed makes of a step. There is no next phase when a step is started,
or let through to be started, while it runs or after it is gone. -/
def step : Phase → Deed → Option Phase
  | .exempt, _ | _, .repeats => some .exempt
  | .running, .attempt | .raised false, .attempt => some .gone
  | phase, .attempt => some phase
  | .running, .admitted | .gone, .admitted => none
  | phase, .admitted => some phase
  | .fresh, .started | .raised _, .started => some .running
  | .running, .started | .gone, .started => none
  | .running, .returned => some .gone
  | .fresh, .returned | .raised _, .returned | .gone, .returned => none
  | .running, .raised => some (.raised false)
  | .fresh, .raised | .raised _, .raised | .gone, .raised => none
  | .raised _, .noted => some (.raised true)
  | .fresh, .noted | .running, .noted | .gone, .noted => none

def next (id : String) (phase : Phase) (event : Event) : Option Phase :=
  match event.deed id with
  | none => some phase
  | some deed => phase.step deed

def after (id : String) (phase : Phase) (events : List Event) : Option Phase :=
  events.foldlM (next id) phase

variable {id : String}

variable {phase last : Phase} {event : Event} {rest events : List Event}

theorem next_of_none (h : event.deed id = none) : next id phase event = some phase := by
  rw [next, h]

theorem next_of_some {deed : Deed} (h : event.deed id = some deed) :
    next id phase event = phase.step deed := by
  rw [next, h]

@[simp] theorem next_exempt (event : Event) : next id .exempt event = some .exempt := by
  unfold next
  cases event.deed id <;> rfl

theorem after_append (phase : Phase) (first second : List Event) :
    after id phase (first ++ second) = (after id phase first).bind (after id · second) :=
  List.foldlM_append ..

theorem after_concat (phase : Phase) (events : List Event) (event : Event) :
    after id phase (events ++ [event]) = (after id phase events).bind (next id · event) := by
  rw [after_append]
  simp [after]

theorem after_split {before : List Event} (h : after id phase (before ++ rest) = some last) :
    ∃ middle, after id phase before = some middle ∧ after id middle rest = some last := by
  rw [after_append] at h
  exact bind_eq_some_iff.mp h

theorem after_cons_split (h : after id phase (event :: rest) = some last) :
    ∃ middle, next id phase event = some middle ∧ after id middle rest = some last :=
  bind_eq_some_iff.mp h

theorem gone_after (h : after id .gone events = some last) (hrepeats : ¬ Did id events .repeats) :
    last = .gone ∧ ¬ Did id events .started ∧ ¬ Did id events .returned ∧
      ¬ Did id events .admitted := by
  induction events with
  | nil =>
    cases h
    simp
  | cons event rest ih =>
    obtain ⟨middle, hnext, hrest⟩ := after_cons_split h
    rw [did_cons, not_or] at hrepeats
    obtain ⟨hfirst, hrepeats⟩ := hrepeats
    cases hdeed : event.deed id with
    | none =>
      rw [next_of_none hdeed] at hnext
      cases hnext
      simpa [hdeed] using ih hrest hrepeats
    | some deed =>
      rw [next_of_some hdeed] at hnext
      rw [hdeed] at hfirst
      cases deed with
      | attempt =>
        cases hnext
        simpa [hdeed] using ih hrest hrepeats
      | repeats => exact absurd rfl hfirst
      | admitted | started | returned | raised | noted => cases hnext

/-- What has happened since the start that led to a phase, if the step has not
been started since. -/
def Since (id : String) (events : List Event) : Phase → Prop
  | .running => ¬ Did id events .attempt ∧ ¬ Did id events .returned
  | .raised noted => Did id events .raised ∧ ¬ Did id events .returned ∧
      (Did id events .noted ∨ noted = false ∧ ¬ Did id events .attempt)
  | .gone => True
  | .fresh | .exempt => False

theorem since_start (h : after id .running events = some last)
    (hstarted : ¬ Did id events .started) (hrepeats : ¬ Did id events .repeats) :
    Since id events last := by
  induction events using List.reverseRecOn generalizing last with
  | nil =>
    cases h
    exact ⟨did_nil _ _, did_nil _ _⟩
  | append_singleton events event ih =>
    rw [after_concat] at h
    obtain ⟨middle, hmiddle, hnext⟩ := bind_eq_some_iff.mp h
    rw [did_append, not_or] at hstarted hrepeats
    have hsince := ih hmiddle hstarted.1 hrepeats.1
    cases hdeed : event.deed id with
    | none =>
      rw [next_of_none hdeed] at hnext
      cases hnext
      cases last <;> simp_all [Since]
    | some deed =>
      rw [next_of_some hdeed] at hnext
      rcases middle with _ | _ | (_ | _) | _ | _ <;> cases deed <;> cases hnext <;> simp_all [Since]

theorem lost_after (hphase : phase = .running ∨ phase = .raised false ∨ phase = .gone)
    (h : after id phase events = some last) (hnoted : ¬ Did id events .noted)
    (hrepeats : ¬ Did id events .repeats) :
    last = .gone ∨ (last = .running ∨ last = .raised false) ∧ ¬ Did id events .attempt := by
  induction events using List.reverseRecOn generalizing last with
  | nil =>
    cases h
    rcases hphase with rfl | rfl | rfl <;> simp
  | append_singleton events event ih =>
    rw [after_concat] at h
    obtain ⟨middle, hmiddle, hnext⟩ := bind_eq_some_iff.mp h
    rw [did_append, not_or] at hnoted hrepeats
    have hbefore := ih hmiddle hnoted.1 hrepeats.1
    cases hdeed : event.deed id with
    | none =>
      rw [next_of_none hdeed] at hnext
      cases hnext
      simpa [hdeed] using hbefore
    | some deed =>
      rw [next_of_some hdeed] at hnext
      rcases hbefore with rfl | ⟨rfl | rfl, hattempt⟩ <;> cases deed <;> simp_all [step]

end Phase

def Fits (id : String) : Phase → Memory → Memory → Prop
  | .fresh, _, _ | .exempt, _, _ | .raised true, _, _ => True
  | .raised false, _, log => log.Holds id
  | .running, memory, log | .gone, memory, log => memory.Holds id ∧ log.Holds id

/-- The step is in this phase, and the journal knows what it must. -/
structure Tracked (id : String) (phase : Phase) (s : Session) : Prop where
  trace : Phase.after id .fresh s.trace = some phase
  fits : Fits id phase s.memory (.ofLog s.log)

/-- What code may do to a step it does not itself perform: a running step keeps
running, unless a call declares it idempotent. -/
def Phase.Leads (phase phase' : Phase) : Prop :=
  (phase = .running → phase' = .running ∨ phase' = .exempt) ∧ (phase = .exempt → phase' = .exempt)

theorem Phase.Leads.refl (phase : Phase) : phase.Leads phase := ⟨.inl, id⟩

theorem Phase.Leads.trans {phase₁ phase₂ phase₃ : Phase} (h₁ : phase₁.Leads phase₂)
    (h₂ : phase₂.Leads phase₃) : phase₁.Leads phase₃ := by
  refine ⟨fun hrunning => ?_, fun hexempt => h₂.2 (h₁.2 hexempt)⟩
  rcases h₁.1 hrunning with hstill | hexempt
  · exact h₂.1 hstill
  · exact .inr (h₂.2 hexempt)

/-- Code that never starts a step it must not start. -/
def Careful (id : String) (fn : Session → Exit × Session) : Prop :=
  ∀ s phase, Tracked id phase s → ∃ phase', Tracked id phase' (fn s).2 ∧ phase.Leads phase'

namespace Tracked

variable {id : String} {phase phase' : Phase} {s : Session}

theorem of_eq (h : Tracked id phase s) {s' : Session} (htrace : s'.trace = s.trace)
    (hlog : s'.log = s.log) (hmemory : s'.memory = s.memory) : Tracked id phase s' :=
  ⟨htrace ▸ h.trace, hlog ▸ hmemory ▸ h.fits⟩

theorem note (h : Tracked id phase s) {event : Event}
    (hnext : Phase.next id phase event = some phase')
    (hfits : Fits id phase' s.memory (.ofLog s.log)) : Tracked id phase' (s.note event) := by
  refine ⟨?_, hfits⟩
  change Phase.after id .fresh (s.trace ++ [event]) = some phase'
  rw [Phase.after_concat, h.trace, bind_some, hnext]

theorem note_other (h : Tracked id phase s) (event : Event) (hother : event.deed id = none) :
    Tracked id phase (s.note event) :=
  h.note (Phase.next_of_none hother) h.fits

theorem setKnown_other (h : Tracked id phase s) {other : String} (known : Known)
    (hne : other ≠ id) : Tracked id phase (s.setKnown other known) := by
  refine ⟨h.trace, ?_⟩
  have hkept : (s.memory.setKnown other known).known id = s.memory.known id :=
    Memory.setKnown_known_of_ne _ _ (Ne.symm hne)
  have hfits := h.fits
  change Fits id phase (s.memory.setKnown other known) _
  rcases phase with _ | _ | (_ | _) | _ | _ <;> simp only [Fits, Memory.Holds, hkept] at * <;>
    exact hfits

theorem setKnown_held (h : Tracked id phase s) {known : Known}
    (hstate : known.state = .completed ∨ known.state = .pending) :
    Tracked id phase (s.setKnown id known) := by
  have hheld : (s.memory.setKnown id known).Holds id :=
    ⟨known, Memory.setKnown_known_self .., hstate⟩
  refine ⟨h.trace, ?_⟩
  have hfits := h.fits
  change Fits id phase (s.memory.setKnown id known) _
  rcases phase with _ | _ | (_ | _) | _ | _ <;> simp only [Fits] at *
  · exact ⟨hheld, hfits.2⟩
  · exact hfits
  · exact ⟨hheld, hfits.2⟩

variable {r : Record} {c : Config} {call : CallId} {fn : Session → Exit × Session}

theorem append (h : Tracked id phase s) (hend : r.isEnd = true → r.id ≠ id) :
    Tracked id phase (s.append r) := by
  have hdeed : (Event.wrote r).deed id = none := if_neg fun hnoted => hend hnoted.2 hnoted.1
  have hlog : ∀ {m : Memory}, m = .ofLog s.log → m.Holds id →
      (Memory.ofLog (s.append r).log).Holds id := by
    rintro m rfl hholds
    unfold Session.append
    simp only
    split
    · exact hholds
    · rw [Memory.ofLog_append_singleton]
      exact hholds.learn hend
  refine ⟨?_, ?_⟩
  · change Phase.after id .fresh (s.trace ++ [.wrote r]) = some phase
    rw [Phase.after_concat, h.trace, bind_some, Phase.next_of_none hdeed]
  · have hfits := h.fits
    change Fits id phase s.memory _
    rcases phase with _ | _ | (_ | _) | _ | _ <;> simp only [Fits] at *
    · exact ⟨hfits.1, hlog rfl hfits.2⟩
    · exact hlog rfl hfits
    · exact ⟨hfits.1, hlog rfl hfits.2⟩

theorem record (h : Tracked id phase s) (hend : r.isEnd = true → r.id ≠ id) (retries : Nat) :
    Tracked id phase (Session.record retries s r).2 :=
  record_keeps (P := Tracked id phase) (fun _ _ ht => ht.of_eq rfl rfl rfl)
    (fun _ ht => ht.append hend) retries h

theorem commit (h : Tracked id phase s) (hend : r.isEnd = true → r.id ≠ id) :
    Tracked id phase (s.commit r).2 := h.record hend 0

theorem recordValue (h : Tracked id phase s) (call : CallId) (value : JsonObject)
    (stored : Stored) : Tracked id phase (s.recordValue call value stored).2 := by
  have hrecord := h.record (r := .ok call stored false) nofun outcomeRetries
  unfold Session.recordValue
  rcases hresult : Session.record outcomeRetries s (.ok call stored false) with ⟨exit, s'⟩
  rw [hresult] at hrecord
  cases exit with
  | value result =>
    by_cases hid : call.id = id
    · subst hid
      exact hrecord.setKnown_held (.inl rfl)
    · exact hrecord.setKnown_other _ hid
  | raised failure | signalled signal | cut => exact hrecord

theorem finish (h : Tracked id phase s) (c : Config) (call : CallId) (value : JsonObject) :
    Tracked id phase (s.finish c call value).2 := by
  unfold Session.finish
  cases c.blob with
  | none => exact h.recordValue call value _
  | some blob =>
    by_cases hlarge : blob.large value = true
    · simp only [hlarge, if_true]
      unfold await
      cases s.tape with
      | nil => exact h
      | cons tick rest =>
        have hrest : Tracked id phase { s with tape := rest } := h.of_eq rfl rfl rfl
        cases hworld : tick.world with
        | returns _ => simpa only [hworld] using hrest.recordValue call value _
        | raises failure | signals signal => simpa only [hworld] using hrest
    · simp only [hlarge]
      exact h.recordValue call value _

theorem recordEnd_own (hid : r.id = id) (hend : r.isEnd = true) (h : Tracked id phase s)
    (hphase : phase = .raised false ∨ phase = .exempt) (exit : Exit) :
    ∃ phase', Tracked id phase' (s.recordEnd r exit).2 ∧ (phase = .exempt → phase' = .exempt) := by
  have hdeed : (Event.wrote r).deed id = some .noted := if_pos ⟨hid, hend⟩
  have hset : Tracked id phase (s.setKnown r.id { state := .absent }) := by
    refine ⟨h.trace, ?_⟩
    rcases hphase with rfl | rfl
    · exact h.fits
    · trivial
  have happend : ∀ t, (∃ noted, Tracked id (.raised noted) t) →
      ∃ noted, Tracked id (.raised noted) (t.append r) := by
    rintro t ⟨noted, ht⟩
    refine ⟨true, ?_, trivial⟩
    change Phase.after id .fresh (t.trace ++ [.wrote r]) = _
    rw [Phase.after_concat, ht.trace, bind_some, Phase.next_of_some hdeed]
    rfl
  have hexempt : ∀ t, Tracked id .exempt t → Tracked id .exempt (t.append r) := by
    intro t ht
    refine ⟨?_, trivial⟩
    change Phase.after id .fresh (t.trace ++ [.wrote r]) = _
    rw [Phase.after_concat, ht.trace, bind_some, Phase.next_exempt]
  have hrecord : ∃ phase', Tracked id phase' (Session.record outcomeRetries
      (s.setKnown r.id { state := .absent }) r).2 ∧ (phase = .exempt → phase' = .exempt) := by
    rcases hphase with rfl | rfl
    · have hraised := record_keeps (P := fun t => ∃ noted, Tracked id (.raised noted) t)
        (fun _ _ ⟨noted, ht⟩ => ⟨noted, ht.of_eq rfl rfl rfl⟩) happend outcomeRetries
        ⟨false, hset⟩
      obtain ⟨noted, hraised⟩ := hraised
      exact ⟨.raised noted, hraised, by simp⟩
    · exact ⟨_, record_keeps (P := Tracked id .exempt) (fun _ _ ht => ht.of_eq rfl rfl rfl)
        hexempt outcomeRetries hset, fun _ => rfl⟩
  unfold Session.recordEnd
  rcases hresult : Session.record outcomeRetries (s.setKnown r.id { state := .absent }) r with
    ⟨result, s'⟩
  rw [hresult] at hrecord
  cases result <;> exact hrecord

theorem runBody_own (hid : call.id = id) (hfn : Careful id fn) (h : Tracked id phase s)
    (hstart : phase = .exempt ∨ (phase ≠ .running ∧ phase ≠ .gone) ∧ s.memory.Holds id ∧
      (Memory.ofLog s.log).Holds id) :
    ∃ phase', Tracked id phase' (s.runBody c call fn).2 ∧ (phase = .exempt → phase' = .exempt) := by
  have hdeed : (Event.started call).deed id = some .started := if_pos hid
  have hstarted : ∃ phase₁, (phase₁ = .running ∨ phase₁ = .exempt) ∧
      (phase = .exempt → phase₁ = .exempt) ∧ Tracked id phase₁ (s.note (.started call)) := by
    rcases hstart with rfl | ⟨⟨hrunning, hgone⟩, hholds⟩
    · exact ⟨.exempt, .inr rfl, fun _ => rfl, h.note (Phase.next_exempt _) trivial⟩
    · cases phase with
      | fresh =>
        have hnext : Phase.next id .fresh (.started call) = some .running :=
          Phase.next_of_some hdeed
        exact ⟨.running, .inl rfl, by simp, h.note hnext hholds⟩
      | raised noted =>
        have hnext : Phase.next id (.raised noted) (.started call) = some .running :=
          Phase.next_of_some hdeed
        exact ⟨.running, .inl rfl, by simp, h.note hnext hholds⟩
      | running => exact absurd rfl hrunning
      | gone => exact absurd rfl hgone
      | exempt => exact ⟨.exempt, .inr rfl, fun _ => rfl, h.note (Phase.next_exempt _) trivial⟩
  obtain ⟨phase₁, hphase₁, hexempt₁, hnoted⟩ := hstarted
  unfold Session.runBody await
  cases htape : (s.note (.started call)).tape with
  | nil => exact ⟨phase₁, hnoted, hexempt₁⟩
  | cons tick rest =>
    have hwaited : Tracked id phase₁ { s.note (.started call) with tape := rest } :=
      hnoted.of_eq rfl rfl rfl
    obtain ⟨phase₂, hbody, hleads⟩ := hfn _ phase₁ hwaited
    have hphase₂ : phase₂ = .running ∨ phase₂ = .exempt := by
      rcases hphase₁ with hrunning | hexempt
      · exact hleads.1 hrunning
      · exact .inr (hleads.2 hexempt)
    have hexempt₂ : phase = .exempt → phase₂ = .exempt := fun heq => hleads.2 (hexempt₁ heq)
    simp only
    rcases hresult : fn { s.note (.started call) with tape := rest } with ⟨exit, t⟩
    rw [hresult] at hbody
    have hraised : ∃ phase₃, (phase₃ = .raised false ∨ phase₃ = .exempt) ∧
        (phase₂ = .exempt → phase₃ = .exempt) ∧ Tracked id phase₃ (t.note (.raised call)) := by
      rcases hphase₂ with rfl | rfl
      · have hdone : (Event.raised call).deed id = some .raised := if_pos hid
        have hnext : Phase.next id .running (.raised call) = some (.raised false) :=
          Phase.next_of_some hdone
        exact ⟨.raised false, .inl rfl, by simp, hbody.note hnext hbody.fits.2⟩
      · exact ⟨.exempt, .inr rfl, fun _ => rfl, hbody.note (Phase.next_exempt _) trivial⟩
    obtain ⟨phase₃, hphase₃, hexempt₃, hnoted₃⟩ := hraised
    cases exit with
    | value result =>
      rcases hphase₂ with rfl | rfl
      · have hdone : (Event.returned call result).deed id = some .returned := if_pos hid
        have hnext : Phase.next id .running (.returned call result) = some .gone :=
          Phase.next_of_some hdone
        have hreturned : Tracked id .gone (t.note (.returned call result)) :=
          hbody.note hnext hbody.fits
        exact ⟨.gone, hreturned.finish c call result, fun heq => by cases hexempt₂ heq⟩
      · have hreturned : Tracked id .exempt (t.note (.returned call result)) :=
          hbody.note (Phase.next_exempt _) trivial
        exact ⟨_, hreturned.finish c call result, fun _ => rfl⟩
    | raised failure =>
      obtain ⟨phase₄, hend, hexempt₄⟩ := recordEnd_own
        (r := .failed call.id failure.info) hid rfl hnoted₃ hphase₃ (.raised failure)
      exact ⟨phase₄, hend, fun heq => hexempt₄ (hexempt₃ (hexempt₂ heq))⟩
    | signalled signal =>
      obtain ⟨phase₄, hend, hexempt₄⟩ := recordEnd_own
        (r := .aborted call.id "interrupted") hid rfl hnoted₃ hphase₃ (.signalled signal)
      exact ⟨phase₄, hend, fun heq => hexempt₄ (hexempt₃ (hexempt₂ heq))⟩
    | cut => exact ⟨phase₂, hbody, hexempt₂⟩

theorem execute_own (hid : call.id = id) (idempotent : Bool) (hfn : Careful id fn)
    (h : Tracked id phase s)
    (hstart : phase = .exempt ∨ (phase ≠ .running ∧ phase ≠ .gone) ∧ s.intended call = false) :
    ∃ phase', Tracked id phase' (s.execute c call idempotent fn).2 ∧
      (phase = .exempt → phase' = .exempt) := by
  unfold Session.execute
  by_cases hintended : s.intended call = true
  · rw [if_pos hintended]
    refine runBody_own hid hfn h (.inl (hstart.resolve_right fun hfresh => ?_))
    rw [hfresh.2] at hintended
    cases hintended
  · rw [if_neg hintended]
    have hcommit := h.commit (r := .intent call idempotent) nofun
    rcases hresult : s.commit (.intent call idempotent) with ⟨exit, s'⟩
    rw [hresult] at hcommit
    cases exit with
    | value result =>
      subst hid
      obtain ⟨tape, hwritten⟩ := commit_value hresult
      have hlog : (Memory.ofLog s'.log).Holds call.id := by
        have happended : s'.log = s.log ++ [.intent call idempotent] := by
          rw [hwritten]
          rfl
        rw [happended, Memory.ofLog_append_singleton]
        exact Memory.holds_learn_call _ rfl
      have hknown : Tracked call.id phase (s'.setKnown call.id
          { state := .pending, kind := call.kind, digest := call.digest }) :=
        hcommit.setKnown_held (.inr rfl)
      refine runBody_own rfl hfn hknown (hstart.imp_right fun hfresh => ⟨hfresh.1, ?_, hlog⟩)
      exact ⟨_, Memory.setKnown_known_self .., .inr rfl⟩
    | raised failure | signalled signal | cut => exact ⟨phase, hcommit, fun heq => heq⟩

theorem handles (hne : call.id ≠ id) (phase : Phase) :
    Handles call (Tracked id phase) where
  tape := fun _ _ h => h.of_eq rfl rfl rfl
  note := fun _ _ hevent h => h.note_other _ (Event.deed_other hevent.call_eq hne)
  setKnown := fun _ known h => h.setKnown_other known hne
  append := fun _ _ habout h => h.append fun _ => habout.1 ▸ hne

theorem serve_other (hne : call.id ≠ id) (idempotent : Bool) (hfn : Careful id fn)
    (h : Tracked id phase s) (reply : Reply) :
    ∃ phase', Tracked id phase' (s.serve c call idempotent fn reply).2 ∧ phase.Leads phase' := by
  refine Handles.serve (handles hne phase) (.exists_and fun phase' => handles hne phase')
    (fun t ht => ⟨phase, ht, .refl phase⟩) (fun t ht => hfn t phase ht)
    (R := fun t => ∃ phase', Tracked id phase' t ∧ phase.Leads phase') ?_ c idempotent
    ⟨phase, h, .refl phase⟩ (h.of_eq rfl rfl rfl) reply
  rintro t ⟨phase', ht, hleads⟩
  exact ⟨phase', ht.of_eq rfl rfl rfl, hleads⟩

theorem serve_own (hid : call.id = id) (idempotent : Bool) (hfn : Careful id fn)
    (h : Tracked id phase s) {reply : Reply}
    (hstart : phase = .exempt ∨
      (reply = .admitted → (phase ≠ .running ∧ phase ≠ .gone) ∧ s.intended call = false)) :
    ∃ phase', Tracked id phase' (s.serve c call idempotent fn reply).2 ∧ phase.Leads phase' := by
  cases reply with
  | answered value | unresolved ref | orphaned => exact ⟨phase, h, .refl phase⟩
  | admitted =>
    have henter : Tracked id phase s.enterScope := h.of_eq rfl rfl rfl
    have hstart' := hstart.imp_right fun hfresh => hfresh rfl
    obtain ⟨phase', hexecute, hexempt⟩ := execute_own (c := c) hid idempotent hfn henter hstart'
    refine ⟨phase', hexecute.of_eq rfl rfl rfl, fun hrunning => ?_, hexempt⟩
    rcases hstart' with heq | ⟨⟨hnot, _⟩, _⟩
    · exact .inr (hexempt heq)
    · exact absurd hrunning hnot

end Tracked

variable {s : Session} {call : CallId} {c : Config} {id : String}

theorem Session.replyTo_holds (c : Config) (hholds : s.memory.Holds call.id) :
    s.replyTo c call false ≠ .admitted := by
  obtain ⟨known, hknown, hstate⟩ := hholds
  unfold replyTo
  rw [hknown]
  rcases hstate with hstate | hstate
  · simp only [hstate]
    cases resolve c known <;> simp
  · simp [hstate]

theorem Session.intended_holds (h : s.intended call = true) : s.memory.Holds call.id := by
  unfold intended at h
  cases hknown : s.memory.known call.id with
  | none => simp [hknown] at h
  | some known =>
    rw [hknown, any_some, decide_eq_true_eq] at h
    exact ⟨known, hknown, .inr h⟩

private theorem atCall_careful {kind : String} {args : Json}
    {step : Tick → CallId → Session → Exit × Session}
    (hstep : ∀ tick call, Careful id (step tick call)) :
    Careful id (Session.atCall c kind args step) := by
  intro s phase h
  have hissue : ∀ call rest, Tracked id phase (s.issue call rest) := by
    intro call rest
    have htape : Tracked id phase { s with tape := rest } := h.of_eq rfl rfl rfl
    exact (htape.note_other (.issued call) rfl).of_eq rfl rfl rfl
  rcases s.atCall_cases c kind args step with heq | ⟨tick, rest, _, hcase⟩
  · rw [heq]
    exact ⟨phase, h, .refl phase⟩
  · rcases hcase with ⟨prior, _, _, heq⟩ | ⟨_, heq⟩
    · rw [heq]
      exact ⟨phase, (hissue _ rest).note_other _ rfl, .refl phase⟩
    · rw [heq]
      exact hstep tick _ _ phase (hissue _ rest)

theorem effect_careful (kind : String) (args : Json) (idempotent : Bool)
    {fn : Session → Exit × Session} (hfn : Careful id fn) :
    Careful id (Session.effect c kind args idempotent fn) := by
  refine atCall_careful fun tick call s phase h => ?_
  by_cases hid : call.id = id
  · cases idempotent with
    | true =>
      have hrepeats : (Event.called call true (s.replyTo c call true)).deed id =
          some .repeats := by simp [Event.deed, hid]
      have hexempt : Phase.next id phase (.called call true (s.replyTo c call true)) =
          some .exempt := by
        rw [Phase.next_of_some hrepeats]
        cases phase <;> rfl
      have hnoted : Tracked id .exempt (s.note (.called call true (s.replyTo c call true))) :=
        h.note hexempt trivial
      obtain ⟨phase', hserved, hleads⟩ := hnoted.serve_own (c := c) hid true hfn (.inl rfl)
      exact ⟨phase', hserved, fun _ => .inr (hleads.2 rfl), fun _ => hleads.2 rfl⟩
    | false =>
      have hstart : phase = .exempt ∨ (s.replyTo c call false = .admitted →
          (phase ≠ .running ∧ phase ≠ .gone) ∧ s.intended call = false) := by
        refine .inr fun hadmit => ⟨⟨?_, ?_⟩, ?_⟩
        · rintro rfl
          exact replyTo_holds c (hid ▸ h.fits.1) hadmit
        · rintro rfl
          exact replyTo_holds c (hid ▸ h.fits.1) hadmit
        · by_contra hintended
          exact replyTo_holds c (intended_holds (by simpa using hintended)) hadmit
      have hcalled : Phase.next id phase (.called call false (s.replyTo c call false)) =
          some phase := by
        cases hreply : s.replyTo c call false with
        | admitted =>
          have hdeed : (Event.called call false .admitted).deed id = some .admitted := by
            simp [Event.deed, hid]
          rw [Phase.next_of_some hdeed]
          rcases hstart with rfl | hfresh
          · rfl
          · cases phase with
            | running => exact absurd rfl (hfresh hreply).1.1
            | gone => exact absurd rfl (hfresh hreply).1.2
            | fresh | raised noted | exempt => rfl
        | answered value | unresolved ref | orphaned =>
          exact Phase.next_of_none (by simp [Event.deed])
      exact Tracked.serve_own (c := c) hid false hfn (h.note hcalled h.fits) hstart
  · have hother : (Event.called call idempotent (s.replyTo c call idempotent)).deed id = none :=
      if_neg hid
    exact Tracked.serve_other hid idempotent hfn (h.note_other _ hother) _

theorem recordAtomic_careful (id kind : String) (args : Json) :
    Careful id (Session.recordAtomic c kind args) := by
  refine atCall_careful fun tick call s phase h => ?_
  refine ⟨phase, ?_, .refl phase⟩
  unfold Session.atomicStep
  cases (s.memory.known call.id).filter (·.state = .completed) with
  | some known =>
    simp only
    cases resolve c known <;> exact h
  | none =>
    cases hworld : tick.world with
    | raises failure | signals signal => exact h
    | returns value =>
      have hcommit := h.commit (r := .ok call (.value value) true) nofun
      simp only
      rcases hresult : s.commit (.ok call (.value value) true) with ⟨exit, t⟩
      rw [hresult] at hcommit
      cases exit with
      | value result =>
        by_cases hid : call.id = id
        · subst hid
          exact hcommit.setKnown_held (.inl rfl)
        · exact hcommit.setKnown_other _ hid
      | raised failure | signalled signal | cut => exact hcommit

private theorem goOn_careful {next : Answer → Session → Exit × Session}
    (hnext : ∀ answer, Careful id (next answer)) {phase phase' : Phase} {result : Exit × Session}
    (h : Tracked id phase' result.2) (hleads : phase.Leads phase') :
    ∃ last, Tracked id last (goOn call next result).2 ∧ phase.Leads last := by
  rcases goOn_cases call next result with ⟨answer, _, heq⟩ | ⟨_, heq⟩
  · rw [heq]
    have hobserved := h.note_other (.observed call answer) rfl
    obtain ⟨last, hrest, hleads'⟩ := hnext answer _ phase' hobserved
    exact ⟨last, hrest, hleads.trans hleads'⟩
  · rw [heq]
    exact ⟨phase', h, hleads⟩

theorem run_careful (c : Config) (id : String) (p : Prog) : Careful id (run c p) := by
  induction p with
  | done value | raise failure | interrupt signal =>
    exact fun s phase h => ⟨phase, h, .refl phase⟩
  | outside =>
    intro s phase h
    unfold run await
    cases s.tape with
    | nil => exact ⟨phase, h, .refl phase⟩
    | cons tick rest =>
      simp only
      cases tick.world <;> exact ⟨phase, h.of_eq rfl rfl rfl, .refl phase⟩
  | effect kind args idempotent body next ihBody ihNext =>
    intro s phase h
    obtain ⟨phase', hcall, hleads⟩ := effect_careful (c := c) kind args idempotent ihBody s phase h
    exact goOn_careful ihNext hcall hleads
  | atomic kind args next ihNext =>
    intro s phase h
    obtain ⟨phase', hcall, hleads⟩ := recordAtomic_careful (c := c) id kind args s phase h
    exact goOn_careful ihNext hcall hleads

end Substrate
