import Substrate.Stream.Session

/-!
Which session gets what from a thread's bridge. A session stops at the end marker of
another one that was cut off or refused, and takes what another's run has put there.
-/

namespace Substrate.Stream

open Lib List Function Option Bool

variable {ω : Type}

def BridgeEvent.known (event : BridgeEvent ω) : Bool := (bridgeEventToWire event none).isSome

theorem bridgeEventToWire_eq (event : BridgeEvent ω) (origin : Option Nat) :
    bridgeEventToWire event origin =
      if event.known = true then some (.bridge event origin) else none := by
  unfold BridgeEvent.known bridgeEventToWire
  split <;> rfl

namespace LogEntry

def toWire : LogEntry ω → Option (Wire ω)
  | .wire body _ => some (.log body)
  | .other => none

end LogEntry

namespace Wire

def fromAgent : Wire ω → Bool
  | .log _ | .board _ => true
  | _ => false

def ofRun (sid : Nat) : Wire ω → Option (BridgeEvent ω)
  | .bridge e origin => if origin = some sid then some e else none
  | _ => none

end Wire

namespace Queued

def toWire : Queued ω → Option (Wire ω)
  | .wire w => some w
  | .workersDone => none

end Queued

namespace Outgoing

def ofRun (sid : Nat) : Outgoing ω → Option (BridgeEvent ω)
  | .event e origin => if origin = some sid ∧ e.known = true then some e else none
  | .done _ => none

def owner : Outgoing ω → Option Nat
  | .event _ origin => origin
  | .done owner => some owner

end Outgoing

def own (sid : Nat) (out : List (Outgoing ω)) : List (BridgeEvent ω) :=
  out.filterMap (Outgoing.ofRun sid)

def Ordered (sid : Nat) : List (Outgoing ω) → Prop
  | [] => True
  | item :: rest => (item = .done sid → own sid rest = []) ∧ Ordered sid rest

namespace Session

variable (sid : Nat) (x : Session ω)

def shown : List (Wire ω) := x.yielded ++ x.queue.filterMap Queued.toWire

def logged : List (Wire ω) := x.entries.filterMap LogEntry.toWire ++ x.boards.map .board

def sent : List (Wire ω) :=
  (x.entries.take x.read).filterMap LogEntry.toWire ++ x.boards.map .board

def emittedKnown : List (BridgeEvent ω) := x.emitted.filter BridgeEvent.known

/-- A session shows its own run: the wire events of its log and what it has put on the
bridge, in order and each once. It stops reading only when the run has ended and everything
is yielded, and its terminal event says how the run has ended. -/
structure ShowsOwnRun : Prop where
  logged : x.yielded.filter Wire.fromAgent <+: x.logged
  emitted : x.yielded.filterMap (Wire.ofRun sid) <+: x.emittedKnown
  whole : x.phase ≠ .reading → x.yielded.filter Wire.fromAgent = x.logged ∧
    x.yielded.filterMap (Wire.ofRun sid) = x.emittedKnown
  ended : x.phase ≠ .reading → x.ending.isSome = true
  terminal : x.phase = .over → ∃ ending, x.ending = some ending ∧
    x.yielded.getLast? = some (.ending ending)

/-- The agent worker has come to the end of the log. -/
def Ended : Prop :=
  ∃ reason ending, x.agent = .ended reason ∧ x.read = x.entries.length ∧
    x.ending = some ending ∧ x.terminal reason = ending

/-- How far the session of a connected client is: the agent worker is at work, its end marker
is on the bridge, the marker has been taken, the queue has been read, the terminal event
yielded. -/
inductive Stands (out : List (Outgoing ω)) : Prop where
  | working (hagent : ∀ reason, x.agent ≠ .ended reason)
      (hfresh : x.agent = .starting → x.ending = none ∧ x.entries = [])
      (hrelay : x.relay = .running) (hphase : x.phase = .reading)
      (hqueue : .workersDone ∉ x.queue) (hout : .done sid ∉ out) (hboards : x.boards = [])
      (hsignaled : x.signaled = false) (herror : x.error = none)
  | relaying (hended : x.Ended) (hrelay : x.relay = .running) (hphase : x.phase = .reading)
      (hqueue : .workersDone ∉ x.queue) (hout : .done sid ∈ out)
  | draining (hended : x.Ended) (hrelay : x.relay ≠ .running) (hphase : x.phase = .reading)
      (hqueue : ∃ queue, x.queue = queue ++ [.workersDone] ∧ .workersDone ∉ queue)
      (hown : own sid out = [])
  | waiting (hended : x.Ended) (hrelay : x.relay ≠ .running) (hphase : x.phase = .awaiting)
      (hqueue : x.queue = []) (hown : own sid out = [])
  | closed (hended : x.Ended) (hrelay : x.relay ≠ .running) (hphase : x.phase = .over)
      (hqueue : x.queue = []) (hown : own sid out = [])
      (hlast : ∃ ending, x.ending = some ending ∧ x.yielded.getLast? = some (.ending ending))

/-- What is kept of the session of a connected client and of the queue of its bridge. -/
structure Sound (out : List (Outgoing ω)) : Prop where
  read : x.read ≤ x.entries.length
  sent : x.shown.filter Wire.fromAgent = x.sent
  emitted : x.shown.filterMap (Wire.ofRun sid) ++ own sid out = x.emittedKnown
  ordered : Ordered sid out
  stands : x.Stands sid out

end Session

section

variable {sid : Nat} {x : Session ω} {out : List (Outgoing ω)} {item : Outgoing ω}

theorem own_append (out' : List (Outgoing ω)) : own sid (out ++ out') = own sid out ++ own sid out' :=
  filterMap_append

theorem own_cons_none (h : item.ofRun sid = none) : own sid (item :: out) = own sid out :=
  filterMap_cons_none h

theorem ofRun_eq_none (h : item.owner ≠ some sid) : item.ofRun sid = none := by
  cases item with
  | done session => rfl
  | event event origin => exact if_neg fun hboth => h hboth.1

theorem ordered_append (h : Ordered sid out) (hitem : item.ofRun sid = none) :
    Ordered sid (out ++ [item]) := by
  induction out with
  | nil => exact ⟨fun _ => rfl, trivial⟩
  | cons first rest ih =>
    refine ⟨fun hfirst => ?_, ih h.2⟩
    change own sid (rest ++ [item]) = []
    rw [own_append, h.1 hfirst]
    exact own_cons_none hitem

theorem ordered_of_not_mem (h : .done sid ∉ out) : Ordered sid out := by
  induction out with
  | nil => trivial
  | cons first rest ih =>
    refine ⟨fun heq => ?_, ih fun hmem => h (mem_cons_of_mem _ hmem)⟩
    rw [heq] at h
    exact absurd mem_cons_self h

namespace Session

theorem Sound.append (h : x.Sound sid out) (hitem : item.owner ≠ some sid) :
    x.Sound sid (out ++ [item]) := by
  have hnone := ofRun_eq_none hitem
  have hown : own sid (out ++ [item]) = own sid out := by
    rw [own_append, own_cons_none hnone]
    exact append_nil _
  refine ⟨h.read, h.sent, ?_, ordered_append h.ordered hnone, ?_⟩
  · rw [hown]
    exact h.emitted
  · cases h.stands with
    | working hagent hfresh hrelay hphase hqueue hout hboards hsignaled herror =>
      refine .working hagent hfresh hrelay hphase hqueue ?_ hboards hsignaled herror
      intro hmem
      rcases mem_append.mp hmem with hmem | hmem
      · exact hout hmem
      · rw [← mem_singleton.mp hmem] at hitem
        exact hitem rfl
    | relaying hended hrelay hphase hqueue hout =>
      exact .relaying hended hrelay hphase hqueue (mem_append_left _ hout)
    | draining hended hrelay hphase hqueue hout =>
      exact .draining hended hrelay hphase hqueue (hown.trans hout)
    | waiting hended hrelay hphase hqueue hout =>
      exact .waiting hended hrelay hphase hqueue (hown.trans hout)
    | closed hended hrelay hphase hqueue hout hlast =>
      exact .closed hended hrelay hphase hqueue (hown.trans hout) hlast

theorem Sound.pop (h : x.Sound sid (item :: out)) (hitem : item.ofRun sid = none)
    (hdone : item = .done sid → x.relay ≠ .running) : x.Sound sid out := by
  have hown : own sid (item :: out) = own sid out := own_cons_none hitem
  refine ⟨h.read, h.sent, ?_, h.ordered.2, ?_⟩
  · rw [← hown]
    exact h.emitted
  · cases h.stands with
    | working hagent hfresh hrelay hphase hqueue hout hboards hsignaled herror =>
      exact .working hagent hfresh hrelay hphase hqueue (fun hmem => hout (.tail _ hmem))
        hboards hsignaled herror
    | relaying hended hrelay hphase hqueue hout =>
      refine .relaying hended hrelay hphase hqueue ?_
      rcases mem_cons.mp hout with heq | hmem
      · exact absurd hrelay (hdone heq.symm)
      · exact hmem
    | draining hended hrelay hphase hqueue hout =>
      exact .draining hended hrelay hphase hqueue (hown.symm.trans hout)
    | waiting hended hrelay hphase hqueue hout =>
      exact .waiting hended hrelay hphase hqueue (hown.symm.trans hout)
    | closed hended hrelay hphase hqueue hout hlast =>
      exact .closed hended hrelay hphase hqueue (hown.symm.trans hout) hlast

theorem shown_enqueue (wire : Wire ω) : (x.enqueue wire).shown = x.shown ++ [wire] := by
  unfold enqueue shown
  rw [filterMap_append, append_assoc]
  rfl

theorem sound_init {bridge : Nat} (h : ∀ item ∈ out, item.owner ≠ some sid) :
    (init bridge).Sound sid out := by
  have hown : own sid out = [] :=
    filterMap_eq_nil_iff.mpr fun item hitem => ofRun_eq_none (h item hitem)
  have hdone : .done sid ∉ out := fun hmem => h _ hmem rfl
  refine ⟨Nat.le_refl _, rfl, ?_, ordered_of_not_mem hdone, ?_⟩
  · rw [hown]
    rfl
  · exact .working nofun (fun _ => ⟨rfl, rfl⟩) rfl rfl nofun
      hdone rfl rfl rfl

theorem Sound.endAgent {b : Bridge ω} {reason : String} {ending : Ending}
    (hread : x.read = x.entries.length) (hending : x.ending = some ending)
    (hterminal : x.terminal reason = ending)
    (hsent : x.shown.filter Wire.fromAgent = x.sent)
    (hemitted : x.shown.filterMap (Wire.ofRun sid) ++ own sid b.outgoing = x.emittedKnown)
    (hout : .done sid ∉ b.outgoing) (hrelay : x.relay = .running) (hphase : x.phase = .reading)
    (hqueue : .workersDone ∉ x.queue) (hsignaled : x.signaled = false) :
    (x.endAgent sid b reason).1.Sound sid (x.endAgent sid b reason).2.outgoing := by
  have hput : (x.endAgent sid b reason).2.outgoing = b.outgoing ++ [.done sid] := by
    unfold Session.endAgent signalDone
    rw [if_neg (by rw [hsignaled]; exact false_ne_true)]
    rfl
  rw [hput]
  refine ⟨Nat.le_of_eq hread, hsent, ?_, ordered_append (ordered_of_not_mem hout) rfl, ?_⟩
  · rw [own_append]
    change _ ++ (_ ++ []) = _
    rw [append_nil]
    exact hemitted
  · exact .relaying ⟨reason, ending, rfl, hread, hending, hterminal⟩ hrelay hphase hqueue
      (mem_append_right _ mem_cons_self)

theorem Sound.refused {b : Bridge ω} {error : String} (h : x.Sound sid b.outgoing)
    (hstart : x.agent = .starting) :
    ({ x with ending := some (.failed error), error := some error }.endAgent sid b "error").1.Sound
      sid ({ x with ending := some (.failed error), error := some error }.endAgent
        sid b "error").2.outgoing := by
  cases h.stands with
  | working hagent hfresh hrelay hphase hqueue hout hboards hsignaled herror =>
    have hentries := (hfresh hstart).2
    refine Sound.endAgent ?_ rfl rfl h.sent h.emitted hout hrelay hphase hqueue hsignaled
    have hread := h.read
    rw [hentries] at hread ⊢
    exact Nat.le_zero.mp hread
  | relaying hended | draining hended | waiting hended | closed hended =>
    obtain ⟨_, _, hagent, _⟩ := hended
    rw [hstart] at hagent
    cases hagent

theorem Sound.tailing (h : x.Sound sid out) (htailing : x.agent = .tailing) :
    x.relay = .running ∧ x.phase = .reading ∧ .workersDone ∉ x.queue ∧ .done sid ∉ out ∧
      x.boards = [] ∧ x.signaled = false ∧ x.error = none := by
  cases h.stands with
  | working hagent hfresh hrelay hphase hqueue hout hboards hsignaled herror =>
    exact ⟨hrelay, hphase, hqueue, hout, hboards, hsignaled, herror⟩
  | relaying hended | draining hended | waiting hended | closed hended =>
    obtain ⟨_, _, hagent, _⟩ := hended
    rw [htailing] at hagent
    cases hagent

theorem Sound.working (h : x.Sound sid out) (htailing : x.agent = .tailing) (y : Session ω)
    (hagent : y.agent = x.agent) (hrelay : y.relay = x.relay) (hphase : y.phase = x.phase)
    (hqueue : y.queue = x.queue) (hboards : y.boards = x.boards)
    (hsignaled : y.signaled = x.signaled) (herror : y.error = x.error) : y.Stands sid out := by
  obtain ⟨hrelay', hphase', hqueue', hout, hboards', hsignaled', herror'⟩ := h.tailing htailing
  rw [← hqueue] at hqueue'
  refine .working ?_ ?_ (hrelay.trans hrelay') (hphase.trans hphase') hqueue' hout
    (hboards.trans hboards') (hsignaled.trans hsignaled') (herror.trans herror')
  · intro reason heq
    rw [hagent, htailing] at heq
    cases heq
  · intro heq
    rw [hagent, htailing] at heq
    cases heq

theorem Sound.logs {entry : LogEntry ω} (h : x.Sound sid out) (htailing : x.agent = .tailing) :
    { x with entries := x.entries ++ [entry] }.Sound sid out := by
  refine ⟨?_, ?_, h.emitted, h.ordered, h.working htailing _ rfl rfl rfl rfl rfl rfl rfl⟩
  · exact Nat.le_trans h.read (by simp)
  · unfold Session.sent
    rw [take_append_of_le_length h.read]
    exact h.sent

theorem Sound.puts {event : BridgeEvent ω} (h : x.Sound sid out) (htailing : x.agent = .tailing) :
    { x with emitted := x.emitted ++ [event] }.Sound sid
      (out ++ [Outgoing.event event (some sid)]) := by
  obtain ⟨hrelay, hphase, hqueue, hout, hboards, hsignaled, herror⟩ := h.tailing htailing
  have hdone : .done sid ∉ out ++ [Outgoing.event event (some sid)] := by
    intro hmem
    rcases mem_append.mp hmem with hmem | hmem
    · exact hout hmem
    · cases mem_singleton.mp hmem
  refine ⟨h.read, h.sent, ?_, ordered_of_not_mem hdone, ?_⟩
  · have hemitted := h.emitted
    unfold emittedKnown at *
    rw [own_append, ← append_assoc, filter_append]
    change (x.shown.filterMap (Wire.ofRun sid) ++ own sid out) ++ _ = _
    rw [hemitted]
    congr 1
    unfold own
    cases hknown : event.known <;> simp [Outgoing.ofRun, hknown]
  · refine .working ?_ ?_ hrelay hphase hqueue hdone hboards hsignaled herror
    · intro reason heq
      rw [htailing] at heq
      cases heq
    · intro heq
      rw [htailing] at heq
      cases heq

theorem sent_succ {entry : LogEntry ω} (hentry : x.entries[x.read]? = some entry)
    (hboards : x.boards = []) :
    { x with read := x.read + 1 }.sent = x.sent ++ entry.toWire.toList := by
  unfold sent
  simp only [hboards, map_nil, append_nil, take_add_one, hentry,
    toList_some, filterMap_append]
  cases entry <;> rfl

theorem Sound.advance {x' : Session ω} {entry : LogEntry ω} (h : x.Sound sid out)
    (htailing : x.agent = .tailing) (hentry : x.entries[x.read]? = some entry)
    (hx : x' = (entry.toWire.elim x x.enqueue)) :
    { x' with read := x'.read + 1 }.Sound sid out := by
  obtain ⟨hrelay, hphase, hqueue, hout, hboards, hsignaled, herror⟩ := h.tailing htailing
  have hlt := (List.getElem?_eq_some_iff.mp hentry).1
  have hsent := sent_succ hentry hboards
  have hworking : ∀ y : Session ω, y.agent = x.agent → y.relay = x.relay → y.phase = x.phase →
      .workersDone ∉ y.queue → y.boards = x.boards → y.signaled = x.signaled →
      y.error = x.error → y.Stands sid out := by
    intro y hagent hrelay' hphase' hqueue' hboards' hsignaled' herror'
    refine .working ?_ ?_ (hrelay'.trans hrelay) (hphase'.trans hphase) hqueue' hout
      (hboards'.trans hboards) (hsignaled'.trans hsignaled) (herror'.trans herror)
    · intro reason heq
      rw [hagent, htailing] at heq
      cases heq
    · intro heq
      rw [hagent, htailing] at heq
      cases heq
  cases entry with
  | other =>
    obtain rfl : x' = x := hx
    refine ⟨hlt, ?_, h.emitted, h.ordered, hworking _ rfl rfl rfl hqueue rfl rfl rfl⟩
    rw [hsent]
    exact h.sent.trans (append_nil _).symm
  | wire body request =>
    obtain rfl : x' = x.enqueue (.log body) := hx
    refine ⟨hlt, ?_, ?_, h.ordered, hworking _ rfl rfl rfl ?_ rfl rfl rfl⟩
    · change (x.enqueue (.log body)).shown.filter Wire.fromAgent =
        { x with read := x.read + 1 }.sent
      rw [hsent, shown_enqueue, filter_append, h.sent]
      rfl
    · change (x.enqueue (.log body)).shown.filterMap _ ++ _ = _
      rw [shown_enqueue, filterMap_append]
      change (_ ++ []) ++ _ = _
      rw [append_nil]
      exact h.emitted
    · intro hmem
      rcases mem_append.mp hmem with hmem | hmem
      · exact hqueue hmem
      · cases mem_singleton.mp hmem

theorem registerSignalRequest_outgoing (b : Bridge ω) (request : Option String) :
    (b.registerSignalRequest request).outgoing = b.outgoing := by
  cases request <;> rfl

theorem shown_boards (boards : List ω) :
    { x with
      boards := boards
      queue := x.queue ++ boards.map fun board => Queued.wire (Wire.board board) }.shown =
      x.shown ++ boards.map Wire.board := by
  unfold shown
  rw [filterMap_append, ← append_assoc, filterMap_map]
  congr 1
  exact congrFun filterMap_eq_map boards

theorem filter_boards (boards : List ω) :
    (boards.map Wire.board).filter Wire.fromAgent = boards.map Wire.board := by
  apply filter_eq_self.mpr
  intro wire hwire
  obtain ⟨_, _, rfl⟩ := mem_map.mp hwire
  rfl

theorem filterMap_boards (boards : List ω) :
    (boards.map Wire.board).filterMap (Wire.ofRun sid) = [] := by
  apply filterMap_eq_nil_iff.mpr
  intro wire hwire
  obtain ⟨_, _, rfl⟩ := mem_map.mp hwire
  rfl

theorem Sound.tail {b b' : Bridge ω} {x' : Session ω} {boards : List ω}
    (h : x.Sound sid b.outgoing) (hstep : x.tail sid b boards = some (x', b')) :
    x'.Sound sid b'.outgoing := by
  unfold Session.tail at hstep
  split at hstep
  · rename_i body request htailing hentry
    cases hstep
    rw [registerSignalRequest_outgoing]
    exact h.advance htailing hentry rfl
  · rename_i htailing hentry
    cases hstep
    exact h.advance htailing hentry rfl
  · rename_i htailing hentry
    obtain ⟨hrelay, hphase, hqueue, hout, hboards, hsignaled, herror⟩ := h.tailing htailing
    have hread : x.read = x.entries.length := by
      have hle := h.read
      have hge := List.getElem?_eq_none_iff.mp hentry
      omega
    split at hstep
    · rename_i hending
      cases hstep
      refine Sound.endAgent hread hending ?_ ?_ ?_ hout hrelay hphase ?_ hsignaled
      · unfold terminal
        rw [herror]
        rfl
      · rw [shown_boards, filter_append, h.sent]
        unfold Session.sent
        rw [hboards, filter_boards, map_nil, append_nil]
      · rw [shown_boards, filterMap_append, filterMap_boards, append_nil]
        exact h.emitted
      · intro hmem
        rcases mem_append.mp hmem with hmem | hmem
        · exact hqueue hmem
        · obtain ⟨_, _, heq⟩ := mem_map.mp hmem
          cases heq
    · rename_i error hending
      cases hstep
      exact Sound.endAgent hread hending rfl h.sent h.emitted hout hrelay hphase hqueue hsignaled
    · rename_i hending
      cases hstep
      refine Sound.endAgent hread hending ?_ h.sent h.emitted hout hrelay hphase hqueue hsignaled
      unfold terminal
      rw [herror]
      rfl
    · cases hstep
  · cases hstep

theorem Sound.enqueue {event : BridgeEvent ω} {origin : Option Nat}
    (h : x.Sound sid (.event event origin :: out)) (hrelay : x.relay = .running)
    (hknown : event.known = true) : (x.enqueue (.bridge event origin)).Sound sid out := by
  have hqueue : .workersDone ∉ x.queue →
      .workersDone ∉ (x.enqueue (.bridge event origin)).queue := by
    intro hmark hmem
    rcases mem_append.mp hmem with hmem | hmem
    · exact hmark hmem
    · cases mem_singleton.mp hmem
  refine ⟨h.read, ?_, ?_, h.ordered.2, ?_⟩
  · rw [shown_enqueue, filter_append, h.sent]
    exact append_nil _
  · have hemitted := h.emitted
    rw [shown_enqueue, filterMap_append]
    by_cases hmine : origin = some sid
    · have hitem : (Outgoing.event event origin).ofRun sid = some event := if_pos ⟨hmine, hknown⟩
      have hwire : (Wire.bridge event origin).ofRun sid = some event := if_pos hmine
      unfold own at hemitted
      rw [filterMap_cons_some hitem] at hemitted
      rw [filterMap_cons_some hwire, append_assoc]
      exact hemitted
    · have hitem : (Outgoing.event event origin).ofRun sid = none :=
        if_neg fun hboth => hmine hboth.1
      have hwire : (Wire.bridge event origin).ofRun sid = none := if_neg hmine
      rw [own_cons_none hitem] at hemitted
      rw [filterMap_cons_none hwire, filterMap_nil, append_nil]
      exact hemitted
  · cases h.stands with
    | working hagent hfresh _ hphase hmark hout hboards hsignaled herror =>
      exact .working hagent hfresh hrelay hphase (hqueue hmark) (fun hmem => hout (.tail _ hmem))
        hboards hsignaled herror
    | relaying hended _ hphase hmark hout =>
      refine .relaying hended hrelay hphase (hqueue hmark) ?_
      rcases mem_cons.mp hout with heq | hmem
      · cases heq
      · exact hmem
    | draining _ hstopped | waiting _ hstopped | closed _ hstopped => exact absurd hrelay hstopped

theorem Sound.relayNext {b b' : Bridge ω} {x' : Session ω} (h : x.Sound sid b.outgoing)
    (hdone : ∀ owner rest, b.outgoing = .done owner :: rest → owner ≠ sid →
      (∃ reason, x.agent = .ended reason) ∧ own sid rest = [])
    (hstep : x.relayNext b = some (x', b')) : x'.Sound sid b'.outgoing := by
  unfold Session.relayNext at hstep
  split at hstep
  · rename_i owner rest hrelay hout
    cases hstep
    rw [hout] at h
    have hended : x.Ended ∧ x.phase = .reading ∧ .workersDone ∉ x.queue ∧ own sid rest = [] := by
      cases h.stands with
      | working hagent hfresh _ hphase hqueue hmem =>
        by_cases hmine : owner = sid
        · rw [hmine] at hmem
          exact absurd mem_cons_self hmem
        · obtain ⟨⟨reason, hreason⟩, _⟩ := hdone owner rest hout hmine
          exact absurd hreason (hagent reason)
      | relaying hended _ hphase hqueue =>
        refine ⟨hended, hphase, hqueue, ?_⟩
        by_cases hmine : owner = sid
        · rw [hmine] at h
          exact h.ordered.1 rfl
        · exact (hdone owner rest hout hmine).2
      | draining _ hstopped | waiting _ hstopped | closed _ hstopped =>
        exact absurd hrelay hstopped
    obtain ⟨hended, hphase, hqueue, hown⟩ := hended
    have hshown : (x.queue ++ [Queued.workersDone]).filterMap Queued.toWire =
        x.queue.filterMap Queued.toWire := by
      rw [filterMap_append]
      exact append_nil _
    refine ⟨h.read, ?_, ?_, h.ordered.2, ?_⟩
    · unfold shown
      rw [hshown]
      exact h.sent
    · unfold shown
      rw [hshown]
      exact h.emitted
    · exact .draining hended nofun hphase ⟨x.queue, rfl, hqueue⟩ hown
  · rename_i event origin rest hrelay hout
    cases hstep
    rw [hout] at h
    rw [bridgeEventToWire_eq]
    split
    · rename_i hknown
      exact h.enqueue hrelay hknown
    · rename_i hunknown
      exact h.pop (if_neg fun hboth => hunknown hboth.2) nofun
  · cases hstep

theorem Sound.take {x' : Session ω} (h : x.Sound sid out) (hstep : x.take = some x') :
    x'.Sound sid out := by
  unfold Session.take at hstep
  split at hstep
  · rename_i wire queue hphase hqueue
    cases hstep
    have hshown : (x.yielded ++ [wire]) ++ queue.filterMap Queued.toWire = x.shown := by
      unfold shown
      rw [hqueue, append_assoc]
      rfl
    refine ⟨h.read, ?_, ?_, h.ordered, ?_⟩
    · change List.filter _ (_ ++ _) = _
      rw [hshown]
      exact h.sent
    · change List.filterMap _ (_ ++ _) ++ _ = _
      rw [hshown]
      exact h.emitted
    · cases h.stands with
      | working hagent hfresh hrelay _ hmark hout hboards hsignaled herror =>
        rw [hqueue] at hmark
        exact .working hagent hfresh hrelay hphase (fun hmem => hmark (.tail _ hmem)) hout
          hboards hsignaled herror
      | relaying hended hrelay _ hmark hout =>
        rw [hqueue] at hmark
        exact .relaying hended hrelay hphase (fun hmem => hmark (.tail _ hmem)) hout
      | draining hended hrelay _ hmark hown =>
        obtain ⟨before, heq, hmark⟩ := hmark
        rw [hqueue] at heq
        cases before with
        | nil => cases heq
        | cons first rest =>
          cases heq
          exact .draining hended hrelay hphase ⟨rest, rfl, fun hmem => hmark (.tail _ hmem)⟩
            hown
      | waiting _ _ hphase' | closed _ _ hphase' =>
        rw [hphase] at hphase'
        cases hphase'
  · rename_i queue hphase hqueue
    cases hstep
    have hshown : x.yielded ++ queue.filterMap Queued.toWire = x.shown := by
      unfold shown
      rw [hqueue]
      rfl
    refine ⟨h.read, ?_, ?_, h.ordered, ?_⟩
    · change List.filter _ (_ ++ _) = _
      rw [hshown]
      exact h.sent
    · change List.filterMap _ (_ ++ _) ++ _ = _
      rw [hshown]
      exact h.emitted
    · cases h.stands with
      | working _ _ _ _ hmark | relaying _ _ _ hmark =>
        rw [hqueue] at hmark
        exact absurd mem_cons_self hmark
      | draining hended hrelay _ hmark hown =>
        obtain ⟨before, heq, hmark⟩ := hmark
        rw [hqueue] at heq
        cases before with
        | nil =>
          cases heq
          exact .waiting hended hrelay rfl rfl hown
        | cons first rest =>
          cases heq
          exact absurd mem_cons_self hmark
      | waiting _ _ hphase' | closed _ _ hphase' =>
        rw [hphase] at hphase'
        cases hphase'
  · cases hstep

theorem Sound.finish {x' : Session ω} (h : x.Sound sid out) (hstep : x.finish = some x') :
    x'.Sound sid out := by
  unfold Session.finish at hstep
  split at hstep
  · rename_i reason hphase hagent
    cases hstep
    cases h.stands with
    | working _ _ _ hphase' | relaying _ _ hphase' | draining _ _ hphase' | closed _ _ hphase' =>
      rw [hphase] at hphase'
      cases hphase'
    | waiting hended hrelay _ hqueue hown =>
      obtain ⟨reason', ending, hagent', hread, hending, hterminal⟩ := hended
      rw [hagent] at hagent'
      cases hagent'
      have hshown : x.shown = x.yielded := by
        unfold shown
        rw [hqueue]
        exact append_nil _
      have hsent := h.sent
      have hemitted := h.emitted
      rw [hshown] at hsent hemitted
      refine ⟨h.read, ?_, ?_, h.ordered, ?_⟩
      · unfold shown
        rw [hqueue]
        change List.filter _ ((_ ++ [_]) ++ []) = _
        rw [append_nil, filter_append, hsent]
        exact append_nil _
      · unfold shown
        rw [hqueue]
        change List.filterMap _ ((_ ++ [_]) ++ []) ++ _ = _
        rw [append_nil, filterMap_append]
        change (_ ++ []) ++ _ = _
        rw [append_nil]
        exact hemitted
      · refine .closed ⟨reason, ending, hagent, hread, hending, hterminal⟩ ?_ rfl hqueue hown ?_
        · unfold cancelRelay
          split <;> nofun
        · refine ⟨ending, hending, ?_⟩
          rw [hterminal]
          exact List.getLast?_concat
  · cases hstep

theorem endAgent_outgoing (sid : Nat) (x : Session ω) (b : Bridge ω) (reason : String) :
    (x.endAgent sid b reason).2.outgoing = b.outgoing ∨
      (x.endAgent sid b reason).2.outgoing = b.outgoing ++ [.done sid] := by
  unfold Session.endAgent signalDone
  split
  · exact Or.inl rfl
  · exact Or.inr rfl

/-- What an event does to the queue of the bridge. -/
def Handles (sid : Nat) (event : Event ω) (b b' : Bridge ω) : Prop :=
  b'.outgoing = b.outgoing ∨
    (∃ item : Outgoing ω, item.owner = some sid ∧ b'.outgoing = b.outgoing ++ [item]) ∨
      (event = .relay ∧ ∃ item, b.outgoing = item :: b'.outgoing)

theorem handles_endAgent {b : Bridge ω} (event : Event ω) (reason : String) :
    Handles sid event b (x.endAgent sid b reason).2 := by
  rcases endAgent_outgoing sid x b reason with hsame | hput
  · exact Or.inl hsame
  · exact Or.inr (Or.inl ⟨.done sid, rfl, hput⟩)

theorem step_frame {b b' : Bridge ω} {x' : Session ω} {event : Event ω}
    (hstep : x.step sid b event = some (x', b')) :
    x'.bridge = x.bridge ∧ (x'.connected = true → x.connected = true) ∧
      Handles sid event b b' := by
  cases event with
  | refused error =>
    change ite _ _ _ = _ at hstep
    split at hstep
    · cases hstep
      exact ⟨rfl, id, handles_endAgent _ ""⟩
    · cases hstep
  | submitted | logs entry | ends ending | close =>
    change ite _ _ _ = _ at hstep
    split at hstep
    · cases hstep
      exact ⟨rfl, id, Or.inl rfl⟩
    · cases hstep
  | puts event request =>
    change ite _ _ _ = _ at hstep
    split at hstep
    · cases hstep
      exact ⟨rfl, id, Or.inr (Or.inl ⟨.event event (some sid), rfl, rfl⟩)⟩
    · cases hstep
  | tail boards =>
    change x.tail sid b boards = _ at hstep
    unfold Session.tail at hstep
    split at hstep
    · cases hstep
      exact ⟨rfl, id, Or.inl (registerSignalRequest_outgoing b _)⟩
    · cases hstep
      exact ⟨rfl, id, Or.inl rfl⟩
    · split at hstep
      · cases hstep
        exact ⟨rfl, id, handles_endAgent _ ""⟩
      · cases hstep
        exact ⟨rfl, id, handles_endAgent _ ""⟩
      · cases hstep
        exact ⟨rfl, id, handles_endAgent _ ""⟩
      · cases hstep
    · cases hstep
  | relay =>
    change x.relayNext b = _ at hstep
    unfold Session.relayNext at hstep
    split at hstep
    · rename_i hout
      cases hstep
      exact ⟨rfl, id, Or.inr (Or.inr ⟨rfl, _, hout⟩)⟩
    · rename_i event origin rest _ hout
      cases hstep
      refine ⟨?_, ?_, Or.inr (Or.inr ⟨rfl, _, hout⟩)⟩
      · cases bridgeEventToWire event origin <;> rfl
      · cases bridgeEventToWire event origin <;> exact id
    · cases hstep
  | take =>
    obtain ⟨y, hy, heq⟩ := map_eq_some_iff.mp hstep
    cases heq
    unfold Session.take at hy
    split at hy
    · cases hy
      exact ⟨rfl, id, Or.inl rfl⟩
    · cases hy
      exact ⟨rfl, id, Or.inl rfl⟩
    · cases hy
  | finish =>
    obtain ⟨y, hy, heq⟩ := map_eq_some_iff.mp hstep
    cases heq
    unfold Session.finish at hy
    split at hy
    · cases hy
      exact ⟨rfl, id, Or.inl rfl⟩
    · cases hy
  | disconnects =>
    cases hstep
    refine ⟨rfl, ?_, Or.inl rfl⟩
    exact fun hc => absurd hc false_ne_true
  | checkDisconnect =>
    change ite _ _ _ = _ at hstep
    split at hstep
    · cases hstep
      refine ⟨rfl, id, ?_⟩
      rcases endAgent_outgoing sid x b.cancelAllPending "" with hsame | hput
      · exact Or.inl hsame
      · exact Or.inr (Or.inl ⟨.done sid, rfl, hput⟩)
    · cases hstep

theorem Sound.step {b b' : Bridge ω} {x' : Session ω} {event : Event ω}
    (h : x.connected = true → x.Sound sid b.outgoing)
    (hdone : event = .relay → x.connected = true → ∀ owner rest,
      b.outgoing = .done owner :: rest → owner ≠ sid →
      (∃ reason, x.agent = .ended reason) ∧ own sid rest = [])
    (hstep : x.step sid b event = some (x', b')) (hconnected : x'.connected = true) :
    x'.Sound sid b'.outgoing := by
  have hbefore := (step_frame hstep).2.1 hconnected
  have hsound := h hbefore
  cases event with
  | refused error =>
    change ite _ _ _ = _ at hstep
    split at hstep
    · rename_i hstart
      cases hstep
      exact hsound.refused hstart
    · cases hstep
  | submitted =>
    change ite _ _ _ = _ at hstep
    split at hstep
    · rename_i hstart
      cases hstep
      refine ⟨hsound.read, hsound.sent, hsound.emitted, hsound.ordered, ?_⟩
      cases hsound.stands with
      | working hagent hfresh hrelay hphase hqueue hout hboards hsignaled herror =>
        exact .working nofun nofun hrelay hphase hqueue
          hout hboards hsignaled herror
      | relaying hended | draining hended | waiting hended | closed hended =>
        obtain ⟨_, _, hagent, _⟩ := hended
        rw [hstart] at hagent
        cases hagent
    · cases hstep
  | logs entry =>
    change ite _ _ _ = _ at hstep
    split at hstep
    · rename_i htailing
      cases hstep
      exact hsound.logs htailing.1
    · cases hstep
  | ends ending =>
    change ite _ _ _ = _ at hstep
    split at hstep
    · rename_i htailing
      cases hstep
      exact ⟨hsound.read, hsound.sent, hsound.emitted, hsound.ordered,
        hsound.working htailing.1 _ rfl rfl rfl rfl rfl rfl rfl⟩
    · cases hstep
  | puts event request =>
    change ite _ _ _ = _ at hstep
    split at hstep
    · rename_i htailing
      cases hstep
      exact hsound.puts htailing.1
    · cases hstep
  | tail boards => exact hsound.tail hstep
  | relay => exact hsound.relayNext (hdone rfl hbefore) hstep
  | take =>
    obtain ⟨y, hy, heq⟩ := map_eq_some_iff.mp hstep
    cases heq
    exact hsound.take hy
  | finish =>
    obtain ⟨y, hy, heq⟩ := map_eq_some_iff.mp hstep
    cases heq
    exact hsound.finish hy
  | disconnects =>
    cases hstep
    cases hconnected
  | checkDisconnect =>
    change ite _ _ _ = _ at hstep
    split at hstep
    · rename_i hgone
      cases hstep
      exact absurd (hgone.1.symm.trans hconnected) false_ne_true
    · cases hstep
  | close =>
    change ite _ _ _ = _ at hstep
    split at hstep
    · rename_i hgone
      cases hstep
      exact absurd (hgone.symm.trans hconnected) false_ne_true
    · cases hstep

theorem Sound.showsOwnRun (h : x.Sound sid out) : x.ShowsOwnRun sid := by
  have hprefix : x.yielded <+: x.shown := prefix_append ..
  have hlogged : x.sent <+: x.logged := by
    cases h.stands with
    | working _ _ _ _ _ _ hboards =>
      unfold Session.sent Session.logged
      rw [hboards]
      simp only [map_nil, append_nil]
      exact ( take_prefix ..).filterMap _
    | relaying hended | draining hended | waiting hended | closed hended =>
      obtain ⟨_, _, _, hread, _⟩ := hended
      have hsent : x.sent = x.logged := by
        unfold Session.sent Session.logged
        rw [hread, take_length]
      exact hsent ▸ prefix_refl x.sent
  have hpast : x.phase ≠ .reading → x.Ended ∧ x.queue = [] ∧ own sid out = [] := by
    intro hphase
    cases h.stands with
    | working _ _ _ hreading | relaying _ _ hreading | draining _ _ hreading =>
      exact absurd hreading hphase
    | waiting hended _ _ hqueue hown | closed hended _ _ hqueue hown =>
      exact ⟨hended, hqueue, hown⟩
  refine ⟨?_, ?_, ?_, ?_, ?_⟩
  · have hsent := hprefix.filter Wire.fromAgent
    rw [h.sent] at hsent
    exact hsent.trans hlogged
  · have hemitted := hprefix.filterMap (Wire.ofRun sid)
    rw [← h.emitted]
    exact hemitted.trans (prefix_append ..)
  · intro hphase
    obtain ⟨⟨_, _, _, hread, _⟩, hqueue, hown⟩ := hpast hphase
    have hshown : x.shown = x.yielded := by
      unfold shown
      rw [hqueue]
      exact append_nil _
    have hsent := h.sent
    have hemitted := h.emitted
    rw [hshown] at hsent hemitted
    rw [hown, append_nil] at hemitted
    refine ⟨?_, hemitted⟩
    rw [hsent]
    unfold Session.sent Session.logged
    rw [hread, take_length]
  · intro hphase
    obtain ⟨⟨_, ending, _, _, hending, _⟩, _⟩ := hpast hphase
    rw [hending]
    rfl
  · intro hphase
    cases h.stands with
    | working _ _ _ hphase' | relaying _ _ hphase' | draining _ _ hphase' | waiting _ _ hphase' =>
      rw [hphase] at hphase'
      cases hphase'
    | closed _ _ _ _ _ hlast => exact hlast

theorem Sound.live {b : Bridge ω} (h : x.Sound sid b.outgoing) (hended : x.ending.isSome = true)
    (hphase : x.phase ≠ .over) :
    ∃ event, (event = .relay ∨ event = .take ∨ event = .finish ∨ event = .tail []) ∧
      (x.step sid b event).isSome = true := by
  cases h.stands with
  | working hagent hfresh hrelay hreading =>
    refine ⟨.tail [], by simp, ?_⟩
    change (x.tail sid b []).isSome = true
    have htailing : x.agent = .tailing := by
      cases hcase : x.agent with
      | starting =>
        rw [(hfresh hcase).1] at hended
        cases hended
      | tailing => rfl
      | ended reason => exact absurd hcase (hagent reason)
    unfold Session.tail
    rw [htailing]
    cases x.entries[x.read]? with
    | some entry => cases entry <;> rfl
    | none =>
      cases hcase : x.ending with
      | none =>
        rw [hcase] at hended
        cases hended
      | some ending => cases ending <;> rfl
  | relaying _ hrelay _ _ hout =>
    refine ⟨.relay, by simp, ?_⟩
    change (x.relayNext b).isSome = true
    unfold Session.relayNext
    rw [hrelay]
    cases hcase : b.outgoing with
    | nil =>
      rw [hcase] at hout
      cases hout
    | cons item rest => cases item <;> rfl
  | draining _ _ hreading hqueue =>
    obtain ⟨before, hqueue, _⟩ := hqueue
    refine ⟨.take, by simp, ?_⟩
    change (x.take.map _).isSome = true
    unfold Session.take
    rw [hreading, hqueue]
    cases before with
    | nil => rfl
    | cons item rest => cases item <;> rfl
  | waiting hdone _ hwaiting =>
    obtain ⟨reason, _, hagent, _⟩ := hdone
    refine ⟨.finish, by simp, ?_⟩
    change (x.finish.map _).isSome = true
    unfold Session.finish
    rw [hwaiting, hagent]
    rfl
  | closed _ _ hover => exact absurd hover hphase

end Session

end

namespace World

variable (s : World ω)

/-- Each session whose client is there shows its own run, and after the run has ended it can
go on until it has yielded its terminal event. -/
def Faithful : Prop :=
  ∀ sid x, s.sessions sid = some x → x.connected = true → x.ShowsOwnRun sid ∧
    (x.ending.isSome = true → x.phase ≠ .over →
      ∃ event, (event = .relay ∨ event = .take ∨ event = .finish ∨ event = .tail []) ∧
        (x.step sid (s.bridges x.bridge) event).isSome = true)

/-- The moves that do no harm. What a bridge worker takes of another session's is not an
event or an end marker that the other still needs, and it does not take an end marker of
another one before its own run has ended and all events of the run are taken. -/
def Meets : Action ω → Prop
  | .session sid .relay => ∀ x item rest owner, s.sessions sid = some x →
      (s.bridges x.bridge).outgoing = item :: rest → item.owner = some owner → owner ≠ sid →
      (∀ y, s.sessions owner = some y → y.connected = true →
        item.ofRun owner = none ∧ (item = .done owner → y.relay ≠ .running)) ∧
      (item = .done owner → x.connected = true →
        (∃ reason, x.agent = .ended reason) ∧ own sid rest = [])
  | _ => True

structure Inv : Prop where
  sound : ∀ sid x, s.sessions sid = some x → x.connected = true →
    x.Sound sid (s.bridges x.bridge).outgoing
  opened : ∀ sid x, s.sessions sid = some x → sid < s.opened ∧ x.bridge < s.made
  owners : ∀ bridge item owner, item ∈ (s.bridges bridge).outgoing → item.owner = some owner →
    owner < s.opened
  registry : ∀ bridge, s.registry = some bridge → bridge < s.made

variable {s}

theorem Inv.faithful (h : s.Inv) : s.Faithful := by
  intro sid x hx hconnected
  have hsound := h.sound sid x hx hconnected
  exact ⟨hsound.showsOwnRun, hsound.live⟩

theorem Inv.setBridge (h : s.Inv) {bridge : Nat} {b : Bridge ω}
    (hout : b.outgoing = (s.bridges bridge).outgoing) :
    { s with bridges := update s.bridges bridge b }.Inv := by
  have hsame : ∀ other, (update s.bridges bridge b other).outgoing =
      (s.bridges other).outgoing := by
    intro other
    rcases eq_or_ne other bridge with rfl | hne
    · rw [update_self]
      exact hout
    · rw [update_of_ne hne]
  refine ⟨?_, h.opened, ?_, h.registry⟩
  · intro sid x hx hconnected
    change x.Sound sid (update s.bridges bridge b x.bridge).outgoing
    rw [hsame]
    exact h.sound sid x hx hconnected
  · intro other item owner hitem
    change item ∈ (update s.bridges bridge b other).outgoing at hitem
    rw [hsame] at hitem
    exact h.owners other item owner hitem

theorem Inv.beside (h : s.Inv) {sid other : Nat} {x y : Session ω} {b' : Bridge ω}
    {event : Event ω} (hmeets : s.Meets (.session sid event)) (hx : s.sessions sid = some x)
    (hhandles : Session.Handles sid event (s.bridges x.bridge) b')
    (hy : s.sessions other = some y) (hother : other ≠ sid) (hconnected : y.connected = true)
    (hbridge : y.bridge = x.bridge) : y.Sound other b'.outgoing := by
  have hsound := h.sound other y hy hconnected
  rw [hbridge] at hsound
  rcases hhandles with hsame | ⟨item, howner, happended⟩ | ⟨rfl, item, hpopped⟩
  · rw [hsame]
    exact hsound
  · rw [happended]
    apply hsound.append
    rw [howner]
    exact fun heq => hother (Option.some.inj heq).symm
  · rw [hpopped] at hsound
    by_cases howner : item.owner = some other
    · obtain ⟨hspare, _⟩ := hmeets x item b'.outgoing other hx hpopped howner hother
      obtain ⟨hnone, hdone⟩ := hspare y hy hconnected
      exact hsound.pop hnone hdone
    · refine hsound.pop (ofRun_eq_none howner) fun heq => ?_
      rw [heq] at howner
      exact absurd rfl howner

theorem Inv.act {s' : World ω} (h : s.Inv) {sid : Nat} {event : Event ω}
    (hmeets : s.Meets (.session sid event)) (hstep : s.act sid event = some s') : s'.Inv := by
  obtain ⟨x, hx, hmapped⟩ := bind_eq_some_iff.mp hstep
  obtain ⟨⟨x', b'⟩, hlocal, rfl⟩ := map_eq_some_iff.mp hmapped
  clear hmapped hstep
  obtain ⟨hbridge, _, hhandles⟩ := Session.step_frame hlocal
  obtain ⟨hopened, hmade⟩ := h.opened sid x hx
  refine ⟨?_, ?_, ?_, h.registry⟩
  · intro other y hy hconnected
    change update s.sessions sid (some x') other = some y at hy
    change y.Sound other (update s.bridges x.bridge b' y.bridge).outgoing
    rcases eq_or_ne other sid with rfl | hother
    · rw [update_self] at hy
      cases hy
      rw [hbridge, update_self]
      apply Session.Sound.step (h.sound other x hx) ?_ hlocal hconnected
      intro hrelay hwas owner rest hout howner
      subst hrelay
      obtain ⟨_, hall⟩ := hmeets x (.done owner) rest owner hx hout rfl howner
      exact hall rfl hwas
    · rw [update_of_ne hother] at hy
      rcases eq_or_ne y.bridge x.bridge with heq | hne
      · rw [heq, update_self]
        exact h.beside hmeets hx hhandles hy hother hconnected heq
      · rw [update_of_ne hne]
        exact h.sound other y hy hconnected
  · intro other y hy
    change update s.sessions sid (some x') other = some y at hy
    rcases eq_or_ne other sid with rfl | hother
    · rw [update_self] at hy
      cases hy
      rw [hbridge]
      exact ⟨hopened, hmade⟩
    · rw [update_of_ne hother] at hy
      exact h.opened other y hy
  · intro bridge item owner hitem howner
    change item ∈ (update s.bridges x.bridge b' bridge).outgoing at hitem
    rcases eq_or_ne bridge x.bridge with rfl | hne
    · rw [update_self] at hitem
      rcases hhandles with hsame | ⟨put, hput, happended⟩ | ⟨_, popped, hpopped⟩
      · rw [hsame] at hitem
        exact h.owners _ item owner hitem howner
      · rw [happended] at hitem
        rcases mem_append.mp hitem with hitem | hitem
        · exact h.owners _ item owner hitem howner
        · rw [mem_singleton.mp hitem, hput] at howner
          cases howner
          exact hopened
      · refine h.owners x.bridge item owner ?_ howner
        rw [hpopped]
        exact mem_cons_of_mem _ hitem
    · rw [update_of_ne hne] at hitem
      exact h.owners bridge item owner hitem howner

theorem Inv.open_ (h : s.Inv) {bridge : Nat} (hmade : bridge < s.made) :
    { s with
      sessions := update s.sessions s.opened (some (.init bridge))
      opened := s.opened + 1 }.Inv := by
  refine ⟨?_, ?_, ?_, h.registry⟩
  · intro sid x hx hconnected
    change update s.sessions s.opened (some (.init bridge)) sid = some x at hx
    rcases eq_or_ne sid s.opened with rfl | hne
    · rw [update_self] at hx
      cases hx
      apply Session.sound_init
      intro item hitem howner
      exact Nat.lt_irrefl _ (h.owners bridge item _ hitem howner)
    · rw [update_of_ne hne] at hx
      exact h.sound sid x hx hconnected
  · intro sid x hx
    change update s.sessions s.opened (some (.init bridge)) sid = some x at hx
    rcases eq_or_ne sid s.opened with rfl | hne
    · rw [update_self] at hx
      cases hx
      exact ⟨Nat.lt_succ_self _, hmade⟩
    · rw [update_of_ne hne] at hx
      obtain ⟨hopened, hbridge⟩ := h.opened sid x hx
      exact ⟨Nat.lt_succ_of_lt hopened, hbridge⟩
  · intro other item owner hitem howner
    exact Nat.lt_succ_of_lt (h.owners other item owner hitem howner)

theorem Inv.make (h : s.Inv) :
    { s with
      bridges := update s.bridges s.made ⟨[], [], []⟩
      made := s.made + 1
      registry := some s.made }.Inv := by
  refine ⟨?_, ?_, ?_, ?_⟩
  · intro sid x hx hconnected
    have hne := Nat.ne_of_lt (h.opened sid x hx).2
    change x.Sound sid (update s.bridges s.made ⟨[], [], []⟩ x.bridge).outgoing
    rw [update_of_ne hne]
    exact h.sound sid x hx hconnected
  · intro sid x hx
    obtain ⟨hopened, hbridge⟩ := h.opened sid x hx
    exact ⟨hopened, Nat.lt_succ_of_lt hbridge⟩
  · intro bridge item owner hitem howner
    change item ∈ (update s.bridges s.made ⟨[], [], []⟩ bridge).outgoing at hitem
    rcases eq_or_ne bridge s.made with rfl | hne
    · rw [update_self] at hitem
      cases hitem
    · rw [update_of_ne hne] at hitem
      exact h.owners bridge item owner hitem howner
  · intro bridge hbridge
    cases hbridge
    exact Nat.lt_succ_self _

theorem Inv.acquire (h : s.Inv) : s.acquire.Inv := by
  unfold World.acquire
  split
  · rename_i bridge hregistry
    exact h.open_ (h.registry bridge hregistry)
  · exact h.make.open_ (Nat.lt_succ_self _)

theorem Inv.emit (h : s.Inv) (event : BridgeEvent ω) : (s.emit event).Inv := by
  unfold World.emit
  split
  · rename_i bridge _
    have hout : ∀ other, (update s.bridges bridge
        ((s.bridges bridge).put (.event event none)) other).outgoing = (s.bridges other).outgoing ∨
        (update s.bridges bridge
          ((s.bridges bridge).put (.event event none)) other).outgoing =
            (s.bridges other).outgoing ++ [.event event none] := by
      intro other
      rcases eq_or_ne other bridge with rfl | hne
      · rw [update_self]
        exact Or.inr rfl
      · rw [update_of_ne hne]
        exact Or.inl rfl
    refine ⟨?_, h.opened, ?_, h.registry⟩
    · intro sid x hx hconnected
      have hsound := h.sound sid x hx hconnected
      rcases hout x.bridge with hsame | hput
      · change x.Sound sid (update s.bridges bridge _ x.bridge).outgoing
        rw [hsame]
        exact hsound
      · change x.Sound sid (update s.bridges bridge _ x.bridge).outgoing
        rw [hput]
        exact hsound.append nofun
    · intro other item owner hitem howner
      change item ∈ (update s.bridges bridge _ other).outgoing at hitem
      rcases hout other with hsame | hput
      · rw [hsame] at hitem
        exact h.owners other item owner hitem howner
      · rw [hput] at hitem
        rcases mem_append.mp hitem with hitem | hitem
        · exact h.owners other item owner hitem howner
        · rw [mem_singleton.mp hitem] at howner
          cases howner
  · exact h

theorem Inv.releaseIfIdle (h : s.Inv) : s.releaseIfIdle.Inv := by
  unfold World.releaseIfIdle
  split
  · split
    · exact h
    · exact ⟨h.sound, h.opened, h.owners, nofun⟩
  · exact h

theorem Inv.step {s' : World ω} {action : Action ω} (h : s.Inv) (hmeets : s.Meets action)
    (hstep : Stream.step action s = some s') : s'.Inv := by
  cases action with
  | acquire =>
    cases hstep
    exact h.acquire
  | session sid event => exact h.act hmeets hstep
  | emit event =>
    cases hstep
    exact h.emit event
  | answered bridge request =>
    cases hstep
    exact h.setBridge rfl
  | releaseIfIdle =>
    cases hstep
    exact h.releaseIfIdle

theorem inv_init : (init : World ω).Inv where
  sound _ _ hx := nomatch hx
  opened _ _ hx := nomatch hx
  owners _ _ _ hitem := nomatch hitem
  registry _ hregistry := nomatch hregistry

end World

/-- In every run in which no session takes from the bridge what another one needs, each
session whose client is there shows its own run. -/
theorem streams_own_run (actions : List (Action ω)) (ms : List (Taken (World ω) (Action ω)))
    (hrun : moves step actions World.init = some ms)
    (hmeets : ∀ m ∈ ms, m.before.Meets m.act) : ∀ m ∈ ms, m.after.Faithful := by
  have hstep : ∀ (s : World ω) (action : Action ω) (s' : World ω), s.Inv →
      step action s = some s' → s.Meets action →
      (fun m : Taken (World ω) (Action ω) => m.after.Faithful) ⟨s, action, s'⟩ ∧ s'.Inv := by
    intro s action s' hinv htaken hmeets
    have hnext := hinv.step hmeets htaken
    exact ⟨hnext.faithful, hnext⟩
  exact fine_of_meets hstep World.inv_init hrun hmeets

section

def talk (sid : Nat) (text : String) : List (Action String) :=
  [.acquire, .session sid .submitted, .session sid (.logs (.wire text none)),
    .session sid (.tail []), .session sid .take, .session sid (.ends .completed),
    .session sid (.tail []), .session sid .relay, .session sid .take, .session sid .finish]

theorem streams_own_run_talk :
    ∃ ms, moves step (talk 0 "hello") World.init = some ms ∧ ms.length = 10 ∧
      ∀ m ∈ ms, m.after.Faithful := by
  refine ⟨_, rfl, rfl, streams_own_run (talk 0 "hello") _ rfl ?_⟩
  intro m hm
  iterate 7
    rcases mem_cons.mp hm with rfl | hm
    · trivial
  rcases mem_cons.mp hm with rfl | hm
  · intro x item rest owner hx hout howner hother
    cases hx
    cases hout
    cases howner
    exact absurd rfl hother
  iterate 2
    rcases mem_cons.mp hm with rfl | hm
    · trivial
  cases hm

/-- While one session is reading, another is opened for the same thread and refused as busy,
and the first one takes its end marker. -/
def busy : List (Action String) :=
  [.acquire, .session 0 .submitted, .acquire, .session 1 (.refused "busy"), .session 0 .relay,
    .session 0 .take]

/-- A session stops reading while its run goes on. -/
theorem stopped_by_another :
    ¬∀ (actions : List (Action String)) (ms : List (Taken (World String) (Action String))),
      moves step actions World.init = some ms → ∀ m ∈ ms, m.after.Faithful := by
  intro h
  have hlast := h busy _ rfl _ (getLast_mem (cons_ne_nil _ _))
  obtain ⟨hshows, _⟩ := hlast 0 _ rfl rfl
  have hended := hshows.ended nofun
  cases hended

end

end Substrate.Stream
