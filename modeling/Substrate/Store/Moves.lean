import Substrate.Lib.Transition
import Substrate.Store.Operations

/-!
What a transaction can do, said once. A `Move` is one statement, or one block of
statements the proofs treat as a unit, and `Move.Ok` says when a transaction makes it.
Every successful call but `erase` and `prune` is a run of such moves, so an invariant of
the tables is checked move by move.
-/

namespace Substrate

open Lib

namespace Store

inductive Move where
  | write (env : TxEnv) (runId : RunId) (entry : NewEntry)
  | charge (runId : RunId) (cost : Spend)
  | makePending (runId : RunId)
  | signal (runId : RunId) (name : String) (payload : JsonObject)
  | insertRow (runId : RunId) (row : RunRow) (accounts : List String)
  | insertMail (delivery : Delivery)
  | ack (env : TxEnv) (agent : Address) (msgId : String)
  | nack (env : TxEnv) (agent : Address) (failure : Nack)
  | recordSpawn (effectId : String) (child : RunId)
  | finish (env : TxEnv) (runId : RunId) (row : RunRow) (how : Ending)
  | requestFlag (runId : RunId)
  | reclaim (now : Time)
  | dropLive (now : Time)
  | claim (worker : String) (expires now : Time) (runId : RunId)
  | extendLease (runId : RunId) (expires : Time)
  | suspend (env : TxEnv) (runId : RunId) (wake : Wakeup)
  | park (runId : RunId) (until' : Time)
  | forgetDeadLetter (agent : Address) (msgId : String)
  | claimSignal (runId : RunId) (name claimId : String) (payload : JsonObject)
  | accountLimit (account : String) (budget : ExecutionBudget)

namespace Move

def apply : Move → Store → Store
  | write env runId entry, s => s.insertEvent env runId entry
  | charge runId cost, s => s.charge runId cost
  | makePending runId, s => s.makePending runId
  | signal runId name payload, s => (s.signal runId name payload).1
  | insertRow runId row accounts, s => (s.insertRow runId row).addAccounts runId accounts
  | insertMail delivery, s => s.insertMail delivery
  | ack env agent msgId, s => ackOne env agent s msgId
  | nack env agent failure, s => Store.nack env agent s failure
  | recordSpawn effectId child, s => s.recordSpawn effectId child
  | finish env runId row how, s => (s.close env runId how).reportEnd runId row how
  | requestFlag runId, s => s.requestFlag runId
  | reclaim now, s => s.reclaim now
  | dropLive now, s => s.dropLive now
  | claim worker expires now runId, s => s.claimOne worker expires now runId
  | extendLease runId expires, s => s.extendLease runId expires
  | suspend env runId wake, s => (s.suspend env runId wake).1
  | park runId until', s => (s.parkRow runId until').clearWake runId
  | forgetDeadLetter agent msgId, s => s.forgetDeadLetter agent msgId
  | claimSignal runId name claimId payload, s =>
    s.claimSignal runId name claimId payload
  | accountLimit account budget, s => s.accountLimit account budget

end Move

def isTerminalKind (kind : String) : Bool :=
  kind = "run.completed" || kind = "run.failed" || kind = "run.cancelled"

end Store

def NewEntry.plain (entry : NewEntry) : Bool :=
  !Store.isTerminalKind entry.kind && entry.dedupKey ≠ some terminalKey

namespace Store

/-- What is assumed of a call: the entries its caller may write, whether the
deadline sweep may end a run that has ended already, and the runs it may put to
sleep. The store's own entries are plain and always allowed. -/
structure Licence where
  entry : NewEntry → Prop
  again : Prop
  sleeps : RunId → Prop
  entry_of_plain : ∀ e : NewEntry, e.plain = true → entry e

namespace Licence

def any : Licence := ⟨fun _ => True, True, fun _ => True, fun _ _ => trivial⟩

def sparing (runId : RunId) : Licence := { any with sleeps := (· ≠ runId) }

def strict : Licence := ⟨fun e => e.plain = true, False, fun _ => True, fun _ h => h⟩

/-- Every entry of the list that is not deduplicated is allowed when its turn
comes. -/
def Allows (L : Licence) (env : TxEnv) (runId : RunId) : Store → List NewEntry → Prop
  | _, [] => True
  | s, entry :: rest =>
    (s.findDedup runId entry.dedupKey = none → L.entry entry) ∧
      L.Allows env runId (s.append env runId entry).1 rest

theorem allows_all {L : Licence} (hentry : ∀ entry, L.entry entry) (env : TxEnv)
    (runId : RunId) (entries : List NewEntry) : ∀ s, L.Allows env runId s entries := by
  induction entries with
  | nil => exact fun _ => trivial
  | cons entry rest ih => exact fun s => ⟨fun _ => hentry entry, ih _⟩

end Licence

namespace Move

/-- When a transaction makes a move. -/
def Ok (L : Licence) (s : Store) : Move → Prop
  | write _ runId entry =>
    (s.runs.get? runId).isSome ∧ s.findDedup runId entry.dedupKey = none ∧ L.entry entry
  | insertRow runId row _ =>
    s.runs.get? runId = none ∧ ∃ spec clock, row = RunSpec.row spec runId clock
  | insertMail delivery =>
    s.hasMail delivery.agent delivery.msg.id = false ∧
      s.processed.get? (delivery.agent, delivery.msg.id) = none
  | finish _ runId row _ =>
    ∃ row', s.runs.get? runId = some row' ∧ row'.birth = row.birth ∧
      (L.again ∨ row'.status.isTerminal = false)
  | requestFlag runId | extendLease runId _ =>
    ∃ row, s.runs.get? runId = some row ∧ row.status = .running
  | suspend _ runId _ | park runId _ =>
    (∃ row, s.runs.get? runId = some row ∧ row.status = .running) ∧ L.sleeps runId
  | claim _ _ _ runId => ∃ row, s.runs.get? runId = some row ∧ row.status = .pending
  | claimSignal runId name claimId payload =>
    s.claims.get? claimId = none ∧
      ∃ row, s.signals.find? (fun row => row.runId = runId && row.name = name) =
        some row ∧ row.payload = payload
  | charge .. | makePending .. | signal .. | ack .. | nack ..
  | recordSpawn .. | reclaim .. | dropLive .. | forgetDeadLetter ..
  | accountLimit .. => True

def mild : Move → Bool
  | write .. | charge .. | makePending .. | signal .. | insertRow ..
  | insertMail .. | ack .. | nack .. | recordSpawn .. => true
  | _ => false

def writes : Move → Bool
  | write .. | charge .. => true
  | _ => false

/-- The moves any call may make. Granting a lease, sending a signal and
consuming one are left to the calls that ask for it. -/
def common : Move → Bool
  | claim .. | signal .. | claimSignal .. => false
  | _ => true

/-- The moves a call may make without being asked. Charging, settling mail,
dropping live output and setting limits are left, besides, to the calls whose
arguments say so. -/
def routine : Move → Bool
  | charge .. | ack .. | nack .. | forgetDeadLetter .. | dropLive .. | claim .. | signal ..
  | claimSignal .. | accountLimit .. => false
  | _ => true

/-- The routine moves of calls that spawn no run. -/
def free : Move → Bool
  | insertRow _ row _ => row.supervision.isNone
  | recordSpawn .. => false
  | m => m.routine

theorem routine_of_free {m : Move} (h : m.free = true) : m.routine = true := by
  cases m with
  | insertRow | recordSpawn => rfl
  | _ => exact h

theorem common_of_routine {m : Move} (h : m.routine = true) : m.common = true := by
  cases m with
  | claim | signal | claimSignal => cases h
  | _ => rfl

theorem common_of_free {m : Move} (h : m.free = true) : m.common = true :=
  common_of_routine (routine_of_free h)

end Move

abbrev Moves (L : Licence) : Store → Store → Prop := Steps Move.apply (Move.Ok L)

abbrev MildMoves (L : Licence) : Store → Store → Prop :=
  Steps Move.apply fun s m => Move.Ok L s m ∧ m.mild = true

abbrev MovesBy (L : Licence) (may : Move → Prop) : Store → Store → Prop :=
  Steps Move.apply fun s m => Move.Ok L s m ∧ may m

abbrev StillMoves (L : Licence) : Store → Store → Prop :=
  MovesBy L fun m => m.mild = true ∧ m.common = true

abbrev RoutineMoves (L : Licence) : Store → Store → Prop :=
  MovesBy L fun m => m.mild = true ∧ m.routine = true

abbrev FreeMoves (L : Licence) : Store → Store → Prop :=
  MovesBy L fun m => m.mild = true ∧ m.free = true

variable {L : Licence} {may : Move → Prop} {s s' : Store} {m : Move}

theorem MovesBy.moves (h : MovesBy L may s s') : Moves L s s' := Steps.mono (fun _ _ hok => hok.1) h

theorem StillMoves.mild (h : StillMoves L s s') : MildMoves L s s' :=
  Steps.mono (fun _ _ hok => ⟨hok.1, hok.2.1⟩) h

theorem MovesBy.still (h : MovesBy L (fun m => m.writes = true) s s') : StillMoves L s s' := by
  apply Steps.mono _ h
  rintro t m ⟨hok, hwrites⟩
  cases m with
  | write | charge => exact ⟨hok, rfl, rfl⟩
  | _ => cases hwrites

theorem FreeMoves.routine (h : FreeMoves L s s') : RoutineMoves L s s' :=
  Steps.mono (fun _ _ hok => ⟨hok.1, hok.2.1, Move.routine_of_free hok.2.2⟩) h

theorem FreeMoves.by (hmay : ∀ m : Move, m.free = true → may m) (h : FreeMoves L s s') :
    MovesBy L may s s' :=
  Steps.mono (fun _ m hok => ⟨hok.1, hmay m hok.2.2⟩) h

theorem RoutineMoves.still (h : RoutineMoves L s s') : StillMoves L s s' :=
  Steps.mono (fun _ _ hok => ⟨hok.1, hok.2.1, Move.common_of_routine hok.2.2⟩) h

theorem RoutineMoves.by (hmay : ∀ m : Move, m.routine = true → may m) (h : RoutineMoves L s s') :
    MovesBy L may s s' :=
  Steps.mono (fun _ m hok => ⟨hok.1, hmay m hok.2.2⟩) h

@[simp] theorem append_runs (s : Store) (env : TxEnv) (runId : RunId)
    (entry : NewEntry) : (s.append env runId entry).1.runs = s.runs := by
  unfold append
  cases s.findDedup runId entry.dedupKey with
  | some row => rfl
  | none => cases entry.spend <;> rfl

@[simp] theorem append_wake (s : Store) (env : TxEnv) (runId : RunId)
    (entry : NewEntry) : (s.append env runId entry).1.wake = s.wake := by
  unfold append
  cases s.findDedup runId entry.dedupKey with
  | some row => rfl
  | none => cases entry.spend <;> rfl

@[simp] theorem append_signals (s : Store) (env : TxEnv) (runId : RunId)
    (entry : NewEntry) : (s.append env runId entry).1.signals = s.signals := by
  unfold append
  cases s.findDedup runId entry.dedupKey with
  | some row => rfl
  | none => cases entry.spend <;> rfl

theorem close_runs (s : Store) (env : TxEnv) (runId : RunId) (how : Ending) :
    (s.close env runId how).runs = s.runs.modify runId (·.ended (how.result runId) env.clock) := by
  unfold close endRow clearWake dropSignals
  simp only [append_runs]

@[simp] theorem nack_runs (env : TxEnv) (agent : Address) (s : Store)
    (failure : Nack) : (nack env agent s failure).runs = s.runs := by
  unfold nack
  split
  · rfl
  · simp only
    split <;> rfl

@[simp] theorem nack_signals (env : TxEnv) (agent : Address) (s : Store)
    (failure : Nack) : (nack env agent s failure).signals = s.signals := by
  unfold nack
  split
  · rfl
  · simp only
    split <;> rfl

@[simp] theorem nack_events (env : TxEnv) (agent : Address) (s : Store)
    (failure : Nack) : (nack env agent s failure).events = s.events := by
  unfold nack
  split
  · rfl
  · simp only
    split <;> rfl

theorem signal_cases (s : Store) (runId : RunId) (name : String) (payload : JsonObject) :
    (s.signal runId name payload).1 = s ∨
      (s.signal runId name payload).1 = s.bufferSignal runId name payload ∨
      (s.signal runId name payload).1 = (s.bufferSignal runId name payload).makePending runId := by
  unfold signal
  split
  · exact .inr (.inl rfl)
  · split
    · exact .inl rfl
    split
    · exact .inr (.inr rfl)
    · exact .inr (.inl rfl)

theorem signal_runs (s : Store) (runId : RunId) (name : String) (payload : JsonObject) :
    (s.signal runId name payload).1.runs = s.runs ∨
      (s.signal runId name payload).1.runs = s.runs.modify runId RunRow.queued := by
  rcases signal_cases s runId name payload with h | h | h
  · exact .inl (by rw [h])
  · exact .inl (by rw [h]; rfl)
  · exact .inr (by rw [h]; rfl)

@[simp] theorem signal_events (s : Store) (runId : RunId) (name : String)
    (payload : JsonObject) : (s.signal runId name payload).1.events = s.events := by
  rcases signal_cases s runId name payload with h | h | h <;> rw [h] <;> rfl

@[simp] theorem reportEnd_events (s : Store) (runId : RunId) (row : RunRow)
    (how : Ending) : (s.reportEnd runId row how).events = s.events := by
  unfold reportEnd
  split
  · exact signal_events ..
  · rfl

@[simp] theorem suspend_events (s : Store) (env : TxEnv) (runId : RunId)
    (wake : Wakeup) : (s.suspend env runId wake).1.events = s.events := by
  unfold suspend
  simp only
  split <;> rfl

/-- The moves that touch only rows of runs, their journals, their registrations
and their signals. -/
def Move.ofRuns : Move → Bool
  | .write .. | .makePending .. | .signal .. | .finish .. | .requestFlag .. | .reclaim ..
  | .dropLive .. | .claim .. | .extendLease .. | .suspend .. | .park .. => true
  | _ => false

private theorem signal_shape (s : Store) (runId : RunId) (name : String)
    (payload : JsonObject) : ∃ runs wake signals,
      (s.signal runId name payload).1 = { s with runs, wake, signals } := by
  rcases signal_cases s runId name payload with h | h | h <;> rw [h]
  · exact ⟨s.runs, s.wake, s.signals, rfl⟩
  · exact ⟨s.runs, s.wake, _, rfl⟩
  · exact ⟨_, _, _, rfl⟩

theorem apply_ofRuns (h : m.ofRuns = true) (s : Store) :
    ∃ runs wake events signals, m.apply s = { s with runs, wake, events, signals } := by
  cases m with
  | signal runId name payload =>
    obtain ⟨runs, wake, signals, hshape⟩ := signal_shape s runId name payload
    exact ⟨runs, wake, s.events, signals, hshape⟩
  | finish env runId read how =>
    obtain ⟨runs, wake, events, signals, hclose⟩ : ∃ runs wake events signals,
        s.close env runId how = { s with runs, wake, events, signals } := by
      unfold close append
      split
      · exact ⟨_, _, s.events, _, rfl⟩
      · exact ⟨_, _, _, _, rfl⟩
    change ∃ runs wake events signals, (s.close env runId how).reportEnd runId read how = _
    unfold reportEnd
    split
    · rename_i parent _
      obtain ⟨runs', wake', signals', hsignal⟩ :=
        signal_shape (s.close env runId how) parent (childSignal runId) how.report
      rw [hsignal, hclose]
      exact ⟨runs', wake', events, signals', rfl⟩
    · exact ⟨runs, wake, events, signals, hclose⟩
  | suspend env runId wake =>
    change ∃ runs wake' events signals, (s.suspend env runId wake).1 = _
    unfold suspend
    simp only
    split <;> exact ⟨_, _, s.events, s.signals, rfl⟩
  | write | makePending | requestFlag | reclaim | dropLive | claim | extendLease | park =>
    exact ⟨_, _, _, _, rfl⟩
  | _ => cases h

def Move.ofMail : Move → Bool
  | .insertMail .. | .ack .. | .nack .. | .forgetDeadLetter .. => true
  | _ => false

theorem apply_ofMail (h : m.ofMail = true) (s : Store) :
    ∃ inbox processed deadLetters, m.apply s = { s with inbox, processed, deadLetters } := by
  cases m with
  | nack env agent failure =>
    change ∃ inbox processed deadLetters, nack env agent s failure = _
    unfold nack
    split
    · exact ⟨s.inbox, s.processed, s.deadLetters, rfl⟩
    · simp only
      split
      · exact ⟨_, s.processed, s.deadLetters, rfl⟩
      · exact ⟨_, _, _, rfl⟩
  | insertMail | ack | forgetDeadLetter => exact ⟨_, _, _, rfl⟩
  | _ => cases h

theorem reportEnd_runs (s : Store) (runId : RunId) (row : RunRow) (how : Ending) :
    (s.reportEnd runId row how).runs = s.runs ∨
      ∃ parent, (s.reportEnd runId row how).runs = s.runs.modify parent RunRow.queued := by
  unfold reportEnd
  split
  · rename_i parent _
    exact (signal_runs s parent _ _).imp id fun h => ⟨parent, h⟩
  · exact .inl rfl

theorem reportEnd_keeps {runId other : RunId} {row otherRow : RunRow} {how : Ending}
    (hrow : s.runs.get? runId = some row) (hawake : row.status ≠ .suspended) :
    (s.reportEnd other otherRow how).runs.get? runId = some row := by
  rcases reportEnd_runs s other otherRow how with hruns | ⟨parent, hruns⟩
  · rw [hruns, hrow]
  · rw [hruns, Table.get?_modify, hrow]
    simp [RunRow.queued, hawake]

/-- The row of one run before and after a move, and the move that changed it. -/
inductive RowStep (L : Licence) (m : Move) (runId : RunId) (row : RunRow) :
    RunRow → Prop where
  | same : RowStep L m runId row row
  | queued (hstatus : row.status = .suspended) : RowStep L m runId row row.queued
  | flagged (hm : m = .requestFlag runId) (hstatus : row.status = .running) :
      RowStep L m runId row { row with cancelRequested := true }
  | reclaimed (now : Time) (hm : m = .reclaim now) (hstatus : row.status = .running) :
      RowStep L m runId row
        { row with status := .pending, workerId := none, leaseExpiresAt := none }
  | claimed (worker : String) (expires now : Time)
      (hm : m = .claim worker expires now runId) (hstatus : row.status = .pending) :
      RowStep L m runId row (row.claimed worker expires now)
  | extended (expires : Time) (hm : m = .extendLease runId expires)
      (hstatus : row.status = .running) :
      RowStep L m runId row { row with leaseExpiresAt := some expires }
  | slept (env : TxEnv) (wake : Wakeup) (hm : m = .suspend env runId wake)
      (hstatus : row.status = .running) (hsleeps : L.sleeps runId) :
      RowStep L m runId row (row.asleep wake)
  | resumed (env : TxEnv) (wake : Wakeup) (hm : m = .suspend env runId wake)
      (hstatus : row.status = .running) : RowStep L m runId row (row.asleep wake).queued
  | parked (until' : Time) (hm : m = .park runId until')
      (hstatus : row.status = .running) (hsleeps : L.sleeps runId) :
      RowStep L m runId row (row.parked until')
  | ended (env : TxEnv) (read : RunRow) (how : Ending)
      (hm : m = .finish env runId read how)
      (hopen : L.again ∨ row.status.isTerminal = false) :
      RowStep L m runId row (row.ended (how.result runId) env.clock)

section Rows

variable {L : Licence} {s : Store} {runId : RunId} {row : RunRow}

variable {m : Move} {other : RunId} {row' : RunRow}

private theorem modify_step (s' : Store) {f : RunRow → RunRow}
    (hruns : s'.runs = s.runs.modify other f) (hrow : s.runs.get? runId = some row)
    (hself : other = runId → RowStep L m runId row (f row)) :
    ∃ row', s'.runs.get? runId = some row' ∧ RowStep L m runId row row' := by
  by_cases hsame : runId = other
  · refine ⟨f row, ?_, hself hsame.symm⟩
    rw [hruns, ← hsame, Table.get?_modify_self, hrow]
    rfl
  · refine ⟨row, ?_, .same⟩
    rw [hruns, Table.get?_modify_of_ne hsame, hrow]

private theorem queue_step (s' : Store) (hruns : s'.runs = s.runs.modify other RunRow.queued)
    (hrow : s.runs.get? runId = some row) :
    ∃ row', s'.runs.get? runId = some row' ∧ RowStep L m runId row row' := by
  refine modify_step s' hruns hrow fun _ => ?_
  by_cases hstatus : row.status = .suspended
  · exact .queued hstatus
  · rw [RunRow.queued, if_neg hstatus]
    exact .same

theorem row_step (hok : m.Ok L s) (hrow : s.runs.get? runId = some row) :
    ∃ row', (m.apply s).runs.get? runId = some row' ∧ RowStep L m runId row row' := by
  have hguard : ∀ {other : RunId} {P : RunRow → Prop},
      (∃ row, s.runs.get? other = some row ∧ P row) → other = runId → P row := by
    rintro other P ⟨found, hfound, hP⟩ rfl
    rw [hrow] at hfound
    cases hfound
    exact hP
  cases m with
  | write | charge | insertMail | ack | recordSpawn | dropLive
  | forgetDeadLetter | claimSignal | accountLimit => exact ⟨row, hrow, .same⟩
  | nack env agent failure =>
    exact ⟨row, (congrArg (Table.get? · runId) (nack_runs env agent s failure)).trans hrow, .same⟩
  | makePending other => exact queue_step (s.makePending other) rfl hrow
  | signal other name payload =>
    rcases signal_runs s other name payload with hsame | hqueued
    · exact ⟨row, (congrArg (Table.get? · runId) hsame).trans hrow, .same⟩
    · exact queue_step _ hqueued hrow
  | insertRow other otherRow accounts =>
    have hne : runId ≠ other := by
      rintro rfl
      rw [hok.1] at hrow
      cases hrow
    refine ⟨row, ?_, .same⟩
    change (s.runs.insert other otherRow).get? runId = some row
    rw [Table.get?_insert_of_none hok.1, if_neg hne, hrow]
  | finish env other otherRow how =>
    change ∃ row', ((s.close env other how).reportEnd other otherRow how).runs.get? runId =
      some row' ∧ _
    by_cases hsame : other = runId
    · subst hsame
      refine ⟨row.ended (how.result other) env.clock, ?_,
        .ended env otherRow how rfl (hguard hok rfl).2⟩
      refine reportEnd_keeps ?_ (by simp [RunRow.ended, Ending.result])
      rw [close_runs, Table.get?_modify_self, hrow]
      rfl
    · have hclose : (s.close env other how).runs.get? runId = some row := by
        rw [close_runs, Table.get?_modify_of_ne (Ne.symm hsame), hrow]
      rcases reportEnd_runs (s.close env other how) other otherRow how with
        hruns | ⟨parent, hruns⟩
      · exact ⟨row, (congrArg (Table.get? · runId) hruns).trans hclose, .same⟩
      · exact queue_step _ hruns hclose
  | requestFlag other =>
    exact modify_step (s.requestFlag other)
      (f := fun row => { row with cancelRequested := true }) rfl hrow
      fun hsame => .flagged (hsame ▸ rfl) (hguard hok hsame)
  | reclaim now =>
    refine ⟨row.reclaimed now, (Table.get?_map ..).trans (by rw [hrow]; rfl), ?_⟩
    unfold RunRow.reclaimed
    split
    · rename_i hexpired
      simp only [Bool.and_eq_true, decide_eq_true_eq] at hexpired
      exact .reclaimed now rfl hexpired.1
    · exact .same
  | claim worker expires now other =>
    exact modify_step (s.claimOne worker expires now other)
      (f := (·.claimed worker expires now)) rfl hrow
      fun hsame => .claimed worker expires now (hsame ▸ rfl) (hguard hok hsame)
  | extendLease other expires =>
    exact modify_step (s.extendLease other expires)
      (f := fun row => { row with leaseExpiresAt := some expires }) rfl hrow
      fun hsame => .extended expires (hsame ▸ rfl) (hguard hok hsame)
  | suspend env other wake =>
    change ∃ row', (s.suspend env other wake).1.runs.get? runId = some row' ∧ _
    unfold suspend
    simp only
    split
    · refine modify_step _ (f := fun row => (row.asleep wake).queued) ?_ hrow fun hsame =>
        .resumed env wake (hsame ▸ rfl) (hguard hok.1 hsame)
      exact Table.modify_modify ..
    · exact modify_step _ (f := (·.asleep wake)) rfl hrow
        fun hsame => .slept env wake (hsame ▸ rfl) (hguard hok.1 hsame) (hsame ▸ hok.2)
  | park other until' =>
    exact modify_step ((s.parkRow other until').clearWake other) (f := (·.parked until')) rfl hrow
      fun hsame => .parked until' (hsame ▸ rfl) (hguard hok.1 hsame) (hsame ▸ hok.2)

private theorem apply_none (m : Move) (hrow : s.runs.get? runId = none)
    (hinsert : ∀ other row accounts, m ≠ .insertRow other row accounts) :
    (m.apply s).runs.get? runId = none := by
  have hmodify : ∀ {t : Table RunId RunRow} (other : RunId) (f : RunRow → RunRow),
      t.get? runId = none → (t.modify other f).get? runId = none := by
    intro t other f ht
    rw [Table.modify, Table.get?_map, ht]
    rfl
  cases m with
  | write | charge | insertMail | ack | recordSpawn | dropLive
  | forgetDeadLetter | claimSignal | accountLimit => exact hrow
  | nack env agent failure =>
    change (nack env agent s failure).runs.get? runId = none
    rwa [nack_runs]
  | makePending other => exact hmodify other RunRow.queued hrow
  | requestFlag other =>
    exact hmodify other (fun row => { row with cancelRequested := true }) hrow
  | claim worker expires now other =>
    exact hmodify other (·.claimed worker expires now) hrow
  | extendLease other expires =>
    exact hmodify other (fun row => { row with leaseExpiresAt := some expires }) hrow
  | park other until' => exact hmodify other (·.parked until') hrow
  | reclaim now =>
    change (s.runs.map _).get? runId = none
    rw [Table.get?_map, hrow]
    rfl
  | signal other name payload =>
    change (s.signal other name payload).1.runs.get? runId = none
    rcases signal_runs s other name payload with hruns | hruns
    · rwa [hruns]
    · rw [hruns]
      exact hmodify _ _ hrow
  | insertRow other row accounts => exact absurd rfl (hinsert other row accounts)
  | finish env other row how =>
    change ((s.close env other how).reportEnd other row how).runs.get? runId = none
    have hclose : (s.close env other how).runs.get? runId = none := by
      rw [close_runs]
      exact hmodify _ _ hrow
    rcases reportEnd_runs (s.close env other how) other row how with
      hruns | ⟨parent, hruns⟩
    · rwa [hruns]
    · rw [hruns]
      exact hmodify _ _ hclose
  | suspend env other wake =>
    have hslept : (s.runs.modify other (·.asleep wake)).get? runId = none := hmodify _ _ hrow
    change (s.suspend env other wake).1.runs.get? runId = none
    unfold suspend
    simp only
    split
    · exact hmodify _ RunRow.queued hslept
    · exact hslept

theorem row_origin (hok : m.Ok L s) (hrow : (m.apply s).runs.get? runId = some row) :
    (∃ old, s.runs.get? runId = some old ∧ RowStep L m runId old row) ∨
      (s.runs.get? runId = none ∧ ∃ spec clock, (∃ accounts, m = .insertRow runId row accounts) ∧
        row = RunSpec.row spec runId clock) := by
  cases hold : s.runs.get? runId with
  | some old =>
    obtain ⟨row', hrow', hstep⟩ := row_step hok hold
    rw [hrow] at hrow'
    cases hrow'
    exact .inl ⟨old, rfl, hstep⟩
  | none =>
    refine .inr ⟨rfl, ?_⟩
    by_cases hinsert : ∃ other otherRow accounts, m = .insertRow other otherRow accounts
    · obtain ⟨other, otherRow, accounts, rfl⟩ := hinsert
      obtain ⟨hfree, spec, clock, rfl⟩ := hok
      change (s.runs.insert other _).get? runId = some row at hrow
      rw [Table.get?_insert_of_none hfree, hold] at hrow
      split at hrow
      · rename_i hsame
        cases hrow
        exact ⟨spec, clock, ⟨accounts, by rw [hsame]⟩, by rw [hsame]⟩
      · cases hrow
    · simp only [not_exists] at hinsert
      rw [apply_none m hold hinsert] at hrow
      cases hrow

theorem RowStep.birth (h : RowStep L m runId row row') : row'.birth = row.birth := by
  cases h with
  | queued hstatus =>
    unfold RunRow.queued
    split <;> rfl
  | _ => rfl

theorem RowStep.mild_running (h : RowStep L m runId row row') (hmild : m.mild = true)
    (hrun : row.status = .running) : row' = row := by
  cases h with
  | same => rfl
  | queued hstatus =>
    rw [hrun] at hstatus
    cases hstatus
  | flagged hm | reclaimed _ hm | claimed _ _ _ hm | extended _ hm | slept _ _ hm
  | resumed _ _ hm | parked _ hm | ended _ _ _ hm =>
    subst hm
    cases hmild

theorem RowStep.stays_awake (h : RowStep L m runId row row') (hsleeps : ¬ L.sleeps runId)
    (hawake : row.status ≠ .suspended) : row'.status ≠ .suspended := by
  cases h with
  | same | flagged | extended => exact hawake
  | queued hstatus => exact absurd hstatus hawake
  | slept _ _ _ _ hsleep | parked _ _ _ hsleep => exact absurd hsleep hsleeps
  | ended _ _ how => exact Ending.status_ne_suspended how
  | reclaimed | claimed | resumed => simp [RunRow.queued, RunRow.asleep, RunRow.claimed]

theorem RowStep.stays_open (h : RowStep L m runId row row')
    (hopen : row.status.isTerminal = false) :
    row'.status.isTerminal = false ∨ ∃ env read how, m = .finish env runId read how := by
  cases h with
  | same | flagged | extended => exact .inl hopen
  | queued hstatus => exact .inl (by rw [RunRow.queued, if_pos hstatus]; rfl)
  | ended env read how hm => exact .inr ⟨env, read, how, hm⟩
  | reclaimed | claimed | slept | resumed | parked => exact .inl rfl

end Rows

end Store

end Substrate
