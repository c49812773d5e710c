import Mathlib.Data.Finset.Range
import Substrate.Lib.Transition

/-!
The batch jobs of a worker (`JobRunner` of `compute/service.py`). A start takes a slot and
enters the job under its execution id; a thread of its own then watches the process and
writes the outcome into the job, stops the process, writes when the job finished and gives
the slot back.
-/

namespace Substrate.Compute.Jobs

open Lib Function

inductive JobState where
  | running | succeeded | failed | cancelled
  deriving DecidableEq, Repr

structure Outcome (ρ : Type) where
  state : JobState
  result : Option ρ
  error : Option String
  deriving DecidableEq, Repr

/-- What a watcher writes into its job (`job.update(...)`). -/
inductive Change (ρ : Type) where
  | succeeded (result : ρ)
  | failed (error : String)
  deriving DecidableEq, Repr

def Change.apply {ρ : Type} : Change ρ → Outcome ρ → Outcome ρ
  | .succeeded result, outcome => { outcome with state := .succeeded, result := some result }
  | .failed error, outcome => { outcome with state := .failed, error := some error }

/-- An entry of `jobs`. The finish is `none` where the program has `0.0`, a time long ago. -/
structure Job (ρ : Type) where
  outcome : Outcome ρ
  finished : Option Nat
  deadline : Nat
  deriving DecidableEq, Repr

/-- Where the thread of a start is, and then that of the watcher. `lost` is a watcher that did
not find its entry and ends by the exception. -/
inductive Phase (ρ : Type) where
  | launching
  | starting
  | polling (since : Nat)
  | woken
  | late
  | writing (change : Change ρ)
  | closing
  | releasing
  | ended
  | lost
  deriving DecidableEq, Repr

/-- A thread: the execution it was made for, and the job it has in hand. -/
structure Watcher (ρ : Type) where
  id : String
  job : Nat
  phase : Phase ρ
  deriving DecidableEq, Repr

/-- `JobRunner`. Jobs are known by number, as the dictionary of an entry lives on when it is no
longer in `jobs`; every accepted start makes one job and one thread. `cancelling` are the calls
of `cancel` that have found a running job. -/
structure Runner (ρ : Type) where
  size : Nat
  free : Nat
  now : Nat
  jobs : String → Option Nat
  count : Nat
  job : Nat → Job ρ
  watcher : Nat → Watcher ρ
  cancelling : Nat → Option Nat

/-- What a watcher finds of its process: a message, the end of the pipe, a message that was cut
short, or nothing; and then that it takes too much memory, is dead, or goes on. -/
inductive Finding (ρ : Type) where
  | ok (value : ρ)
  | error (text : String)
  | eof
  | broken
  | silent
  | overMemory (text : String)
  | dead
  | alive
  deriving DecidableEq, Repr

inductive Act (ρ : Type) where
  | start (id : String) (timeout : Nat)
  | launch (job : Nat) (started : Bool)
  | watch (job : Nat) (finding : Finding ρ)
  | cancel (call : Nat) (id : String)
  | setCancelled (call : Nat)
  | tick (time : Nat)

/-- `JOB_RESULT_TTL_SECONDS`. -/
def jobResultTtl : Nat := 3600 * 5

variable {ρ : Type}

namespace Runner

/-- A worker that has just come up. -/
def fresh (size now : Nat) : Runner ρ where
  size := size
  free := size
  now := now
  jobs _ := none
  count := 0
  job _ := ⟨⟨.running, none, none⟩, none, 0⟩
  watcher _ := ⟨"", 0, .ended⟩
  cancelling _ := none

variable (s : Runner ρ)

def state (j : Nat) : JobState := (s.job j).outcome.state

def phase (j : Nat) : Phase ρ := (s.watcher j).phase

/-- `public`. -/
def publicJob (id : String) : Except String (Outcome ρ) :=
  match s.jobs id with
  | none => .error "Job is not known to this worker"
  | some j => .ok (s.job j).outcome

def recent (j : Nat) : Bool := (s.job j).finished.any fun finished => s.now - finished < jobResultTtl

/-- What a start leaves in `jobs`. -/
def kept (id : String) : Option Nat :=
  (s.jobs id).filter fun j => s.state j = .running || s.recent j

def setJob (j : Nat) (job : Job ρ) : Runner ρ := { s with job := update s.job j job }

def setPhase (j : Nat) (phase : Phase ρ) : Runner ρ :=
  { s with watcher := update s.watcher j { s.watcher j with phase := phase } }

/-- `start`, up to the end of its lock. -/
def start (id : String) (timeout : Nat) : Runner ρ :=
  let kept := s.kept
  if (kept id).any fun j => s.state j = .running then { s with jobs := kept }
  else if s.free = 0 then { s with jobs := kept }
  else
    { s with
      free := s.free - 1
      jobs := update kept id (some s.count)
      count := s.count + 1
      job := update s.job s.count ⟨⟨.running, none, none⟩, none, s.now + timeout⟩
      watcher := update s.watcher s.count ⟨id, s.count, .launching⟩ }

/-- `release`, of a `BoundedSemaphore`. -/
def release : Runner ρ := { s with free := if s.free < s.size then s.free + 1 else s.free }

/-- `process.start()`, and then the thread of the watcher; or the slot is given back. -/
def launch (j : Nat) (started : Bool) : Runner ρ :=
  if started then s.setPhase j .starting else (s.setPhase j .ended).release

def received : Finding ρ → Option (Phase ρ)
  | .ok value => some (.writing (.succeeded value))
  | .error text => some (.writing (.failed text))
  | .eof => some (.writing (.failed "Job process exited without a result"))
  | .broken => some .closing
  | _ => none

/-- The next step of `_watch`. -/
def watch (j : Nat) (finding : Finding ρ) : Runner ρ :=
  let watcher := s.watcher j
  let job := s.job watcher.job
  match watcher.phase with
  | .starting =>
    match s.jobs watcher.id with
    | none => s.setPhase j .lost
    | some found =>
      { s with watcher := update s.watcher j ⟨watcher.id, found, .polling s.now⟩ }
  | .polling since =>
    match received finding with
    | some phase => s.setPhase j phase
    | none => if since < s.now then s.setPhase j .woken else s
  | .woken =>
    if job.outcome.state = .cancelled then s.setPhase j .closing
    else if job.deadline < s.now then s.setPhase j .late
    else
      match finding with
      | .overMemory text => s.setPhase j (.writing (.failed text))
      | .dead =>
        s.setPhase j (.writing (.failed "Job process exited without a result"))
      | _ => s.setPhase j (.polling s.now)
  | .late =>
    if job.outcome.state = .cancelled then s.setPhase j .closing
    else s.setPhase j (.writing (.failed "Job exceeded its time limit"))
  | .writing change =>
    (s.setJob watcher.job { job with outcome := change.apply job.outcome }).setPhase j .closing
  | .closing => (s.setJob watcher.job { job with finished := some s.now }).setPhase j .releasing
  | .releasing => (s.setPhase j .ended).release
  | _ => s

/-- `cancel`, up to the look at the state. -/
def cancel (call : Nat) (id : String) : Runner ρ :=
  { s with
    cancelling := update s.cancelling call
      ((s.jobs id).filter fun j => s.state j = .running) }

/-- The rest of `cancel`. -/
def setCancelled (call : Nat) : Runner ρ :=
  match s.cancelling call with
  | none => s
  | some j =>
    let job := s.job j
    { s.setJob j { job with outcome := { job.outcome with state := .cancelled } } with
      cancelling := update s.cancelling call none }

end Runner

def step : Act ρ → Runner ρ → Runner ρ
  | .start id timeout, s => s.start id timeout
  | .launch j started, s =>
    match s.phase j with
    | .launching => s.launch j started
    | _ => s
  | .watch j finding, s => s.watch j finding
  | .cancel call id, s => s.cancel call id
  | .setCancelled call, s => s.setCancelled call
  | .tick time, s => { s with now := s.now + time }

end Substrate.Compute.Jobs
