import Mathlib.Data.List.Count
import Mathlib.Logic.Function.Basic
import Substrate.Lib.Runs

/-!
The pool of local inference servers (`LocalLlamaServerPool` in `llama_pool.py`). A worker
is one child process. Its token lies in the queue or is held by a caller; whoever has it
may use the worker. A supervisor for each worker waits for its process to exit and
restarts it, up to a limit.
-/

namespace Substrate.Inference

open Lib

/-- What the pool is made with, as far as its tokens and supervisors go. -/
structure Settings where
  gpuDevices : List String
  basePort : Nat := 8090
  maxRestarts : Nat := 5
  modelName : String := "compatible/PaddleOCR-VL-1.6"

/-- `PoolWorker`, with the fields of its endpoint. -/
structure PoolWorker where
  index : Nat
  model : String
  baseUrl : String
  layoutDevice : String
  deriving DecidableEq, Repr

/-- Where `_start_worker` or `_supervise` of a worker stands. The first three are the
awaits of `_start_worker`, and the next two are its failures. -/
inductive Stage where
  | spawning | starting | rejecting
  | unspawned | unhealthy
  | watching | backingOff | respawning | probing | stopping
  | gone
  deriving DecidableEq, Repr

namespace Stage

/-- `_start_worker` has not returned yet. -/
def startingUp : Stage → Bool
  | .spawning | .starting | .rejecting => true
  | _ => false

/-- `_start_worker` has raised. -/
def failed : Stage → Bool
  | .unspawned | .unhealthy => true
  | _ => false

def supervised : Stage → Bool
  | .watching | .backingOff | .respawning | .probing | .stopping => true
  | _ => false

def restarting : Stage → Bool
  | .backingOff | .respawning | .probing | .stopping => true
  | _ => false

def dead : Stage → Bool
  | .gone | .unspawned | .unhealthy => true
  | _ => false

/-- `state.dead`. It is not set for a process that could not be spawned. -/
def deadFlag : Stage → Bool
  | .gone | .unhealthy => true
  | _ => false

end Stage

/-- `_LocalWorkerState`, and whether the process runs. -/
structure WorkerState where
  stage : Stage
  alive : Bool
  restarts : Nat
  deriving DecidableEq, Repr

structure Pool (κ : Type) where
  states : Nat → Option WorkerState
  queue : List PoolWorker
  held : List (κ × PoolWorker)
  workerCount : Nat
  ready : Bool
  started : Bool

/-- What can happen next. For a worker: the await of its spawn or its health check ends,
its process is terminated, exits or is seen to have exited, or its back-off is over. -/
inductive Action (κ : Type) where
  | spawned (index : Nat) (ok : Bool)
  | health (index : Nat) (ok : Bool)
  | terminated (index : Nat)
  | gathered
  | exits (index : Nat)
  | notices (index : Nat)
  | wakes (index : Nat)
  | acquire (caller : κ)
  | release (caller : κ) (worker : PoolWorker)
  deriving DecidableEq, Repr

namespace Pool

variable {κ : Type} (settings : Settings) (p : Pool κ)

def makePoolWorker (index : Nat) : PoolWorker :=
  ⟨index, settings.modelName, s!"http://127.0.0.1:{settings.basePort + index}",
    (settings.gpuDevices[index]?).getD ""⟩

/-- The pool when `start` has begun. -/
def init : Pool κ where
  states index := if index < settings.gpuDevices.length then some ⟨.spawning, false, 0⟩ else none
  queue := []
  held := []
  workerCount := 0
  ready := false
  started := false

def setState (index : Nat) (state : WorkerState) : Pool κ :=
  { p with states := Function.update p.states index (some state) }

/-- `_queue.put_nowait`. -/
def put (worker : PoolWorker) : Pool κ := { p with queue := p.queue ++ [worker] }

def has (index : Nat) (what : Stage → Bool) : Bool :=
  (p.states index).any fun state => what state.stage

def count (what : Stage → Bool) : Nat :=
  (List.range settings.gpuDevices.length).countP fun index => p.has index what

/-- The end of `await self._spawn(…)`. -/
def onSpawned (index : Nat) (ok : Bool) : Option (Pool κ) :=
  match p.states index with
  | some ⟨.spawning, _, restarts⟩ =>
    some (p.setState index
      (if ok then ⟨.starting, true, restarts⟩ else ⟨.unspawned, false, restarts⟩))
  | some ⟨.respawning, alive, restarts⟩ =>
    some (p.setState index
      (if ok then ⟨.probing, true, restarts⟩ else ⟨.watching, alive, restarts⟩))
  | _ => none

/-- The end of `await self._wait_healthy(…)`. -/
def onHealth (index : Nat) (ok : Bool) : Option (Pool κ) :=
  match p.states index with
  | some ⟨.starting, alive, restarts⟩ =>
    some (if ok then
      (p.setState index ⟨.watching, alive, restarts⟩).put (makePoolWorker settings index)
    else p.setState index ⟨.rejecting, alive, restarts⟩)
  | some ⟨.probing, alive, restarts⟩ =>
    some (if ok then
      (p.setState index ⟨.watching, alive, restarts⟩).put (makePoolWorker settings index)
    else p.setState index ⟨.stopping, alive, restarts⟩)
  | _ => none

/-- The end of `await self._terminate_proc(…)`. -/
def onTerminated (index : Nat) : Option (Pool κ) :=
  match p.states index with
  | some ⟨.rejecting, _, restarts⟩ => some (p.setState index ⟨.unhealthy, false, restarts⟩)
  | some ⟨.stopping, _, restarts⟩ => some (p.setState index ⟨.watching, false, restarts⟩)
  | _ => none

/-- The end of `await asyncio.gather(…)` in `start`. -/
def onGathered : Option (Pool κ) :=
  if p.started = false ∧ p.count settings Stage.startingUp = 0 then
    let workerCount := settings.gpuDevices.length - p.count settings Stage.failed
    some { p with workerCount := workerCount, ready := decide (0 < workerCount), started := true }
  else none

def onExits (index : Nat) : Option (Pool κ) :=
  match p.states index with
  | some ⟨stage, true, restarts⟩ => some (p.setState index ⟨stage, false, restarts⟩)
  | _ => none

/-- The end of `await state.proc.wait()` in `_supervise`. -/
def onNotices (index : Nat) : Option (Pool κ) :=
  match p.states index with
  | some ⟨.watching, false, restarts⟩ =>
    if settings.maxRestarts ≤ restarts then
      let workerCount := p.workerCount - 1
      some { p.setState index ⟨.gone, false, restarts⟩ with
        workerCount := workerCount
        ready := if workerCount = 0 then false else p.ready }
    else some (p.setState index ⟨.backingOff, false, restarts⟩)
  | _ => none

/-- The end of `await asyncio.sleep(backoff)`. -/
def onWakes (index : Nat) : Option (Pool κ) :=
  match p.states index with
  | some ⟨.backingOff, alive, restarts⟩ =>
    some (p.setState index ⟨.respawning, alive, restarts + 1⟩)
  | _ => none

/-- `acquire`, once there is something to get. -/
def acquire (caller : κ) : Option (Pool κ) :=
  match p.queue with
  | [] => none
  | worker :: rest => some { p with queue := rest, held := (caller, worker) :: p.held }

variable [DecidableEq κ]

/-- `release`, once for what has been acquired. -/
def release (caller : κ) (worker : PoolWorker) : Option (Pool κ) :=
  if (caller, worker) ∈ p.held then
    let p' := { p with held := p.held.erase (caller, worker) }
    if p.has worker.index Stage.deadFlag then some p' else some (p'.put worker)
  else none

def step : Action κ → Pool κ → Option (Pool κ)
  | .spawned index ok, p => p.onSpawned index ok
  | .health index ok, p => p.onHealth settings index ok
  | .terminated index, p => p.onTerminated index
  | .gathered, p => p.onGathered settings
  | .exits index, p => p.onExits index
  | .notices index, p => p.onNotices settings index
  | .wakes index, p => p.onWakes index
  | .acquire caller, p => p.acquire caller
  | .release caller worker, p => p.release caller worker

end Pool

end Substrate.Inference
