import Mathlib.Data.Nat.Notation
import Mathlib.Logic.Function.Basic
import PoserCore.Lib.Machine

/-!
# The thread pool

`PSC_ThreadPool` with `ucontext`: jobs wait in a queue of bounded size, are run by workers, and when a
worker is done with one it sends `threadJobDone` to the thread that enqueued it.  A job can await an
asynchronous task: one that is `async` leaves its worker until the task is completed and then goes
through the queue again, any other one blocks its worker.

`J` are the jobs and `W` the workers.  The functions on the queue are single steps, and so is
`PSC_ThreadPool_cancel`: with atomics its signal may come late, when the worker is already at another
job.  Panics, the timer of a job, which does nothing but cancel it, and `PSC_ThreadPool_done` are not
modelled.
-/

namespace PoserCore.ThreadPool

open Lib (Machine)

variable {J W : Type}

/-- A task that a job awaits -/
structure AsyncTask where
  /-- Its job was called and did not call `PSC_AsyncTask_complete` since then. -/
  called : Bool
  /-- `PSC_AsyncTask_complete` was called. -/
  completed : Bool
  deriving DecidableEq

structure ThreadJob (W : Type) where
  /-- The thread that enqueued the job -/
  thrno : ℕ
  hasCompleted : Bool
  /-- The worker that runs the job -/
  pthrno : Option W
  task : Option AsyncTask

/-- Where a worker is: it waits for a job, got one from the queue, runs it, or is blocked in
`PSC_AsyncTask_await`. -/
inductive Worker (J : Type)
  | idle
  | dequeued (j : J)
  | running (j : J)
  | blocked (j : J)
  deriving DecidableEq

structure State (J W : Type) where
  job : J → ThreadJob W
  queue : List J
  worker : W → Worker J
  /-- The jobs for which `threadJobDone` was sent, in the order in which it was -/
  posted : List J
  /-- `PSC_ThreadPool_enqueue` returned 0. -/
  accepted : J → Bool
  /-- The jobs whose event `finished` was raised, once for each time -/
  finished : List J

inductive Action (J W : Type)
  | enqueue (j : J) (thrno : ℕ)
  | dequeue (w : W)
  /-- What a worker does with the job from the queue -/
  | run (w : W)
  /-- `proc` returns. -/
  | finish (w : W)
  /-- The job on the worker calls `PSC_AsyncTask_await`. -/
  | await (w : W)
  /-- A thread handles its next `threadJobDone`. -/
  | threadJobDone (thrno : ℕ)
  /-- `PSC_AsyncTask_complete` for the task of the job -/
  | complete (j : J)
  | cancel (j : J)

variable [DecidableEq J] [DecidableEq W]

def State.setJob (s : State J W) (j : J) (job : ThreadJob W) : State J W :=
  { s with job := Function.update s.job j job }

def State.setWorker (s : State J W) (w : W) (worker : Worker J) : State J W :=
  { s with worker := Function.update s.worker w worker }

/-- `PSC_Service_runOnThread` with `threadJobDone` -/
def State.post (s : State J W) (j : J) : State J W := { s with posted := s.posted ++ [j] }

/-- `PSC_ThreadPool_enqueue` -/
def enqueue (sz : ℕ) (s : State J W) (j : J) (thrno : ℕ) : State J W :=
  let s := s.setJob j { s.job j with thrno := thrno }
  if sz ≤ s.queue.length then s
  else { s with queue := s.queue ++ [j], accepted := Function.update s.accepted j true }

/-- The body of the loop in `worker`, up to where the job runs -/
def run (async : J → Bool) (s : State J W) (w : W) (j : J) : State J W :=
  if (s.job j).hasCompleted then
    -- an `async` job goes on in `PSC_AsyncTask_await`, which resets its task
    let task := if async j then none else (s.job j).task
    (s.setJob j { s.job j with pthrno := some w, task := task }).setWorker w (.running j)
  else (s.setWorker w .idle).post j

/-- The rest of the body -/
def finish (s : State J W) (w : W) (j : J) : State J W :=
  ((s.setJob j { s.job j with pthrno := none }).setWorker w .idle).post j

/-- `PSC_AsyncTask_await` -/
def await (async : J → Bool) (s : State J W) (w : W) (j : J) : State J W :=
  let s := s.setJob j { s.job j with task := some ⟨false, false⟩ }
  if async j then finish s w j else (s.setWorker w (.blocked j)).post j

/-- `threadJobDone` -/
def threadJobDone (s : State J W) (j : J) : State J W :=
  match (s.job j).task with
  | some task => s.setJob j { s.job j with task := some { task with called := true } }
  | none => { s with finished := j :: s.finished }

/-- `PSC_AsyncTask_complete`; the result of `JobQueue_enqueue` is not used. -/
def complete (sz : ℕ) (async : J → Bool) (s : State J W) (j : J) : State J W :=
  if async j then
    let s := s.setJob j { s.job j with task := some ⟨false, true⟩ }
    if sz ≤ s.queue.length then s else { s with queue := s.queue ++ [j] }
  else
    { s.setJob j { s.job j with task := none } with
      worker := fun w => if s.worker w = .blocked j then .running j else s.worker w }

/-- `PSC_ThreadPool_cancel`; the signal ends `sem_wait` in `PSC_AsyncTask_await`.  The job then goes on
although `threadJobDone` was sent for it, and is freed there; what it does after that is not
modelled. -/
def cancel (s : State J W) (j : J) : State J W :=
  let s := s.setJob j { s.job j with hasCompleted := false }
  match (s.job j).pthrno with
  | none => s
  | some w =>
      if s.worker w = .blocked j then
        (s.setJob j { s.job j with task := none }).setWorker w (.running j)
      else s

def step (sz : ℕ) (async : J → Bool) (s : State J W) : Action J W → Option (State J W)
  | .enqueue j thrno =>
      -- an accepted job belongs to the pool
      if s.accepted j then none else some (enqueue sz s j thrno)
  | .dequeue w =>
      match s.worker w, s.queue with
      | .idle, j :: queue => some ({ s with queue := queue }.setWorker w (.dequeued j))
      | _, _ => none
  | .run w =>
      match s.worker w with
      | .dequeued j => some (run async s w j)
      | _ => none
  | .finish w =>
      match s.worker w with
      | .running j => some (finish s w j)
      | _ => none
  | .await w =>
      match s.worker w with
      | .running j => some (await async s w j)
      | _ => none
  | .threadJobDone thrno =>
      match s.posted.find? fun j => (s.job j).thrno = thrno with
      | some j => some (threadJobDone { s with posted := s.posted.erase j } j)
      | none => none
  | .complete j =>
      if (s.job j).task.any AsyncTask.called then some (complete sz async s j) else none
  | .cancel j => if j ∈ s.finished then none else some (cancel s j)

/-- Jobs as `PSC_ThreadJob_create` makes them -/
def create : State J W where
  job _ := { thrno := 0, hasCompleted := true, pthrno := none, task := none }
  queue := []
  worker _ := .idle
  posted := []
  accepted _ := false
  finished := []

def machine (J W : Type) [DecidableEq J] [DecidableEq W] (sz : ℕ) (async : J → Bool) :
    Machine (State J W) (Action J W) where
  init s := s = create
  step := step sz async

end PoserCore.ThreadPool
