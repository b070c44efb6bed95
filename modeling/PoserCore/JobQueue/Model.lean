import Mathlib.Data.Finset.Basic
import PoserCore.Lib.Machine

/-!
# The thread pool's job queue

`JobQueue_enqueue` and `JobQueue_dequeue` of the atomics build, for any number of threads.  Every
access to an atomic variable or to the semaphore is one step; `avail` counts the slots that may be
claimed, `enqpos` and `deqpos` are the next positions on each side of the ring, and `count` is the
semaphore.  All counters stay below `sz + 1`, so they are natural numbers here.

Besides the program's own variables a state keeps the history the specification talks about: the
jobs passed in, accepted and returned, and a number for each reserved position (`enqs` and `deqs`
count the reservations, so the reservation numbered `n` is of slot `n % sz`).  A job stands for one
call of `JobQueue_enqueue`: a job that is enqueued again after it ran counts as a new one.
-/

namespace PoserCore.JobQueue

open Lib

variable {Tid Job : Type}

/-- Where a thread is.  Each constructor is named after the atomic access that comes next. -/
inductive Pc (Job : Type)
  | idle
  | enqLoadAvail (job : Job)
  | enqCasAvail (job : Job) (avail : ℕ)
  | enqLoadPos (job : Job)
  | enqCasPos (job : Job) (enqpos : ℕ)
  | enqStore (job : Job) (enqpos no : ℕ)
  | enqPost (job : Job)
  | deqWait
  | deqLoadPos
  | deqCasPos (deqpos : ℕ)
  | deqExchange (deqpos no : ℕ)
  | deqRelease (job : Job)
  deriving DecidableEq

/-- The queue, its threads and the history of their calls. -/
structure State (Tid Job : Type) where
  sz : ℕ
  avail : ℕ
  enqpos : ℕ
  deqpos : ℕ
  count : ℕ
  jobs : ℕ → Option Job
  pc : Tid → Pc Job
  /-- Jobs passed to `JobQueue_enqueue`. -/
  passed : List Job
  /-- Jobs for which `JobQueue_enqueue` returned 0. -/
  accepted : List Job
  /-- Jobs returned by `JobQueue_dequeue`, the latest first. -/
  returned : List Job
  enqs : ℕ
  deqs : ℕ

/-- `JobQueue_create` -/
def create (sz : ℕ) : State Tid Job where
  sz := sz
  avail := sz
  enqpos := 0
  deqpos := 0
  count := 0
  jobs := fun _ => none
  pc := fun _ => .idle
  passed := []
  accepted := []
  returned := []
  enqs := 0
  deqs := 0

/-- A thread calls one of the two functions, performs its next access, or has its `sem_wait`
interrupted by a signal. -/
inductive Action (Tid Job : Type)
  | enqueue (t : Tid) (job : Job)
  | dequeue (t : Tid)
  | run (t : Tid)
  | interrupt (t : Tid)
  deriving DecidableEq

/-- The position after `pos` in a ring of `sz` slots. -/
def nextPos (sz pos : ℕ) : ℕ := if pos + 1 = sz then 0 else pos + 1

variable [DecidableEq Tid] [DecidableEq Job]

/-- Move thread `t` to `p`. -/
def State.goto (s : State Tid Job) (t : Tid) (p : Pc Job) : State Tid Job :=
  { s with pc := Function.update s.pc t p }

/-- The next atomic access of thread `t`; `none` while it is blocked in `sem_wait`, or idle. -/
def runThread (s : State Tid Job) (t : Tid) : Option (State Tid Job) :=
  match s.pc t with
  | .idle => none
  | .enqLoadAvail job => some (s.goto t (.enqCasAvail job s.avail))
  | .enqCasAvail job avail =>
      if avail = 0 then some (s.goto t .idle)
      else if s.avail = avail then some ({ s with avail := avail - 1 }.goto t (.enqLoadPos job))
      else some (s.goto t (.enqCasAvail job s.avail))
  | .enqLoadPos job => some (s.goto t (.enqCasPos job s.enqpos))
  | .enqCasPos job enqpos =>
      if s.enqpos = enqpos then
        some ({ s with enqpos := nextPos s.sz enqpos, enqs := s.enqs + 1 }.goto t
          (.enqStore job enqpos s.enqs))
      else some (s.goto t (.enqCasPos job s.enqpos))
  | .enqStore job enqpos _ =>
      some ({ s with jobs := Function.update s.jobs enqpos (some job) }.goto t (.enqPost job))
  | .enqPost job =>
      some ({ s with count := s.count + 1, accepted := job :: s.accepted }.goto t .idle)
  | .deqWait => if s.count = 0 then none else some ({ s with count := s.count - 1 }.goto t .deqLoadPos)
  | .deqLoadPos => some (s.goto t (.deqCasPos s.deqpos))
  | .deqCasPos deqpos =>
      if s.deqpos = deqpos then
        some ({ s with deqpos := nextPos s.sz deqpos, deqs := s.deqs + 1 }.goto t
          (.deqExchange deqpos s.deqs))
      else some (s.goto t (.deqCasPos s.deqpos))
  | .deqExchange deqpos _ =>
      -- an empty slot makes the loop try again
      match s.jobs deqpos with
      | none => some s
      | some job =>
          some ({ s with jobs := Function.update s.jobs deqpos none }.goto t (.deqRelease job))
  | .deqRelease job =>
      some ({ s with avail := s.avail + 1, returned := job :: s.returned }.goto t .idle)

/-- One step of the system. -/
def step (s : State Tid Job) : Action Tid Job → Option (State Tid Job)
  | .enqueue t job =>
      if s.pc t = .idle ∧ job ∉ s.passed then
        some ({ s with passed := job :: s.passed }.goto t (.enqLoadAvail job))
      else none
  | .dequeue t => if s.pc t = .idle then some (s.goto t .deqWait) else none
  | .run t => runThread s t
  | .interrupt t => if s.pc t = .deqWait then some (s.goto t .idle) else none

/-- The job queue of size `sz` used by the threads `Tid`. -/
def machine (Tid Job : Type) [DecidableEq Tid] [DecidableEq Job] (sz : ℕ) :
    Machine (State Tid Job) (Action Tid Job) where
  init s := s = create sz
  step := step

end PoserCore.JobQueue
