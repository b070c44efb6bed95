import Mathlib.Data.Fintype.Card
import Mathlib.Logic.Function.Basic
import PoserCore.Lib.Machine

/-!
# The end of a service

The loop of the main thread of a service and what ends it: `shutdownRef` is negative until somebody
asks for the service to stop, from then on it counts the locks that delay the end of the loop, and
the loop ends with the first round that leaves it zero.  A timer started with the first lock limits
the delay.  The last thing in each round that finds no lock is to stop the thread pool, which holds
a lock of its own until its last thread was joined.

`shutdownRef` is read twice at the end of a round, to stop the pool and as the condition of the loop.
With atomics any thread may call `PSC_Service_quit` in between.  Without them the main thread sets
`shutdownRef` itself, before it reads it, so these runs are among those below.

`T` are the threads of the pool.  A service without one, as `PSC_Service_loop` runs it, is the case
where `threads` is not allocated.
-/

namespace PoserCore.Service

open Lib (Machine)

variable {T : Type}

/-- Where a thread of the pool is: it waits in `JobQueue_dequeue`, came out of it with or without a
job, runs one, has sent `workerDone`, which is the last thing it does, or was joined. -/
inductive Worker
  | waiting
  | woken (job : Bool)
  | running
  | leaving
  | joined
  deriving DecidableEq

structure Thread where
  worker : Worker
  /-- The value of the semaphore `stop` -/
  stop : ℕ
  pthrno : ℤ

inductive ShutdownTimer
  | none
  | started
  | expired
  deriving DecidableEq

/-- Whether the main thread is in its loop, is about to read the condition of the loop, has left it at
the end of a round, or has left it because `processEvents` failed or of a panic. -/
inductive Main
  | running
  | ending
  | left
  | failed
  deriving DecidableEq

structure State (T : Type) where
  shutdownRef : ℤ
  shutdownTimer : ShutdownTimer
  main : Main
  /-- `threads` and `jobQueue` are there. -/
  allocated : Bool
  /-- How often they were freed -/
  frees : ℕ
  rthreads : ℕ
  thread : T → Thread
  /-- The threads whose `workerDone` is queued for the main thread -/
  commands : List T
  /-- `stopThreads` was called and the pool is not freed yet. -/
  stopping : Bool
  /-- The locks of the program that were counted and that it did not release since -/
  held : ℕ
  /-- `shutdownRef` was set to zero while it counted locks. -/
  dropped : Bool
  /-- The program released a lock it did not hold. -/
  unbalanced : Bool
  /-- `shutdownTimer` could not be created. -/
  untimed : Bool
  /-- `PSC_Service_quit` came between the two reads at the end of a round. -/
  late : Bool

namespace State

/-- `shutdownRef = 0` -/
def reset (s : State T) : State T :=
  { s with shutdownRef := 0, dropped := s.dropped || decide (0 < s.shutdownRef) }

/-- `PSC_Service_quit` -/
def quit (s : State T) : State T :=
  if s.shutdownRef = -1 then
    { s with shutdownRef := 0, late := s.late || decide (s.main = .ending) }
  else s

/-- `PSC_Service_shutdownLock` on the main thread.  The argument tells whether a timer can be
created. -/
def shutdownLock (s : State T) (created : Bool) : State T :=
  let s := if 0 ≤ s.shutdownRef then { s with shutdownRef := s.shutdownRef + 1 } else s
  if s.shutdownTimer = .none then
    if created then { s with shutdownTimer := .started }
    else { s.reset with untimed := true }
  else s

/-- `PSC_Service_shutdownUnlock` on the main thread -/
def shutdownUnlock (s : State T) : State T :=
  if 0 < s.shutdownRef then { s with shutdownRef := s.shutdownRef - 1 } else s

/-- The calls of both functions by the program -/
def lock (s : State T) (created : Bool) : State T :=
  { s.shutdownLock created with held := if 0 ≤ s.shutdownRef then s.held + 1 else s.held }

def unlock (s : State T) : State T :=
  { s.shutdownUnlock with
    held := s.held - 1
    unbalanced := s.unbalanced || decide (s.held = 0 ∧ 0 < s.shutdownRef) }

def stopThreads (s : State T) : State T :=
  { s with
    stopping := true
    thread := fun t =>
      let x := s.thread t
      if 0 ≤ x.pthrno then { x with stop := x.stop + 1 } else x }

/-- `PSC_ThreadPool_done` -/
def poolDone (s : State T) (created : Bool) : State T :=
  if s.allocated then s.stopThreads.shutdownLock created else s

/-- The pool is freed. -/
def free (s : State T) : State T :=
  { s with allocated := false, frees := s.frees + 1, stopping := false }

variable [DecidableEq T]

def setThread (s : State T) (t : T) (x : Thread) : State T :=
  { s with thread := Function.update s.thread t x }

def workerDone (s : State T) (t : T) : State T :=
  let s := { s.setThread t { s.thread t with pthrno := -1, worker := .joined } with
    rthreads := s.rthreads - 1 }
  if s.rthreads ≠ 0 then s else s.free.shutdownUnlock

/-- The end of a round of the loop -/
def round (s : State T) (created : Bool) : State T :=
  { if s.shutdownRef = 0 then s.poolDone created else s with main := .ending }

/-- The condition of the loop -/
def loop (s : State T) : State T :=
  { s with main := if s.shutdownRef ≠ 0 then .running else .left }

end State

inductive Action (T : Type)
  /-- `JobQueue_dequeue` returns on the thread. -/
  | dequeue (t : T) (job : Bool)
  /-- The thread reads its semaphore `stop`. -/
  | check (t : T)
  /-- The job on the thread is done. -/
  | finish (t : T)
  /-- `PSC_Service_quit` on any thread -/
  | quit
  | lock (created : Bool)
  | unlock
  /-- `SIGTERM` or `SIGINT` -/
  | signal
  /-- `shutdownTimer` expires. -/
  | timeout
  /-- The main thread runs the next `workerDone`. -/
  | workerDone
  | round (created : Bool)
  | loop
  /-- `processEvents` fails, or there is a panic. -/
  | fail

variable [DecidableEq T]

/-- The steps of a thread of the pool -/
def runWorker (s : State T) (t : T) : Action T → Option (State T)
  | .dequeue _ job =>
      if (s.thread t).worker = .waiting then
        some (s.setThread t { s.thread t with worker := .woken job })
      else none
  | .check _ =>
      match (s.thread t).worker with
      | .woken job =>
          if (s.thread t).stop ≠ 0 then
            some { s.setThread t { s.thread t with worker := .leaving } with
              commands := s.commands ++ [t] }
          else some (s.setThread t { s.thread t with worker := if job then .running else .waiting })
      | _ => none
  | .finish _ =>
      if (s.thread t).worker = .running then
        some (s.setThread t { s.thread t with worker := .waiting })
      else none
  | _ => none

/-- The steps of the main thread in a round -/
def runMain (s : State T) : Action T → Option (State T)
  | .lock created => some (s.lock created)
  | .unlock => some s.unlock
  | .signal => some s.reset
  | .timeout =>
      if s.shutdownTimer = .started then some { s.reset with shutdownTimer := .expired } else none
  | .workerDone =>
      match s.commands with
      | [] => none
      | t :: commands => some ({ s with commands := commands }.workerDone t)
  | .round created => some (s.round created)
  | .fail => some { s with main := .failed }
  | _ => none

def step (s : State T) (a : Action T) : Option (State T) :=
  match a with
  | .dequeue t _ | .check t | .finish t => runWorker s t a
  | .quit => some s.quit
  | .loop => if s.main = .ending then some s.loop else none
  | _ => if s.main = .running then runMain s a else none

/-- A service at the start of its loop, with all threads of its pool, or none -/
def Init [Fintype T] (s : State T) : Prop :=
  s.shutdownRef = -1 ∧ s.shutdownTimer = .none ∧ s.main = .running ∧ s.frees = 0 ∧
    s.commands = [] ∧ s.stopping = false ∧ s.held = 0 ∧ s.dropped = false ∧
    s.unbalanced = false ∧ s.untimed = false ∧ s.late = false ∧
    if s.allocated then
      s.rthreads = Fintype.card T ∧
        ∀ t, (s.thread t).worker = .waiting ∧ (s.thread t).stop = 0 ∧ 0 ≤ (s.thread t).pthrno
    else ∀ t, (s.thread t).worker = .joined ∧ (s.thread t).pthrno < 0

def service (T : Type) [DecidableEq T] [Fintype T] : Machine (State T) (Action T) where
  init := Init
  step := step

end PoserCore.Service
