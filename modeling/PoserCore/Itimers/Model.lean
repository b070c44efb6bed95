import Mathlib.Data.List.Sort
import Mathlib.Data.Nat.Notation
import Mathlib.Logic.Function.Basic
import PoserCore.Lib.Machine

/-!
# Timers on `setitimer`

`PSC_Timer` where the system has no timer descriptors: all timers share `ITIMER_REAL`, which is set
for the first of a list of jobs, and one mutex protects the list.  A timer is named by its address,
and its `job` pointer is set exactly while the timer has a job in the list.  Times are microseconds.

The main thread runs all the code below, since `PSC_Service_runOnThread` with a negative thread
number calls its function at once there.  A function that calls the handlers of an event is
suspended until they return (`Exec.raise`), and the handlers may call any function of this module.
-/

namespace PoserCore.Itimers

open Lib (Machine)

abbrev Addr := ℕ

/-! ## The state -/

structure Timer where
  thrno : ℤ
  ms : UInt32
  periodic : Bool

structure Job where
  timer : Addr
  remaining : ℕ

structure State where
  /-- Whether the thread holds the mutex. -/
  held : Bool
  jobs : List Job
  timers : Addr → Timer
  /-- The value of `ITIMER_REAL`; zero while it is disarmed or its signal was delivered. -/
  itimer : ℕ

/-- What a piece of code does: it returns, it waits for the mutex its own thread holds, or it
raises the event of a timer and goes on once the handlers returned.  The last case stands for calls
nested deeper than assumed. -/
inductive Exec
  | ret (s : State)
  | deadlock
  | raise (t : Addr) (s : State) (next : State → Exec)
  | deep

/-- One piece of code after another. -/
def Exec.bind : Exec → (State → Exec) → Exec
  | .ret s, f => f s
  | .deadlock, _ => .deadlock
  | .raise t s next, f => .raise t s fun s' => (next s').bind f
  | .deep, _ => .deep

@[simp] theorem Exec.bind_ret (s : State) (f : State → Exec) : (Exec.ret s).bind f = f s := rfl

@[simp] theorem Exec.bind_deadlock (f : State → Exec) : Exec.deadlock.bind f = .deadlock := rfl

namespace State

/-- Whether the `job` pointer of the timer is set. -/
def Pending (s : State) (t : Addr) : Prop := ∃ j ∈ s.jobs, j.timer = t

instance (s : State) (t : Addr) : Decidable (s.Pending t) :=
  inferInstanceAs (Decidable (∃ j ∈ s.jobs, j.timer = t))

/-- `pthread_mutex_lock` on a mutex that is not recursive. -/
def lock (s : State) : Exec := if s.held then .deadlock else .ret { s with held := true }

/-- `pthread_mutex_unlock` -/
def unlock (s : State) : State := { s with held := false }

/-- `adjust` -/
def adjust (s : State) (elapsed : ℕ) : State :=
  { s with jobs := s.jobs.map fun j => { j with remaining := j.remaining - elapsed } }

/-- `stopandadjust`: disarms `ITIMER_REAL` and takes what elapsed from every job. -/
def stopandadjust (s : State) : State :=
  match s.jobs with
  | [] => s
  | j :: _ => { s.adjust (j.remaining - s.itimer) with itimer := 0 }

end State

/-! ## The functions of the list of jobs

Each takes `underrun`, what `PSC_Timer_underrun` does one level deeper. -/

section Jobs

variable (underrun : State → Exec)

def start (s : State) : Exec :=
  match s.jobs with
  | [] => .ret s
  | j :: _ => if j.remaining ≠ 0 then .ret { s with itimer := j.remaining } else underrun s

/-- The microseconds of a number of milliseconds. -/
def expiry (ms : UInt32) : ℕ := ms.toNat / 1000 * 1000000 + 1000 * (ms.toNat % 1000)

def enqueueandstart (self : Addr) (s : State) : Exec :=
  let job : Job := ⟨self, expiry (s.timers self).ms⟩
  start underrun { s with
    jobs := s.jobs.orderedInsert (fun j next => j.remaining ≤ next.remaining) job }

def dostoplocked (self : Addr) (s : State) : Exec :=
  match s.jobs with
  | [] => .ret s
  | j :: _ =>
      if j.timer = self then
        let s := s.stopandadjust
        start underrun { s with jobs := s.jobs.tail }
      else .ret { s with jobs := s.jobs.eraseP (·.timer = self) }

def dostartlocked (self : Addr) (s : State) : Exec :=
  (if s.Pending self then dostoplocked underrun self s else .ret s).bind fun s =>
    if ¬ s.Pending self ∧ (s.timers self).ms ≠ 0 then
      enqueueandstart underrun self s.stopandadjust
    else .ret s

def dostop (self : Addr) (s : State) : Exec :=
  s.lock.bind fun s => (dostoplocked underrun self s).bind fun s => .ret s.unlock

def dostart (self : Addr) (s : State) : Exec :=
  s.lock.bind fun s => (dostartlocked underrun self s).bind fun s => .ret s.unlock

end Jobs

/-- `PSC_Service_runOnThread` on the main thread: what is meant for another thread is queued there
and does nothing here. -/
def runOnThread (threadNo : ℤ) (func : State → Exec) (s : State) : Exec :=
  if threadNo < 0 then func s else .ret s

def doraise (self : Addr) (s : State) : Exec := .raise self s .ret

/-- `PSC_Timer_underrun`, nested at most as often as the first argument says. -/
def underrun : ℕ → State → Exec
  | 0, _ => .deep
  | n + 1, s =>
      s.lock.bind fun s =>
        match s.jobs with
        -- the source returns here without unlocking
        | [] => .ret s
        | j :: rest =>
            let s := { s with jobs := rest }.adjust j.remaining
            let self := s.timers j.timer
            (if self.periodic then enqueueandstart (underrun n) j.timer s
              else start (underrun n) s).bind fun s =>
            (runOnThread self.thrno (doraise j.timer) s).bind fun s => .ret s.unlock

/-! ## The public functions -/

/-- The calls a thread makes. -/
inductive Call
  | setMs (self : Addr) (ms : UInt32)
  | start (self : Addr) (periodic : Bool)
  | stop (self : Addr)
  | destroy (self : Addr)
  | underrun

def State.set (s : State) (t : Addr) (x : Timer) : State :=
  { s with timers := Function.update s.timers t x }

/-- `PSC_Timer_setMs` -/
def setMs (n : ℕ) (self : Addr) (ms : UInt32) (s : State) : Exec :=
  s.lock.bind fun s =>
    let s := s.set self { s.timers self with ms := ms }
    (if s.Pending self then
      (runOnThread (-1) (dostop (underrun n) self) s).bind
        (runOnThread (-1) (dostart (underrun n) self))
    else .ret s).bind fun s => .ret s.unlock

/-- `PSC_Timer_start` -/
def startTimer (n : ℕ) (self : Addr) (periodic : Bool) (s : State) : Exec :=
  s.lock.bind fun s =>
    let s := s.set self { s.timers self with periodic := periodic }
    (runOnThread (-1) (dostart (underrun n) self) s).bind fun s => .ret s.unlock

/-- `PSC_Timer_stop` -/
def stop (n : ℕ) (self : Addr) (s : State) : Exec :=
  if (s.timers self).thrno < -1 then .ret s
  else runOnThread (-1) (dostop (underrun n) self) s

/-- `PSC_Timer_destroy`: what `disableTimer` does for a timer that goes back to its pool. -/
def destroy (n : ℕ) (self : Addr) (s : State) : Exec :=
  if s.Pending self then stop n self s else .ret s

/-- A call, with at most `n` calls of `PSC_Timer_underrun` nested in it. -/
def Call.exec (n : ℕ) : Call → State → Exec
  | .setMs self ms => Itimers.setMs n self ms
  | .start self periodic => startTimer n self periodic
  | .stop self => Itimers.stop n self
  | .destroy self => Itimers.destroy n self
  | .underrun => Itimers.underrun n

/-! ## The main thread -/

/-- The main thread: the callers suspended while handlers run, the innermost first, and whether it
waits forever. -/
structure Main where
  state : State
  stack : List (Addr × (State → Exec))
  stuck : Bool

/-- The thread after some code ran. -/
def Main.after (m : Main) : Exec → Main
  | .ret s => { m with state := s }
  | .raise t s next => { m with state := s, stack := (t, next) :: m.stack }
  | .deadlock | .deep => { m with stuck := true }

/-- A call from the event loop or from the innermost handler, the return of that handler's event,
time, and between two calls from the event loop any change of the timers and the jobs by what other
threads sent. -/
inductive Action
  | call (c : Call)
  | ret
  | elapse (d : ℕ)
  | others (jobs : List Job) (timers : Addr → Timer) (itimer : ℕ)

def step (n : ℕ) (m : Main) (a : Action) : Option Main :=
  if m.stuck then none
  else
    match a with
    | .call c => some (m.after (c.exec n m.state))
    | .ret =>
        match m.stack with
        | [] => none
        | (_, next) :: stack => some ({ m with stack := stack }.after (next m.state))
    | .elapse d => some { m with state := { m.state with itimer := m.state.itimer - d } }
    | .others jobs timers itimer =>
        if m.stack.isEmpty then some { m with state := ⟨m.state.held, jobs, timers, itimer⟩ }
        else none

/-- The main thread with at most `n` nested calls of `PSC_Timer_underrun`.  Any number of timers may
be pending at first. -/
def main (n : ℕ) : Machine Main Action where
  init := fun m => m.state.held = false ∧ m.stack = [] ∧ m.stuck = false
  step := step n

end PoserCore.Itimers
