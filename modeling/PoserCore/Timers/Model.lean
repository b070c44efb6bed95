import Mathlib.Data.Nat.Notation
import Mathlib.Logic.Function.Basic
import PoserCore.Lib.Machine

/-!
# Timers

`PSC_Timer` on top of `timerfd`, with the pool of recycled timers of one thread.  A timer is named
by its address.  The kernel's part, the deadline, the interval and the expirations not yet read, is
kept with the timer that owns the descriptor; a timer of this backend always has one, since
`createTimer` fails without it.

The thread runs one handler at a time: `expired` reads the number of expirations and raises the
event that often, and the handlers of the event may call any function on any timer.  The calls of
the owner and the events raised are recorded, the latest first.
-/

namespace PoserCore.Timers

open Lib (Machine)

abbrev Addr := ℕ

/-! ## The descriptor -/

/-- A `timerfd`: its next deadline in nanoseconds, its interval and its unread expirations. -/
structure TimerFd where
  deadline : Option ℕ
  interval : ℕ
  ticks : ℕ

/-- `timerfd_create` -/
def TimerFd.create : TimerFd where
  deadline := none
  interval := 0
  ticks := 0

/-- `timerfd_settime` at the time `now`: a value of zero disarms, and unread expirations are
forgotten. -/
def TimerFd.settime (now value interval : ℕ) : TimerFd where
  deadline := if value = 0 then none else some (now + value)
  interval := interval
  ticks := 0

/-- The kernel counts the expirations up to the time `now`. -/
def TimerFd.elapse (fd : TimerFd) (now : ℕ) : TimerFd :=
  match fd.deadline with
  | none => fd
  | some d =>
      if now < d then fd
      else if fd.interval = 0 then { fd with deadline := none, ticks := fd.ticks + 1 }
      else
        let n := (now - d) / fd.interval + 1
        { fd with deadline := some (d + n * fd.interval), ticks := fd.ticks + n }

/-! ## The timer -/

structure Timer where
  fd : TimerFd
  job : Bool
  ms : UInt32
  periodic : Bool

/-- `enableTimer` -/
def Timer.enable (self : Timer) : Timer := { self with job := false, ms := 1000, periodic := false }

/-- `createTimer`, once it has a descriptor -/
def Timer.create : Timer := Timer.enable ⟨.create, false, 0, false⟩

/-- The `it_value` for a number of milliseconds, in nanoseconds. -/
def itValue (ms : UInt32) : ℕ := ms.toNat / 1000 * 1000000000 + 1000000 * (ms.toNat % 1000)

/-- `PSC_Timer_start` -/
def Timer.start (self : Timer) (now : ℕ) (periodic : Bool) : Timer :=
  if !self.job && self.ms != 0 then
    { self with
      fd := .settime now (itValue self.ms) (if periodic then itValue self.ms else 0)
      job := true }
  else self

/-- `PSC_Timer_stop` -/
def Timer.stop (self : Timer) (now : ℕ) : Timer :=
  if self.job then { self with fd := .settime now 0 0, job := false } else self

/-- `PSC_Timer_setMs` -/
def Timer.setMs (self : Timer) (now : ℕ) (ms : UInt32) : Timer :=
  if self.job then { self with ms := ms }.start now self.periodic else { self with ms := ms }

/-! ## The thread -/

structure TimerPool where
  timers : List Addr
  refcnt : ℕ

/-- Where the thread is: in its event loop, in the loop of `expired` with some expirations left, in
a handler called from there, or beyond an access to memory that was freed. -/
inductive Control
  | idle
  | raising (t : Addr) (left : ℕ)
  | handling (t : Addr) (left : ℕ)
  | fault
  deriving DecidableEq

inductive Event
  | created (t : Addr)
  | started (t : Addr)
  | stopped (t : Addr)
  | raised (t : Addr)
  deriving DecidableEq

structure State where
  now : ℕ
  /-- The timers that are allocated, those in the pool included. -/
  timers : Addr → Option Timer
  pool : Option TimerPool
  control : Control
  trace : List Event

def State.initial : State where
  now := 0
  timers := fun _ => none
  pool := none
  control := .idle
  trace := []

/-- The timers waiting in the pool. -/
def State.pooled (s : State) : List Addr := (s.pool.map TimerPool.timers).getD []

def State.modify (s : State) (t : Addr) (f : Timer → Timer) : State :=
  { s with timers := Function.update s.timers t ((s.timers t).map f) }

def State.record (s : State) (e : Event) : State := { s with trace := e :: s.trace }

/-- `TimerPool_init` -/
def poolInit (pool : Option TimerPool) : TimerPool :=
  let p := pool.getD ⟨[], 0⟩
  { p with refcnt := p.refcnt + 1 }

/-- `TimerPool_done`, with `destroyTimer` for every timer of a pool nobody uses any more -/
def poolDone (s : State) (p : TimerPool) : State :=
  if p.refcnt = 1 then
    { s with pool := none, timers := fun t => if t ∈ p.timers then none else s.timers t }
  else { s with pool := some { p with refcnt := p.refcnt - 1 } }

/-- `PSC_Timer_create`; `alloc` is where `createTimer` finds memory, or `none` if it gets no
descriptor. -/
def create (s : State) (alloc : Option Addr) : Option State :=
  let p := poolInit s.pool
  match p.timers, alloc with
  | t :: rest, _ =>
      some (({ s with pool := some { p with timers := rest } }.modify t Timer.enable).record
        (.created t))
  | [], none => some (poolDone s p)
  | [], some t =>
      if (s.timers t).isSome then none
      else some ({ s with pool := some p, timers := Function.update s.timers t (some .create) }.record
        (.created t))

/-- `PSC_Timer_destroy`: `TimerPool_return`, whose `disableTimer` leaves the descriptor alone in
this backend, and `TimerPool_done` -/
def destroy (s : State) (t : Addr) : Option State :=
  s.pool.map fun p => poolDone s { p with timers := p.timers ++ [t] }

/-- A timer its owner may use: allocated, and not given back to the pool. -/
def State.live (s : State) (t : Addr) : Bool := (s.timers t).isSome && decide (t ∉ s.pooled)

/-- The owner's code runs outside of `expired` and in its handlers. -/
def Control.calls : Control → Bool
  | .idle | .handling _ _ => true
  | .raising _ _ | .fault => false

inductive Action
  | create (alloc : Option Addr)
  | setMs (t : Addr) (ms : UInt32)
  | start (t : Addr) (periodic : Bool)
  | stop (t : Addr)
  | destroy (t : Addr)
  /-- Time passes. -/
  | elapse (d : ℕ)
  /-- The service finds the descriptor of `t` readable and calls `expired`. -/
  | expired (t : Addr)
  /-- The next pass of the loop in `expired`. -/
  | raise
  /-- The handlers of that pass return. -/
  | handled
  /-- The end of `expired`. -/
  | finish

def step (s : State) : Action → Option State
  | .create alloc => if s.control.calls then create s alloc else none
  | .setMs t ms =>
      if s.control.calls && s.live t then some (s.modify t (·.setMs s.now ms)) else none
  | .start t periodic =>
      if s.control.calls && s.live t then
        some ((s.modify t (·.start s.now periodic)).record (.started t))
      else none
  | .stop t =>
      if s.control.calls && s.live t then some ((s.modify t (·.stop s.now)).record (.stopped t))
      else none
  | .destroy t => if s.control.calls && s.live t then destroy s t else none
  | .elapse d =>
      some { s with
        now := s.now + d
        timers := fun t => (s.timers t).map fun x => { x with fd := x.fd.elapse (s.now + d) } }
  | .expired t =>
      match s.control, s.timers t with
      | .idle, some x =>
          if x.fd.ticks = 0 then some s
          else some { s.modify t (fun x => { x with fd := { x.fd with ticks := 0 } }) with
            control := .raising t x.fd.ticks }
      | _, _ => none
  | .raise =>
      match s.control with
      | .raising t (n + 1) =>
          if (s.timers t).isSome then some ({ s with control := .handling t n }.record (.raised t))
          else some { s with control := .fault }
      | _ => none
  | .handled =>
      match s.control with
      | .handling t n => some { s with control := .raising t n }
      | _ => none
  | .finish =>
      match s.control with
      | .raising t 0 =>
          if (s.timers t).isSome then
            some { s.modify t (fun x => if x.periodic then x else { x with job := false }) with
              control := .idle }
          else some { s with control := .fault }
      | _ => none

def machine : Machine State Action where
  init := fun s => s = .initial
  step := step

end PoserCore.Timers
