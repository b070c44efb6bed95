import Mathlib.Data.Finset.Basic
import Mathlib.Data.Finset.SDiff
import Mathlib.Logic.Function.Basic
import PoserCore.Lib.Machine

/-!
# Signals

A service reads the signals it wants from a descriptor (`signalfd`).  It must block a signal to find
it there, so `PSC_Service_registerSignal` keeps a set of blocked signals beside the table of the
handlers, 32 chains of records that are never removed while the service runs.

The kernel holds a signal that all threads block, once, until it is read.  Any other one goes to the
process, where the service never sees it.  Only the main thread changes its mask below; what the other
threads do not block may be anything (`others`).  A thread of the pool does not block `SIGUSR1`, and a
secondary thread of the service has the mask that the main thread had when it started.

`H` are the handlers and `valid` the numbers `sigaddset` takes.  The end of the loop is left out.
-/

namespace PoserCore.Signals

open Lib (Machine)

variable {H : Type} (valid : Finset ℤ)

def SIGINT : ℤ := 2

def SIGPIPE : ℤ := 13

def SIGALRM : ℤ := 14

def SIGTERM : ℤ := 15

def SIGCHLD : ℤ := 17

/-- `SIGKILL` and `SIGSTOP`, which the kernel leaves out of every mask -/
def unblockable : Finset ℤ := {9, 19}

structure SigHdlRec (H : Type) where
  hdl : Option H
  signo : ℤ
  deriving DecidableEq

/-- A service before it sets up its signals, in between, while the handlers of `prestartup` and
`startup` run, and in its loop -/
inductive Phase
  | idle
  | starting
  | running
  deriving DecidableEq

structure State (H : Type) where
  phase : Phase
  sigcallbacks : Fin 32 → List (SigHdlRec H)
  sigblockmask : Finset ℤ
  /-- The signals that the main thread blocks -/
  blocked : Finset ℤ
  /-- The signals that another thread does not block -/
  others : Finset ℤ
  /-- The signals that can be read from the descriptor -/
  sfd : Finset ℤ
  /-- The signals that the kernel holds -/
  pending : Finset ℤ
  /-- What was read, with the handler that was called -/
  handled : List (ℤ × Option H)
  /-- The signals that went to the process -/
  missed : Multiset ℤ

/-- `(unsigned)signo & 0x1fU` -/
def slot (signo : ℤ) : Fin 32 := ⟨(signo % 32).toNat, by omega⟩

namespace State

def sighdlrec (s : State H) (signo : ℤ) : Option (SigHdlRec H) :=
  (s.sigcallbacks (slot signo)).find? fun r => r.signo = signo

def sigaddset (set : Finset ℤ) (signo : ℤ) : Finset ℤ :=
  if signo ∈ valid then insert signo set else set

/-- `sigprocmask` and `initSigfd` with `sigblockmask`.  If the kernel holds a signal that is not
blocked any more, then it goes to the process. -/
def setMask (s : State H) : State H :=
  let mask := s.sigblockmask \ unblockable
  { s with
    blocked := mask
    sfd := mask
    pending := s.pending ∩ mask
    missed := (s.pending \ mask).val + s.missed }

/-- What changes in the chain of the signal: the record gets the handler, or a new one follows the
last. -/
def setRecord (s : State H) (signo : ℤ) (handler : Option H) : State H :=
  let chain := s.sigcallbacks (slot signo)
  let chain :=
    if (s.sighdlrec signo).isSome then
      chain.map fun r => if r.signo = signo then { r with hdl := handler } else r
    else chain ++ [⟨handler, signo⟩]
  { s with sigcallbacks := Function.update s.sigcallbacks (slot signo) chain }

/-- The signals that `PSC_Service_registerSignal` never blocks or releases -/
def fixed : Finset ℤ := {SIGTERM, SIGINT, SIGALRM, SIGCHLD}

/-- `PSC_Service_registerSignal` -/
def registerSignal (s : State H) (signo : ℤ) (handler : Option H) : State H :=
  let r := s.sighdlrec signo
  let s :=
    if s.phase = .running ∧ signo ∉ fixed then
      if r.isSome ∧ handler.isNone then
        setMask { s with sigblockmask := s.sigblockmask.erase signo }
      else if r.isNone ∧ handler.isSome then
        -- the masks stay where `sigaddset` fails
        if signo ∈ valid then
          setMask { s with sigblockmask := insert signo s.sigblockmask }
        else s
      else s
    else s
  s.setRecord signo handler

/-- The masks that `serviceLoop` sets at first -/
def prepare (s : State H) : State H :=
  { setMask { s with sigblockmask := insert SIGPIPE fixed } with phase := .starting }

/-- The masks that it sets before it enters the loop -/
def start (s : State H) : State H :=
  let signos := (List.finRange 32).flatMap fun h => (s.sigcallbacks h).map SigHdlRec.signo
  { setMask { s with sigblockmask := signos.foldl (sigaddset valid) s.sigblockmask } with
    phase := .running }

/-- A signal for the process -/
def arrive (s : State H) (signo : ℤ) : State H :=
  if signo ∈ s.blocked ∧ signo ∉ s.others then { s with pending := insert signo s.pending }
  else { s with missed := signo ::ₘ s.missed }

/-- Other threads start, end, or change their masks. -/
def threads (s : State H) (others : Finset ℤ) : State H :=
  { s with
    others := others
    pending := s.pending \ others
    missed := (s.pending ∩ others).val + s.missed }

/-- `handleSigfd` for one signal -/
def handle (s : State H) (signo : ℤ) : State H :=
  { s with
    pending := s.pending.erase signo
    handled := s.handled ++ [(signo, (s.sighdlrec signo).bind SigHdlRec.hdl)] }

end State

inductive Action (H : Type)
  | registerSignal (signo : ℤ) (handler : Option H)
  | prepare
  | start
  | arrive (signo : ℤ)
  | threads (others : Finset ℤ)
  | handle (signo : ℤ)

def step (s : State H) : Action H → Option (State H)
  | .registerSignal signo handler => some (s.registerSignal valid signo handler)
  | .prepare => if s.phase = .idle then some s.prepare else none
  | .start => if s.phase = .starting then some (s.start valid) else none
  | .arrive signo => some (s.arrive signo)
  | .threads others => some (s.threads others)
  | .handle signo =>
      if s.phase = .running ∧ signo ∈ s.pending ∧ signo ∈ s.sfd then some (s.handle signo) else none

/-- `blocked` is the mask that the process was started with, with one thread. -/
def init (blocked : Finset ℤ) : State H :=
  { phase := .idle
    sigcallbacks := fun _ => []
    sigblockmask := ∅
    blocked := blocked
    others := ∅
    sfd := ∅
    pending := ∅
    handled := []
    missed := 0 }

def signals (blocked : Finset ℤ) : Machine (State H) (Action H) where
  init s := s = init blocked
  step := step valid

end PoserCore.Signals
