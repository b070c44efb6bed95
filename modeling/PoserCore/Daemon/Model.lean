import Mathlib.Data.Int.Notation
import Mathlib.Data.List.Basic
import PoserCore.Lib.Machine

/-!
# Starting a daemon

`PSC_Daemon_run` with `waitLaunched`: the process forks twice and stays as a parent until the daemon
is launched or ended.  The standard error of the daemon is a pipe until it is launched, and the
parent passes on what comes out of it.  A daemon that fails ends what it says with a zero byte.

What the system calls do is part of an action.  The pidfile is left out, and so are a failing first
`fork` and children of the daemon that keep the pipe open.
-/

namespace PoserCore.Daemon

open Lib (Machine)

def EXIT_SUCCESS : ℤ := 0

def EXIT_FAILURE : ℤ := 1

/-- The size of `buf` -/
def BUFSZ : ℕ := 256

/-- Where the process in the background is: up to the second `fork`, up to where its standard error
is the pipe, in `dmain` before and after `PSC_Daemon_launched`, behind `dmain`, where its standard
error may still be the pipe, or at its end. -/
inductive Stage
  | child
  | daemon
  | main
  | launched
  | after (piped : Bool)
  | ended
  deriving DecidableEq

/-- The parent waits in `read`, writes what is left of a chunk, which may be the last one, or
returned. -/
inductive Parent
  | reading
  | writing (rest : List UInt8) (last : Bool)
  | returned (rc : ℤ)
  deriving DecidableEq

structure State where
  stage : Stage
  /-- The first child has the pipe still open. -/
  childOpen : Bool
  pipe : List UInt8
  parent : Parent
  /-- What the parent wrote to its standard error -/
  err : List UInt8
  /-- What the daemon wrote to its standard error unless it was launched -/
  said : List UInt8
  /-- What `dmain` returned, and whether the daemon was launched then -/
  result : Option (ℤ × Bool)

inductive Action
  /-- A step on the way to `dmain` fails. -/
  | fail
  | fork
  | childExit
  | start
  | say (bytes : List UInt8)
  | launched
  /-- `dmain` returns, and `write` of the zero byte may fail then. -/
  | ret (rc : ℤ) (marked : Bool)
  /-- The process ends, maybe without a return from `dmain`. -/
  | exit
  /-- `read` in the parent returns a number of bytes, or fails. -/
  | read (sz : Option ℕ)
  /-- `write` in the parent returns a number of bytes, or fails. -/
  | write (wrc : Option ℕ)

namespace State

/-- Somebody can write to the pipe. -/
def writable (s : State) : Bool :=
  s.childOpen || s.stage = .child || s.stage = .daemon || s.stage = .main || s.stage = .after true

/-- The parent with a chunk from the pipe -/
def chunk (s : State) (buf : List UInt8) : State :=
  if buf.getLast? = some 0 then
    if buf.length ≤ 1 then { s with parent := .returned EXIT_FAILURE }
    else { s with parent := .writing buf.dropLast true }
  else { s with parent := .writing buf false }

/-- The parent after a chunk -/
def next (s : State) (last : Bool) : State :=
  { s with parent := if last then .returned EXIT_FAILURE else .reading }

/-- `dmain` returned. -/
def ret (s : State) (rc : ℤ) (marked : Bool) : State :=
  { s with
    stage := .after (s.stage = .main)
    pipe := if s.stage = .main ∧ rc ≠ EXIT_SUCCESS ∧ marked then s.pipe ++ [0] else s.pipe
    result := some (rc, s.stage = .launched) }

end State

def step (s : State) : Action → Option State
  | .fail =>
      if s.stage = .child then some { s with stage := .ended, childOpen := false }
      else if s.stage = .daemon then some { s with stage := .ended }
      else none
  | .fork => if s.stage = .child then some { s with stage := .daemon } else none
  | .childExit =>
      if s.stage ≠ .child ∧ s.childOpen then some { s with childOpen := false } else none
  | .start => if s.stage = .daemon then some { s with stage := .main } else none
  | .say bytes =>
      if s.stage = .main ∨ s.stage = .after true then
        some { s with pipe := s.pipe ++ bytes, said := s.said ++ bytes }
      else if s.stage = .launched ∨ s.stage = .after false then some s
      else none
  | .launched => if s.stage = .main then some { s with stage := .launched } else none
  | .ret rc marked =>
      if s.stage = .main ∨ s.stage = .launched then some (s.ret rc marked) else none
  | .exit =>
      if s.stage ≠ .child ∧ s.stage ≠ .daemon ∧ s.stage ≠ .ended then some { s with stage := .ended }
      else none
  | .read sz =>
      if s.parent = .reading then
        match sz with
        | some n =>
            if s.pipe ≠ [] then
              if 1 ≤ n ∧ n ≤ BUFSZ ∧ n ≤ s.pipe.length then
                some ({ s with pipe := s.pipe.drop n }.chunk (s.pipe.take n))
              else none
            else if s.writable then none
            else some { s with parent := .returned EXIT_SUCCESS }
        -- an error ends the loop like the end of the pipe
        | none => some { s with parent := .returned EXIT_SUCCESS }
      else none
  | .write wrc =>
      match s.parent with
      | .writing rest last =>
          match wrc with
          | some k =>
              if k ≤ rest.length then
                let s := { s with err := s.err ++ rest.take k }
                some (if k < rest.length then { s with parent := .writing (rest.drop k) last }
                  else s.next last)
              else none
          -- what is left of the chunk is lost
          | none => some (s.next last)
      | _ => none

def init : State where
  stage := .child
  childOpen := true
  pipe := []
  parent := .reading
  err := []
  said := []
  result := none

def daemon : Machine State Action where
  init s := s = init
  step := step

end PoserCore.Daemon
