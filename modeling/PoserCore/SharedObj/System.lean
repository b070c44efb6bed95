import Mathlib.Data.Fintype.Basic
import PoserCore.Lib.Machine
import PoserCore.SharedObj.Model

/-!
# Threads that share objects

Any number of threads use the functions of `sharedobj.c` on objects they publish in shared
references.  A step is one access of a function a thread is in, a call, or a store to a reference.
The calls follow the rules of the interface: a thread registers before its first `SOM_reserve` and
does not nest reservations, and an object is retired once, when no reference holds it any more; from
then on it is not published again.
-/

namespace PoserCore.SharedObj

open Lib

/-- What was done with an object: nothing, its `SharedObj_create` returned, it was passed to
`SharedObj_retire` by a thread, that thread put it into its list. -/
inductive Status (Tid : Type)
  | raw
  | live
  | retiring (t : Tid)
  | listed (t : Tid)
  deriving DecidableEq

/-- The function a thread is in. -/
inductive Op (Ref : Type)
  | idle
  | create (pc : CreatePc)
  | retire (pc : RetirePc)
  | reserve (ref : Ref) (pc : ReservePc (Option Obj))
  | release (pc : ReleasePc)
  deriving DecidableEq

structure State (Tid Ref : Type) where
  mem : Mem
  refs : Ref → Option Obj
  loc : Tid → Local
  op : Tid → Op Ref
  registered : Tid → Bool
  status : Obj → Status Tid
  /-- What the last `SOM_reserve` of a thread returned, with the epoch it published, until
  `SOM_release` withdraws the reservation. -/
  held : Tid → Option (ℕ × Option Obj)

inductive Action (Tid Ref : Type)
  | register (t : Tid)
  | create (t : Tid)
  | retire (t : Tid) (so : Obj)
  | reserve (t : Tid) (ref : Ref)
  | release (t : Tid)
  | write (ref : Ref) (p : Option Obj)
  | run (t : Tid)
  deriving DecidableEq

variable {Tid Ref : Type} [DecidableEq Tid] [DecidableEq Ref]

/-- Move thread `t` to `p`. -/
def State.goto (s : State Tid Ref) (t : Tid) (p : Op Ref) : State Tid Ref :=
  { s with op := Function.update s.op t p }

/-- The next access of the function thread `t` is in. -/
def runThread (P : Params) (s : State Tid Ref) (t : Tid) : Option (State Tid Ref) :=
  match s.op t with
  | .idle => none
  | .create pc =>
      match pc.step P s.mem (s.loc t) with
      | (m, l, .inl pc') =>
          some ({ s with mem := m, loc := Function.update s.loc t l }.goto t (.create pc'))
      | (m, l, .inr o) =>
          some ({ s with
            mem := m, loc := Function.update s.loc t l,
            status := Function.update s.status o .live }.goto t .idle)
  | .retire pc =>
      let status := match pc with
        | .storeNext so => Function.update s.status so (.listed t)
        | _ => s.status
      match pc.step P s.mem (s.loc t) with
      | (m, l, some pc') =>
          some ({ s with mem := m, loc := Function.update s.loc t l, status := status }.goto t
            (.retire pc'))
      | (m, l, none) =>
          some ({ s with mem := m, loc := Function.update s.loc t l, status := status }.goto t .idle)
  | .reserve ref pc =>
      match pc.step s.mem (s.loc t) (s.refs ref) with
      | (m, .inl pc') => some ({ s with mem := m }.goto t (.reserve ref pc'))
      | (m, .inr res) =>
          some ({ s with mem := m, held := Function.update s.held t (some res) }.goto t .idle)
  | .release pc =>
      match pc.step s.mem (s.loc t) with
      | (m, some pc') => some ({ s with mem := m }.goto t (.release pc'))
      | (m, none) =>
          some ({ s with mem := m, held := Function.update s.held t none }.goto t .idle)

/-- One step of the system. -/
def step [Fintype Ref] (P : Params) (s : State Tid Ref) : Action Tid Ref → Option (State Tid Ref)
  | .register t =>
      if s.op t = .idle ∧ s.registered t = false then
        some { s with
          mem := (registerThread s.mem (s.loc t)).1,
          loc := Function.update s.loc t (registerThread s.mem (s.loc t)).2,
          registered := Function.update s.registered t true }
      else none
  | .create t => if s.op t = .idle then some (s.goto t (.create .count)) else none
  | .retire t so =>
      if s.op t = .idle ∧ s.status so = .live ∧ ∀ r, s.refs r ≠ some so then
        some ({ s with status := Function.update s.status so (.retiring t) }.goto t
          (.retire (.loadEpoch so)))
      else none
  | .reserve t ref =>
      if s.op t = .idle ∧ s.registered t = true ∧ s.held t = none then
        some (s.goto t (.reserve ref .loadEpoch))
      else none
  | .release t =>
      if s.op t = .idle ∧ s.held t ≠ none then some (s.goto t (.release .loadEpoch)) else none
  | .write ref p =>
      if ∀ o ∈ p, s.status o = .live then some { s with refs := Function.update s.refs ref p }
      else none
  | .run t => runThread P s t

/-- No object exists and no thread has registered; the epoch, the reservations and the number of
threads registered elsewhere are whatever they are. -/
structure Init (s : State Tid Ref) : Prop where
  fresh : s.mem.fresh = 0
  freed : ∀ o, s.mem.freed o = false
  refs : ∀ r, s.refs r = none
  loc : ∀ t, s.loc t = .zero
  op : ∀ t, s.op t = .idle
  registered : ∀ t, s.registered t = false
  status : ∀ o, s.status o = .raw
  held : ∀ t, s.held t = none

/-- The shared objects of the threads `Tid`, published in the references `Ref`. -/
def machine (Tid Ref : Type) [DecidableEq Tid] [DecidableEq Ref] [Fintype Ref] (P : Params) :
    Machine (State Tid Ref) (Action Tid Ref) where
  init := Init
  step := step P

/-! ## The specification -/

/-- No thread holds a destroyed object. -/
def Safe (s : State Tid Ref) : Prop :=
  ∀ t ep o, s.held t = some (ep, some o) → s.mem.freed o = false

/-- Fewer than `2^32` epoch increments happened in the life of each object that is not destroyed.
The increment in `SharedObj_create` belongs to the life of the object it creates. -/
def ShortLives (s : State Tid Ref) : Prop :=
  ∀ o < s.mem.fresh, s.mem.freed o = false → s.mem.epoch < s.mem.born o + 2 ^ 32

/-- The epoch `SOM_reserve` loaded at the start of the pass it is in. -/
def passEpoch : ReservePc (Option Obj) → Option ℕ
  | .loadEpoch => none
  | .store ep | .read ep | .check ep _ => some ep

/-- Fewer than `2^32` epoch increments happened since the start of each pass of `SOM_reserve`. -/
def ShortPasses (s : State Tid Ref) : Prop :=
  ∀ t ref pc ep, s.op t = .reserve ref pc → passEpoch pc = some ep → s.mem.epoch < ep + 2 ^ 32

end PoserCore.SharedObj
