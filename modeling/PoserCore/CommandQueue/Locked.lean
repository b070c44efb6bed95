import PoserCore.Lib.Links
import PoserCore.Lib.Objects

/-!
# The command queue of the build without shared objects

`enqueueCommand`, run by any number of threads, and the loop of the thread that owns the queue
(`processEvents`, `clearMustWake`, `runCommands`, `eventsDone`), where `lock` protects `first`, `last`
and `mustwake`.  Every statement is a step of its own.  The nodes live in a heap: `malloc` gives any
address that is not in use, `free` takes it back, and an access to an address that is not in use sets
`fault`.

As in the other build, the wake-up descriptor is one bit, `token`, which is reset when the wait returns
(`latched`) or read after `clearMustWake`.
-/

namespace PoserCore.CommandQueue.Locked

open Lib

abbrev Addr := ℕ

variable {Tid Cmd : Type}

/-- `SvcCommandNode` -/
structure Node (Cmd : Type) where
  next : Option Addr
  cmd : Cmd
  deriving DecidableEq

abbrev Heap (Cmd : Type) := Addr → Option (Node Cmd)

/-- Where a thread is in `enqueueCommand`; each constructor is named after the statement that comes
next. -/
inductive Pc (Cmd : Type)
  | idle
  | malloc (cmd : Cmd)
  | lock (cmd : Cmd) (node : Addr)
  | link (cmd : Cmd) (node : Addr)
  | setLast (node : Addr)
  | readWake
  | clearWake (mustwake : Bool)
  | unlock (mustwake : Bool)
  | wake
  deriving DecidableEq

/-- Where the owner is.  `torun` and `next` are the locals of `runCommands`; `reported` says whether the
wait returned the event of the wake-up descriptor. -/
inductive OwnPc
  | poll
  | clearLock (reported : Bool)
  | clearStore (reported : Bool)
  | clearUnlock (reported : Bool)
  | drain
  | enter
  | lock
  | readFirst
  | zeroFirst (torun : Option Addr)
  | zeroLast (torun : Option Addr)
  | setWake (torun : Option Addr)
  | unlock (torun : Option Addr)
  | run (torun : Option Addr)
  | loadNext (torun : Addr)
  | free (torun : Addr) (next : Option Addr)
  | eventsDone
  deriving DecidableEq

structure State (Tid Cmd : Type) where
  heap : Heap Cmd
  first : Option Addr
  last : Option Addr
  mustwake : Bool
  token : Bool
  /-- Who holds the lock: a thread, or the owner -/
  lock : Option (Option Tid)
  pc : Tid → Pc Cmd
  opc : OwnPc
  /-- What the present call of `runCommands` ran -/
  ran : List Cmd
  /-- Memory was accessed that was not in use. -/
  fault : Bool

inductive Action (Tid Cmd : Type)
  | call (t : Tid) (cmd : Cmd)
  | malloc (t : Tid) (a : Addr)
  | run (t : Tid)
  | poll (reported : Bool)
  | owner
  deriving DecidableEq

variable [DecidableEq Tid]

/-- Move thread `t` to `p`. -/
def State.goto (s : State Tid Cmd) (t : Tid) (p : Pc Cmd) : State Tid Cmd :=
  { s with pc := Function.update s.pc t p }

/-- `node->next = next` -/
def setNext (heap : Heap Cmd) (node : Addr) (next : Option Addr) : Heap Cmd :=
  Function.update heap node ((heap node).map fun n => { n with next := next })

/-- The next statement of thread `t`. -/
def runThread (s : State Tid Cmd) (t : Tid) : Option (State Tid Cmd) :=
  match s.pc t with
  | .idle | .malloc _ => none
  | .lock cmd node =>
      if s.lock = none then some ({ s with lock := some (some t) }.goto t (.link cmd node)) else none
  | .link _ node =>
      match s.last with
      | none => some ({ s with first := some node }.goto t (.setLast node))
      | some last =>
          some ({ s with
            heap := setNext s.heap last (some node)
            fault := s.fault || (s.heap last).isNone }.goto t (.setLast node))
  | .setLast node => some ({ s with last := some node }.goto t .readWake)
  | .readWake => some (s.goto t (.clearWake s.mustwake))
  | .clearWake mustwake => some ({ s with mustwake := false }.goto t (.unlock mustwake))
  | .unlock mustwake => some ({ s with lock := none }.goto t (if mustwake then .wake else .idle))
  | .wake => some ({ s with token := true }.goto t .idle)

/-- The owner takes the lock. -/
def State.acquire (s : State Tid Cmd) (opc : OwnPc) : Option (State Tid Cmd) :=
  if s.lock = none then some { s with lock := some none, opc := opc } else none

/-- The next statement of the owner; `none` while it is blocked. -/
def runOwner (latched : Bool) (s : State Tid Cmd) : Option (State Tid Cmd) :=
  match s.opc with
  | .poll => none
  | .clearLock reported => s.acquire (.clearStore reported)
  | .clearStore reported => some { s with mustwake := false, opc := .clearUnlock reported }
  | .clearUnlock reported =>
      some { s with lock := none, opc := if reported && !latched then .drain else .enter }
  | .drain => some { s with token := false, opc := .enter }
  | .enter => some { s with ran := [], opc := .lock }
  | .lock => s.acquire .readFirst
  | .readFirst => some { s with opc := .zeroFirst s.first }
  | .zeroFirst torun => some { s with first := none, opc := .zeroLast torun }
  | .zeroLast torun => some { s with last := none, opc := .setWake torun }
  | .setWake torun => some { s with mustwake := true, opc := .unlock torun }
  | .unlock torun => some { s with lock := none, opc := .run torun }
  | .run none => some { s with opc := .eventsDone }
  | .run (some torun) =>
      match s.heap torun with
      | none => some { s with fault := true, opc := .loadNext torun }
      | some node => some { s with ran := s.ran ++ [node.cmd], opc := .loadNext torun }
  | .loadNext torun =>
      some { s with
        fault := s.fault || (s.heap torun).isNone
        opc := .free torun ((s.heap torun).bind Node.next) }
  | .free torun next =>
      some { s with
        heap := Function.update s.heap torun none
        fault := s.fault || (s.heap torun).isNone
        opc := .run next }
  | .eventsDone => some { s with opc := .poll }

def step (latched : Bool) (s : State Tid Cmd) : Action Tid Cmd → Option (State Tid Cmd)
  | .call t cmd => if s.pc t matches .idle then some (s.goto t (.malloc cmd)) else none
  | .malloc t a =>
      match s.pc t, s.heap a with
      | .malloc cmd, none =>
          some ({ s with heap := Function.update s.heap a (some ⟨none, cmd⟩) }.goto t (.lock cmd a))
      | _, _ => none
  | .run t => runThread s t
  | .poll reported =>
      if s.opc = .poll ∧ (reported → s.token) then
        some { s with token := s.token && !(reported && latched), opc := .clearLock reported }
      else none
  | .owner => runOwner latched s

/-- After `initCommandQueue` -/
def init : State Tid Cmd where
  heap := fun _ => none
  first := none
  last := none
  mustwake := true
  token := false
  lock := none
  pc := fun _ => .idle
  opc := .poll
  ran := []
  fault := false

/-- The command queue used by the threads `Tid`. -/
def machine (Tid Cmd : Type) [DecidableEq Tid] (latched : Bool) :
    Machine (State Tid Cmd) (Action Tid Cmd) where
  init s := s = init
  step := step latched

/-! ## The mailbox it stands for -/

inductive Call (Cmd : Type)
  /-- `enqueueCommand` -/
  | post (cmd : Cmd)
  /-- `runCommands` -/
  | collect

inductive Result (Cmd : Type)
  | posted
  /-- The commands that `runCommands` ran, in this order -/
  | ran (cmds : List Cmd)

/-- What a call does to the commands that wait, the oldest first. -/
inductive Mailbox : List Cmd → Call Cmd → List Cmd → Call Cmd ⊕ Result Cmd → Prop
  | post (q : List Cmd) (cmd : Cmd) : Mailbox q (.post cmd) (q ++ [cmd]) (.inr .posted)
  | collect (q : List Cmd) : Mailbox q .collect [] (.inr (.ran q))

/-- A mailbox: the owner collects all commands that were posted, in their order. -/
def mailbox (Cmd : Type) : Object (List Cmd) (Call Cmd) (Result Cmd) where
  init q := q = []
  act := Mailbox

/-- The calls, and what they return; the owner is `none`. -/
def seen (s : State Tid Cmd) : Action Tid Cmd → List (Event (Option Tid) (Call Cmd) (Result Cmd))
  | .call t cmd => [.call (some t) (.post cmd)]
  | .run t =>
      match s.pc t with
      | .unlock false | .wake => [.ret (some t) .posted]
      | _ => []
  | .owner =>
      match s.opc with
      | .enter => [.call none .collect]
      | .run none => [.ret none (.ran s.ran)]
      | _ => []
  | _ => []

end PoserCore.CommandQueue.Locked
