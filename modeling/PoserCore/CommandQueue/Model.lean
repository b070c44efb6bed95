import PoserCore.Lib.Machine
import PoserCore.SharedObj.Model

/-!
# The command queue of a service thread

`enqueueCommand`, run by any number of threads, and the loop of the thread that owns the queue
(`processEvents`, `clearMustWake`, `runCommands`, `eventsDone`), in the atomics build.  Every load,
store, compare-and-swap or exchange of an atomic variable is one step.  The nodes are shared
objects, so the word that links the queue is the word in which `SharedObj_retire` keeps its list.

The wake-up descriptor is one bit, `token`: it is set by the write in `enqueueCommand` and reset
when the owner takes the event.  With event ports and `kqueue` that is when the wait returns, before
`clearMustWake`; with the other backends the descriptor is read after it (`Params.latched`).

A thread never enqueues on its own queue: `PSC_Service_runOnThread` calls the function directly
there.  The ghost fields record what the specification talks about: which commands were run and in
which order, which calls of `enqueueLockfree` returned, who issued a command, and which nodes were
passed to `SharedObj_retire`.
-/

namespace PoserCore.CommandQueue

open Lib SharedObj

/-- What the build and `SOM_init` decide. -/
structure Params extends SharedObj.Params where
  latched : Bool

/-! ## `enqueueLockfree` -/

/-- `p` is the local `last`, `n` the local `next`. -/
inductive LinkPc
  | reserve (pc : ReservePc Obj)
  | loadNext (p : Obj)
  | casNext (p : Obj)
  | casHelp (p n : Obj)
  | casLast (p : Obj)
  | release (pc : ReleasePc)
  deriving DecidableEq

/-- The entry of the function and of its loop. -/
def LinkPc.start : LinkPc := .reserve .loadEpoch

/-- One access of `enqueueLockfree` for `node`, with the memory and `q->last` after it; `none` means
that the function returned. -/
def LinkPc.step (m : Mem) (l : Local) (last node : Obj) : LinkPc → Mem × Obj × Option LinkPc
  | .reserve pc =>
      match pc.step m l last with
      | (m', .inl pc') => (m', last, some (.reserve pc'))
      | (m', .inr (_, p)) => (m', last, some (.loadNext p))
  | .loadNext p =>
      match m.next p with
      | none => (m, last, some (.casNext p))
      | some n => (m, last, some (.casHelp p n))
  | .casNext p =>
      match m.next p with
      | none =>
          ({ m with next := Function.update m.next p (some node) }, last, some (.casLast p))
      | some _ => (m, last, some .start)
  | .casHelp p n => (m, if last = p then n else last, some .start)
  | .casLast p => (m, if last = p then node else last, some (.release .loadEpoch))
  | .release pc =>
      match pc.step m l with
      | (m', some pc') => (m', last, some (.release pc'))
      | (m', none) => (m', last, none)

/-! ## The system -/

/-- Where a thread is in `enqueueCommand`. -/
inductive EnqPc (Cmd : Type)
  | idle
  | create (cmd : Cmd) (pc : CreatePc)
  | link (node : Obj) (pc : LinkPc)
  | exchange (node : Obj)
  | wake (node : Obj)
  deriving DecidableEq

/-- Where the owner is.  `torun`, `dummy` and `next` are the locals of `runCommands`; `reported`
says whether the wait returned the event of the wake-up descriptor. -/
inductive OwnPc
  | poll
  | clear (reported : Bool)
  | drain
  | loadFirst
  | storeMustwake (torun : Option Obj)
  | create (torun : Obj) (pc : CreatePc)
  | link (torun dummy : Obj) (pc : LinkPc)
  | retireFirst (torun dummy : Obj) (pc : RetirePc)
  | setFirst (torun dummy : Obj)
  | run (torun : Option Obj) (dummy : Obj)
  | loadNext (torun dummy : Obj)
  | retireRun (dummy : Obj) (next : Option Obj) (pc : RetirePc)
  | eventsDone
  deriving DecidableEq

/-- The queue, the threads around it and the history. -/
structure State (Tid Cmd : Type) where
  mem : Mem
  first : Obj
  last : Obj
  mustwake : Bool
  token : Bool
  /-- The command in a node; a dummy has none. -/
  cmd : Obj → Option Cmd
  loc : Tid → Local
  pc : Tid → EnqPc Cmd
  oloc : Local
  opc : OwnPc
  /-- The nodes whose commands were called, in this order. -/
  ran : List Obj
  /-- The nodes for which `enqueueLockfree` returned to `enqueueCommand`, in this order. -/
  returned : List Obj
  issuer : Obj → Option Tid
  /-- The nodes passed to `SharedObj_retire`. -/
  dead : Obj → Bool

/-- A thread enters `enqueueCommand` or performs its next access; the owner's wait returns or the
owner performs its next access; a thread that takes no part registers with the object manager. -/
inductive Action (Tid Cmd : Type)
  | call (t : Tid) (cmd : Cmd)
  | run (t : Tid)
  | poll (reported : Bool)
  | owner
  | register
  deriving DecidableEq

variable {Tid Cmd : Type} [DecidableEq Tid]

/-- Move thread `t` to `p`. -/
def State.goto (s : State Tid Cmd) (t : Tid) (p : EnqPc Cmd) : State Tid Cmd :=
  { s with pc := Function.update s.pc t p }

/-- The next access of thread `t` in `enqueueCommand`. -/
def enqueueCommand (P : Params) (s : State Tid Cmd) (t : Tid) : Option (State Tid Cmd) :=
  match s.pc t with
  | .idle => none
  | .create cmd pc =>
      match pc.step P.toParams s.mem (s.loc t) with
      | (m, l, .inl pc') =>
          some ({ s with mem := m, loc := Function.update s.loc t l }.goto t (.create cmd pc'))
      | (m, l, .inr node) =>
          some ({ s with
            mem := m, loc := Function.update s.loc t l,
            cmd := Function.update s.cmd node (some cmd),
            issuer := Function.update s.issuer node (some t) }.goto t (.link node .start))
  | .link node pc =>
      match pc.step s.mem (s.loc t) s.last node with
      | (m, last, some pc') => some ({ s with mem := m, last := last }.goto t (.link node pc'))
      | (m, last, none) =>
          some ({ s with mem := m, last := last, returned := s.returned ++ [node] }.goto t
            (.exchange node))
  | .exchange node =>
      some ({ s with mustwake := false }.goto t (if s.mustwake then .wake node else .idle))
  | .wake _ => some ({ s with token := true }.goto t .idle)

/-- The owner calls `SharedObj_retire` on a node. -/
def State.retire (s : State Tid Cmd) (so : Obj) (k : RetirePc → OwnPc) : State Tid Cmd :=
  { s with dead := Function.update s.dead so true, opc := k (.loadEpoch so) }

/-- The next access of the owner; `none` while it is blocked in its wait. -/
def runOwner (P : Params) (s : State Tid Cmd) : Option (State Tid Cmd) :=
  match s.opc with
  | .poll => none
  | .clear reported =>
      some { s with mustwake := false, opc := if reported && !P.latched then .drain else .loadFirst }
  | .drain => some { s with token := false, opc := .loadFirst }
  | .loadFirst => some { s with opc := .storeMustwake (s.mem.next s.first) }
  | .storeMustwake none => some { s with mustwake := true, opc := .eventsDone }
  | .storeMustwake (some torun) =>
      some { s with mustwake := true, opc := .create torun .count }
  | .create torun pc =>
      match pc.step P.toParams s.mem s.oloc with
      | (m, l, .inl pc') => some { s with mem := m, oloc := l, opc := .create torun pc' }
      | (m, l, .inr dummy) =>
          some { s with
            mem := m, oloc := l, cmd := Function.update s.cmd dummy none,
            opc := .link torun dummy .start }
  | .link torun dummy pc =>
      match pc.step s.mem s.oloc s.last dummy with
      | (m, last, some pc') => some { s with mem := m, last := last, opc := .link torun dummy pc' }
      | (m, last, none) =>
          some ({ s with mem := m, last := last }.retire s.first (.retireFirst torun dummy))
  | .retireFirst torun dummy pc =>
      match pc.step P.toParams s.mem s.oloc with
      | (m, l, some pc') => some { s with mem := m, oloc := l, opc := .retireFirst torun dummy pc' }
      | (m, l, none) => some { s with mem := m, oloc := l, opc := .setFirst torun dummy }
  | .setFirst torun dummy => some { s with first := dummy, opc := .run (some torun) dummy }
  | .run torun dummy =>
      if torun = some dummy then some { s with opc := .eventsDone }
      else torun.map fun node => { s with ran := s.ran ++ [node], opc := .loadNext node dummy }
  | .loadNext torun dummy => some (s.retire torun (.retireRun dummy (s.mem.next torun)))
  | .retireRun dummy next pc =>
      match pc.step P.toParams s.mem s.oloc with
      | (m, l, some pc') => some { s with mem := m, oloc := l, opc := .retireRun dummy next pc' }
      | (m, l, none) => some { s with mem := m, oloc := l, opc := .run next dummy }
  | .eventsDone => some { s with opc := .poll }

/-- One step of the system. -/
def step (P : Params) (s : State Tid Cmd) : Action Tid Cmd → Option (State Tid Cmd)
  | .call t cmd => if s.pc t matches .idle then some (s.goto t (.create cmd .count)) else none
  | .run t => enqueueCommand P s t
  | .poll reported =>
      if s.opc = .poll ∧ (reported → s.token) then
        some { s with
          token := s.token && !(reported && P.latched), opc := .clear reported }
      else none
  | .owner => runOwner P s
  | .register => some { s with mem := { s.mem with nthr := s.mem.nthr + 1 } }

/-- After `initCommandQueue`: one node, a dummy, and nobody in a function.  Epoch, reservations and
counters of the object manager are whatever they are. -/
structure Init (s : State Tid Cmd) : Prop where
  first : s.first = 0
  last : s.last = 0
  mustwake : s.mustwake = true
  token : s.token = false
  cmd : ∀ o, s.cmd o = none
  fresh : s.mem.fresh = 1
  next : s.mem.next 0 = none
  pc : ∀ t, s.pc t = .idle
  opc : s.opc = .poll
  retired : s.oloc.retired = none
  ran : s.ran = []
  returned : s.returned = []
  issuer : ∀ o, s.issuer o = none
  dead : ∀ o, s.dead o = false

/-- The command queue used by the threads `Tid`. -/
def machine (Tid Cmd : Type) [DecidableEq Tid] (P : Params) :
    Machine (State Tid Cmd) (Action Tid Cmd) where
  init := Init
  step := step P

end PoserCore.CommandQueue
