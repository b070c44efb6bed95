import Mathlib.Data.Finset.Card
import Mathlib.Logic.Function.Basic
import PoserCore.Lib.Machine

/-!
# Events

`PSC_Event`: a singly linked list of handler entries with pointers to its first and its last entry,
and the pointer `handling` by which a running `PSC_Event_raise` survives that its callbacks register
and unregister handlers.  Entries live in an object pool; a freed entry keeps its contents until
the pool gives it out again.

Every registration gets a number, so that a handler that is unregistered and registered again can be
told from the registration before.  What happens is recorded, the latest last.
-/

namespace PoserCore.Events

abbrev Addr := ℕ

/-- Callbacks and receivers are addresses. -/
structure EvHandler where
  cb : Addr
  receiver : Addr
  id : ℤ
  deriving DecidableEq, Repr

/-- A registration: its number and the handler. -/
structure Reg where
  ref : ℕ
  handler : EvHandler
  deriving DecidableEq, Repr

structure EvHandlerEntry where
  next : Option Addr
  reg : Reg

/-- The argument a callback gets: the one of the raise, or a pointer to the id. -/
inductive Args
  | null
  | given (p : Addr)
  | raised (id : ℤ)
  deriving DecidableEq, Repr

inductive Ev
  | registered (r : Reg)
  | unregistered (r : Reg)
  | called (r : Reg) (sender : Addr) (args : Args)
  deriving DecidableEq, Repr

/-- The object pool of the thread: it gives out an entry that is not in use.  The pool of
`objectpool.c` does so in the runs `ObjectPool.pool_safe` is about, which with more than one chunk are
not all of them. -/
structure Pool where
  alloc : ℕ → Finset Addr → Addr
  fresh : ∀ n used, alloc n used ∉ used

structure Event where
  sender : Addr
  first : Option Addr
  last : Option Addr
  handling : Option Addr
  entry : Addr → EvHandlerEntry
  used : Finset Addr
  count : ℕ
  trace : List Ev

/-- `PSC_Event_create`, over whatever the memory of the entries holds -/
def Event.create (sender : Addr) (entry : Addr → EvHandlerEntry) : Event where
  sender := sender
  first := none
  last := none
  handling := none
  entry := entry
  used := ∅
  count := 0
  trace := []

namespace Event

def setNext (self : Event) (a : Addr) (next : Option Addr) : Event :=
  { self with entry := Function.update self.entry a { self.entry a with next := next } }

/-- The loop of `findEntry`; the result is the entry with its predecessor. -/
def findFrom (entry : Addr → EvHandlerEntry) (handler : EvHandler) :
    ℕ → Option Addr → Option Addr → Option (Addr × Option Addr)
  | 0, _, _ => none
  | _ + 1, none, _ => none
  | fuel + 1, some e, p =>
    if (entry e).reg.handler = handler then some (e, p)
    else findFrom entry handler fuel (entry e).next (some e)

/-- The list has as many entries as are in use. -/
def findEntry (self : Event) (handler : EvHandler) : Option (Addr × Option Addr) :=
  findFrom self.entry handler self.used.card self.first none

/-- `PSC_Event_register` -/
def register (pool : Pool) (self : Event) (hdl : EvHandler) : Event :=
  match self.findEntry hdl with
  | some _ => self
  | none =>
    let entry := pool.alloc self.count self.used
    let self := { self with
      used := insert entry self.used
      entry := Function.update self.entry entry ⟨none, ⟨self.count, hdl⟩⟩
      count := self.count + 1
      trace := self.trace ++ [Ev.registered ⟨self.count, hdl⟩] }
    let self := match self.last with
      | some last => self.setNext last (some entry)
      | none => { self with first := some entry }
    { self with last := some entry }

/-- `PSC_Event_unregister` -/
def unregister (self : Event) (hdl : EvHandler) : Event :=
  if self.first = none then self
  else
    match self.findEntry hdl with
    | none => self
    | some (entry, parent) =>
      let self :=
        if self.handling = some entry then { self with handling := (self.entry entry).next }
        else self
      let self := match parent with
        | some parent => self.setNext parent (self.entry entry).next
        | none => { self with first := (self.entry entry).next }
      let self :=
        if (self.entry entry).next = none then { self with last := parent } else self
      { self with
        used := self.used.erase entry
        trace := self.trace ++ [.unregistered (self.entry entry).reg] }

end Event

inductive Op
  | register (hdl : EvHandler)
  | unregister (hdl : EvHandler)
  deriving DecidableEq, Repr

def Event.apply (pool : Pool) (self : Event) : Op → Event
  | .register hdl => self.register pool hdl
  | .unregister hdl => self.unregister hdl

/-! ## Raising -/

/-- A running `PSC_Event_raise`: its arguments, its loop variable, and whether the callback of the
entry is running. -/
structure Raise where
  id : ℤ
  args : Args
  entry : Option Addr
  calling : Bool

structure State where
  event : Event
  frame : Option Raise

/-- A call of `PSC_Event_register` or `PSC_Event_unregister`, by the callback if one is running; the
start of a raise; its loop body up to the call; the return of the callback; the end of the loop. -/
inductive Act
  | op (o : Op)
  | raise (id : ℤ) (args : Args)
  | visit
  | ret
  | done
  deriving DecidableEq

/-- `if (!args && id) args = &id` -/
def Raise.callArgs (f : Raise) : Args :=
  if f.args = .null ∧ f.id ≠ 0 then .raised f.id else f.args

/-- The loop body of `PSC_Event_raise` up to the call of the callback. -/
def visit (self : Event) (f : Raise) (entry : Addr) : State :=
  let self := { self with handling := (self.entry entry).next }
  let r := (self.entry entry).reg
  if r.handler.id = f.id then
    { event := { self with trace := self.trace ++ [.called r self.sender f.callArgs] }
      frame := some { f with args := f.callArgs, calling := true } }
  else
    { event := self
      frame := some { f with entry := self.handling } }

def step (pool : Pool) (s : State) : Act → Option State
  | .op o =>
    match s.frame with
    | none => some { s with event := s.event.apply pool o }
    | some f => if f.calling then some { s with event := s.event.apply pool o } else none
  | .raise id args =>
    match s.frame with
    | none => some { s with frame := some ⟨id, args, s.event.first, false⟩ }
    | some _ => none
  | .visit =>
    match s.frame with
    | some ⟨id, args, some entry, false⟩ => some (visit s.event ⟨id, args, some entry, false⟩ entry)
    | _ => none
  | .ret =>
    match s.frame with
    | some ⟨id, args, some _, true⟩ =>
      some { s with frame := some ⟨id, args, s.event.handling, false⟩ }
    | _ => none
  | .done =>
    match s.frame with
    | some ⟨_, _, none, false⟩ => some { s with frame := none }
    | _ => none

/-- One event, its raises and the calls made from its callbacks and from elsewhere. -/
def machine (pool : Pool) : Lib.Machine State Act where
  init s := ∃ sender entry, s = ⟨.create sender entry, none⟩
  step := step pool

end PoserCore.Events
