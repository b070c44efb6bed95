import PoserCore.Lib.Keyed
import Mathlib.Data.Nat.Bitwise
import Mathlib.Logic.Function.Basic

/-!
# The event backends of the service

Each backend keeps the descriptors a caller registered in a structure of its own: `epoll` has 32
chains of watches beside the kernel's set, `poll` an array it compacts, `select` two bit sets with
their sizes and an upper bound.  All of them implement one relation, the set of registered pairs of
a descriptor and a direction (`Interest`).
-/

namespace PoserCore.Backends

open Lib

inductive Direction
  | read
  | write
  deriving DecidableEq, Repr

inductive Call
  | registerRead (id : ℤ)
  | unregisterRead (id : ℤ)
  | registerWrite (id : ℤ)
  | unregisterWrite (id : ℤ)
  deriving DecidableEq, Repr

def Call.id : Call → ℤ
  | registerRead id | unregisterRead id | registerWrite id | unregisterWrite id => id

/-- What the backends are for: the registered pairs. -/
abbrev Interest := Finset (ℤ × Direction)

def Call.track (S : Interest) : Call → Interest
  | registerRead id => insert (id, .read) S
  | unregisterRead id => S.erase (id, .read)
  | registerWrite id => insert (id, .write) S
  | unregisterWrite id => S.erase (id, .write)

/-! ## epoll -/

def EPOLLIN : BitVec 32 := 0x001

def EPOLLOUT : BitVec 32 := 0x004

structure EpollWatch where
  fd : ℤ
  events : BitVec 32
  deriving DecidableEq, Repr

/-- Operations of `epoll_ctl`. -/
inductive Ctl
  | add
  | mod
  | del
  deriving DecidableEq, Repr

/-- The part of the service that epoll uses, with the set the kernel keeps for `epfd` and the
`epoll_ctl` calls that were not applicable. -/
structure Epoll where
  epfd : ℤ
  watches : Fin 32 → List EpollWatch
  kernel : ℤ → Option (BitVec 32)
  refused : List (Ctl × ℤ)

/-- A watch with its position in the chain and the position of its predecessor. -/
structure Found where
  watch : EpollWatch
  index : ℕ
  parent : Option ℕ

/-- `(unsigned)id & 31U` for a descriptor that is not negative. -/
def slot (id : ℤ) : Fin 32 := Fin.ofNat 32 (id.toNat &&& 31)

def findFrom (fd : ℤ) (index : ℕ) (parent : Option ℕ) : List EpollWatch → Option Found
  | [] => none
  | w :: next =>
    if w.fd = fd then some ⟨w, index, parent⟩ else findFrom fd (index + 1) (some index) next

/-- The chain after the watch was taken out: its successors follow the parent, or the head. -/
def Found.unlink (f : Found) (chain : List EpollWatch) : List EpollWatch :=
  match f.parent with
  | some p => chain.take (p + 1) ++ chain.drop (f.index + 1)
  | none => chain.drop (f.index + 1)

namespace Epoll

/-- A fresh epoll instance. -/
def create (epfd : ℕ) : Epoll := ⟨epfd, fun _ => [], fun _ => none, []⟩

def isValidFd (id : ℤ) : Bool := 0 ≤ id

def findWatch (e : Epoll) (fd : ℤ) : Option Found :=
  if fd < 0 then none else findFrom fd 0 none (e.watches (slot fd))

/-- The kernel adds a descriptor it does not have, and changes or deletes one it has. -/
def epollCtl (e : Epoll) (op : Ctl) (id : ℤ) (events : BitVec 32) : Epoll :=
  match op, e.kernel id with
  | .add, none => { e with kernel := Function.update e.kernel id (some events) }
  | .mod, some _ => { e with kernel := Function.update e.kernel id (some events) }
  | .del, some _ => { e with kernel := Function.update e.kernel id none }
  | op, _ => { e with refused := (op, id) :: e.refused }

def setChain (e : Epoll) (id : ℤ) (chain : List EpollWatch) : Epoll :=
  { e with watches := Function.update e.watches (slot id) chain }

def registerWatch (e : Epoll) (id : ℤ) (flag : BitVec 32) : Epoll :=
  if e.epfd < 0 then e
  else if !isValidFd id then e
  else
    let chain := e.watches (slot id)
    match e.findWatch id with
    | some f =>
      if f.watch.events &&& flag ≠ 0 then e
      else
        let w := { f.watch with events := f.watch.events ||| flag }
        (e.setChain id (chain.set f.index w)).epollCtl .mod id w.events
    | none => (e.setChain id (chain ++ [⟨id, flag⟩])).epollCtl .add id flag

def unregisterWatch (e : Epoll) (id : ℤ) (flag : BitVec 32) : Epoll :=
  if e.epfd < 0 then e
  else if !isValidFd id then e
  else
    let chain := e.watches (slot id)
    match e.findWatch id with
    | some f =>
      if f.watch.events &&& flag = 0 then e
      else
        let w := { f.watch with events := f.watch.events &&& ~~~flag }
        if w.events ≠ 0 then (e.setChain id (chain.set f.index w)).epollCtl .mod id w.events
        else (e.setChain id (f.unlink chain)).epollCtl .del id 0
    | none => e

def call (e : Epoll) : Call → Epoll
  | .registerRead id => e.registerWatch id EPOLLIN
  | .unregisterRead id => e.unregisterWatch id EPOLLIN
  | .registerWrite id => e.registerWatch id EPOLLOUT
  | .unregisterWrite id => e.unregisterWatch id EPOLLOUT

end Epoll

/-! ## poll -/

def POLLIN : BitVec 16 := 0x001

def POLLOUT : BitVec 16 := 0x004

structure PollFd where
  fd : ℤ
  events : BitVec 16
  revents : BitVec 16
  deriving DecidableEq, Repr

structure Poll where
  nfds : ℕ
  fdssz : ℕ
  fds : ℕ → PollFd

namespace Poll

def create : Poll := ⟨0, 0, fun _ => ⟨0, 0, 0⟩⟩

def isValidFd (id : ℤ) : Bool := 0 ≤ id

def findFd (p : Poll) (fd : ℤ) : Option ℕ :=
  (List.range p.nfds).find? fun i => (p.fds i).fd = fd

/-- `memmove` of `n` entries from `i + 1` to `i`. -/
def moveDown (fds : ℕ → PollFd) (i n : ℕ) : ℕ → PollFd :=
  fun j => if i ≤ j ∧ j < i + n then fds (j + 1) else fds j

def registerPoll (p : Poll) (id : ℤ) (flag : BitVec 16) : Poll :=
  if !isValidFd id then p
  else
    match p.findFd id with
    | some i =>
      let fd := p.fds i
      if fd.events &&& flag ≠ 0 then p
      else { p with fds := Function.update p.fds i { fd with events := fd.events ||| flag } }
    | none =>
      { nfds := p.nfds + 1
        fdssz := if p.nfds = p.fdssz then p.fdssz + 16 else p.fdssz
        fds := Function.update p.fds p.nfds ⟨id, flag, 0⟩ }

def unregisterPoll (p : Poll) (id : ℤ) (flag : BitVec 16) : Poll :=
  if !isValidFd id then p
  else
    match p.findFd id with
    | some i =>
      let fd := { p.fds i with events := (p.fds i).events &&& ~~~flag }
      let fds := Function.update p.fds i fd
      if fd.events = 0 then
        { p with nfds := p.nfds - 1, fds := moveDown fds i (p.nfds - 1 - i) }
      else { p with fds := fds }
    | none => p

def call (p : Poll) : Call → Poll
  | .registerRead id => p.registerPoll id POLLIN
  | .unregisterRead id => p.unregisterPoll id POLLIN
  | .registerWrite id => p.registerPoll id POLLOUT
  | .unregisterWrite id => p.unregisterPoll id POLLOUT

end Poll

/-! ## select -/

/-- `fds` and `count` are `readfds` and `nread` in one direction, `writefds` and `nwrite` in the
other. -/
structure Select where
  fds : Direction → ℕ → Bool
  count : Direction → ℤ
  nfds : ℤ

namespace Select

def create : Select := ⟨fun _ _ => false, fun _ => 0, 0⟩

def isValidFd (fdSetsize : ℕ) (id : ℤ) : Bool := 0 ≤ id ∧ id < fdSetsize

def setFd (s : Select) (d : Direction) (id : ℤ) (b : Bool) : Select :=
  { s with fds := Function.update s.fds d (Function.update (s.fds d) id.toNat b) }

def addCount (s : Select) (d : Direction) (n : ℤ) : Select :=
  { s with count := Function.update s.count d (s.count d + n) }

/-- The search of `tryReduceNfds` below `fd`, which ends above the first descriptor that is set. -/
def lastSet (s : Select) : ℕ → ℕ
  | 0 => 0
  | fd + 1 => if s.fds .read fd || s.fds .write fd then fd + 1 else s.lastSet fd

def tryReduceNfds (s : Select) (id : ℤ) : Select :=
  if s.count .read = 0 ∧ s.count .write = 0 then { s with nfds := 0 }
  else if s.nfds ≤ id + 1 then { s with nfds := s.lastSet (id.toNat + 1) }
  else s

def register (fdSetsize : ℕ) (d : Direction) (s : Select) (id : ℤ) : Select :=
  if !isValidFd fdSetsize id then s
  else if s.fds d id.toNat then s
  else
    let s := (s.setFd d id true).addCount d 1
    if s.nfds ≤ id then { s with nfds := id + 1 } else s

def unregister (fdSetsize : ℕ) (d : Direction) (s : Select) (id : ℤ) : Select :=
  if !isValidFd fdSetsize id then s
  else if !s.fds d id.toNat then s
  else ((s.setFd d id false).addCount d (-1)).tryReduceNfds id

def call (fdSetsize : ℕ) (s : Select) : Call → Select
  | .registerRead id => s.register fdSetsize .read id
  | .unregisterRead id => s.unregister fdSetsize .read id
  | .registerWrite id => s.register fdSetsize .write id
  | .unregisterWrite id => s.unregister fdSetsize .write id

end Select

end PoserCore.Backends
