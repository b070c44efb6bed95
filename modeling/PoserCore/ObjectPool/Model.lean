import Mathlib.Algebra.GroupWithZero.Nat
import Mathlib.Data.Nat.Notation
import Mathlib.Logic.Function.Basic
import PoserCore.Lib.Machine

/-!
# The object pool

`ObjectPool`: chunks of objects in a doubly linked list, mapped by `mmap` and so filled with zeros at
first.  A chunk is named by its address and an object by the address of its chunk and its slot.  A
function that would use a `NULL` pointer or memory outside of a chunk to decide something returns
`none`.

The one exception is `lastused` after `PoolObj_free` has released some of the chunks: the code then
goes backwards from an address it computes wrongly, and what it leaves in `lastused` depends on
memory that has nothing to do with the pool, if the code gets there at all.  The model takes this
value from outside (`found`).  The calls of `madvise` are left out.  While no release has left chunks
they are for unused memory or for a range that wraps around, which the system refuses; after such a
release they may clear objects in use, and then the code does not do what the model does.  `Trim` is
about what these calls are given.
-/

namespace PoserCore.ObjectPool

open Lib (Machine)

abbrev Addr := ℕ

/-- The head of an object: its `id` in two parts, the number and `POOLOBJ_USEDMASK`. -/
structure PoolObj where
  id : ℕ
  used : Bool

/-- `ObjPoolHdr` and the objects behind it -/
structure Hdr where
  prev : Option Addr
  next : Option Addr
  nfree : ℕ
  slot : ℕ → PoolObj

/-- In `firstfree` and `lastused`, `none` is any value with `POOLOBJ_USEDMASK`. -/
structure Pool where
  objsperchunk : ℕ
  nobj : ℕ
  nfree : ℕ
  firstfree : Option ℕ
  lastused : Option ℕ
  first : Option Addr
  last : Option Addr
  keep : Option Addr
  keepcnt : UInt32
  /-- The chunks that are mapped. -/
  mem : Addr → Option Hdr

/-- `ObjectPool_create` -/
def Pool.create (objsperchunk : ℕ) : Pool where
  objsperchunk := objsperchunk
  nobj := 0
  nfree := 0
  firstfree := none
  lastused := none
  first := none
  last := none
  keep := none
  keepcnt := 0
  mem := fun _ => none

/-- `hdr = hdr->next`, `n` times. -/
def walk (mem : Addr → Option Hdr) : Option Addr → ℕ → Option Addr
  | p, 0 => p
  | none, _ + 1 => none
  | some a, n + 1 => (mem a).bind fun hdr => walk mem hdr.next n

/-! ## `ObjectPool_alloc` -/

/-- The first slot that is not in use, among `n` slots from `k` on, as an offset from `k`. -/
def scan (hdr : Hdr) : (n k : ℕ) → Option ℕ
  | 0, _ => none
  | n + 1, k => if (hdr.slot k).used then (scan hdr n (k + 1)).map (· + 1) else some 0

/-- The first chunk with a free object among those from `hdr` on, with its number. -/
def nextChunk (mem : Addr → Option Hdr) : (fuel : ℕ) → Option Addr → ℕ → Option (Hdr × ℕ)
  | 0, _, _ => none
  | fuel + 1, p, chunkno =>
      (p.bind mem).bind fun hdr =>
        if hdr.nfree = 0 then nextChunk mem fuel hdr.next (chunkno + 1) else some (hdr, chunkno)

/-- The number of the next free object, after the one in slot `k` of chunk `chunkno` was taken. -/
def nextFree (s : Pool) (hdr : Hdr) (chunkno k : ℕ) : Option ℕ :=
  if hdr.nfree ≠ 0 then
    (scan hdr (s.objsperchunk - (k + 1)) (k + 1)).map (chunkno * s.objsperchunk + (k + 1) + ·)
  else
    (nextChunk s.mem s.nobj hdr.next (chunkno + 1)).bind fun (hdr, chunkno) =>
      (scan hdr s.objsperchunk 0).map (chunkno * s.objsperchunk + ·)

/-- `firstfree` names the object to hand out. -/
def allocFree (s : Pool) (n : ℕ) : Option (Pool × Addr × ℕ) := do
  let chunkno := n / s.objsperchunk
  let k := n % s.objsperchunk
  let a ← walk s.mem s.first chunkno
  let hdr ← s.mem a
  let hdr := { hdr with slot := Function.update hdr.slot k ⟨n, true⟩, nfree := hdr.nfree - 1 }
  let s := { s with
    mem := Function.update s.mem a (some hdr)
    lastused := if s.lastused.all (· < n) then some n else s.lastused
    nfree := s.nfree - 1 }
  if s.nfree ≠ 0 then
    let next ← nextFree s hdr chunkno k
    some ({ s with firstfree := some next }, a, k)
  else some ({ s with firstfree := none }, a, k)

/-- The memory of a new chunk. -/
def zeros : Hdr := ⟨none, none, 0, fun _ => ⟨0, false⟩⟩

/-- All objects are in use: the chunk kept before, or a new one that `mmap` puts at `addr`. -/
def allocChunk (s : Pool) (addr : Addr) : Option (Pool × Addr × ℕ) := do
  let a := s.keep.getD addr
  let hdr ← (if s.keep.isSome then s.mem a else some zeros)
  let hdr := { hdr with
    prev := s.last
    next := none
    nfree := s.objsperchunk - 1
    slot := Function.update hdr.slot 0 ⟨s.nobj, true⟩ }
  let mem := Function.update s.mem a (some hdr)
  let s := { s with
    keep := none
    nfree := s.nfree + hdr.nfree
    firstfree := some (s.nobj + 1)
    nobj := s.nobj + s.objsperchunk }
  match s.last with
  | some l =>
      let lhdr ← mem l
      some ({ s with
        mem := Function.update mem l (some { lhdr with next := some a }), last := some a }, a, 0)
  | none => some ({ s with mem := mem, first := some a, last := some a }, a, 0)

/-- `ObjectPool_alloc` -/
def Pool.alloc (s : Pool) (addr : Addr) : Option (Pool × Addr × ℕ) :=
  let s := if s.keep.isSome then { s with keepcnt := s.keepcnt + 1 } else s
  match s.firstfree with
  | some n => allocFree s n
  | none => allocChunk s addr

/-! ## `PoolObj_free` -/

/-- `munmap(self->keep)` -/
def unmapKeep (s : Pool) : Addr → Option Hdr :=
  match s.keep with
  | some a => Function.update s.mem a none
  | none => s.mem

/-- The kept chunk goes after a while. -/
def dropKeep (s : Pool) : Pool :=
  if s.keep.isSome then
    if s.keepcnt - 1 = 0 then { s with keepcnt := s.keepcnt - 1, mem := unmapKeep s, keep := none }
    else { s with keepcnt := s.keepcnt - 1 }
  else s

/-- The loop that releases the last chunks, with the chunk it stops at and the number of chunks
released. -/
def release : (fuel : ℕ) → Pool → Option Addr → Option (Pool × Option Addr × ℕ)
  | 0, _, _ => none
  | _ + 1, s, none => some (s, none, 0)
  | fuel + 1, s, some a =>
      (s.mem a).bind fun hdr =>
        if hdr.nfree = s.objsperchunk then do
          let s := { s with
            last := hdr.prev
            nfree := s.nfree - s.objsperchunk
            nobj := s.nobj - s.objsperchunk
            mem := unmapKeep s
            keep := some a
            keepcnt := 16 }
          let s ← match s.last with
            | none => some s
            | some b => (s.mem b).map fun bhdr =>
                { s with mem := Function.update s.mem b (some { bhdr with next := none }) }
          let (s, hdr, n) ← release fuel s s.last
          some (s, hdr, n + 1)
        else some (s, some a, 0)

/-- The number of the last object in use among the slots `0` to `k` of a chunk, counted down from
`n`. -/
def scanDown (hdr : Hdr) : (k n : ℕ) → Option ℕ
  | k, n =>
    if (hdr.slot k).used then some n else
      match k with
      | 0 => none
      | k + 1 => scanDown hdr k (n - 1)

/-- `PoolObj_free` -/
def Pool.free (s : Pool) (obj : Addr × ℕ) (found : Option ℕ) : Option Pool := do
  let s := dropKeep s
  let hdr ← s.mem obj.1
  let id := (hdr.slot obj.2).id
  let s := { s with
    mem := Function.update s.mem obj.1
      (some { hdr with slot := Function.update hdr.slot obj.2 ⟨id, false⟩ })
    firstfree := if s.firstfree.all (id < ·) then some id else s.firstfree
    nfree := s.nfree + 1 }
  let chunkno := id / s.objsperchunk
  let a ← walk s.mem s.first chunkno
  let hdr ← s.mem a
  let s := { s with mem := Function.update s.mem a (some { hdr with nfree := hdr.nfree + 1 }) }
  if s.lastused ≠ some id then some s
  else do
    let (s, _, released) ← release (s.nobj + 1) s (some a)
    if chunkno < released then some { s with lastused := none, firstfree := none }
    else if 0 < released then some { s with lastused := found }
    else do
      let hdr ← s.mem obj.1
      some { s with lastused := (scanDown hdr obj.2 id).or found }

/-! ## Runs -/

/-- The pool and the objects that were handed out and not freed, or a pool that went wrong. -/
inductive State
  | run (pool : Pool) (live : List (Addr × ℕ))
  | fault

inductive Action
  /-- `addr` is the address a new chunk would get. -/
  | alloc (addr : Addr)
  /-- `found` is what the search for the last object in use ends with if it leaves the chunk. -/
  | free (obj : Addr × ℕ) (found : Option ℕ)

def step : State → Action → Option State
  | .fault, _ => none
  | .run s live, .alloc addr =>
      if (s.mem addr).isSome then none
      else some (match s.alloc addr with
        | some (s, obj) => .run s (obj :: live)
        | none => .fault)
  | .run s live, .free obj found =>
      if obj ∈ live then
        some (match s.free obj found with
          | some s => .run s (live.erase obj)
          | none => .fault)
      else none

def machine (objsperchunk : ℕ) : Machine State Action where
  init s := s = .run (.create objsperchunk) []
  step := step

end PoserCore.ObjectPool
