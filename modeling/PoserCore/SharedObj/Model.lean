import Mathlib.Algebra.GroupWithZero.Nat
import Mathlib.Logic.Function.Basic
import Mathlib.Data.Nat.Notation

/-!
# Shared objects

The functions of `sharedobj.c` as programs over shared memory in which every atomic access is one
step.  An object is named by the order of its allocation; a name is never given twice, and a
destroyed object is recorded in `freed`.

The epoch counter is kept as the number of increments, and so is everything copied from it (the
fields `created` and `retired`, the reservations in `res`, the locals of the functions): the value
the program sees and compares is its 32-bit word, `word`.  Each function is a type of program
counters named after the access that comes next, with a step function that says what that access
does and where the function is then, or what it returned.
-/

namespace PoserCore.SharedObj

/-- The name of an object. -/
abbrev Obj := ℕ

/-- Two threads are enough for the runs that go wrong. -/
instance two_threads : NeZero 2 := ⟨by decide⟩

/-- The value of a 32-bit unsigned variable. -/
def word (n : ℕ) : ℕ := n % 2 ^ 32

/-- `n - 1U`, up to its word. -/
def wordPred (n : ℕ) : ℕ := n + (2 ^ 32 - 1)

/-- What `SOM_init` was called with. -/
structure Params where
  intEpoch : ℕ
  intDestroy : ℕ

/-- The shared variables of `sharedobj.c` and the words of the objects. -/
@[ext]
structure Mem where
  epoch : ℕ
  nthr : ℕ
  res : ℕ → ℕ
  next : Obj → Option Obj
  created : Obj → ℕ
  retired : Obj → ℕ
  /-- The first object not yet allocated. -/
  fresh : Obj
  /-- The epoch in which an object was allocated. -/
  born : Obj → ℕ
  /-- The objects a sweep has destroyed. -/
  freed : Obj → Bool

/-- The thread-local variables of `sharedobj.c`. -/
structure Local where
  tid : ℕ
  ncreated : ℕ
  nretired : ℕ
  retired : Option Obj

/-- All thread-local variables are zero in a new thread. -/
def Local.zero : Local := ⟨0, 0, 0, none⟩

/-! ## `SharedObj_create` -/

inductive CreatePc
  | count
  | addEpoch
  | loadEpoch
  | storeNext (self : Obj) (created : ℕ)
  | storeCreated (self : Obj) (created : ℕ)
  | storeRetired (self : Obj) (created : ℕ)
  deriving DecidableEq

/-- Take the next object; its memory is not initialised yet. -/
def Mem.malloc (m : Mem) : Mem :=
  { m with fresh := m.fresh + 1, born := Function.update m.born m.fresh m.epoch }

/-- One access of `SharedObj_create`; a value means that the function returned it. -/
def CreatePc.step (P : Params) (m : Mem) (l : Local) : CreatePc → Mem × Local × (CreatePc ⊕ Obj)
  | .count =>
      if word (l.ncreated + 1) = P.intEpoch then (m, { l with ncreated := 0 }, .inl .addEpoch)
      else (m, { l with ncreated := word (l.ncreated + 1) }, .inl .loadEpoch)
  | .addEpoch =>
      ({ m.malloc with epoch := m.epoch + 1 }, l, .inl (.storeNext m.fresh m.epoch))
  | .loadEpoch => (m.malloc, l, .inl (.storeNext m.fresh m.epoch))
  | .storeNext self created =>
      ({ m with next := Function.update m.next self none }, l, .inl (.storeCreated self created))
  | .storeCreated self created =>
      ({ m with created := Function.update m.created self created }, l,
        .inl (.storeRetired self created))
  | .storeRetired self created =>
      ({ m with retired := Function.update m.retired self (wordPred created) }, l, .inr self)

/-! ## `SOM_reserve` and `SOM_release` -/

inductive ReservePc (α : Type)
  | loadEpoch
  | store (ep : ℕ)
  | read (ep : ℕ)
  | check (ep : ℕ) (p : α)
  deriving DecidableEq

/-- One access of `SOM_reserve` for a reference that holds `ref`; the epoch it published is returned
beside the pointer. -/
def ReservePc.step {α : Type} (m : Mem) (l : Local) (ref : α) :
    ReservePc α → Mem × (ReservePc α ⊕ ℕ × α)
  | .loadEpoch => (m, .inl (.store m.epoch))
  | .store ep => ({ m with res := Function.update m.res l.tid ep }, .inl (.read ep))
  | .read ep => (m, .inl (.check ep ref))
  | .check ep p => (m, if word ep = word m.epoch then .inr (ep, p) else .inl .loadEpoch)

inductive ReleasePc
  | loadEpoch
  | store (ep : ℕ)
  deriving DecidableEq

/-- One access of `SOM_release`; `none` means that the function returned. -/
def ReleasePc.step (m : Mem) (l : Local) : ReleasePc → Mem × Option ReleasePc
  | .loadEpoch => (m, some (.store m.epoch))
  | .store ep => ({ m with res := Function.update m.res l.tid (wordPred ep) }, none)

/-! ## `SharedObj_retire` -/

/-- `nt` is the number of threads the sweep looks at, `i` the object it examines, `p` the last one
it kept and `n` the one after `i`. -/
inductive RetirePc
  | loadEpoch (so : Obj)
  | storeRetired (so : Obj) (ep : ℕ)
  | storeNext (so : Obj)
  | count
  | loadNthr
  | loadNext (nt : ℕ) (p : Option Obj) (i : Obj)
  | loadCreated (nt : ℕ) (p : Option Obj) (i : Obj) (n : Option Obj)
  | loadRetired (nt : ℕ) (p : Option Obj) (i : Obj) (n : Option Obj) (creat : ℕ)
  | loadRes (nt : ℕ) (p : Option Obj) (i : Obj) (n : Option Obj) (creat retd t : ℕ)
  | drop (nt : ℕ) (p : Option Obj) (i : Obj) (n : Option Obj)
  deriving DecidableEq

/-- The test of the sweep: does the reservation fall between creation and retirement? -/
def conflicts (creat retd tres : ℕ) : Bool :=
  if creat > retd then tres ≥ creat || tres ≤ retd else tres ≥ creat && tres ≤ retd

/-- The head of the sweep's loop. -/
def sweep (nt : ℕ) (p : Option Obj) : Option Obj → Option RetirePc
  | none => none
  | some i => some (.loadNext nt p i)

/-- The head of the loop over the threads. -/
def scan (nt : ℕ) (p : Option Obj) (i : Obj) (n : Option Obj) (creat retd t : ℕ) : RetirePc :=
  if t < nt then .loadRes nt p i n creat retd t else .drop nt p i n

/-- One access of `SharedObj_retire`; `none` means that the function returned. -/
def RetirePc.step (P : Params) (m : Mem) (l : Local) : RetirePc → Mem × Local × Option RetirePc
  | .loadEpoch so => (m, l, some (.storeRetired so m.epoch))
  | .storeRetired so ep =>
      ({ m with retired := Function.update m.retired so ep }, l, some (.storeNext so))
  | .storeNext so =>
      ({ m with next := Function.update m.next so l.retired }, { l with retired := some so },
        some .count)
  | .count =>
      if word (l.nretired + 1) = P.intDestroy then (m, { l with nretired := 0 }, some .loadNthr)
      else (m, { l with nretired := word (l.nretired + 1) }, none)
  | .loadNthr => (m, l, sweep m.nthr none l.retired)
  | .loadNext nt p i => (m, l, some (.loadCreated nt p i (m.next i)))
  | .loadCreated nt p i n => (m, l, some (.loadRetired nt p i n (m.created i)))
  | .loadRetired nt p i n creat => (m, l, some (scan nt p i n creat (m.retired i) 0))
  | .loadRes nt p i n creat retd t =>
      if conflicts (word creat) (word retd) (word (m.res t)) then (m, l, sweep nt (some i) n)
      else (m, l, some (scan nt p i n creat retd (t + 1)))
  | .drop nt p i n =>
      match p with
      | some p => ({ m with next := Function.update m.next p n, freed := Function.update m.freed i true },
          l, sweep nt (some p) n)
      | none => ({ m with freed := Function.update m.freed i true }, { l with retired := n },
          sweep nt none n)

/-! ## `SOM_registerThread` -/

def registerThread (m : Mem) (l : Local) : Mem × Local :=
  ({ m with nthr := m.nthr + 1 }, { l with tid := m.nthr })

end PoserCore.SharedObj
