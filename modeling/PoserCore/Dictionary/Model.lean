import Mathlib.Algebra.GroupWithZero.Nat
import Mathlib.Data.Fin.Basic
import Mathlib.Data.Nat.Notation
import Mathlib.Logic.Function.Basic
import Mathlib.Data.List.FinRange

/-!
# The dictionary

`PSC_Dictionary`: nested hash tables whose buckets hold one entry, a table of the next level, or, at
depth `MAXNEST`, a list of entries.  Keys are byte strings, `α` are the objects and `φ` the functions
that delete them.  The functions on buckets return, beside the new bucket, what they did to the
dictionary's counter and which deleters they called.

The locks of a shared dictionary are not modelled here: each call runs alone on the buckets it
touches.
-/

namespace PoserCore.Dictionary

set_option linter.dupNamespace false

abbrev Key := List UInt8

/-- `MAXNEST` -/
def maxnest : ℕ := 14

instance ht4_slots : NeZero 16 := ⟨by decide⟩

instance ht8_slots : NeZero 256 := ⟨by decide⟩

variable {α φ : Type}

/-- The `deleter` of a dictionary: `NULL`, `PSC_DICT_NODELETE`, or a function for all objects. -/
inductive Deleter (φ : Type)
  | individual
  | nodelete
  | all (f : φ)

/-- The `deleter` of a call: `PSC_DICT_NODELETE` counts as none. -/
def Deleter.given : Deleter φ → Option φ
  | .all f => some f
  | _ => none

/-- An entry; `linked` says that it was allocated with a `next` pointer (`EntryL`, `EntryDL`). -/
structure Entry (α φ : Type) where
  key : Key
  obj : Option α
  deleter : Option φ
  linked : Bool

/-- A bucket; `next` are the entries chained behind the first one. -/
inductive Bucket (α φ : Type)
  | empty
  | item (e : Entry α φ) (next : List (Entry α φ))
  | ht8 (buckets : Fin 256 → Bucket α φ)
  | ht4 (buckets : Fin 16 → Bucket α φ)

/-- What a call leaves in the dictionary besides the buckets. -/
structure Tally (α φ : Type) where
  count : ℕ
  calls : List (φ × Option α)

structure Dictionary (α φ : Type) where
  deleter : Deleter φ
  hash : Key → UInt64
  count : ℕ
  buckets : Fin 256 → Bucket α φ
  /-- The deleters called so far, with their arguments. -/
  calls : List (φ × Option α)

/-- `PSC_Dictionary_create` -/
def Dictionary.create (hash : Key → UInt64) (deleter : Deleter φ) : Dictionary α φ where
  deleter := deleter
  hash := hash
  count := 0
  buckets := fun _ => .empty
  calls := []

/-- The calls that delete the object of an entry. -/
def Dictionary.delete (self : Dictionary α φ) (e : Entry α φ) : List (φ × Option α) :=
  match self.deleter with
  | .individual => (e.deleter.map fun f => (f, e.obj)).toList
  | .nodelete => []
  | .all f => [(f, e.obj)]

def createEntry (self : Dictionary α φ) (depth : ℕ) (key : Key) (obj : Option α)
    (deleter : Option φ) : Entry α φ where
  key := key
  obj := obj
  deleter := match self.deleter with
    | .individual => deleter
    | _ => none
  linked := decide (maxnest ≤ depth)

/-- Another object under the same key. -/
def replace (self : Dictionary α φ) (e : Entry α φ) (obj : α) (deleter : Option φ) : Entry α φ :=
  { e with
    obj := some obj
    deleter := match self.deleter with
      | .individual => deleter
      | _ => e.deleter }

def Tally.created (s : Tally α φ) : Tally α φ := { s with count := s.count + 1 }

def Tally.deleted (s : Tally α φ) (calls : List (φ × Option α)) : Tally α φ :=
  { s with calls := s.calls ++ calls }

def Tally.removed (s : Tally α φ) (calls : List (φ × Option α)) : Tally α φ :=
  { count := s.count - 1, calls := s.calls ++ calls }

/-! ## `set` -/

section Set

variable (self : Dictionary α φ) (key : Key) (obj : Option α) (deleter : Option φ)

/-- The list of a bucket at depth `MAXNEST`.  A key that is not there is appended, with or without
an object. -/
def setList (depth : ℕ) : List (Entry α φ) → Tally α φ → List (Entry α φ) × Tally α φ
  | [], s => ([createEntry self depth key obj deleter], s.created)
  | e :: es, s =>
      if e.key = key then
        match obj with
        | some o => (replace self e o deleter :: es, s.deleted (self.delete e))
        | none => (es, s.removed (self.delete e))
      else
        let r := setList depth es s
        (e :: r.1, r.2)

def Bucket.ofList : List (Entry α φ) → Bucket α φ
  | [] => .empty
  | e :: es => .item e es

def setEmpty (depth : ℕ) (s : Tally α φ) : Bucket α φ × Tally α φ :=
  match obj with
  | none => (.empty, s)
  | some o => (.item (createEntry self depth key (some o) deleter) [], s.created)

/-- `set` on a bucket with an entry; `n` is the number of levels below `depth`, and none below depth
`MAXNEST`.  An entry in the way moves to a new table, and the call goes on in its slot of that
table. -/
def setItem : (n : ℕ) → (depth hash : ℕ) → Entry α φ → List (Entry α φ) → Tally α φ →
    Bucket α φ × Tally α φ
  | 0, depth, _, e, next, s =>
      let r := setList self key obj deleter depth (e :: next) s
      (.ofList r.1, r.2)
  | n + 1, depth, hash, e, next, s =>
      if e.key = key then
        match obj with
        | some o => (.item (replace self e o deleter) next, s.deleted (self.delete e))
        | none => (.empty, s.removed (self.delete e))
      else if 1 < depth then
        let ehash := (self.hash e.key).toNat >>> (16 + (depth - 2) * 4)
        let moved := if maxnest - 1 ≤ depth then { e with linked := true } else e
        let i := Fin.ofNat 16 ehash
        let j := Fin.ofNat 16 hash
        let r := if i = j then setItem n (depth + 1) (hash >>> 4) moved [] s
          else setEmpty self key obj deleter (depth + 1) s
        (.ht4 (Function.update (Function.update (fun _ => .empty) i (.item moved [])) j r.1), r.2)
      else
        let ehash := (self.hash e.key).toNat >>> 8
        let i := Fin.ofNat 256 ehash
        let j := Fin.ofNat 256 hash
        let r := if i = j then setItem n (depth + 1) (hash >>> 8) e [] s
          else setEmpty self key obj deleter (depth + 1) s
        (.ht8 (Function.update (Function.update (fun _ => .empty) i (.item e [])) j r.1), r.2)

def Bucket.set : Bucket α φ → (depth hash : ℕ) → Tally α φ → Bucket α φ × Tally α φ
  | .empty, depth, _, s => setEmpty self key obj deleter depth s
  | .item e next, depth, hash, s =>
      setItem self key obj deleter (maxnest - depth) depth hash e next s
  | .ht8 t, depth, hash, s =>
      let r := (t (Fin.ofNat 256 hash)).set (depth + 1) (hash >>> 8) s
      (.ht8 (Function.update t (Fin.ofNat 256 hash) r.1), r.2)
  | .ht4 t, depth, hash, s =>
      let r := (t (Fin.ofNat 16 hash)).set (depth + 1) (hash >>> 4) s
      (.ht4 (Function.update t (Fin.ofNat 16 hash) r.1), r.2)

end Set

/-- `PSC_Dictionary_set` -/
def Dictionary.set (self : Dictionary α φ) (key : Key) (obj : Option α) (deleter : Deleter φ) :
    Dictionary α φ :=
  let hash := (self.hash key).toNat
  let i := Fin.ofNat 256 hash
  let r := (self.buckets i).set self key obj deleter.given 1 (hash >>> 8) ⟨self.count, self.calls⟩
  { self with
    buckets := Function.update self.buckets i r.1, count := r.2.count, calls := r.2.calls }

/-! ## `get` -/

def Bucket.get (key : Key) : Bucket α φ → (depth hash : ℕ) → Option α
  | .empty, _, _ => none
  | .item e next, depth, _ =>
      if maxnest ≤ depth then ((e :: next).find? fun e => e.key = key).bind Entry.obj
      else if e.key = key then e.obj else none
  | .ht8 t, depth, hash => (t (Fin.ofNat 256 hash)).get key (depth + 1) (hash >>> 8)
  | .ht4 t, depth, hash => (t (Fin.ofNat 16 hash)).get key (depth + 1) (hash >>> 4)

/-- `PSC_Dictionary_get` -/
def Dictionary.get (self : Dictionary α φ) (key : Key) : Option α :=
  let hash := (self.hash key).toNat
  (self.buckets (Fin.ofNat 256 hash)).get key 1 (hash >>> 8)

/-! ## `removeAll` -/

/-- The entries of a list that stay and those that go. -/
def removeList (matcher : Key → Option α → Bool) :
    List (Entry α φ) → List (Entry α φ) × List (Entry α φ)
  | [] => ([], [])
  | e :: es =>
      let r := removeList matcher es
      if matcher e.key e.obj then (r.1, e :: r.2) else (e :: r.1, r.2)

/-- The bucket after the call, and the entries removed from it in this order. -/
def Bucket.removeAll (matcher : Key → Option α → Bool) :
    Bucket α φ → ℕ → Bucket α φ × List (Entry α φ)
  | .empty, _ => (.empty, [])
  | .item e next, depth =>
      if maxnest ≤ depth then
        let r := removeList matcher (e :: next)
        (.ofList r.1, r.2)
      else if matcher e.key e.obj then (.empty, [e]) else (.item e next, [])
  | .ht8 t, depth =>
      (.ht8 fun i => ((t i).removeAll matcher (depth + 1)).1,
        (List.finRange 256).flatMap fun i => ((t i).removeAll matcher (depth + 1)).2)
  | .ht4 t, depth =>
      (.ht4 fun i => ((t i).removeAll matcher (depth + 1)).1,
        (List.finRange 16).flatMap fun i => ((t i).removeAll matcher (depth + 1)).2)

/-- `PSC_Dictionary_removeAll`, with the number it returns. -/
def Dictionary.removeAll (self : Dictionary α φ) (matcher : Key → Option α → Bool) :
    Dictionary α φ × ℕ :=
  if self.count = 0 then (self, 0)
  else
    let removed := (List.finRange 256).flatMap fun i => ((self.buckets i).removeAll matcher 1).2
    ({ self with
        buckets := fun i => ((self.buckets i).removeAll matcher 1).1
        count := self.count - removed.length
        calls := self.calls ++ removed.flatMap self.delete }, removed.length)

/-! ## `destroy` -/

/-- The entries a bucket frees, in this order. -/
def Bucket.destroy : Bucket α φ → ℕ → List (Entry α φ)
  | .empty, _ => []
  | .item e next, depth => if maxnest ≤ depth then e :: next else [e]
  | .ht8 t, depth => (List.finRange 256).flatMap fun i => (t i).destroy (depth + 1)
  | .ht4 t, depth => (List.finRange 16).flatMap fun i => (t i).destroy (depth + 1)

/-- `PSC_Dictionary_destroy`: the deleters it calls. -/
def Dictionary.destroy (self : Dictionary α φ) : List (φ × Option α) :=
  ((List.finRange 256).flatMap fun i => (self.buckets i).destroy 1).flatMap self.delete

end PoserCore.Dictionary
