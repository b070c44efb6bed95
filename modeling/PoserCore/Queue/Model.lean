import Mathlib.Data.Nat.Notation
import Mathlib.Logic.Function.Basic
import PoserCore.Lib.Buffer

/-!
# The queue

`PSC_Queue`: a ring of entries that grows to twice its size when it is full.  The entries are memory
from `PSC_malloc` and `PSC_realloc`, in which nothing is stored at first.  A function that would use
an entry that was never stored, or one outside of the memory, returns `none`.
-/

namespace PoserCore.Queue

set_option linter.dupNamespace false

open Lib.Buffer

variable {α φ : Type}

structure QueueEntry (α φ : Type) where
  obj : α
  deleter : Option φ
  deriving DecidableEq

structure Queue (α φ : Type) where
  entries : ℕ → Option (QueueEntry α φ)
  count : ℕ
  capa : ℕ
  front : ℕ
  back : ℕ

/-- `QUEUEINITIALCAPA` -/
def initialCapa : ℕ := 8

/-- `PSC_realloc`: of the old memory, `n` entries stay. -/
def realloc (entries : ℕ → Option (QueueEntry α φ)) (n : ℕ) (i : ℕ) : Option (QueueEntry α φ) :=
  if i < n then entries i else none

/-- The wrapped part, from `front` to the old end, moves to the new end. -/
def expand (self : Queue α φ) : Queue α φ :=
  let newcapa := 2 * self.capa
  let self := { self with entries := realloc self.entries self.capa }
  let self :=
    if self.front ≠ 0 then
      { self with
        entries := store self.entries (self.front + self.capa)
          (slice self.entries self.front (self.capa - self.front))
        front := self.front + self.capa }
    else { self with back := self.capa }
  { self with capa := newcapa }

/-- `PSC_Queue_create` -/
def Queue.create : Queue α φ where
  entries := fun _ => none
  count := 0
  capa := initialCapa
  front := 0
  back := 0

/-- `PSC_Queue_enqueue` -/
def Queue.enqueue (self : Queue α φ) (obj : α) (deleter : Option φ) : Option (Queue α φ) :=
  let self := if self.count = self.capa then expand self else self
  if self.back < self.capa then
    some { self with
      entries := Function.update self.entries self.back (some ⟨obj, deleter⟩)
      back := if self.back + 1 = self.capa then 0 else self.back + 1
      count := self.count + 1 }
  else none

/-- The entry at `pos`, if one can be read there. -/
def Queue.entry (self : Queue α φ) (pos : ℕ) : Option (QueueEntry α φ) :=
  if pos < self.capa then self.entries pos else none

/-- `PSC_Queue_dequeue`, with the object it returns, if it is not `NULL` -/
def Queue.dequeue (self : Queue α φ) : Option (Queue α φ × Option α) :=
  if self.count = 0 then some (self, none)
  else (self.entry self.front).map fun e =>
    ({ self with
        front := if self.front + 1 = self.capa then 0 else self.front + 1
        count := self.count - 1 }, some e.obj)

/-- The call that destroys the object of an entry. -/
def QueueEntry.delete (e : QueueEntry α φ) : List (φ × α) :=
  (e.deleter.map fun f => (f, e.obj)).toList

/-- The deleters called for `n` entries from `pos` on. -/
def Queue.destroyFrom (self : Queue α φ) : (n pos : ℕ) → Option (List (φ × α))
  | 0, _ => some []
  | n + 1, pos => do
      let e ← self.entry pos
      let calls ← self.destroyFrom n (if pos + 1 = self.capa then 0 else pos + 1)
      some (e.delete ++ calls)

/-- `PSC_Queue_destroy`: the deleters it calls -/
def Queue.destroy (self : Queue α φ) : Option (List (φ × α)) :=
  self.destroyFrom self.count self.front

end PoserCore.Queue
