import Mathlib.Data.Nat.Notation
import Mathlib.Data.Option.Basic
import Mathlib.Logic.Function.Basic

/-!
# The hash table

`PSC_HashTable`: an array of buckets, each the head of a chain of entries, which are allocated one by
one.  An entry is found by following pointers, and the loops that change a chain keep a pointer to the
entry before the current one.  A function that would follow a pointer to memory that is not allocated
returns `none`, and so does one that would follow more pointers than there are entries.

A function that deletes objects notes the calls of their deleters in the table.
-/

namespace PoserCore.HashTable

set_option linter.dupNamespace false

abbrev Addr := ℕ

/-- A string, without its NUL. -/
abbrev Key := List UInt8

variable {α φ : Type}

/-- `PSC_HashTableEntry`; an object may be `NULL`. -/
structure Entry (α φ : Type) where
  next : Option Addr
  key : Key
  obj : Option α
  deleter : Option φ

structure HashTable (α φ : Type) where
  hash : Key → UInt64
  count : ℕ
  mask : ℕ
  bits : UInt8
  bucket : ℕ → Option Addr
  /-- The entries that are allocated. -/
  entries : Addr → Option (Entry α φ)
  /-- The deleters called so far, with their arguments. -/
  calls : List (φ × Option α)

def HashTable.hashstr (self : HashTable α φ) (key : Key) : ℕ := (self.hash key).toNat &&& self.mask

/-- The number of bits that `PSC_HashTable_create` uses. -/
def clampBits (bits : UInt8) : UInt8 := if bits < 2 then 2 else if 16 < bits then 16 else bits

/-- `PSC_HashTable_create` -/
def HashTable.create (hash : Key → UInt64) (bits : UInt8) : HashTable α φ where
  hash := hash
  count := 0
  mask := 1 <<< (clampBits bits).toNat - 1
  bits := clampBits bits
  bucket := fun _ => none
  entries := fun _ => none
  calls := []

/-! ## Changing a chain -/

/-- `if (entry->deleter) entry->deleter(entry->obj)` -/
def HashTable.delObj (self : HashTable α φ) (entry : Entry α φ) : HashTable α φ :=
  { self with calls := self.calls ++ (entry.deleter.map fun f => (f, entry.obj)).toList }

def HashTable.store (self : HashTable α φ) (a : Addr) (entry : Option (Entry α φ)) :
    HashTable α φ :=
  { self with entries := Function.update self.entries a entry }

/-- `if (parent) parent->next = p; else self->bucket[h] = p;` -/
def HashTable.link (self : HashTable α φ) (h : ℕ) (parent p : Option Addr) :
    Option (HashTable α φ) :=
  match parent with
  | none => some { self with bucket := Function.update self.bucket h p }
  | some a => (self.entries a).map fun entry => self.store a (some { entry with next := p })

/-- The loop of `PSC_HashTable_set` and `PSC_HashTable_delete`: the entry for the key, if there is
one, and the one before it, or the last one. -/
def HashTable.find (self : HashTable α φ) (key : Key) :
    ℕ → Option Addr → Option Addr → Option (Option Addr × Option Addr)
  | _, parent, none => some (parent, none)
  | 0, _, some _ => none
  | n + 1, parent, some a => do
      let entry ← self.entries a
      if entry.key = key then some (parent, some a) else self.find key n (some a) entry.next

/-- `PSC_HashTable_set`; `alloc` is where it finds memory if it needs any. -/
def HashTable.set (self : HashTable α φ) (key : Key) (obj : Option α) (deleter : Option φ)
    (alloc : Addr) : Option (HashTable α φ) := do
  let h := self.hashstr key
  let (parent, entry) ← self.find key self.count none (self.bucket h)
  match entry with
  | some a =>
      let entry ← self.entries a
      some ((self.delObj entry).store a (some { entry with obj := obj, deleter := deleter }))
  | none =>
      let self ← (self.store alloc (some ⟨none, key, obj, deleter⟩)).link h parent (some alloc)
      some { self with count := self.count + 1 }

/-- An entry leaves its chain, with its object. -/
def HashTable.drop (self : HashTable α φ) (h : ℕ) (parent : Option Addr) (a : Addr)
    (entry : Entry α φ) : Option (HashTable α φ) := do
  let self ← (self.delObj entry).link h parent entry.next
  let self := self.store a none
  some { self with count := self.count - 1 }

/-- `PSC_HashTable_delete` -/
def HashTable.delete (self : HashTable α φ) (key : Key) : Option (HashTable α φ × Int32) := do
  let h := self.hashstr key
  let (parent, entry) ← self.find key self.count none (self.bucket h)
  match entry with
  | some a =>
      let entry ← self.entries a
      let self ← self.drop h parent a entry
      some (self, 1)
  | none => some (self, 0)

/-- The inner loop of `PSC_HashTable_deleteAll`. -/
def deleteMatching (matcher : Key → Option α → Bool) (h : ℕ) :
    ℕ → HashTable α φ → Int32 → Option Addr → Option Addr → Option (HashTable α φ × Int32)
  | _, self, deleted, _, none => some (self, deleted)
  | 0, _, _, _, some _ => none
  | n + 1, self, deleted, parent, some a => do
      let entry ← self.entries a
      if matcher entry.key entry.obj then
        let self ← self.drop h parent a entry
        deleteMatching matcher h n self (deleted + 1) parent entry.next
      else deleteMatching matcher h n self deleted (some a) entry.next

/-- `PSC_HashTable_deleteAll` -/
def HashTable.deleteAll (self : HashTable α φ) (matcher : Key → Option α → Bool) :
    Option (HashTable α φ × Int32) :=
  (List.range (self.mask + 1)).foldlM
    (fun (self, deleted) h => deleteMatching matcher h self.count self deleted none (self.bucket h))
    (self, 0)

/-! ## Reading -/

/-- The loop of `PSC_HashTable_get`. -/
def HashTable.getFrom (self : HashTable α φ) (key : Key) : ℕ → Option Addr → Option (Option α)
  | _, none => some none
  | 0, some _ => none
  | n + 1, some a => do
      let entry ← self.entries a
      if entry.key = key then some entry.obj else self.getFrom key n entry.next

/-- `PSC_HashTable_get` -/
def HashTable.get (self : HashTable α φ) (key : Key) : Option (Option α) :=
  self.getFrom key self.count (self.bucket (self.hashstr key))

structure IteratorEntry (α : Type) where
  key : Key
  obj : Option α

/-- `PSC_HashTableIterator`; an entry that was not written is `none`. -/
structure Iterator (α : Type) where
  count : ℕ
  pos : ℕ
  entries : List (Option (IteratorEntry α))

/-- The inner loop of `PSC_HashTable_iterator`.  It returns `none` as well if it would write behind
the last entry of the iterator. -/
def HashTable.fill (self : HashTable α φ) : ℕ → List (Option (IteratorEntry α)) → ℕ → Option Addr →
    Option (List (Option (IteratorEntry α)) × ℕ)
  | _, entries, pos, none => some (entries, pos)
  | 0, _, _, some _ => none
  | n + 1, entries, pos, some a => do
      let entry ← self.entries a
      if pos < entries.length then
        self.fill n (entries.set pos (some ⟨entry.key, entry.obj⟩)) (pos + 1) entry.next
      else none

/-- `PSC_HashTable_iterator` -/
def HashTable.iterator (self : HashTable α φ) : Option (Iterator α) := do
  let (entries, _) ← (List.range (self.mask + 1)).foldlM
    (fun (entries, pos) h => self.fill self.count entries pos (self.bucket h))
    (List.replicate self.count none, 0)
  some ⟨self.count, self.count, entries⟩

/-- `PSC_HashTableIterator_moveNext` -/
def Iterator.moveNext (self : Iterator α) : Iterator α × Bool :=
  let pos := if self.count ≤ self.pos then 0 else self.pos + 1
  ({ self with pos := pos }, decide (pos < self.count))

/-- `PSC_HashTableIterator_key` and `PSC_HashTableIterator_current`: `NULL` outside of the entries. -/
def Iterator.current (self : Iterator α) : Option (IteratorEntry α) :=
  if self.count ≤ self.pos then none else self.entries[self.pos]?.join

/-- What the iterator is at each time `PSC_HashTableIterator_moveNext` returns 1, until it returns 0;
`none` if that does not happen within `n` calls. -/
def Iterator.visit : ℕ → Iterator α → Option (List (Option (IteratorEntry α)) × Iterator α)
  | 0, _ => none
  | n + 1, self =>
      let (self, moved) := self.moveNext
      if moved then (self.visit n).map fun (seen, last) => (self.current :: seen, last)
      else some ([], self)

/-! ## The end -/

/-- The inner loop of `PSC_HashTable_destroy`. -/
def destroyFrom : ℕ → HashTable α φ → Option Addr → Option (HashTable α φ)
  | _, self, none => some self
  | 0, _, some _ => none
  | n + 1, self, some a => do
      let entry ← self.entries a
      destroyFrom n ((self.delObj entry).store a none) entry.next

/-- `PSC_HashTable_destroy`, up to where it frees the table itself -/
def HashTable.destroy (self : HashTable α φ) : Option (HashTable α φ) :=
  (List.range (self.mask + 1)).foldlM
    (fun table h => destroyFrom self.count table (table.bucket h)) self

/-! ## Runs -/

inductive Op (α φ : Type)
  | set (key : Key) (obj : Option α) (deleter : Option φ) (alloc : Addr)
  | delete (key : Key)
  | deleteAll (matcher : Key → Option α → Bool)

/-- What the call leaves and what it returns, if it returns something. -/
def Op.apply (self : HashTable α φ) : Op α φ → Option (HashTable α φ × Option Int32)
  | .set key obj deleter alloc => (self.set key obj deleter alloc).map fun s => (s, none)
  | .delete key => (self.delete key).map fun r => (r.1, some r.2)
  | .deleteAll matcher => (self.deleteAll matcher).map fun r => (r.1, some r.2)

/-- Memory that is found is not in use. -/
def Op.Fresh (self : HashTable α φ) : Op α φ → Prop
  | .set _ _ _ alloc => self.entries alloc = none
  | _ => True

/-- The calls made, the latest first, with their results, and the table after them. -/
inductive Run (hash : Key → UInt64) (bits : UInt8) :
    List (Op α φ × Option Int32) → HashTable α φ → Prop
  | create : Run hash bits [] (.create hash bits)
  | call {calls : List (Op α φ × Option Int32)} {s s' : HashTable α φ} {op : Op α φ}
      {r : Option Int32} (hr : Run hash bits calls s) (hfresh : op.Fresh s)
      (hcall : op.apply s = some (s', r)) : Run hash bits ((op, r) :: calls) s'

end PoserCore.HashTable
