import PoserCore.Dictionary.BucketLocks
import PoserCore.Dictionary.Refine
import PoserCore.Lib.Objects

/-!
# The shared dictionary

`PSC_Dictionary_get`, `PSC_Dictionary_set`, `PSC_Dictionary_removeAll` and `PSC_Dictionary_count` on a
shared dictionary, for any number of threads.  The accesses to the locks are the steps of
`BucketLocks`; this module adds what a thread does between them.  A writer reads its bucket, changes the
counter once for each entry that it adds or takes away, and leaves the new content; in the meantime the
bucket holds anything (`scribble`).  The calls of deleters are not modelled here.

For the threads the dictionary is a map (`sharedMap`) on which `get`, `set` and `count` are single
actions, and `removeAll` takes one entry after the other, bucket by bucket.
-/

namespace PoserCore.Dictionary.Shared

open Lib BucketLocks

variable {T α φ : Type}

/-- What a call does to the entry of a key. -/
inductive Change
  | created
  | kept
  | removed

/-- How far a writer is in its bucket: it has yet to read it, has the new content and changes that it
did not make, or has written. -/
inductive Work (α φ : Type)
  | start
  | busy (new : Bucket α φ) (changes : List Change)
  | leave

inductive Result (α : Type)
  | object (obj : Option α)
  | set
  | count (n : ℕ)
  | removed (n : ℕ)

/-- What a thread is doing. -/
inductive Task (α φ : Type)
  | idle
  /-- `found` is what `get` found. -/
  | get (key : Key) (found : Option (Option α))
  | set (key : Key) (obj : Option α) (deleter : Deleter φ) (work : Work α φ)
  | count
  /-- `PSC_Dictionary_removeAll` loads the counter. -/
  | load (matcher : Key → Option α → Bool)
  | remove (matcher : Key → Option α → Bool) (removed : ℕ) (work : Work α φ)
  | done (r : Result α)

structure State (T α φ : Type) where
  locks : BucketLocks.State T
  count : ℕ
  buckets : Fin 256 → Bucket α φ
  task : T → Task α φ

/-- A call of a thread -/
inductive Call (α φ : Type)
  | get (key : Key)
  | set (key : Key) (obj : Option α) (deleter : Deleter φ)
  | count
  | removeAll (matcher : Key → Option α → Bool)

inductive Action (T α φ : Type)
  | call (t : T) (c : Call α φ)
  | run (t : T) (spurious : Bool)
  /-- A writer is in the middle of changing its bucket. -/
  | scribble (t : T) (content : Bucket α φ)

/-- `PSC_Dictionary_create`, with `shared` -/
def create : State T α φ where
  locks := ⟨fun _ => 0, fun _ => .idle⟩
  count := 0
  buckets := fun _ => .empty
  task := fun _ => .idle

variable [DecidableEq T]

def State.doing (s : State T α φ) (t : T) (task : Task α φ) : State T α φ :=
  { s with task := Function.update s.task t task }

def State.write (s : State T α φ) (b : Fin 256) (content : Bucket α φ) : State T α φ :=
  { s with buckets := Function.update s.buckets b content }

/-- The next access of thread `t` to a lock -/
def State.lock (s : State T α φ) (t : T) (spurious : Bool) : Option (State T α φ) :=
  (runThread s.locks t spurious).map fun locks => { s with locks := locks }

/-- The new content of a bucket, and what `set` did to the number of its entries -/
def setBucket (self : Dictionary α φ) (key : Key) (obj : Option α) (deleter : Deleter φ)
    (old : Bucket α φ) : Bucket α φ × Change :=
  let n := old.entries.length
  let r := old.set self key obj deleter.given 1 ((self.hash key).toNat >>> 8) ⟨n, []⟩
  (r.1, if n < r.2.count then .created else if r.2.count < n then .removed else .kept)

/-- `atomic_fetch_add` or `atomic_fetch_sub` on the counter -/
def Change.apply (n : ℕ) : Change → ℕ
  | .created => n + 1
  | .kept => n
  | .removed => n - 1

/-- The body of `get`, between taking the lock and giving it back -/
def getBody (self : Dictionary α φ) (s : State T α φ) (t : T) (spurious : Bool) (b : Fin 256)
    (key : Key) : Option (Option α) → Option (State T α φ)
  | none =>
      some (s.doing t (.get key (some ((s.buckets b).get key 1 ((self.hash key).toNat >>> 8)))))
  | some obj => (s.lock t spurious).map fun s => s.doing t (.done (.object obj))

def setBody (self : Dictionary α φ) (s : State T α φ) (t : T) (spurious : Bool) (b : Fin 256)
    (key : Key) (obj : Option α) (deleter : Deleter φ) : Work α φ → Option (State T α φ)
  | .start =>
      let r := setBucket self key obj deleter (s.buckets b)
      some (s.doing t (.set key obj deleter (.busy r.1 [r.2])))
  | .busy new (c :: cs) =>
      some ({ s with count := c.apply s.count }.doing t (.set key obj deleter (.busy new cs)))
  | .busy new [] => some ((s.write b new).doing t (.set key obj deleter .leave))
  | .leave => (s.lock t spurious).map fun s => s.doing t (.done .set)

def removeBody (s : State T α φ) (t : T) (spurious : Bool) (b : Fin 256)
    (matcher : Key → Option α → Bool) (removed : ℕ) : Work α φ → Option (State T α φ)
  | .start =>
      let r := (s.buckets b).removeAll matcher 1
      some (s.doing t (.remove matcher removed (.busy r.1 (r.2.map fun _ => .removed))))
  | .busy new (c :: cs) =>
      some ({ s with count := c.apply s.count }.doing t
        (.remove matcher (removed + 1) (.busy new cs)))
  | .busy new [] => some ((s.write b new).doing t (.remove matcher removed .leave))
  | .leave =>
      (s.lock t spurious).map fun s =>
        s.doing t (if s.locks.pc t = .idle then .done (.removed removed)
          else .remove matcher removed .start)

/-- The next step of thread `t` -/
def runTask (self : Dictionary α φ) (s : State T α φ) (t : T) (spurious : Bool) :
    Option (State T α φ) :=
  match s.task t with
  | .idle => none
  | .done _ => some (s.doing t .idle)
  | .count => some (s.doing t (.done (.count s.count)))
  | .load matcher =>
      (BucketLocks.step s.locks (.call t (.removeAll s.count))).map fun locks =>
        { s with locks := locks }.doing t
          (if s.count = 0 then .done (.removed 0) else .remove matcher 0 .start)
  | .get key found =>
      match s.locks.pc t with
      | .get b => getBody self s t spurious b key found
      | _ => s.lock t spurious
  | .set key obj deleter work =>
      match s.locks.pc t with
      | .set b => setBody self s t spurious b key obj deleter work
      | _ => s.lock t spurious
  | .remove matcher removed work =>
      match s.locks.pc t with
      | .removeAll b => removeBody s t spurious b matcher removed work
      | _ => s.lock t spurious

/-- A thread enters a function. -/
def callTask (self : Dictionary α φ) (s : State T α φ) (t : T) : Call α φ → Option (State T α φ)
  | .get key =>
      (BucketLocks.step s.locks (.call t (.get (slotRoot self.hash key)))).map fun locks =>
        { s with locks := locks }.doing t (.get key none)
  | .set key obj deleter =>
      (BucketLocks.step s.locks (.call t (.set (slotRoot self.hash key)))).map fun locks =>
        { s with locks := locks }.doing t (.set key obj deleter .start)
  | .count => some (s.doing t .count)
  | .removeAll matcher => some (s.doing t (.load matcher))

/-- The thread is between reading its bucket and writing it. -/
def Task.busy : Task α φ → Bool
  | .set _ _ _ (.busy _ _) | .remove _ _ (.busy _ _) => true
  | _ => false

def step (self : Dictionary α φ) (s : State T α φ) : Action T α φ → Option (State T α φ)
  | .call t c => if s.task t matches .idle then callTask self s t c else none
  | .run t spurious => runTask self s t spurious
  | .scribble t content =>
      match s.locks.pc t with
      | .set b | .removeAll b => if (s.task t).busy then some (s.write b content) else none
      | _ => none

/-- A shared dictionary with this hash function and deleter -/
def machine (T : Type) [DecidableEq T] (hash : Key → UInt64) (deleter : Deleter φ) :
    Machine (State T α φ) (Action T α φ) where
  init s := s = create
  step := step (.create hash deleter)

/-! ## The map it stands for -/

/-- What a call still does to the map: `removing matcher b n` took away `n` entries, and goes on in the
bucket `b`. -/
inductive Op (α : Type)
  | get (key : Key)
  | set (key : Key) (obj : Option α)
  | count
  | removeAll (matcher : Key → Option α → Bool)
  | removing (matcher : Key → Option α → Bool) (b : Fin 256) (n : ℕ)

/-- A map from keys to entries; an entry may hold no object. -/
abbrev Entries (α : Type) := Key → Option (Option α)

def Present (e : Option (Option α)) : Prop := e ≠ none

/-- No entry in the bucket is one that the matcher accepts. -/
def Cleared (hash : Key → UInt64) (matcher : Key → Option α → Bool) (b : Fin 256) (m : Entries α) :
    Prop :=
  ∀ k obj, slotRoot hash k = b → m k = some obj → matcher k obj = false

inductive Act (hash : Key → UInt64) : Entries α → Op α → Entries α → Op α ⊕ Result α → Prop
  | get (m : Entries α) (key : Key) : Act hash m (.get key) m (.inr (.object (m key).join))
  | set (m : Entries α) (key : Key) (obj : α) :
      Act hash m (.set key (some obj)) (Function.update m key (some (some obj))) (.inr .set)
  | unset (m : Entries α) (key : Key) :
      Act hash m (.set key none) (Function.update m key none) (.inr .set)
  /-- `set` without an object may leave an entry for a new key, next to one with the same hash. -/
  | setNothing (m : Entries α) (key k : Key) (h : m key = none) (hk : Present (m k))
      (hash_eq : hash k = hash key) :
      Act hash m (.set key none) (Function.update m key (some none)) (.inr .set)
  | count (m : Entries α) (n : ℕ) (h : Census Present m n) : Act hash m .count m (.inr (.count n))
  | removeNone (m : Entries α) (matcher : Key → Option α → Bool) (h : Census Present m 0) :
      Act hash m (.removeAll matcher) m (.inr (.removed 0))
  | removeSome (m : Entries α) (matcher : Key → Option α → Bool) (k : Key) (h : Present (m k)) :
      Act hash m (.removeAll matcher) m (.inl (.removing matcher 0 0))
  | remove (m : Entries α) (matcher : Key → Option α → Bool) (b : Fin 256) (n : ℕ) (k : Key)
      (obj : Option α) (hb : slotRoot hash k = b) (hk : m k = some obj) (hm : matcher k obj = true) :
      Act hash m (.removing matcher b n) (Function.update m k none) (.inl (.removing matcher b (n + 1)))
  | next (m : Entries α) (matcher : Key → Option α → Bool) (b b' : Fin 256) (n : ℕ)
      (h : Cleared hash matcher b m) (hb : b'.val = b.val + 1) :
      Act hash m (.removing matcher b n) m (.inl (.removing matcher b' n))
  | finish (m : Entries α) (matcher : Key → Option α → Bool) (b : Fin 256) (n : ℕ)
      (h : Cleared hash matcher b m) (hb : ¬ b.val + 1 < 256) :
      Act hash m (.removing matcher b n) m (.inr (.removed n))

/-- A map from keys to entries that threads share -/
def sharedMap (hash : Key → UInt64) : Object (Entries α) (Op α) (Result α) where
  init m := m = fun _ => none
  act := Act hash

def Call.op : Call α φ → Op α
  | .get key => .get key
  | .set key obj _ => .set key obj
  | .count => .count
  | .removeAll matcher => .removeAll matcher

/-- The calls, and what they return -/
def seen (s : State T α φ) : Action T α φ → List (Event T (Op α) (Result α))
  | .call t c => [.call t c.op]
  | .run t _ =>
      match s.task t with
      | .done r => [.ret t r]
      | _ => []
  | .scribble _ _ => []

end PoserCore.Dictionary.Shared
