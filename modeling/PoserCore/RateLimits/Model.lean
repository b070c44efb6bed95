import PoserCore.Dictionary.Count

/-!
# The rate limiter

`PSC_RateLimit`: for every key a list of entries, one for each limit, found through a dictionary and
updated in place.  Slot numbers, counters and positions are 16-bit numbers: they are kept as natural
numbers and every store reduces them modulo 2^16, while differences of slot numbers are taken, as in
the code, in `int`.

The model is that of one thread: the locks do not appear.  Every check leaves a record in `log`, the
latest first, with the limits that counted it.
-/

namespace PoserCore.RateLimits

open Lib (Machine)
open Dictionary (Key Deleter)

abbrev Addr := ℕ

/-- `MAXCOUNTS` -/
def maxcounts : ℕ := 512

structure Entry where
  last : ℕ
  total : ℕ
  countpos : ℕ
  counts : ℕ → ℕ

/-- An entry after `memset` -/
def Entry.zero : Entry where
  last := 0
  total := 0
  countpos := 0
  counts := fun _ => 0

structure Limit where
  seconds : ℕ
  limit : ℕ
  res : ℕ
  ncounts : ℕ

/-- `PSC_RateLimitOpts_addLimit`: the new options, or `none` for -1 -/
def addLimit (opts : List Limit) (seconds limit : ℤ) : Option (List Limit) :=
  if seconds < 1 ∨ seconds > 0xffff ∨ limit < 1 ∨ limit > 0xffff then none
  else
    let res := (seconds.toNat + maxcounts - 1) / maxcounts % 2 ^ 16
    some (opts ++ [⟨seconds.toNat % 2 ^ 16, limit.toNat % 2 ^ 16, res,
      (seconds.toNat + res - 1) / res % 2 ^ 16⟩])

/-- The options that calls of `addLimit` lead to. -/
inductive Configured : List Limit → Prop
  | nil : Configured []
  | add {opts opts' : List Limit} {seconds limit : ℤ} (h : Configured opts)
      (hadd : addLimit opts seconds limit = some opts') : Configured opts'

/-! ## One limit -/

/-- The true slot of a time. -/
def Limit.slot (l : Limit) (sec : ℕ) : ℕ := sec / l.res

/-- The slot number the code works with. -/
def Limit.now (l : Limit) (sec : ℕ) : ℕ := sec / l.res % 2 ^ 16

/-- One pass of the loop that moves an entry to the next slot. -/
def turn (l : Limit) (e : Entry) : Entry :=
  let pos := (e.countpos + 1) % 2 ^ 16
  let countpos := if pos = l.ncounts then 0 else pos
  { last := (e.last + 1) % 2 ^ 16
    total := (e.total + 2 ^ 16 - e.counts countpos) % 2 ^ 16
    countpos := countpos
    counts := Function.update e.counts countpos 0 }

/-- `for (; e->last != now; ++e->last)`, with at most `n` passes -/
def rotate (l : Limit) (now : ℕ) : ℕ → Entry → Entry
  | 0, e => e
  | n + 1, e => if e.last = now then e else rotate l now n (turn l e)

/-- The part of `checkLimit` that brings an entry to the current slot. -/
def refresh (l : Limit) (e : Entry) (now : ℕ) : Entry :=
  if e.total ≠ 0 then
    if (now : ℤ) - e.last ≥ l.ncounts then { Entry.zero with last := now }
    else rotate l now (2 ^ 16) e
  else { e with last := now }

/-- `checkLimit`: the entry after it, and whether the limit counted the action -/
def checkLimit (l : Limit) (e : Entry) (sec : ℕ) : Entry × Bool :=
  let e := refresh l e (l.now sec)
  if e.total < l.limit then
    ({ e with
        counts := Function.update e.counts e.countpos ((e.counts e.countpos + 1) % 2 ^ 16)
        total := (e.total + 1) % 2 ^ 16 }, true)
  else (e, false)

/-! ## The limiter -/

/-- What a check did; `counted` has an element for each limit. -/
structure Record where
  key : Key
  sec : ℕ
  counted : List Bool
  ok : Bool
  deriving DecidableEq

structure RateLimit where
  limits : List Limit
  /-- Where the entries of a key are; the deleter is `free`. -/
  entries : Dictionary.Dictionary Addr Unit
  cleancount : ℕ
  /-- The lists of entries that are allocated. -/
  mem : Addr → Option (ℕ → Entry)

/-- `PSC_RateLimit_create` -/
def RateLimit.create (hash : Key → UInt64) (opts : List Limit) : RateLimit where
  limits := opts
  entries := .create hash (.all ())
  cleancount := 2000
  mem := fun _ => none

/-- `expired` -/
def expired (limits : List Limit) (sec : ℕ) (es : ℕ → Entry) : Bool :=
  limits.zipIdx.all fun (l, i) => decide (¬ ((l.now sec : ℤ) - (es i).last < l.ncounts))

/-- `expired` as the dictionary calls it. -/
def RateLimit.matcher (self : RateLimit) (sec : ℕ) (_ : Key) (obj : Option Addr) : Bool :=
  ((obj.bind self.mem).map (expired self.limits sec)).getD false

/-- The dictionary without the expired keys, and the memory without what it freed. -/
def RateLimit.clean (self : RateLimit) (sec : ℕ) : RateLimit :=
  let entries := (self.entries.removeAll (self.matcher sec)).1
  { self with
    entries := entries
    mem := fun a =>
      if ((), some a) ∈ entries.calls.drop self.entries.calls.length then none else self.mem a }

/-- The clean-up that every 2000th check begins with. -/
def RateLimit.countdown (self : RateLimit) (sec : ℕ) : RateLimit :=
  if (self.cleancount + 2 ^ 16 - 1) % 2 ^ 16 = 0 then { self.clean sec with cleancount := 2000 }
  else { self with cleancount := (self.cleancount + 2 ^ 16 - 1) % 2 ^ 16 }

/-- A new list of entries. -/
def newEntries (limits : List Limit) (sec : ℕ) (i : ℕ) : Entry :=
  { Entry.zero with last := (limits[i]?.map (·.now sec)).getD 0 }

/-- The loop that looks for the entries of a key and makes them if there are none, with at most `n`
passes; `alloc` is where `PSC_malloc` finds memory. -/
def RateLimit.find (key : Key) (sec alloc : ℕ) : ℕ → RateLimit → Option (RateLimit × Addr)
  | 0, self => (self.entries.get key).map fun a => (self, a)
  | n + 1, self =>
      match self.entries.get key with
      | some a => some (self, a)
      | none =>
          if (self.mem alloc).isSome then none
          else RateLimit.find key sec alloc n
            { self with
              mem := Function.update self.mem alloc (some (newEntries self.limits sec))
              entries := self.entries.set key (some alloc) .individual }

/-- Every limit checks its own entry. -/
def checkLimits (limits : List Limit) (es : ℕ → Entry) (sec : ℕ) : (ℕ → Entry) × List Bool :=
  (fun i => (limits[i]?.map fun l => (checkLimit l (es i) sec).1).getD (es i),
    limits.zipIdx.map fun (l, i) => (checkLimit l (es i) sec).2)

/-- `PSC_RateLimit_check`: which limits counted the action, and the result; `clock` is the time in
seconds, or `none` if `clock_gettime` fails -/
def RateLimit.check (self : RateLimit) (key : Key) (clock : Option ℕ) (alloc : Addr) :
    Option (RateLimit × List Bool × Bool) :=
  match clock with
  | none => some (self, [], false)
  | some sec => do
      let (self, a) ← (self.countdown sec).find key sec alloc 1
      let es ← self.mem a
      let r := checkLimits self.limits es sec
      some ({ self with mem := Function.update self.mem a (some r.1) }, r.2, r.2.all id)

/-! ## Runs -/

structure State where
  limiter : RateLimit
  /-- The time of the latest check. -/
  now : ℕ
  log : List Record

/-- A check of `key` at the time `sec`. -/
structure Action where
  key : Key
  sec : ℕ
  alloc : Addr

/-- The clock never goes back. -/
def step (s : State) (a : Action) : Option State :=
  if s.now ≤ a.sec then
    (s.limiter.check a.key (some a.sec) a.alloc).map fun r =>
      { limiter := r.1, now := a.sec, log := ⟨a.key, a.sec, r.2.1, r.2.2⟩ :: s.log }
  else none

def machine (hash : Key → UInt64) (opts : List Limit) : Machine State Action where
  init := fun s => s = ⟨.create hash opts, 0, []⟩
  step := step

end PoserCore.RateLimits
