import Mathlib.Data.Nat.Notation
import PoserCore.Base64.Model

/-!
# Random bytes

`PSC_Random_bytes` where `getrandom` is there and `arc4random_buf` is not: what `getrandom` answers
comes from outside, a list with one answer for each call.  The generator `prng` behind it has static
data, which stay from one call of `PSC_Random_bytes` to the next, and among them a mutex that is not
recursive: locking it while it is locked never returns.
-/

namespace PoserCore.Random

/-- `PSC_RandomFlags` -/
structure Flags where
  nonblock : Bool
  wlogpseudo : Bool
  elogpseudo : Bool
  secure : Bool
  deriving DecidableEq

/-! ## `prng` -/

/-- The static variables of `prng`. -/
structure Prng where
  locked : Bool
  seeded : Bool
  s0 : UInt64
  s1 : UInt64
  s2 : UInt64
  s3 : UInt64
  deriving DecidableEq

def Prng.init : Prng := ⟨false, false, 0, 0, 0, 0⟩

/-- A call returns, or waits in `pthread_mutex_lock` for ever. -/
inductive Exit (α : Type)
  | returned (a : α)
  | blocked
  deriving DecidableEq

/-- The next number and the state behind it. -/
def xorshift (p : Prng) : UInt64 × Prng :=
  let num := p.s0 + p.s3
  let tmp := p.s1 <<< 17
  let s2 := p.s2 ^^^ p.s0
  let s3 := p.s3 ^^^ p.s1
  let s1 := p.s1 ^^^ s2
  let s0 := p.s0 ^^^ s3
  let s2 := s2 ^^^ tmp
  let s3 := s3 <<< 45 ||| s3 >>> 19
  (num, { p with s0 := s0, s1 := s1, s2 := s2, s3 := s3 })

/-- `n` calls of `prng`, by `prng` itself. -/
def stir (prng : Prng → Option (Exit UInt64 × Prng)) : ℕ → Prng → Option (Exit Unit × Prng)
  | 0, p => some (.returned (), p)
  | n + 1, p => do
      match ← prng p with
      | (.returned _, p) => stir prng n p
      | (.blocked, p) => some (.blocked, p)

/-- `prng`; `fuel` bounds the number of calls inside one another, `none` if there are more. -/
def prng (time : UInt64) : (fuel : ℕ) → Prng → Option (Exit UInt64 × Prng)
  | 0, _ => none
  | fuel + 1, p =>
      if p.locked then some (.blocked, p)
      else do
        let p := { p with locked := true }
        let (exit, p) ←
          if p.seeded then some (.returned (), p)
          else stir (prng time fuel) 100 { p with seeded := true, s0 := time }
        match exit with
        | .blocked => some (.blocked, p)
        | .returned () =>
            let (num, p) := xorshift p
            some (.returned num, { p with locked := false })

/-! ## `getrandom` -/

/-- The flags of `getrandom` that are used. -/
structure GrFlags where
  nonblock : Bool
  random : Bool
  deriving DecidableEq

/-- What a call of `getrandom` does: it gets `bytes`, of which it delivers as many as were asked for,
or it fails. -/
inductive GrResult
  | got (bytes : List UInt8)
  | eintr
  | eagain
  | error
  deriving DecidableEq

/-- A byte written to `buf`, and whether it comes from `prng`. -/
structure Store where
  off : ℕ
  byte : UInt8
  pseudo : Bool
  deriving DecidableEq

inductive LogLevel
  | debug
  | warning
  | error
  deriving DecidableEq

inductive Message
  /-- "Could not obtain cryptographically secure random data, trying alternative source" -/
  | alternative
  /-- "Could not obtain random data, falling back to xorshift-based internal PRNG" -/
  | pseudo
  deriving DecidableEq

def Flags.level (flags : Flags) : LogLevel :=
  if flags.elogpseudo then .error else if flags.wlogpseudo then .warning else .debug

/-- `flags & (PSC_RF_WLOGPSEUDO|PSC_RF_ELOGPSEUDO)` -/
def Flags.logs (flags : Flags) : Bool := flags.wlogpseudo || flags.elogpseudo

def Flags.grflags (flags : Flags) : GrFlags := ⟨flags.nonblock, flags.logs⟩

def Flags.grflags2 (flags : Flags) : GrFlags := ⟨flags.nonblock, flags.secure⟩

/-- The loop that calls `getrandom`. -/
structure Loop where
  pos : ℕ
  grflags : GrFlags
  dolog : ℕ
  stores : List Store
  log : List (LogLevel × Message)
  /-- The sizes and flags `getrandom` was called with. -/
  requests : List (ℕ × GrFlags)
  deriving DecidableEq

def Loop.start (flags : Flags) : Loop := ⟨0, flags.grflags, 0, [], [], []⟩

/-- `getrandom` is called, after a message if one is due. -/
def Loop.request (count : ℕ) (flags : Flags) (s : Loop) : Loop :=
  let s :=
    if s.dolog = 1 ∧ flags.logs then
      { s with log := s.log ++ [(flags.level, .alternative)], dolog := s.dolog + 1 }
    else s
  { s with requests := s.requests ++ [(count - s.pos, s.grflags)] }

/-- `getrandom` has delivered some bytes, perhaps none. -/
def Loop.took (flags : Flags) (bytes : List UInt8) (s : Loop) : Loop :=
  let s := if s.dolog = 0 then { s with grflags := flags.grflags2, dolog := s.dolog + 1 } else s
  { s with
    stores := s.stores ++ bytes.mapIdx fun i b => ⟨s.pos + i, b, false⟩
    pos := s.pos + bytes.length }

/-- The loop, or `none` while it still waits for an answer. -/
def getLoop (count : ℕ) (flags : Flags) : List GrResult → Loop → Option Loop
  | [], s => if s.pos < count then none else some s
  | r :: results, s =>
      if s.pos < count then
        let s := s.request count flags
        match r with
        | .got bytes => getLoop count flags results (s.took flags (bytes.take (count - s.pos)))
        | .eagain => getLoop count flags results (s.took flags [])
        | .eintr => getLoop count flags results s
        | .error => some s
      else some s

/-! ## `PSC_Random_bytes` -/

/-- Filling the rest of the buffer from `prng`. -/
structure Fill where
  pos : ℕ
  stores : List Store
  prng : Prng
  deriving DecidableEq

/-- The memory of a `uint64_t`, the lowest byte first. -/
def memory (rn : UInt64) : List UInt8 :=
  (List.range 8).map fun i => (rn >>> UInt64.ofNat (8 * i)).toUInt8

/-- A number from `prng`, of which `n` bytes are copied. -/
def draw (time : UInt64) (n : ℕ) (s : Fill) : Option (Exit Unit × Fill) := do
  match ← prng time 2 s.prng with
  | (.blocked, p) => some (.blocked, { s with prng := p })
  | (.returned rn, p) =>
      some (.returned (),
        { s with
          stores := s.stores ++ ((memory rn).take n).mapIdx fun i b => ⟨s.pos + i, b, true⟩
          pos := s.pos + n
          prng := p })

def drawChunks (time : UInt64) : (chunks : ℕ) → Fill → Option (Exit Unit × Fill)
  | 0, s => some (.returned (), s)
  | chunks + 1, s => do
      match ← draw time 8 s with
      | (.blocked, s) => some (.blocked, s)
      | (.returned (), s) => drawChunks time chunks s

/-- The rest of the buffer up to `count`. -/
def fallback (time : UInt64) (count : ℕ) (s : Fill) : Option (Exit Unit × Fill) := do
  let chunks := (count - s.pos) / 8
  let bytes := (count - s.pos) % 8
  let (exit, s) ← if bytes ≠ 0 then draw time bytes s else some (.returned (), s)
  match exit with
  | .blocked => some (.blocked, s)
  | .returned () => drawChunks time chunks s

/-- What a call of `PSC_Random_bytes` does. -/
structure Call where
  exit : Exit ℕ
  stores : List Store
  log : List (LogLevel × Message)
  requests : List (ℕ × GrFlags)
  prng : Prng
  deriving DecidableEq

/-- `PSC_Random_bytes`, for the answers of `getrandom`, the time, and the static data of `prng`. -/
def bytes (time : UInt64) (count : ℕ) (flags : Flags) (results : List GrResult) (p : Prng) :
    Option Call := do
  let s ← getLoop count flags results (.start flags)
  if s.pos < count then
    if flags.secure then some ⟨.returned s.pos, s.stores, s.log, s.requests, p⟩
    else
      let log := if flags.logs then s.log ++ [(flags.level, .pseudo)] else s.log
      let (exit, t) ← fallback time count ⟨s.pos, s.stores, p⟩
      match exit with
      | .blocked => some ⟨.blocked, t.stores, log, s.requests, t.prng⟩
      | .returned () => some ⟨.returned t.pos, t.stores, log, s.requests, t.prng⟩
  else some ⟨.returned s.pos, s.stores, s.log, s.requests, p⟩

/-! ## `PSC_Random_string` -/

/-- `PSC_Random_string`, for the bytes that `PSC_Random_bytes` got: what it stores at `str`, and the
size it returns. -/
def string (size : ℕ) (b64flags : Base64.Flags) (buf : List UInt8) : List UInt8 × ℕ :=
  let count := Base64.decodedSize (size - 1)
  let got := buf.length
  let size := if got < count then Base64.encodedLen got + 1 else size
  (Base64.encodeTo b64flags buf, size)

end PoserCore.Random
