import Mathlib.Data.Nat.Notation

/-!
# Base64

`PSC_Base64`: encoding without padding, for the standard and the URL-safe alphabet, and decoding for
both at once.  Strings are lists of bytes that end before their first NUL.  The stores of
`PSC_Base64_decodeTo` are kept apart from the buffer they go to: `PSC_Base64_decode` allocates the
buffer by the size it computes and not by what is stored.
-/

namespace PoserCore.Base64

inductive Flags
  | default
  | urlsafe
  deriving DecidableEq, Repr

/-- `alphabet`: the letters and digits, plus and slash, minus and underscore -/
def alphabet : List UInt8 :=
  [0x41, 0x42, 0x43, 0x44, 0x45, 0x46, 0x47, 0x48, 0x49, 0x4a, 0x4b, 0x4c, 0x4d, 0x4e, 0x4f, 0x50,
    0x51, 0x52, 0x53, 0x54, 0x55, 0x56, 0x57, 0x58, 0x59, 0x5a,
    0x61, 0x62, 0x63, 0x64, 0x65, 0x66, 0x67, 0x68, 0x69, 0x6a, 0x6b, 0x6c, 0x6d, 0x6e, 0x6f, 0x70,
    0x71, 0x72, 0x73, 0x74, 0x75, 0x76, 0x77, 0x78, 0x79, 0x7a,
    0x30, 0x31, 0x32, 0x33, 0x34, 0x35, 0x36, 0x37, 0x38, 0x39, 0x2b, 0x2f, 0x2d, 0x5f]

def enc1 (val : UInt8) (flags : Flags) : UInt8 :=
  let pos := val &&& 0x3f
  let pos := if flags = .urlsafe ∧ pos ≥ 0x3e then pos + 2 else pos
  alphabet.getD pos.toNat 0

/-- `strchr` also finds the NUL behind the alphabet. -/
def dec1 (val : UInt8) : UInt8 :=
  match (alphabet ++ [0]).idxOf? val with
  | none => 0xff
  | some pos =>
      let dec := UInt8.ofNat pos
      if dec > 0x3f then dec - 2 else dec

/-- `PSC_Base64_encodedLen` -/
def encodedLen (size : ℕ) : ℕ :=
  let res := size % 3
  let res := if res ≠ 0 then res + 1 else res
  4 * (size / 3) + res

/-- `PSC_Base64_decodedSize` -/
def decodedSize (len : ℕ) : ℕ :=
  let res := len % 4
  let res := if res > 1 then res - 1 else res
  3 * (len / 4) + res

/-- `PSC_Base64_encodeTo`: what it stores at `enc` -/
def encodeTo (flags : Flags) : (data : List UInt8) → List UInt8
  | d0 :: d1 :: d2 :: data =>
      enc1 (d0 >>> 2) flags :: enc1 (d0 <<< 4 ||| d1 >>> 4) flags ::
        enc1 (d1 <<< 2 ||| d2 >>> 6) flags :: enc1 d2 flags :: encodeTo flags data
  | [d0, d1] =>
      [enc1 (d0 >>> 2) flags, enc1 (d0 <<< 4 ||| d1 >>> 4) flags, enc1 (d1 <<< 2) flags, 0]
  | [d0] => [enc1 (d0 >>> 2) flags, enc1 (d0 <<< 4) flags, 0]
  | [] => [0]

/-- `PSC_Base64_encode`: its buffer, which has `encodedLen` bytes and one more -/
def encode (data : List UInt8) (flags : Flags) : List UInt8 := encodeTo flags data

/-- The bytes `PSC_Base64_decodeTo` stores from the offset `d` on, for the characters left. -/
def decodeFrom (d : ℕ) : (enc : List UInt8) → List (ℕ × UInt8)
  | c1 :: c2 :: c3 :: c4 :: enc =>
      let b1 := dec1 c1
      let b2 := dec1 c2
      let b3 := dec1 c3
      (d, b1 <<< 2 ||| b2 >>> 4) :: (d + 1, b2 <<< 4 ||| b3 >>> 2) ::
        (d + 2, b3 <<< 6 ||| dec1 c4) :: decodeFrom (d + 3) enc
  | [c1, c2, c3] =>
      let b1 := dec1 c1
      let b2 := dec1 c2
      let b3 := dec1 c3
      [(d, b1 <<< 2 ||| b2 >>> 4), (d + 1, b2 <<< 4 ||| b3 >>> 2)]
  | [c1, c2] =>
      let b1 := dec1 c1
      [(d, b1 <<< 2 ||| dec1 c2 >>> 4)]
  | _ => []

/-- `PSC_Base64_decodeTo`: its stores, in order -/
def decodeTo (enc : List UInt8) (len : ℕ) : List (ℕ × UInt8) := decodeFrom 0 (enc.take len)

def strlen (s : List UInt8) : ℕ := (s.takeWhile fun b => b ≠ 0).length

/-- A buffer from `PSC_malloc`, in which nothing is initialized. -/
def malloc (size : ℕ) : List (Option UInt8) := List.replicate size none

def store (buf : List (Option UInt8)) (s : ℕ × UInt8) : List (Option UInt8) :=
  buf.set s.1 (some s.2)

/-- `PSC_Base64_decode`: the buffer and its size -/
def decode (enc : List UInt8) : List (Option UInt8) × ℕ :=
  let esz := strlen enc
  let dsz := decodedSize esz
  ((decodeTo enc esz).foldl store (malloc dsz), dsz)

end PoserCore.Base64
