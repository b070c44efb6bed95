import PoserCore.Base64.RoundTrip
import PoserCore.Random.Model

/-!
# Random strings

The bytes for a string of `len` characters are as many as decoding `len` characters would give.
Encoded again they take `len` characters, but for the one character behind the last group of four:
it stands for no byte when it is decoded, is counted as one, and is encoded to two
(`encodedLen_decodedSize`).  A string of such a size is one byte too long for its buffer, if all its
bytes are delivered.
-/

namespace PoserCore.Random

open Base64

variable {size : ℕ} {b64flags : Base64.Flags} {buf : List UInt8}

/-- The characters written for the bytes asked for. -/
theorem encodedLen_decodedSize (len : ℕ) :
    encodedLen (decodedSize len) = len + if len % 4 = 1 then 1 else 0 := by
  unfold encodedLen decodedSize
  dsimp only
  split_ifs <;> omega

/-- Less than the bytes asked for need no more characters than there is room for. -/
theorem encodedLen_le_of_lt {got len : ℕ} (h : got < decodedSize len) : encodedLen got ≤ len := by
  unfold encodedLen
  unfold decodedSize at h
  dsimp only at h ⊢
  split_ifs at h ⊢ <;> omega

/-- What is stored is a string and its NUL. -/
theorem stored_string (size : ℕ) (b64flags : Base64.Flags) (buf : List UInt8) :
    (string size b64flags buf).1.length = encodedLen buf.length + 1 ∧
      ∃ s, (string size b64flags buf).1 = s ++ [0] ∧ 0 ∉ s := by
  obtain ⟨chars, hchars, h⟩ := encodes_encodeTo b64flags buf
  have hstored : (string size b64flags buf).1 = chars ++ [0] := hchars
  rw [hstored]
  refine ⟨by rw [List.length_append, h.length, List.length_singleton], chars, rfl, fun hmem => ?_⟩
  exact ne_zero_of_mem_letters (h.letters 0 hmem) rfl

/-- The string fits its buffer of `size` bytes, `r.1` being stored at its start and `r.2` returned,
when `got` of the `count` bytes asked for are there. -/
structure Fits (size count got : ℕ) (r : List UInt8 × ℕ) : Prop where
  room : r.1.length ≤ size
  terminated : ∃ s, r.1 = s ++ [0] ∧ 0 ∉ s
  returned : r.2 = r.1.length
  short : r.2 < size → got < count

/-- A random string fits its buffer unless it has one character behind the last group of four and all
its bytes were delivered. -/
theorem string_fits_iff (size : ℕ) (b64flags : Base64.Flags) (buf : List UInt8) (hsize : 1 ≤ size)
    (hgot : buf.length ≤ decodedSize (size - 1)) :
    Fits size (decodedSize (size - 1)) buf.length (string size b64flags buf) ↔
      size % 4 ≠ 2 ∨ buf.length < decodedSize (size - 1) := by
  obtain ⟨hlen, hstr⟩ := stored_string size b64flags buf
  by_cases hshort : buf.length < decodedSize (size - 1)
  · have hret : (string size b64flags buf).2 = encodedLen buf.length + 1 := if_pos hshort
    have hle := encodedLen_le_of_lt hshort
    refine iff_of_true ⟨?_, hstr, ?_, fun _ => hshort⟩ (.inr hshort)
    · rw [hlen]
      omega
    · rw [hret, hlen]
  · have hret : (string size b64flags buf).2 = size := if_neg hshort
    have hall : buf.length = decodedSize (size - 1) := Nat.le_antisymm hgot (Nat.not_lt.1 hshort)
    rw [hall, encodedLen_decodedSize] at hlen
    constructor
    · intro h
      have hroom := h.room
      rw [hlen] at hroom
      split_ifs at hroom
      · omega
      · exact .inl (by omega)
    · intro h
      have hmod := h.resolve_right hshort
      rw [if_neg (by omega)] at hlen
      refine ⟨by omega, hstr, by omega, fun hlt => ?_⟩
      rw [hret] at hlt
      exact absurd hlt (Nat.lt_irrefl size)

/-- A string of eight characters and its NUL. -/
theorem string_fits_nine :
    Fits 9 6 6 (string 9 .default [1, 2, 3, 4, 5, 6]) ↔ 9 % 4 ≠ 2 ∨ 6 < 6 :=
  string_fits_iff 9 .default [1, 2, 3, 4, 5, 6] (by decide) (by decide)

/-- A buffer of two bytes gets three. -/
theorem string_overflows : ¬ Fits 2 1 1 (string 2 .default [0]) := by
  intro h
  have hroom := h.room
  revert hroom
  decide

end PoserCore.Random
