import Mathlib.Tactic.IntervalCases
import PoserCore.Base64.Decoding

/-!
# Encoding and decoding

A decoded character is the six bits it was encoded from (`dec1_enc1`), whichever the alphabet, and
four of them put together are the three bytes again.
-/

namespace PoserCore.Base64

variable {d : ℕ} {data enc chars : List UInt8} {flags : Flags}

/-- The characters that encode with the flags given. -/
def letters (flags : Flags) : List UInt8 :=
  alphabet.take 62 ++ match flags with
    | .default => [0x2b, 0x2f]
    | .urlsafe => [0x2d, 0x5f]

/-- A character of the standard alphabet in the URL-safe one. -/
def toUrlsafe (c : UInt8) : UInt8 := if c = 0x2b then 0x2d else if c = 0x2f then 0x5f else c

/-! ## Characters -/

/-- The last six bits of a byte are a number below 64. -/
theorem exists_six (val : UInt8) : ∃ n : Fin 64, val &&& 0x3f = UInt8.ofNat n := by
  have hval : (val &&& 0x3f).toNat = val.toNat % 2 ^ 6 := by
    rw [UInt8.toNat_and]
    exact Nat.and_two_pow_sub_one_eq_mod _ 6
  refine ⟨⟨val.toNat % 2 ^ 6, Nat.mod_lt _ (by decide)⟩, ?_⟩
  show val &&& 0x3f = UInt8.ofNat (val.toNat % 2 ^ 6)
  rw [← hval, UInt8.ofNat_toNat]

theorem enc1_and (val : UInt8) (flags : Flags) : enc1 (val &&& 0x3f) flags = enc1 val flags := by
  unfold enc1
  rw [UInt8.and_assoc, UInt8.and_self]

theorem dec1_enc1 (flags : Flags) (val : UInt8) : dec1 (enc1 val flags) = val &&& 0x3f := by
  have h : ∀ n : Fin 64, dec1 (enc1 (UInt8.ofNat n) flags) = UInt8.ofNat n := by
    cases flags <;> decide +kernel
  obtain ⟨n, hn⟩ := exists_six val
  rw [← enc1_and, hn]
  exact h n

theorem enc1_mem (flags : Flags) (val : UInt8) : enc1 val flags ∈ letters flags := by
  have h : ∀ n : Fin 64, enc1 (UInt8.ofNat n) flags ∈ letters flags := by
    cases flags <;> decide +kernel
  obtain ⟨n, hn⟩ := exists_six val
  rw [← enc1_and, hn]
  exact h n

theorem dec1_toUrlsafe (c : UInt8) : dec1 (toUrlsafe c) = dec1 c := by
  unfold toUrlsafe
  split_ifs with h1 h2
  · rw [h1]
    decide
  · rw [h2]
    decide
  · rfl

theorem toUrlsafe_eq_zero (c : UInt8) : toUrlsafe c = 0 ↔ c = 0 := by
  unfold toUrlsafe
  split_ifs with h1 h2
  · rw [h1]
    decide
  · rw [h2]
    decide
  · rfl

theorem ne_zero_of_mem_letters {c : UInt8} (h : c ∈ letters flags) : c ≠ 0 := by
  rintro rfl
  revert h
  cases flags <;> decide

/-! ## Bytes -/

theorem byte_ext {a b : UInt8} (h : ∀ i < 8, a.toBitVec.getLsbD i = b.toBitVec.getLsbD i) :
    a = b :=
  UInt8.toBitVec_inj.1 (BitVec.eq_of_getLsbD_eq fun i hi => h i hi)

theorem first_byte (a b : UInt8) :
    (a >>> 2 &&& 0x3f) <<< 2 ||| ((a <<< 4 ||| b >>> 4) &&& 0x3f) >>> 4 = a := by
  apply byte_ext
  intro i hi
  simp only [UInt8.toBitVec_or, UInt8.toBitVec_and, UInt8.toBitVec_shiftLeft,
    UInt8.toBitVec_shiftRight]
  interval_cases i <;> simp

theorem second_byte (a b c : UInt8) :
    ((a <<< 4 ||| b >>> 4) &&& 0x3f) <<< 4 ||| ((b <<< 2 ||| c >>> 6) &&& 0x3f) >>> 2 = b := by
  apply byte_ext
  intro i hi
  simp only [UInt8.toBitVec_or, UInt8.toBitVec_and, UInt8.toBitVec_shiftLeft,
    UInt8.toBitVec_shiftRight]
  interval_cases i <;> simp

theorem third_byte (b c : UInt8) :
    ((b <<< 2 ||| c >>> 6) &&& 0x3f) <<< 6 ||| (c &&& 0x3f) = c := by
  apply byte_ext
  intro i hi
  simp only [UInt8.toBitVec_or, UInt8.toBitVec_and, UInt8.toBitVec_shiftLeft,
    UInt8.toBitVec_shiftRight]
  interval_cases i <;> simp

/-! ## Strings -/

theorem encodedLen_add_three (size : ℕ) : encodedLen (size + 3) = encodedLen size + 4 := by
  unfold encodedLen
  dsimp only
  split_ifs <;> omega

theorem decodedSize_encodedLen (size : ℕ) : decodedSize (encodedLen size) = size := by
  unfold decodedSize encodedLen
  dsimp only
  split_ifs <;> omega

/-- A string of the alphabet of which the bytes are the data, from any offset on. -/
structure Encodes (flags : Flags) (data chars : List UInt8) : Prop where
  length : chars.length = encodedLen data.length
  letters : ∀ c ∈ chars, c ∈ letters flags
  bytes : ∀ d, (decodeFrom d chars).map Prod.snd = data

theorem Encodes.add (h : Encodes flags data chars) (d0 d1 d2 : UInt8) :
    Encodes flags (d0 :: d1 :: d2 :: data) (enc1 (d0 >>> 2) flags ::
      enc1 (d0 <<< 4 ||| d1 >>> 4) flags :: enc1 (d1 <<< 2 ||| d2 >>> 6) flags ::
        enc1 d2 flags :: chars) where
  length := by
    simp only [List.length_cons]
    rw [h.length, encodedLen_add_three]
  letters := by
    simp only [List.forall_mem_cons]
    exact ⟨enc1_mem .., enc1_mem .., enc1_mem .., enc1_mem .., h.letters⟩
  bytes d := by
    simp only [decodeFrom, dec1_enc1, List.map_cons, h.bytes, first_byte, second_byte, third_byte]

/-- `PSC_Base64_encodeTo` writes such a string and a NUL. -/
theorem encodes_encodeTo (flags : Flags) (data : List UInt8) :
    ∃ chars, encodeTo flags data = chars ++ [0] ∧ Encodes flags data chars := by
  induction data using encodeTo.induct with
  | case1 d0 d1 d2 data ih =>
    obtain ⟨chars, hchars, h⟩ := ih
    exact ⟨_, by rw [encodeTo, hchars]; rfl, h.add d0 d1 d2⟩
  | case2 d0 d1 =>
    refine ⟨[_, _, _], rfl, by simp [encodedLen], ?_, fun d => ?_⟩
    · simp only [List.forall_mem_cons]
      exact ⟨enc1_mem .., enc1_mem .., enc1_mem .., fun _ hc => nomatch hc⟩
    · have h := second_byte d0 d1 0
      rw [UInt8.zero_shiftRight, UInt8.or_zero] at h
      simp only [decodeFrom, dec1_enc1, List.map_cons, first_byte, h, List.map_nil]
  | case3 d0 =>
    refine ⟨[_, _], rfl, by simp [encodedLen], ?_, fun d => ?_⟩
    · simp only [List.forall_mem_cons]
      exact ⟨enc1_mem .., enc1_mem .., fun _ hc => nomatch hc⟩
    · have h := first_byte d0 0
      rw [UInt8.zero_shiftRight, UInt8.or_zero] at h
      simp only [decodeFrom, dec1_enc1, List.map_cons, h, List.map_nil]
  | case4 => exact ⟨[], rfl, rfl, (fun _ hc => nomatch hc), fun _ => rfl⟩

theorem strlen_append_nul (h : ∀ c ∈ chars, c ≠ 0) : strlen (chars ++ [0]) = chars.length := by
  rw [strlen, List.takeWhile_append_of_pos (by simpa using h)]
  simp

theorem strlen_map_toUrlsafe (enc : List UInt8) : strlen (enc.map toUrlsafe) = strlen enc := by
  rw [strlen, List.takeWhile_map, List.length_map, strlen]
  congr 2
  funext c
  simp [toUrlsafe_eq_zero]

theorem decodeFrom_map_toUrlsafe (d : ℕ) (enc : List UInt8) :
    decodeFrom d (enc.map toUrlsafe) = decodeFrom d enc := by
  induction d, enc using decodeFrom.induct with
  | case1 d c1 c2 c3 c4 enc ih => simp only [List.map_cons, decodeFrom, dec1_toUrlsafe, ih]
  | case2 d c1 c2 c3 => simp only [List.map_cons, List.map_nil, decodeFrom, dec1_toUrlsafe]
  | case3 d c1 c2 => simp only [List.map_cons, List.map_nil, decodeFrom, dec1_toUrlsafe]
  | case4 enc d h4 h3 h2 =>
    rcases enc with _ | ⟨c1, _ | ⟨c2, _ | ⟨c3, _ | ⟨c4, enc⟩⟩⟩⟩
    · rfl
    · rfl
    · exact absurd rfl (h2 c1 c2)
    · exact absurd rfl (h3 c1 c2 c3)
    · exact absurd rfl (h4 c1 c2 c3 c4 enc)

theorem decode_map_toUrlsafe (enc : List UInt8) : decode (enc.map toUrlsafe) = decode enc := by
  have hto : ∀ len, decodeTo (enc.map toUrlsafe) len = decodeTo enc len := by
    intro len
    rw [decodeTo, ← List.map_take, decodeFrom_map_toUrlsafe, decodeTo]
  rw [decode, strlen_map_toUrlsafe, hto, decode]

/-- The encoded string has the length and the characters it should have, and decoding it gives the
data back.  Decoding does not tell the two alphabets apart. -/
theorem encode_round_trip (data : List UInt8) (flags : Flags) :
    strlen (encode data flags) = encodedLen data.length ∧
      (∀ c ∈ (encode data flags).take (encodedLen data.length), c ∈ letters flags) ∧
      decodedSize (encodedLen data.length) = data.length ∧
      decode (encode data flags) = (data.map some, data.length) ∧
      ∀ enc, decode (enc.map toUrlsafe) = decode enc := by
  obtain ⟨chars, hchars, h⟩ := encodes_encodeTo flags data
  have hlen : strlen (encode data flags) = encodedLen data.length := by
    rw [encode, hchars, strlen_append_nul fun c hc => ne_zero_of_mem_letters (h.letters c hc),
      h.length]
  have htake : (encode data flags).take (encodedLen data.length) = chars := by
    rw [encode, hchars, ← h.length, List.take_left]
  refine ⟨hlen, htake ▸ h.letters, decodedSize_encodedLen _, ?_, decode_map_toUrlsafe⟩
  have hone : encodedLen data.length % 4 ≠ 1 := by
    unfold encodedLen
    dsimp only
    split_ifs <;> omega
  have hbytes := congrArg (List.map some) (h.bytes 0)
  rw [List.map_map] at hbytes
  rw [decode_eq, hlen, decodedSize_encodedLen, if_neg hone, decodeTo, htake]
  exact congrArg (·, data.length) ((List.append_nil _).trans hbytes)

end PoserCore.Base64
