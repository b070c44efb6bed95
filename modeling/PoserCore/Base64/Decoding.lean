import Mathlib.Data.List.Range
import PoserCore.Base64.Model

/-!
# What decoding stores

`PSC_Base64_decodeTo` stores its bytes one after another (`offsets_decodeFrom`).  The size that
`PSC_Base64_decodedSize` computes is their number, but for one character behind the last group of
four: that stores nothing, and still counts as a byte.
-/

namespace PoserCore.Base64

variable {d len : ℕ} {enc : List UInt8}

/-- The number of bytes stored for `len` characters. -/
def stored (len : ℕ) : ℕ := 3 * (len / 4) + (len % 4 - 1)

theorem decodedSize_eq (len : ℕ) :
    decodedSize len = stored len + if len % 4 = 1 then 1 else 0 := by
  unfold decodedSize stored
  dsimp only
  split_ifs <;> omega

theorem offsets_decodeFrom (d : ℕ) (enc : List UInt8) :
    (decodeFrom d enc).map Prod.fst = List.range' d (stored enc.length) := by
  induction d, enc using decodeFrom.induct with
  | case1 d c1 c2 c3 c4 enc ih =>
    have hlen : stored (c1 :: c2 :: c3 :: c4 :: enc).length = stored enc.length + 3 := by
      simp only [stored, List.length_cons]
      omega
    rw [decodeFrom, List.map_cons, List.map_cons, List.map_cons, ih, hlen]
    rfl
  | case2 d c1 c2 c3 => simp [decodeFrom, stored, List.range'_succ]
  | case3 d c1 c2 => simp [decodeFrom, stored]
  | case4 enc d h4 h3 h2 =>
    match enc with
    | [] => rfl
    | [c1] => simp [decodeFrom, stored]
    | [c1, c2] => exact absurd rfl (h2 c1 c2)
    | [c1, c2, c3] => exact absurd rfl (h3 c1 c2 c3)
    | c1 :: c2 :: c3 :: c4 :: enc => exact absurd rfl (h4 c1 c2 c3 c4 enc)

theorem strlen_le (enc : List UInt8) : strlen enc ≤ enc.length :=
  (List.takeWhile_prefix _).length_le

theorem offsets_decodeTo (h : len ≤ enc.length) :
    (decodeTo enc len).map Prod.fst = List.range (stored len) := by
  rw [decodeTo, offsets_decodeFrom, List.length_take_of_le h, List.range_eq_range']

/-! ## The buffer -/

/-- Stores one after another fill a buffer from the offset of the first. -/
theorem foldl_store {stores : List (ℕ × UInt8)} {n : ℕ} (front : List (Option UInt8))
    (h : stores.map Prod.fst = List.range' front.length stores.length) :
    stores.foldl store (front ++ malloc (stores.length + n)) =
      front ++ stores.map (fun s => some s.2) ++ malloc n := by
  induction stores generalizing front with
  | nil => simp
  | cons s stores ih =>
    obtain ⟨hs, hrest⟩ := List.cons.inj h
    have hstore : store (front ++ malloc ((s :: stores).length + n)) s =
        front ++ [some s.2] ++ malloc (stores.length + n) := by
      rw [store, hs, List.length_cons, Nat.add_right_comm, malloc, List.replicate_succ,
        List.set_append_right _ _ le_rfl, Nat.sub_self, List.set_cons_zero, List.append_assoc]
      rfl
    rw [List.foldl_cons, hstore, ih]
    · simp
    · rw [List.length_append]
      exact hrest

/-- The buffer holds the bytes that are stored, and one more if they are fewer than its size. -/
theorem decode_eq (enc : List UInt8) : decode enc =
    ((decodeTo enc (strlen enc)).map (fun s => some s.2) ++
      malloc (if strlen enc % 4 = 1 then 1 else 0), decodedSize (strlen enc)) := by
  have hoff := offsets_decodeTo (strlen_le enc)
  have hlen : (decodeTo enc (strlen enc)).length = stored (strlen enc) := by
    rw [← List.length_range (n := stored (strlen enc)), ← hoff, List.length_map]
  have hfill := @foldl_store (decodeTo enc (strlen enc)) (if strlen enc % 4 = 1 then 1 else 0) []
  rw [List.length_nil, ← List.range_eq_range', hlen, ← decodedSize_eq, List.nil_append,
    List.nil_append] at hfill
  unfold decode
  dsimp only
  rw [hfill hoff]

/-- Unless there is one character behind the last group of four, the bytes up to the computed size
are stored, each once, and no others, and the buffer has no byte that is not initialized. -/
theorem decodeTo_defines (enc : List UInt8) :
    (((decodeTo enc (strlen enc)).map Prod.fst).Perm (List.range (decodedSize (strlen enc))) ∧
      ∀ b ∈ (decode enc).1, b.isSome) ↔ strlen enc % 4 ≠ 1 := by
  rw [offsets_decodeTo (strlen_le enc), decode_eq, decodedSize_eq]
  constructor
  · rintro ⟨hperm, -⟩ hone
    have hlen := hperm.length_eq
    rw [List.length_range, List.length_range, if_pos hone] at hlen
    omega
  · intro hone
    rw [if_neg hone]
    refine ⟨.refl _, fun b hb => ?_⟩
    rw [malloc, List.replicate_zero, List.append_nil] at hb
    obtain ⟨s, -, rfl⟩ := List.mem_map.1 hb
    rfl

/-- A single character is reported as a byte that was never stored. -/
theorem decodeTo_undefined :
    ¬ (((decodeTo [0x41] (strlen [0x41])).map Prod.fst).Perm
        (List.range (decodedSize (strlen [0x41]))) ∧
      ∀ b ∈ (decode [0x41]).1, b.isSome) := by
  rintro ⟨-, hdefined⟩
  exact absurd (hdefined none (by decide)) (by decide)

end PoserCore.Base64
