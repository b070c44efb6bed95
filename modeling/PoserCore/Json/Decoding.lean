import PoserCore.Json.Bounds

/-!
# The bytes of a string in a document

`parsePlainString` at a quote inside a document reads the characters up to the closing quote and
stores their bytes: those written literally, those of the simple escapes, and the UTF-8 encoding of
the code points that the hexadecimal escapes denote (`parsePlainString_decodes`).
-/

namespace PoserCore.Json

/-! ## UTF-8 -/

/-- For a scalar value this is the encoding that `Char` has. -/
theorem utf8_char (c : Char) : utf8 c.val.toNat = String.utf8EncodeChar c := by
  rw [utf8, String.utf8EncodeChar]
  have hlt : c.val.toNat < 0x110000 := by
    rcases c.valid with h | ⟨-, h⟩
    · exact Nat.lt_trans h (by decide)
    · exact h
  generalize c.val.toNat = n at hlt
  by_cases h1 : n < 0x80
  · rw [if_pos h1, if_pos (show n ≤ 0x7f by omega)]
  rw [if_neg h1, if_neg (show ¬ n ≤ 0x7f by omega)]
  by_cases h2 : n < 0x800
  · have hlead : n / 64 % 0x20 = n / 64 := Nat.mod_eq_of_lt (by omega)
    rw [if_pos h2, if_pos (show n ≤ 0x7ff by omega), hlead]
    simp only [Nat.add_comm]
  rw [if_neg h2, if_neg (show ¬ n ≤ 0x7ff by omega)]
  by_cases h3 : n < 0x10000
  · have hlead : n / 4096 % 0x10 = n / 4096 := Nat.mod_eq_of_lt (by omega)
    rw [if_pos h3, if_pos (show n ≤ 0xffff by omega), hlead]
    simp only [Nat.add_comm]
  · have hlead : n / 262144 % 0x08 = n / 262144 := Nat.mod_eq_of_lt (by omega)
    rw [if_neg h3, if_neg (show ¬ n ≤ 0xffff by omega), hlead]
    simp only [Nat.add_comm]

/-! ## Surrogate pairs -/

/-- Where a high surrogate is followed by an escape of this form it is a low surrogate. -/
def Paired (is : List Item) : Prop :=
  ∀ pre w w' post, is = pre ++ .unit w :: .unit w' :: post → w.High → w'.Low

theorem Paired.tail {i : Item} {is : List Item} (h : Paired (i :: is)) : Paired is :=
  fun pre w w' post heq => h (i :: pre) w w' post (congrArg (i :: ·) heq)

theorem splits_eq_false {is : List Item} (h : Paired is) : splits is = false := by
  induction is using splits.induct with
  | case1 => rfl
  | case2 w w' is hh hl ih =>
    rw [splits_pair hh hl]
    exact ih h.tail.tail
  | case3 w w' is hh hl => exact absurd (h [] w w' is rfl hh) hl
  | case4 w w' is hh ih =>
    rw [splits, if_neg hh]
    exact ih h.tail
  | case5 i is hno ih =>
    have hrest := ih h.tail
    cases i with
    | raw b => exact hrest
    | esc e => exact hrest
    | unit w =>
      cases is with
      | nil => rfl
      | cons i is =>
        cases i with
        | raw b => exact hrest
        | esc e => exact hrest
        | unit w' => exact absurd rfl (hno w w' is rfl)

/-! ## Strings in a document -/

/-- A document is read up to its first NUL. -/
theorem cstr_append {pre : List UInt8} (hpre : 0 ∉ pre) (post : List UInt8) :
    cstr (pre ++ post) = pre ++ cstr post := by
  rw [cstr, cstr, List.takeWhile_append_of_pos]
  intro b hb
  have hne : b ≠ 0 := fun hz => hpre (hz ▸ hb)
  exact decide_eq_true hne

/-- Wherever a string stands in a document its bytes are decoded, and the text goes on behind the
closing quote. -/
theorem parsePlainString_decodes {pre : List UInt8} (hpre : 0 ∉ pre) {is : List Item}
    (hi : ∀ i ∈ is, i.Ok) (hp : Paired is) (post : List UInt8) :
    Cursor.parsePlainString (cstr (pre ++ quote :: (itemsText is ++ quote :: post))) pre.length =
      pure (some (decode is ++ [0], (decode is).length,
        pre.length + (quote :: (itemsText is ++ [quote])).length)) := by
  have hq : 0 ∉ [quote] := by decide
  have hquote (r : List UInt8) : cstr (quote :: r) = quote :: cstr r := cstr_append hq r
  have hdoc : cstr (pre ++ quote :: (itemsText is ++ quote :: post)) =
      pre ++ quote :: (itemsText is ++ quote :: cstr post) := by
    rw [cstr_append hpre, hquote, cstr_append (no_nul_items hi), hquote]
  have h0 := no_nul_cstr (pre ++ quote :: (itemsText is ++ quote :: post))
  rw [hdoc] at h0 ⊢
  have hat : Cursor.At (pre ++ quote :: (itemsText is ++ quote :: cstr post)) pre.length
      (quote :: (itemsText is ++ quote :: cstr post)) :=
    ⟨by rw [List.length_append]; exact Nat.le_add_right .., List.drop_left⟩
  -- what the function on lists returns
  have hlist : parsePlainString (quote :: (itemsText is ++ quote :: cstr post)) =
      some (decode is, cstr post) := by
    rw [parsePlainString_eq (hat.no_nul h0), readString_text hi (.inr (splits_eq_false hp))]
    rfl
  rcases (Cursor.parsePlainString_at h0 hat).cases with
    ⟨-, hnone⟩ | ⟨⟨_, _, pos⟩, ⟨bs, r⟩, hcur, hsome, rfl, rfl, hend, -⟩
  · cases hlist.symm.trans hnone
  obtain ⟨rfl, rfl⟩ := Prod.mk.inj (Option.some.inj (hlist.symm.trans hsome))
  replace hend : Cursor.At _ pos (cstr post) := hend
  have hsplit : quote :: (itemsText is ++ [quote]) ++ cstr post =
      quote :: (itemsText is ++ quote :: cstr post) := by simp
  rw [hcur, (hat.of_eq hsplit).eq_add hend]

/-- `["\n\uD83d\uDE00",` -/
theorem parsePlainString_decodes_pair :
    Cursor.parsePlainString
        (cstr ([0x5b] ++ quote :: (itemsText [.esc .newline, .unit ⟨0x44, 0x38, 0x33, 0x64⟩,
          .unit ⟨0x44, 0x45, 0x30, 0x30⟩] ++ quote :: [0x2c, 0]))) 1 =
      pure (some ([0x0a, 0xf0, 0x9f, 0x98, 0x80, 0], 5, 17)) := by
  have hitems : ∀ i ∈ [Item.esc .newline, .unit ⟨0x44, 0x38, 0x33, 0x64⟩,
      .unit ⟨0x44, 0x45, 0x30, 0x30⟩], i.Ok := by
    simp [Item.Ok, Hex4.Ok, hexValue]
  refine parsePlainString_decodes (by decide) hitems (fun pre w w' post heq hh => ?_) _
  rcases pre with _ | ⟨i, _ | ⟨j, _ | ⟨k, pre⟩⟩⟩
  · cases heq
  · cases heq
    decide
  · cases heq
  · have := congrArg List.length heq
    simp at this

end PoserCore.Json
