import Mathlib.Data.Nat.Bitwise
import Mathlib.Tactic.SplitIfs
import PoserCore.Json.Grammar
import PoserCore.Json.Parser

/-!
# Strings

`parsePlainString` reads the characters that `lexItems` splits a text into, unless a surrogate pair is
split (`parsePlainString_eq`), and the bytes it returns are those `decode` gives.  The bit operations
of the code are the arithmetic of UTF-8 and UTF-16.
-/

namespace PoserCore.Json

theorem forall_byte {p : UInt8 → Prop} (h : ∀ n : Fin 256, p (UInt8.ofNat n)) (b : UInt8) :
    p b := by
  have hb := h ⟨b.toNat, b.toNat_lt⟩
  rwa [UInt8.ofNat_toNat] at hb

/-! ## Splitting a text into characters -/

def Escape.all : List Escape :=
  [.quote, .backslash, .slash, .backspace, .formFeed, .newline, .carriageReturn, .tab]

def Escape.ofLetter (b : UInt8) : Option Escape := Escape.all.find? fun e => e.letter = b

theorem ofLetter_letter (e : Escape) : Escape.ofLetter e.letter = some e := by
  cases e <;> rfl

theorem letter_of_ofLetter {b : UInt8} {e : Escape} (h : Escape.ofLetter b = some e) :
    e.letter = b := by
  simpa using List.find?_some h

theorem letter_ne_lowerU (e : Escape) : e.letter ≠ lowerU := by
  cases e <;> decide

/-- The first character, if it is not the closing quote, and what follows it. -/
def lexItem : List UInt8 → Option (Item × List UInt8)
  | [] => none
  | b :: s =>
      if b = backslash then
        match s with
        | [] => none
        | e :: s =>
            if e = lowerU then
              match s with
              | a :: b :: c :: d :: s =>
                  if (hexValue a).isSome ∧ (hexValue b).isSome ∧ (hexValue c).isSome ∧
                      (hexValue d).isSome then some (.unit ⟨a, b, c, d⟩, s)
                  else none
              | _ => none
            else (Escape.ofLetter e).map fun e => (.esc e, s)
      else some (.raw b, s)

/-- The characters up to the closing quote, and what follows it. -/
def lexItems : ℕ → List UInt8 → Option (List Item × List UInt8)
  | 0, _ => none
  | n + 1, s =>
      if s.head? = some quote then some ([], s.tail)
      else (lexItem s).bind fun i => (lexItems n i.2).map fun r => (i.1 :: r.1, r.2)

theorem lexItem_text {i : Item} (hi : i.Ok) (s : List UInt8) :
    lexItem (i.text ++ s) = some (i, s) := by
  cases i with
  | raw b => simp [Item.text, lexItem, hi.2.2]
  | esc e => simp [Item.text, lexItem, letter_ne_lowerU, ofLetter_letter]
  | unit w =>
    have hw : w.Ok := hi
    simp only [Item.text, Hex4.text, List.cons_append, List.nil_append, lexItem, if_true]
    exact if_pos hw

theorem text_of_lexItem {s : List UInt8} (h0 : 0 ∉ s) (hq : s.head? ≠ some quote) {i : Item}
    {s' : List UInt8} (h : lexItem s = some (i, s')) : i.Ok ∧ s = i.text ++ s' := by
  unfold lexItem at h
  split at h
  · cases h
  next b s =>
  split_ifs at h with hb
  · subst hb
    split at h
    · cases h
    next e s =>
    split_ifs at h with he
    · subst he
      split at h
      · split_ifs at h with hx
        cases h
        exact ⟨hx, rfl⟩
      · cases h
    · obtain ⟨e', he', heq⟩ := Option.map_eq_some_iff.1 h
      cases heq
      exact ⟨trivial, by simp [Item.text, letter_of_ofLetter he']⟩
  · cases h
    exact ⟨⟨fun h => h0 (by simp [h]), fun h => hq (by simp [h]), hb⟩, rfl⟩

theorem head_text_ne_quote {i : Item} (hi : i.Ok) (s : List UInt8) :
    (i.text ++ s).head? ≠ some quote := by
  have hq : backslash ≠ quote := by decide
  cases i with
  | raw b => simpa [Item.text] using hi.2.1
  | esc e => simpa [Item.text] using hq
  | unit w => simpa [Item.text] using hq

theorem text_ne_nil (i : Item) : i.text ≠ [] := by
  cases i <;> simp [Item.text]

theorem itemsText_cons (i : Item) (is : List Item) : itemsText (i :: is) = i.text ++ itemsText is :=
  rfl

/-- A text is split in one way only. -/
theorem lexItems_text {is : List Item} (hi : ∀ i ∈ is, i.Ok) (r : List UInt8) :
    ∀ {n : ℕ}, (itemsText is).length < n → lexItems n (itemsText is ++ quote :: r) = some (is, r) := by
  induction is with
  | nil =>
    intro n hn
    obtain ⟨n, rfl⟩ := Nat.exists_eq_succ_of_ne_zero (Nat.ne_of_gt hn)
    rfl
  | cons i is ih =>
    intro n hn
    obtain ⟨n, rfl⟩ := Nat.exists_eq_succ_of_ne_zero (Nat.ne_of_gt (Nat.zero_lt_of_lt hn))
    have hlen := List.length_pos_iff.2 (text_ne_nil i)
    rw [itemsText_cons, List.length_append] at hn
    have hok := hi i List.mem_cons_self
    rw [itemsText_cons, List.append_assoc, lexItems, if_neg (head_text_ne_quote hok _),
      lexItem_text hok, Option.bind_some, ih (fun j hj => hi j (List.mem_cons_of_mem _ hj)) (by omega)]
    rfl

/-- What is split off is the text of its characters. -/
theorem text_of_lexItems : ∀ {n : ℕ} {s : List UInt8}, 0 ∉ s → ∀ {is : List Item} {r : List UInt8},
    lexItems n s = some (is, r) → (∀ i ∈ is, i.Ok) ∧ s = itemsText is ++ quote :: r
  | 0, _, _, _, _, h => by cases h
  | n + 1, s, h0, is, r, h => by
      rw [lexItems] at h
      split_ifs at h with hq
      · cases h
        exact ⟨by simp, (List.cons_head?_tail hq).symm⟩
      · obtain ⟨⟨i, s'⟩, hi, h⟩ := Option.bind_eq_some_iff.1 h
        obtain ⟨⟨is', r'⟩, his, heq⟩ := Option.map_eq_some_iff.1 h
        cases heq
        obtain ⟨hok, rfl⟩ := text_of_lexItem h0 hq hi
        obtain ⟨hoks, rfl⟩ := text_of_lexItems (fun hm => h0 (by simp [hm])) his
        refine ⟨fun j hj => ?_, by rw [itemsText_cons, List.append_assoc]⟩
        rcases List.mem_cons.1 hj with rfl | hj
        · exact hok
        · exact hoks j hj

/-! ## The bit operations -/

theorem nibble_eq : ∀ b, nibble b = hexValue b := forall_byte (by decide +kernel)

theorem escape_letter (e : Escape) : escape e.letter = some e.byte := by
  cases e <;> rfl

theorem escape_eq (b : UInt8) : escape b = (Escape.ofLetter b).map Escape.byte := by
  cases h : Escape.ofLetter b with
  | some e =>
    rw [← letter_of_ofLetter h, escape_letter]
    rfl
  | none =>
    have hne : ∀ e : Escape, b ≠ e.letter := by
      rintro e rfl
      rw [ofLetter_letter] at h
      cases h
    have hplain : ¬ (b = quote ∨ b = backslash ∨ b = slash) := by
      rintro (hb | hb | hb)
      · exact hne .quote hb
      · exact hne .backslash hb
      · exact hne .slash hb
    calc escape b
        = if b = Escape.backspace.letter then _ else _ := if_neg hplain
      _ = if b = Escape.formFeed.letter then _ else _ := if_neg (hne .backspace)
      _ = if b = Escape.newline.letter then _ else _ := if_neg (hne .formFeed)
      _ = if b = Escape.carriageReturn.letter then _ else _ := if_neg (hne .newline)
      _ = if b = Escape.tab.letter then _ else none := if_neg (hne .carriageReturn)
      _ = none := if_neg (hne .tab)

theorem hexValue_lt : ∀ b d, hexValue b = some d → d < 16 := by
  intro b d h
  unfold hexValue at h
  split_ifs at h <;> cases h <;> omega

theorem shift_or {m d : ℕ} (hm : m < 4096) (hd : d < 16) : (m <<< 4) % 2 ^ 16 ||| d = m * 16 + d := by
  have hlt : m <<< 4 < 2 ^ 16 := by
    rw [Nat.shiftLeft_eq]
    omega
  rw [Nat.mod_eq_of_lt hlt, ← Nat.shiftLeft_add_eq_or_of_lt hd, Nat.shiftLeft_eq]

theorem surrogate_mask (n : ℕ) : n &&& 0xfc00 = n / 1024 % 64 * 1024 := by
  have hmask : n &&& 0xfc00 = (n >>> 10 &&& 0x3f) <<< 10 := by
    refine Nat.eq_of_testBit_eq fun i => ?_
    have hshift : 0xfc00 = 0x3f <<< 10 := by decide
    rw [hshift]
    simp only [Nat.testBit_and, Nat.testBit_shiftLeft, Nat.testBit_shiftRight]
    by_cases hi : 10 ≤ i
    · simp [hi, Nat.add_sub_cancel' hi]
    · simp [hi]
  have hmod : n >>> 10 &&& 0x3f = n >>> 10 % 64 := Nat.and_two_pow_sub_one_eq_mod _ 6
  rw [hmask, hmod, Nat.shiftLeft_eq, Nat.shiftRight_eq_div_pow]

theorem isHighSurrogate_iff {n : ℕ} (hn : n < 0x10000) :
    isHighSurrogate n = true ↔ 0xd800 ≤ n ∧ n < 0xdc00 := by
  rw [isHighSurrogate, decide_eq_true_eq, surrogate_mask]
  omega

theorem isLowSurrogate_iff {n : ℕ} (hn : n < 0x10000) :
    isLowSurrogate n = true ↔ 0xdc00 ≤ n ∧ n < 0xe000 := by
  rw [isLowSurrogate, decide_eq_true_eq, surrogate_mask]
  omega

/-- Disjoint bits are added. -/
theorem or_eq_add (i a : ℕ) {b : ℕ} (hb : b < 2 ^ i) : 2 ^ i * a ||| b = 2 ^ i * a + b :=
  (Nat.two_pow_add_eq_or_of_lt hb a).symm

/-- The parts of a byte that starts a sequence or follows in it. -/
theorem or_or_eq_add {i a b : ℕ} (c : ℕ) (hb : b < 2 ^ i) (hab : 2 ^ i * a + b < 2 ^ 6) :
    2 ^ 6 * c ||| 2 ^ i * a ||| b = 2 ^ 6 * c + (2 ^ i * a + b) := by
  rw [Nat.or_assoc, or_eq_add i a hb, or_eq_add 6 c hab]

theorem or_low {x y : ℕ} (hx : x < 8) (hy : y < 4) :
    0xc0 ||| x <<< 2 ||| y = 0xc0 + (4 * x + y) := by
  rw [Nat.shiftLeft_eq, Nat.mul_comm x]
  exact or_or_eq_add 3 hy (by omega)

theorem or_e0 {x : ℕ} (hx : x < 16) : 0xe0 ||| x = 0xe0 + x := or_eq_add 4 14 hx

theorem or_f0 {x : ℕ} (hx : x < 8) : 0xf0 ||| x = 0xf0 + x := or_eq_add 3 30 hx

theorem and_3f (x : ℕ) : x &&& 0x3f = x % 64 := Nat.and_two_pow_sub_one_eq_mod x 6

theorem or_80 (x : ℕ) : 0x80 ||| (x &&& 0x3f) = 0x80 + x % 64 := by
  rw [and_3f]
  exact or_eq_add 6 2 (Nat.mod_lt _ (by decide))

theorem or_80_two (x : ℕ) {y : ℕ} (hy : y < 4) :
    0x80 ||| (x <<< 2 &&& 0x3f) ||| y = 0x80 + (4 * x + y) % 64 := by
  have hmask : x <<< 2 &&& 0x3f = 2 ^ 2 * (x % 16) := by
    rw [and_3f, Nat.shiftLeft_eq]
    omega
  have hmod : (4 * x + y) % 64 = 2 ^ 2 * (x % 16) + y := by omega
  rw [hmask, hmod]
  exact or_or_eq_add 2 hy (by omega)

theorem or_80_four (x : ℕ) {y : ℕ} (hy : y < 16) :
    0x80 ||| (x <<< 4 &&& 0x3f) ||| y = 0x80 + (16 * x + y) % 64 := by
  have hmask : x <<< 4 &&& 0x3f = 2 ^ 4 * (x % 4) := by
    rw [and_3f, Nat.shiftLeft_eq]
    omega
  have hmod : (16 * x + y) % 64 = 2 ^ 4 * (x % 4) + y := by omega
  rw [hmask, hmod]
  exact or_or_eq_add 2 hy (by omega)

/-- The code writes UTF-8. -/
theorem appendUnichr_eq {n : ℕ} (hn : n < 0x110000) : appendUnichr n = utf8 n := by
  have h0 : n &&& 0xff = n % 256 := Nat.and_two_pow_sub_one_eq_mod n 8
  have h1 : n >>> 8 &&& 0xff = n / 256 % 256 := by
    rw [Nat.shiftRight_eq_div_pow]
    exact Nat.and_two_pow_sub_one_eq_mod _ 8
  have h2 : n >>> 16 &&& 0xff = n / 65536 % 256 := by
    rw [Nat.shiftRight_eq_div_pow]
    exact Nat.and_two_pow_sub_one_eq_mod _ 8
  have hdiv (m k : ℕ) : m >>> k = m / 2 ^ k := Nat.shiftRight_eq_div_pow m k
  have hlast : 0x80 ||| (n % 256 &&& 0x3f) = 0x80 + n % 64 := by
    rw [or_80]
    omega
  have hmid : 0x80 ||| (n / 256 % 256) <<< 2 &&& 0x3f ||| (n % 256) / 2 ^ 6 = 0x80 + n / 64 % 64 := by
    rw [or_80_two _ (by omega)]
    omega
  unfold appendUnichr utf8
  simp only [h0, h1, h2]
  simp only [hdiv, hlast, hmid]
  split_ifs with ha hb hc
  · rfl
  · rw [or_low (by omega) (by omega)]
    have : 4 * (n / 256 % 256) + n % 256 / 2 ^ 6 = n / 64 := by omega
    rw [this]
  · rw [or_e0 (by omega)]
    have : n / 256 % 256 / 2 ^ 4 = n / 4096 := by omega
    rw [this]
  · rw [or_f0 (by omega), or_80_four _ (by omega)]
    have hf : n / 65536 % 256 / 2 ^ 2 = n / 262144 := by omega
    have hm : (16 * (n / 65536 % 256) + n / 256 % 256 / 2 ^ 4) % 64 = n / 4096 % 64 := by omega
    rw [hf, hm]

/-- The code joins a surrogate pair. -/
theorem pair_bits {x y : ℕ} (hx : 0xd800 ≤ x ∧ x < 0xdc00) (hy : 0xdc00 ≤ y ∧ y < 0xe000) :
    ((x &&& 0x3ff) <<< 10 ||| (y &&& 0x3ff)) + 0x10000 =
      0x10000 + (x - 0xd800) * 0x400 + (y - 0xdc00) := by
  have hx' : x &&& 0x3ff = x % 1024 := Nat.and_two_pow_sub_one_eq_mod x 10
  have hy' : y &&& 0x3ff = y % 1024 := Nat.and_two_pow_sub_one_eq_mod y 10
  have hlt : y % 1024 < 2 ^ 10 := by omega
  rw [hx', hy', ← Nat.shiftLeft_add_eq_or_of_lt hlt, Nat.shiftLeft_eq]
  omega

theorem value_lt (w : Hex4) : w.value < 0x10000 := by
  have h (b : UInt8) : (hexValue b).getD 0 < 16 := by
    cases hb : hexValue b with
    | none => decide
    | some d => exact hexValue_lt b d hb
  have ha := h w.a
  have hb := h w.b
  have hc := h w.c
  have hd := h w.d
  unfold Hex4.value
  omega

/-! ## Escape sequences with hexadecimal digits -/

theorem parseHex_cons {n m d : ℕ} {b : UInt8} (hb : hexValue b = some d) (hm : m < 4096)
    (s : List UInt8) : parseHex (n + 1) m (b :: s) = parseHex n (m * 16 + d) s := by
  rw [parseHex, nibble_eq, hb]
  simp only [shift_or hm (hexValue_lt b d hb)]

theorem parseHex_text {w : Hex4} (hw : w.Ok) (s : List UInt8) :
    parseHex 4 0 (w.text ++ s) = some (w.value, s) := by
  obtain ⟨ha, hb, hc, hd⟩ := hw
  obtain ⟨a, ha⟩ := Option.isSome_iff_exists.1 ha
  obtain ⟨b, hb⟩ := Option.isSome_iff_exists.1 hb
  obtain ⟨c, hc⟩ := Option.isSome_iff_exists.1 hc
  obtain ⟨d, hd⟩ := Option.isSome_iff_exists.1 hd
  have la := hexValue_lt _ _ ha
  have lb := hexValue_lt _ _ hb
  have lc := hexValue_lt _ _ hc
  rw [Hex4.text, List.cons_append, parseHex_cons ha (by omega), List.cons_append,
    parseHex_cons hb (by omega), List.cons_append, parseHex_cons hc (by omega), List.cons_append,
    parseHex_cons hd (by omega)]
  simp [parseHex, Hex4.value, ha, hb, hc, hd]

theorem hexValue_of_parseHex {n m x : ℕ} {s s' : List UInt8}
    (h : parseHex (n + 1) m s = some (x, s')) :
    ∃ b t m', s = b :: t ∧ (hexValue b).isSome ∧ parseHex n m' t = some (x, s') := by
  cases s with
  | nil => cases h
  | cons b t =>
    rw [parseHex, nibble_eq] at h
    cases hb : hexValue b with
    | none => simp [hb] at h
    | some d =>
      rw [hb] at h
      exact ⟨b, t, _, rfl, by rw [hb]; rfl, h⟩

theorem text_of_parseHex {s s' : List UInt8} {x : ℕ} (h : parseHex 4 0 s = some (x, s')) :
    ∃ w : Hex4, w.Ok ∧ s = w.text ++ s' ∧ x = w.value := by
  obtain ⟨a, t, m, rfl, ha, h1⟩ := hexValue_of_parseHex h
  obtain ⟨b, t, m, rfl, hb, h1⟩ := hexValue_of_parseHex h1
  obtain ⟨c, t, m, rfl, hc, h1⟩ := hexValue_of_parseHex h1
  obtain ⟨d, t, m, rfl, hd, h1⟩ := hexValue_of_parseHex h1
  obtain ⟨-, rfl⟩ := Prod.mk.inj (Option.some.inj h1)
  have hw : (⟨a, b, c, d⟩ : Hex4).Ok := ⟨ha, hb, hc, hd⟩
  refine ⟨⟨a, b, c, d⟩, hw, rfl, ?_⟩
  have := (parseHex_text hw t).symm.trans h
  exact (Prod.mk.inj (Option.some.inj this)).1.symm

/-- The next character is written with hexadecimal digits. -/
def UnitNext : List Item → Prop
  | .unit _ :: _ => True
  | _ => False

/-- The text goes on with such a character. -/
def UnitText (s : List UInt8) : Prop := s.head? = some backslash ∧ s.tail.head? = some lowerU

theorem unitText_iff {is : List Item} (hi : ∀ i ∈ is, i.Ok) (r : List UInt8) :
    UnitText (itemsText is ++ quote :: r) ↔ UnitNext is := by
  have hq : quote ≠ backslash := by decide
  cases is with
  | nil => simp [UnitText, UnitNext, itemsText, hq]
  | cons i is =>
    have hok := hi i List.mem_cons_self
    cases i with
    | raw b => simp [UnitText, UnitNext, itemsText, Item.text, hok.2.2]
    | esc e => simp [UnitText, UnitNext, itemsText, Item.text, letter_ne_lowerU]
    | unit w => simp [UnitText, UnitNext, itemsText, Item.text]

theorem decode_pair {w w' : Hex4} (hw : w.High) (hw' : w'.Low) (is : List Item) :
    decode (.unit w :: .unit w' :: is) = utf8 (pairValue w w') ++ decode is := by
  rw [decode, if_pos ⟨hw, hw'⟩]

theorem splits_pair {w w' : Hex4} (hw : w.High) (hw' : w'.Low) (is : List Item) :
    splits (.unit w :: .unit w' :: is) = splits is := by
  rw [splits, if_pos hw, if_pos hw']

theorem decode_single {w : Hex4} {is : List Item} (h : ¬ (UnitNext is ∧ w.High)) :
    decode (.unit w :: is) = utf8 w.value ++ decode is := by
  cases is with
  | nil => rfl
  | cons i is =>
    cases i with
    | raw b => rfl
    | esc e => rfl
    | unit w' => rw [decode, if_neg fun hw => h ⟨trivial, hw.1⟩]

theorem splits_single {w : Hex4} {is : List Item} (h : ¬ (UnitNext is ∧ w.High)) :
    splits (.unit w :: is) = splits is := by
  cases is with
  | nil => rfl
  | cons i is =>
    cases i with
    | raw b => rfl
    | esc e => rfl
    | unit w' => rw [splits, if_neg fun hw => h ⟨trivial, hw⟩]

theorem parseUnichr_single {w : Hex4} (hw : w.Ok) {s : List UInt8}
    (h : ¬ (UnitText s ∧ w.High)) : parseUnichr (w.text ++ s) = some (w.value, s) := by
  unfold parseUnichr
  simp only [parseHex_text hw]
  rw [if_neg]
  rintro ⟨hb, hu, hh⟩
  exact h ⟨⟨hb, hu⟩, (isHighSurrogate_iff (value_lt w)).1 hh⟩

theorem parseUnichr_pair {w w' : Hex4} (hw : w.Ok) (hw' : w'.Ok) (hh : w.High) (hl : w'.Low)
    (s : List UInt8) : parseUnichr (w.text ++ ((Item.unit w').text ++ s)) =
      some (pairValue w w', s) := by
  have hdrop : ((Item.unit w').text ++ s).drop 2 = w'.text ++ s := rfl
  unfold parseUnichr
  simp only [parseHex_text hw]
  rw [if_pos ⟨rfl, rfl, (isHighSurrogate_iff (value_lt w)).2 hh⟩, hdrop, parseHex_text hw']
  simp only
  rw [if_pos ((isLowSurrogate_iff (value_lt w')).2 hl), pair_bits hh hl]
  rfl

theorem text_of_parseUnichr {s s' : List UInt8} {x : ℕ} (h : parseUnichr s = some (x, s')) :
    (∃ w : Hex4, w.Ok ∧ s = w.text ++ s' ∧ x = w.value ∧ ¬ (UnitText s' ∧ w.High)) ∨
      ∃ w w' : Hex4, w.Ok ∧ w'.Ok ∧ w.High ∧ w'.Low ∧
        s = w.text ++ ((Item.unit w').text ++ s') ∧ x = pairValue w w' := by
  unfold parseUnichr at h
  split at h
  · cases h
  next y t hy =>
  obtain ⟨w, hw, rfl, rfl⟩ := text_of_parseHex hy
  split_ifs at h with hu
  · obtain ⟨hb, hu, hh⟩ := hu
    split at h
    · cases h
    next z t' hz =>
    obtain ⟨w', hw', ht', rfl⟩ := text_of_parseHex hz
    split_ifs at h with hl
    have hhigh : w.High := (isHighSurrogate_iff (value_lt w)).1 hh
    have hlow : w'.Low := (isLowSurrogate_iff (value_lt w')).1 hl
    have ht : t = backslash :: lowerU :: t.drop 2 := by
      obtain _ | ⟨b, _ | ⟨c, t⟩⟩ := t <;> simp_all
    rw [pair_bits hhigh hlow] at h
    obtain ⟨rfl, rfl⟩ := Prod.mk.inj (Option.some.inj h)
    refine .inr ⟨w, w', hw, hw', hhigh, hlow, ?_, rfl⟩
    rw [ht, ht']
    rfl
  · obtain ⟨rfl, rfl⟩ := Prod.mk.inj (Option.some.inj h)
    refine .inl ⟨w, hw, rfl, rfl, fun hs => hu ⟨hs.1.1, hs.1.2, ?_⟩⟩
    exact (isHighSurrogate_iff (value_lt w)).2 hs.2

/-! ## `parsePlainString` -/

theorem parseChars_raw {n : ℕ} {b : UInt8} (hq : b ≠ quote) (hb : b ≠ backslash)
    (acc s : List UInt8) : parseChars (n + 1) acc (b :: s) = parseChars n (acc ++ [b]) s := by
  simp [parseChars, hq, hb]

theorem parseChars_esc {n : ℕ} (e : Escape) (acc s : List UInt8) :
    parseChars (n + 1) acc ((Item.esc e).text ++ s) = parseChars n (acc ++ [e.byte]) s := by
  have hq : backslash ≠ quote := by decide
  simp [Item.text, parseChars, hq, escape_eq, ofLetter_letter]

theorem parseChars_unit {n x : ℕ} {s s' : List UInt8} (h : parseUnichr s = some (x, s'))
    (acc : List UInt8) : parseChars (n + 1) acc (backslash :: lowerU :: s) =
      parseChars n (acc ++ appendUnichr x) s' := by
  have hq : backslash ≠ quote := by decide
  have hu : escape lowerU = none := by decide
  simp [parseChars, hq, hu, h]

theorem pairValue_lt {w w' : Hex4} (hh : w.High) (hl : w'.Low) : pairValue w w' < 0x110000 := by
  unfold Hex4.High at hh
  unfold Hex4.Low at hl
  unfold pairValue
  omega

/-- Every text of characters is read, unless it splits a pair. -/
theorem parseChars_text : ∀ (n : ℕ) {is : List Item}, (∀ i ∈ is, i.Ok) → splits is = false →
    ∀ acc r, (itemsText is).length < n →
    parseChars n acc (itemsText is ++ quote :: r) = some (acc ++ decode is, r)
  | 0, _, _, _, _, _, hn => absurd hn (Nat.not_lt_zero _)
  | n + 1, [], _, _, acc, r, _ => by simp [itemsText, parseChars, decode]
  | n + 1, i :: is, hi, hs, acc, r, hn => by
      have hok := hi i List.mem_cons_self
      have hoks : ∀ j ∈ is, j.Ok := fun j hj => hi j (List.mem_cons_of_mem _ hj)
      have hlen := List.length_pos_iff.2 (text_ne_nil i)
      rw [itemsText_cons, List.length_append] at hn
      rw [itemsText_cons, List.append_assoc]
      cases i with
      | raw b =>
        rw [Item.text, List.singleton_append, parseChars_raw hok.2.1 hok.2.2,
          parseChars_text n hoks hs _ _ (by omega)]
        simp [decode]
      | esc e =>
        rw [parseChars_esc, parseChars_text n hoks hs _ _ (by omega)]
        simp [decode]
      | unit w =>
        by_cases hu : UnitNext is ∧ w.High
        · obtain ⟨hnext, hh⟩ := hu
          cases is with
          | nil => exact hnext.elim
          | cons j is =>
            cases j with
            | raw b => exact hnext.elim
            | esc e => exact hnext.elim
            | unit w' =>
              have hw' : w'.Ok := hoks _ List.mem_cons_self
              have hl : w'.Low := by
                by_contra hl
                rw [splits, if_pos hh, if_neg hl] at hs
                cases hs
              rw [splits_pair hh hl] at hs
              have hp := parseUnichr_pair hok hw' hh hl (itemsText is ++ quote :: r)
              rw [itemsText_cons, List.length_append] at hn
              rw [itemsText_cons, List.append_assoc, Item.text, List.cons_append, List.cons_append,
                parseChars_unit hp, appendUnichr_eq (pairValue_lt hh hl),
                parseChars_text n (fun j hj => hoks j (List.mem_cons_of_mem _ hj)) hs _ _ (by omega),
                decode_pair hh hl, List.append_assoc]
        · have hu' : ¬ (UnitText (itemsText is ++ quote :: r) ∧ w.High) := by
            rwa [unitText_iff hoks]
          rw [splits_single hu] at hs
          have hw := value_lt w
          rw [Item.text, List.cons_append, List.cons_append,
            parseChars_unit (parseUnichr_single hok hu'), appendUnichr_eq (by omega),
            parseChars_text n hoks hs _ _ (by omega), decode_single hu, List.append_assoc]

/-- What is read is a text of characters. -/
theorem text_of_parseChars : ∀ {n : ℕ} {acc s bs r : List UInt8}, 0 ∉ s →
    parseChars n acc s = some (bs, r) → ∃ is : List Item, (∀ i ∈ is, i.Ok) ∧ splits is = false ∧
      s = itemsText is ++ quote :: r ∧ bs = acc ++ decode is
  | 0, _, _, _, _, _, h => by cases h
  | n + 1, acc, [], bs, r, _, h => by cases h
  | n + 1, acc, b :: s, bs, r, h0, h => by
      have h0s : 0 ∉ s := fun hm => h0 (List.mem_cons_of_mem _ hm)
      rw [parseChars.eq_def] at h
      dsimp only at h
      split_ifs at h with hq hb
      · cases h
        exact ⟨[], by simp, rfl, by rw [hq]; rfl, by simp [decode]⟩
      · subst hb
        split at h
        · cases h
        next e s =>
        split at h
        next c hc =>
          rw [escape_eq] at hc
          obtain ⟨e', he', rfl⟩ := Option.map_eq_some_iff.1 hc
          obtain ⟨is, hi, hs, rfl, rfl⟩ := text_of_parseChars (fun hm => h0s (by simp [hm])) h
          refine ⟨.esc e' :: is, ?_, hs, ?_, by simp [decode]⟩
          · simpa [Item.Ok] using hi
          · rw [itemsText_cons, Item.text, letter_of_ofLetter he']
            rfl
        next hc =>
          split_ifs at h with hu
          subst hu
          split at h
          · cases h
          next x s' hx =>
          rcases text_of_parseUnichr hx with ⟨w, hw, rfl, rfl, hn⟩ | ⟨w, w', hw, hw', hh, hl, rfl, hp⟩
          · obtain ⟨is, hi, hs, rfl, rfl⟩ := text_of_parseChars (fun hm => h0s (by simp [hm])) h
            rw [unitText_iff hi] at hn
            have hlt := value_lt w
            refine ⟨.unit w :: is, ?_, by rw [splits_single hn, hs], ?_, ?_⟩
            · simpa [Item.Ok] using ⟨hw, hi⟩
            · rw [itemsText_cons, Item.text]
              simp
            · rw [decode_single hn, appendUnichr_eq (by omega), List.append_assoc]
          · obtain ⟨is, hi, hs, rfl, rfl⟩ := text_of_parseChars (fun hm =>
              h0s (by simp only [List.mem_cons, List.mem_append, hm, or_true])) h
            rw [hp, appendUnichr_eq (pairValue_lt hh hl)]
            refine ⟨.unit w :: .unit w' :: is, ?_, by rw [splits_pair hh hl, hs], ?_, ?_⟩
            · simpa [Item.Ok] using ⟨hw, hw', hi⟩
            · simp [itemsText_cons, Item.text]
            · rw [decode_pair hh hl, List.append_assoc]
      · obtain ⟨is, hi, hs, rfl, rfl⟩ := text_of_parseChars h0s h
        refine ⟨.raw b :: is, ?_, hs, rfl, by simp [decode]⟩
        have hz : b ≠ 0 := fun hz => h0 (by simp [hz])
        simpa [Item.Ok] using ⟨⟨hz, hq, hb⟩, hi⟩

/-- The characters of a string and what follows it; `pairs` says that split pairs are taken too. -/
def readString (pairs : Bool) (s : List UInt8) : Option (List Item × List UInt8) :=
  (lexItems s.length s.tail).filter fun x => pairs || !splits x.1

theorem length_itemsText_lt (b : UInt8) (is : List Item) (r : List UInt8) :
    (itemsText is).length < (b :: (itemsText is ++ quote :: r)).length := by
  simp only [List.length_append, List.length_cons]
  omega

theorem readString_text {pairs : Bool} {is : List Item} (hi : ∀ i ∈ is, i.Ok)
    (hp : pairs = true ∨ splits is = false) (b : UInt8) (r : List UInt8) :
    readString pairs (b :: (itemsText is ++ quote :: r)) = some (is, r) := by
  rw [readString, List.tail_cons, lexItems_text hi r (length_itemsText_lt ..)]
  rcases hp with rfl | hp
  · rfl
  · simp [Option.filter, hp]

theorem text_of_readString {pairs : Bool} {s : List UInt8} (h0 : 0 ∉ s) {is : List Item}
    {r : List UInt8} (h : readString pairs s = some (is, r)) :
    (∀ i ∈ is, i.Ok) ∧ (pairs = true ∨ splits is = false) ∧
      ∃ b, s = b :: (itemsText is ++ quote :: r) := by
  obtain ⟨hlex, hp⟩ := Option.filter_eq_some_iff.1 h
  cases s with
  | nil => cases hlex
  | cons b s =>
    obtain ⟨hi, hs⟩ := text_of_lexItems (fun hm => h0 (List.mem_cons_of_mem _ hm)) hlex
    exact ⟨hi, by simpa using hp, b, congrArg (b :: ·) hs⟩

/-- What the code reads as a string. -/
theorem parsePlainString_eq {s : List UInt8} (h0 : 0 ∉ s) :
    parsePlainString s = (readString false s).map fun x => (decode x.1, x.2) := by
  have hread {is : List Item} {r : List UInt8} (h : readString false s = some (is, r)) :
      parsePlainString s = some (decode is, r) := by
    obtain ⟨hi, hp, b, rfl⟩ := text_of_readString h0 h
    have hp : splits is = false := by simpa using hp
    rw [parsePlainString, List.tail_cons,
      parseChars_text _ hi hp _ _ (length_itemsText_lt ..)]
    rfl
  cases hr : readString false s with
  | some x => exact hread hr
  | none =>
    cases hs : parsePlainString s with
    | none => rfl
    | some y =>
      cases s with
      | nil => cases hs
      | cons b s =>
        obtain ⟨is, hi, hp, rfl, -⟩ :=
          text_of_parseChars (fun hm => h0 (List.mem_cons_of_mem _ hm)) hs
        rw [readString_text hi (.inr hp)] at hr
        cases hr

end PoserCore.Json
