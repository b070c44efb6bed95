import Mathlib.Data.List.TakeWhile
import Mathlib.Data.Nat.Digits.Lemmas

/-!
# Integers in C strings

`strtol` over lists of bytes, for a `long` of 64 bits and the C locale, and what `"%u"` and `"%x"`
print.  A subject sequence is a `Numeral`: white space, a sign and the prefix `0x` may come before its
digits.  `scan` finds the longest one, and `scan_text` and `text_scan` say that it is the only one.
-/

namespace Lib.Strtol

def plus : UInt8 := 0x2b
def minus : UInt8 := 0x2d
def zero : UInt8 := 0x30
def lowerX : UInt8 := 0x78
def upperX : UInt8 := 0x58

/-- `isspace` -/
def isspace (b : UInt8) : Bool := b.toNat = 32 || (9 ≤ b.toNat && b.toNat ≤ 13)

/-- The value of a digit or letter, 36 for any other byte. -/
def digitValue (b : UInt8) : ℕ :=
  if 48 ≤ b.toNat ∧ b.toNat ≤ 57 then b.toNat - 48
  else if 97 ≤ b.toNat ∧ b.toNat ≤ 122 then b.toNat - 87
  else if 65 ≤ b.toNat ∧ b.toNat ≤ 90 then b.toNat - 55
  else 36

def isDigit (base : ℕ) (b : UInt8) : Bool := digitValue b < base

/-- The value of a string of digits. -/
def valueOf (base : ℕ) (ds : List UInt8) : ℕ := ds.foldl (fun n d => digitValue d + base * n) 0

/-- A subject sequence of `strtol`. -/
structure Numeral where
  space : List UInt8
  sign : Option UInt8
  /-- The `x` or `X` of a prefix. -/
  hex : Option UInt8
  digits : List UInt8
  deriving DecidableEq

def Numeral.text (n : Numeral) : List UInt8 :=
  n.space ++ (n.sign.toList ++ (n.hex.toList.flatMap (fun x => [zero, x]) ++ n.digits))

def Numeral.value (base : ℕ) (n : Numeral) : ℤ :=
  if n.sign = some minus then -valueOf base n.digits else valueOf base n.digits

structure Numeral.Ok (base : ℕ) (n : Numeral) : Prop where
  space : ∀ b ∈ n.space, isspace b = true
  sign : ∀ c ∈ n.sign, c = plus ∨ c = minus
  hex : ∀ x ∈ n.hex, base = 16 ∧ (x = lowerX ∨ x = upperX)
  ne_nil : n.digits ≠ []
  digits : ∀ b ∈ n.digits, isDigit base b = true

/-- Nothing but digits. -/
def Numeral.plain (ds : List UInt8) : Numeral := ⟨[], none, none, ds⟩

/-! ## The function -/

def scanSign : List UInt8 → Option UInt8 × List UInt8
  | [] => (none, [])
  | c :: s => if c = plus ∨ c = minus then (some c, s) else (none, c :: s)

/-- A prefix counts only with a digit behind it. -/
def scanHex (base : ℕ) : List UInt8 → Option UInt8 × List UInt8
  | z :: x :: d :: s =>
      if base = 16 ∧ z = zero ∧ (x = lowerX ∨ x = upperX) ∧ isDigit 16 d then (some x, d :: s)
      else (none, z :: x :: d :: s)
  | s => (none, s)

/-- The subject sequence and what is behind it, or `none` if there is none. -/
def scan (base : ℕ) (s : List UInt8) : Option (Numeral × List UInt8) :=
  let sign := scanSign (s.dropWhile isspace)
  let hex := scanHex base sign.2
  if hex.2.takeWhile (isDigit base) = [] then none
  else some (⟨s.takeWhile isspace, sign.1, hex.1, hex.2.takeWhile (isDigit base)⟩,
    hex.2.dropWhile (isDigit base))

/-- What a `long` can hold, as near to the value as possible. -/
def clamp (v : ℤ) : ℤ := max (-2 ^ 63) (min (2 ^ 63 - 1) v)

structure Converted where
  value : ℤ
  /-- The string at `endptr`. -/
  rest : List UInt8
  erange : Bool

/-- `strtol`; `none` where no conversion is performed -/
def strtol (base : ℕ) (s : List UInt8) : Option Converted :=
  (scan base s).map fun (n, rest) =>
    { value := clamp (n.value base)
      rest := rest
      erange := decide (n.value base < -2 ^ 63 ∨ 2 ^ 63 - 1 < n.value base) }

/-! ## Bytes -/

theorem isDigit_ge {base : ℕ} (hb : base ≤ 36) {b : UInt8} (h : isDigit base b = true) :
    48 ≤ b.toNat := by
  unfold isDigit digitValue at h
  have := of_decide_eq_true h
  split_ifs at this <;> omega

theorem isspace_le {b : UInt8} (h : isspace b = true) : b.toNat ≤ 32 := by
  unfold isspace at h
  simp only [Bool.or_eq_true, Bool.and_eq_true, decide_eq_true_eq] at h
  omega

theorem not_isspace_of_isDigit {base : ℕ} (hb : base ≤ 36) {b : UInt8} (h : isDigit base b = true) :
    isspace b = false := by
  have hge := isDigit_ge hb h
  refine Bool.eq_false_iff.2 fun hs => ?_
  have := isspace_le hs
  omega

theorem not_sign_of_isDigit {base : ℕ} (hb : base ≤ 36) {b : UInt8} (h : isDigit base b = true) :
    ¬ (b = plus ∨ b = minus) := by
  have hge := isDigit_ge hb h
  rintro (rfl | rfl) <;> exact absurd hge (by decide)

theorem x_not_digit {x : UInt8} (h : x = lowerX ∨ x = upperX) : isDigit 16 x = false := by
  rcases h with rfl | rfl <;> rfl

/-! ## Reading a numeral -/

/-- What ends a numeral. -/
def Stops (base : ℕ) (r : List UInt8) : Prop :=
  ∀ b, r.head? = some b → isDigit base b = false ∧ b ≠ lowerX ∧ b ≠ upperX

theorem takeWhile_digits {base : ℕ} {ds r : List UInt8} (hd : ∀ b ∈ ds, isDigit base b = true)
    (hr : ∀ b, r.head? = some b → isDigit base b = false) :
    (ds ++ r).takeWhile (isDigit base) = ds ∧ (ds ++ r).dropWhile (isDigit base) = r := by
  rw [List.takeWhile_append_of_pos hd, List.dropWhile_append_of_pos hd]
  cases r with
  | nil => simp
  | cons b r =>
    have hb := hr b rfl
    rw [List.takeWhile_cons_of_neg (by simp [hb]), List.dropWhile_cons_of_neg (by simp [hb])]
    simp

theorem scanSign_eq (s : List UInt8) : (scanSign s).1.toList ++ (scanSign s).2 = s := by
  cases s with
  | nil => rfl
  | cons c s =>
    rw [scanSign]
    split_ifs <;> rfl

theorem scanSign_sign (s : List UInt8) : ∀ c ∈ (scanSign s).1, c = plus ∨ c = minus := by
  intro c hc
  cases s with
  | nil => cases hc
  | cons b s =>
    rw [scanSign] at hc
    split_ifs at hc with hb
    · obtain rfl := Option.some.inj hc
      exact hb
    · cases hc

theorem scanHex_spec (base : ℕ) (s : List UInt8) :
    (scanHex base s).1.toList.flatMap (fun x => [zero, x]) ++ (scanHex base s).2 = s ∧
      ∀ x ∈ (scanHex base s).1, base = 16 ∧ (x = lowerX ∨ x = upperX) := by
  unfold scanHex
  split
  next z x d s =>
    split_ifs with h
    · obtain ⟨h16, rfl, hx, -⟩ := h
      refine ⟨rfl, fun y hy => ?_⟩
      obtain rfl := Option.some.inj hy
      exact ⟨h16, hx⟩
    · exact ⟨rfl, fun y hy => by cases hy⟩
  next => exact ⟨rfl, fun y hy => by cases hy⟩

theorem scanHex_of_ne {base : ℕ} (h : base ≠ 16) (s : List UInt8) : scanHex base s = (none, s) := by
  unfold scanHex
  split
  next => exact if_neg fun h' => h h'.1
  next => rfl

/-- What `scan` finds is a numeral that stands there and does not go on. -/
theorem scan_text {base : ℕ} {s r : List UInt8} {n : Numeral} (h : scan base s = some (n, r)) :
    n.Ok base ∧ n.text ++ r = s ∧ ∀ b, r.head? = some b → isDigit base b = false := by
  simp only [scan] at h
  split_ifs at h with hne
  obtain ⟨rfl, rfl⟩ := Prod.mk.inj (Option.some.inj h)
  obtain ⟨hhex, hx⟩ := scanHex_spec base (scanSign (s.dropWhile isspace)).2
  refine ⟨⟨fun b hb => List.mem_takeWhile_imp hb, scanSign_sign _, hx, hne,
    fun b hb => List.mem_takeWhile_imp hb⟩, ?_, fun b hb => ?_⟩
  · simp only [Numeral.text, List.append_assoc]
    rw [List.takeWhile_append_dropWhile, hhex, scanSign_eq, List.takeWhile_append_dropWhile]
  · have := List.head?_dropWhile_not (isDigit base)
      (scanHex base (scanSign (s.dropWhile isspace)).2).2
    simpa [hb] using this

theorem scanSign_append {sign : Option UInt8} (h : ∀ c ∈ sign, c = plus ∨ c = minus) {s : List UInt8}
    (hs : ∀ c, s.head? = some c → ¬ (c = plus ∨ c = minus)) :
    scanSign (sign.toList ++ s) = (sign, s) := by
  cases sign with
  | some c => simp [scanSign, h c rfl]
  | none =>
    cases s with
    | nil => rfl
    | cons c s =>
      show scanSign (c :: s) = _
      rw [scanSign, if_neg (hs c rfl)]

theorem scanHex_append {base : ℕ} {n : Numeral} (h : n.Ok base) {r : List UInt8} (hr : Stops base r) :
    scanHex base (n.hex.toList.flatMap (fun x => [zero, x]) ++ (n.digits ++ r)) =
      (n.hex, n.digits ++ r) := by
  obtain ⟨d, ds, hds⟩ := List.exists_cons_of_ne_nil h.ne_nil
  have hd : ∀ b ∈ d :: ds, isDigit base b = true := hds ▸ h.digits
  rw [hds]
  cases hx : n.hex with
  | some x =>
    obtain ⟨rfl, hx'⟩ := h.hex x hx
    have hdig : isDigit 16 d = true := hd d List.mem_cons_self
    simp [scanHex, hx', hdig]
  | none =>
    -- the byte behind the first digit is a digit or ends the numeral
    have hsecond : ∀ y t, ds ++ r = y :: t → base = 16 → ¬ (y = lowerX ∨ y = upperX) := by
      intro y t hy hbase hyx
      cases ds with
      | nil =>
        obtain ⟨-, h₁, h₂⟩ := hr y (by rw [show r = y :: t from hy]; rfl)
        exact hyx.elim h₁ h₂
      | cons d' ds =>
        obtain rfl : d' = y := (List.cons.inj hy).1
        have hdig := hd d' (by simp)
        rw [hbase, x_not_digit hyx] at hdig
        cases hdig
    show scanHex base (d :: (ds ++ r)) = (none, d :: (ds ++ r))
    unfold scanHex
    split
    next z y e t hcons =>
      obtain ⟨rfl, htail⟩ := List.cons.inj hcons
      rw [if_neg fun h' => hsecond y (e :: t) htail h'.1 h'.2.2.1, htail]
    next => rfl

/-- A numeral that ends is what `scan` finds. -/
theorem text_scan {base : ℕ} (hb : base ≤ 36) {n : Numeral} (h : n.Ok base) {r : List UInt8}
    (hr : Stops base r) : scan base (n.text ++ r) = some (n, r) := by
  obtain ⟨d, ds, hds⟩ := List.exists_cons_of_ne_nil h.ne_nil
  have hd : isDigit base d = true := h.digits d (by rw [hds]; exact List.mem_cons_self)
  have hfirst : ∀ c, (n.hex.toList.flatMap (fun x => [zero, x]) ++ (n.digits ++ r)).head? = some c →
      isspace c = false ∧ ¬ (c = plus ∨ c = minus) := by
    intro c hc
    cases hx : n.hex with
    | some x =>
      rw [hx] at hc
      obtain rfl : zero = c := by simpa using hc
      decide
    | none =>
      rw [hx, hds] at hc
      obtain rfl : d = c := by simpa using hc
      exact ⟨not_isspace_of_isDigit hb hd, not_sign_of_isDigit hb hd⟩
  generalize hrest : n.hex.toList.flatMap (fun x => [zero, x]) ++ (n.digits ++ r) = rest at hfirst
  have htext : n.text ++ r = n.space ++ (n.sign.toList ++ rest) := by
    rw [← hrest]
    simp [Numeral.text]
  have hspace : ∀ c, (n.sign.toList ++ rest).head? = some c → isspace c = false := by
    intro c hc
    cases hs : n.sign with
    | some b =>
      rw [hs] at hc
      obtain rfl : b = c := by simpa using hc
      rcases h.sign b hs with rfl | rfl <;> rfl
    | none =>
      rw [hs] at hc
      exact (hfirst c hc).1
  have hdrop : (n.text ++ r).dropWhile isspace = n.sign.toList ++ rest ∧
      (n.text ++ r).takeWhile isspace = n.space := by
    rw [htext, List.dropWhile_append_of_pos h.space, List.takeWhile_append_of_pos h.space]
    cases hl : n.sign.toList ++ rest with
    | nil => simp
    | cons c t =>
      have hc := hspace c (by rw [hl]; rfl)
      rw [List.dropWhile_cons_of_neg (by simp [hc]), List.takeWhile_cons_of_neg (by simp [hc])]
      simp
  obtain ⟨htake, hdropd⟩ := takeWhile_digits h.digits fun b hb' => (hr b hb').1
  simp only [scan]
  rw [hdrop.1, hdrop.2, scanSign_append h.sign fun c hc => (hfirst c hc).2]
  simp only
  rw [← hrest, scanHex_append h hr]
  simp only
  rw [htake, hdropd, if_neg h.ne_nil]

/-- Of two numerals at the start of one string, each followed by something that ends it, there is only
one. -/
theorem text_inj {base : ℕ} (hb : base ≤ 36) {n n' : Numeral} (h : n.Ok base) (h' : n'.Ok base)
    {r r' : List UInt8} (hr : Stops base r) (hr' : Stops base r') (heq : n.text ++ r = n'.text ++ r') :
    n = n' ∧ r = r' := by
  have hscan := text_scan hb h hr
  rw [heq, text_scan hb h' hr'] at hscan
  obtain ⟨hn, hrest⟩ := Prod.mk.inj (Option.some.inj hscan)
  exact ⟨hn.symm, hrest.symm⟩

/-! ## Values in a range -/

/-- A numeral with a value from 0 to `m`. -/
structure Numeral.Within (base m : ℕ) (n : Numeral) : Prop extends Numeral.Ok base n where
  nonneg : 0 ≤ n.value base
  le : n.value base ≤ m

theorem strtol_text {base m : ℕ} (hb : base ≤ 36) (hm : m < 2 ^ 63) {n : Numeral}
    (h : n.Within base m) {r : List UInt8} (hr : Stops base r) :
    strtol base (n.text ++ r) = some { value := n.value base, rest := r, erange := false } := by
  have hn := h.nonneg
  have hle := h.le
  have hmax : clamp (n.value base) = n.value base := by
    unfold clamp
    omega
  have hrange : ¬ (n.value base < -2 ^ 63 ∨ 2 ^ 63 - 1 < n.value base) := by omega
  rw [strtol, text_scan hb h.toOk hr]
  simp only [Option.map_some]
  rw [hmax, decide_eq_false hrange]

/-- What passes the tests that follow a call of `strtol` is a numeral in the range. -/
theorem strtol_within {base m : ℕ} {s : List UInt8} {c : Converted}
    (h : strtol base s = some c) (hrange : c.erange = false) (h0 : 0 ≤ c.value) (hle : c.value ≤ m) :
    ∃ n : Numeral, n.Within base m ∧ n.text ++ c.rest = s ∧ n.value base = c.value := by
  obtain ⟨⟨n, r⟩, hscan, rfl⟩ := Option.map_eq_some_iff.1 h
  obtain ⟨hok, htext, -⟩ := scan_text hscan
  have hin := of_decide_eq_false hrange
  simp only [clamp] at h0 hle
  exact ⟨n, ⟨hok, by omega, by omega⟩, htext, by simp only [clamp]; omega⟩

/-! ## Printing -/

def digit (d : ℕ) : UInt8 := if d < 10 then .ofNat (48 + d) else .ofNat (87 + d)

/-- `"%u"` for base 10, `"%x"` for base 16. -/
def print (base n : ℕ) : List UInt8 :=
  if n = 0 then [zero] else (base.digits n).reverse.map digit

theorem digitValue_digit {d : ℕ} (h : d < 36) : digitValue (digit d) = d := by
  unfold digit
  split_ifs with h10
  · have hd : (UInt8.ofNat (48 + d)).toNat = 48 + d := Nat.mod_eq_of_lt (by omega)
    rw [digitValue, if_pos (by omega), hd]
    omega
  · have hd : (UInt8.ofNat (87 + d)).toNat = 87 + d := Nat.mod_eq_of_lt (by omega)
    rw [digitValue, if_neg (by omega), if_pos (by omega), hd]
    omega

theorem print_ne_nil (base n : ℕ) : print base n ≠ [] := by
  unfold print
  split_ifs with h
  · exact List.cons_ne_nil zero []
  · simpa [Nat.digits_eq_nil_iff_eq_zero] using h

theorem isDigit_print {base : ℕ} (h1 : 1 < base) (hb : base ≤ 36) (n : ℕ) :
    ∀ b ∈ print base n, isDigit base b = true := by
  intro b hmem
  unfold print at hmem
  split_ifs at hmem with h
  · obtain rfl := List.mem_singleton.1 hmem
    have h0 : digitValue zero = 0 := rfl
    exact decide_eq_true (h0.trans_lt (by omega))
  · obtain ⟨d, hd, rfl⟩ := List.mem_map.1 hmem
    have hlt : d < base := Nat.digits_lt_base h1 (List.mem_reverse.1 hd)
    rw [isDigit, digitValue_digit (by omega)]
    exact decide_eq_true hlt

theorem valueOf_print {base : ℕ} (h1 : 1 < base) (hb : base ≤ 36) (n : ℕ) :
    valueOf base (print base n) = n := by
  unfold print
  split_ifs with h
  · rw [h]
    rfl
  · have hmap : (base.digits n).map (fun d => digitValue (digit d)) = base.digits n := by
      refine (List.map_congr_left fun d hd => ?_).trans (List.map_id _)
      have hlt := Nat.digits_lt_base h1 hd
      exact digitValue_digit (by omega)
    calc valueOf base ((base.digits n).reverse.map digit)
        = ((base.digits n).map fun d => digitValue (digit d)).foldr (fun x y => x + base * y) 0 := by
          rw [valueOf, List.map_reverse, List.foldl_reverse, List.foldr_map, List.foldr_map]
      _ = Nat.ofDigits base (base.digits n) := by
          rw [hmap, Nat.ofDigits_eq_foldr]
          rfl
      _ = n := Nat.ofDigits_digits base n

/-- There is no leading zero. -/
theorem head_print {base n : ℕ} (h1 : 1 < base) (hb : base ≤ 36) (h : 0 < n) :
    (print base n).head? ≠ some zero := by
  have hne : base.digits n ≠ [] := Nat.digits_ne_nil_iff_ne_zero.2 (by omega)
  rw [print, if_neg (by omega), List.head?_map, List.head?_reverse, List.getLast?_eq_some_getLast hne]
  intro hzero
  have hlt := Nat.digits_lt_base h1 (List.getLast_mem hne)
  have hval := congrArg digitValue (Option.some.inj hzero)
  rw [digitValue_digit (by omega)] at hval
  exact Nat.getLast_digit_ne_zero base (by omega) hval

theorem length_print {base k : ℕ} (h1 : 1 < base) (hk : 0 < k) {n : ℕ} (h : n < base ^ k) :
    (print base n).length ≤ k := by
  unfold print
  split_ifs with h0
  · exact hk
  · rw [List.length_map, List.length_reverse]
    exact (Nat.digits_length_le_iff h1 n).2 h

/-- What is printed is read back. -/
theorem plain_ok {base : ℕ} {ds : List UInt8} (hne : ds ≠ [])
    (h : ∀ b ∈ ds, isDigit base b = true) : (Numeral.plain ds).Ok base where
  space _ hb := by cases hb
  sign _ hc := by cases hc
  hex _ hx := by cases hx
  ne_nil := hne
  digits := h

@[simp] theorem text_plain (ds : List UInt8) : (Numeral.plain ds).text = ds := rfl

@[simp] theorem value_plain (base : ℕ) (ds : List UInt8) :
    (Numeral.plain ds).value base = valueOf base ds := rfl

end Lib.Strtol
