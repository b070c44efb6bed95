import PoserCore.IpAddr.Matches

/-!
# The text of an address

`Denotes` is the textual form of an address or network: four decimal numbers, or the groups of
hexadecimal digits of RFC 4291.  `Spelling` is what the parser reads instead: every number is a subject
sequence of `strtol`, and the groups of an IPv6 address may be too few, or end with a colon.  A
`Regular` spelling is a text of the textual form.
-/

namespace PoserCore.IpAddr

open Lib.Strtol (Numeral isDigit valueOf)

/-- The number of bits of an address -/
def Proto.bits : Proto → ℕ
  | .any => 0
  | .ipv4 => 32
  | .ipv6 => 128

/-- The two bytes of a word -/
def wordBytes (word : ℕ) : List UInt8 := [UInt8.ofNat (word >>> 8), UInt8.ofNat (word &&& 0xff)]

/-- Zeros between the head and the tail of an IPv6 address -/
def fill (head tail : List UInt8) : List UInt8 :=
  head ++ List.replicate (16 - head.length - tail.length) 0 ++ tail

/-! ## The textual form -/

/-- A decimal number up to `m`; leading zeros do not count. -/
structure Decimal (m : ℕ) (ds : List UInt8) : Prop where
  ne_nil : ds ≠ []
  digits : ∀ b ∈ ds, isDigit 10 b = true
  le : valueOf 10 ds ≤ m

/-- 1 to 4 hexadecimal digits -/
structure Group (ds : List UInt8) : Prop where
  ne_nil : ds ≠ []
  digits : ∀ b ∈ ds, isDigit 16 b = true
  length : ds.length ≤ 4

def groupBytes (gs : List (List UInt8)) : List UInt8 := gs.flatMap fun g => wordBytes (valueOf 16 g)

inductive AddrText : List UInt8 → Proto → List UInt8 → Prop
  | v4 {ds : List (List UInt8)} (hlen : ds.length = 4) (hds : ∀ d ∈ ds, Decimal 255 d) :
      AddrText ([dot].intercalate ds) .ipv4
        (List.replicate 12 0 ++ ds.map fun d => UInt8.ofNat (valueOf 10 d))
  | full {gs : List (List UInt8)} (hlen : gs.length = 8) (hgs : ∀ g ∈ gs, Group g) :
      AddrText ([colon].intercalate gs) .ipv6 (groupBytes gs)
  | gap {hs ts : List (List UInt8)} (hlen : hs.length + ts.length < 8) (hhs : ∀ g ∈ hs, Group g)
      (hts : ∀ g ∈ ts, Group g) :
      AddrText ([colon].intercalate hs ++ colon :: colon :: [colon].intercalate ts) .ipv6
        (fill (groupBytes hs) (groupBytes ts))

/-- The text denotes the network with these bytes and this prefix length. -/
inductive Denotes : List UInt8 → Proto → ℕ → List UInt8 → Prop
  | addr {s : List UInt8} {proto : Proto} {data : List UInt8} (h : AddrText s proto data) :
      Denotes s proto proto.bits data
  | network {s ds : List UInt8} {proto : Proto} {data : List UInt8} (h : AddrText s proto data)
      (hds : Decimal proto.bits ds) : Denotes (s ++ slash :: ds) proto (valueOf 10 ds) data

/-! ## What the parser reads -/

/-- Numerals separated by colons; a last colon may follow. -/
structure Groups where
  numerals : List Numeral
  colon : Bool

def Groups.text (g : Groups) : List UInt8 :=
  [IpAddr.colon].intercalate (g.numerals.map Numeral.text) ++ if g.colon then [IpAddr.colon] else []

structure Groups.Ok (g : Groups) : Prop where
  numerals : ∀ w ∈ g.numerals, w.Within 16 0xffff
  ne_nil : g.colon = true → g.numerals ≠ []

def numeralBytes (ws : List Numeral) : List UInt8 :=
  ws.flatMap fun w => wordBytes (w.value 16).toNat

inductive Body
  | v4 (numbers : List Numeral)
  /-- The groups in front of `::`, and those behind it if it is there. -/
  | v6 (head : Groups) (tail : Option Groups)

/-- `::` and what is behind it. -/
def gapText : Option Groups → List UInt8
  | none => []
  | some tail => colon :: colon :: tail.text

def Body.text : Body → List UInt8
  | .v4 ws => [dot].intercalate (ws.map Numeral.text)
  | .v6 head tail => head.text ++ gapText tail

def Body.proto : Body → Proto
  | .v4 _ => .ipv4
  | .v6 _ _ => .ipv6

def Body.data : Body → List UInt8
  | .v4 ws => List.replicate 12 0 ++ ws.map fun w => UInt8.ofNat (w.value 10).toNat
  | .v6 head none => fill (numeralBytes head.numerals) []
  | .v6 head (some tail) => fill (numeralBytes head.numerals) (numeralBytes tail.numerals)

/-- The number of words -/
def words (head : Groups) (tail : Option Groups) : ℕ :=
  head.numerals.length + (tail.elim 0 fun t => t.numerals.length)

inductive Body.Ok : Body → Prop
  | v4 {ws : List Numeral} (hlen : ws.length = 4) (hws : ∀ w ∈ ws, w.Within 10 255) : Ok (.v4 ws)
  | v6 {head : Groups} {tail : Option Groups} (hhead : head.Ok) (htail : ∀ t ∈ tail, t.Ok)
      (hcolon : tail ≠ none → head.colon = false) (hlen : words head tail ≤ 8) : Ok (.v6 head tail)

/-- Digits without anything before them. -/
def Plain (w : Numeral) : Prop := w = Numeral.plain w.digits

/-- 1 to 4 digits to a group, and no colon behind the last one. -/
structure Groups.Regular (g : Groups) : Prop where
  numerals : ∀ w ∈ g.numerals, Plain w ∧ w.digits.length ≤ 4
  colon : g.colon = false

inductive Body.Regular : Body → Prop
  | v4 {ws : List Numeral} (h : ∀ w ∈ ws, Plain w) : Regular (.v4 ws)
  | full {head : Groups} (h : head.Regular) (hlen : head.numerals.length = 8) :
      Regular (.v6 head none)
  | gap {head tail : Groups} (hh : head.Regular) (ht : tail.Regular)
      (hlen : head.numerals.length + tail.numerals.length < 8) : Regular (.v6 head (some tail))

/-- An address, and the number behind the slash. -/
structure Spelling where
  body : Body
  len : Option Numeral

def Spelling.text (sp : Spelling) : List UInt8 :=
  sp.body.text ++ sp.len.elim [] fun w => slash :: w.text

def Spelling.prefixlen (sp : Spelling) : ℕ :=
  sp.len.elim sp.body.proto.bits fun w => (w.value 10).toNat

structure Spelling.Ok (sp : Spelling) : Prop where
  body : sp.body.Ok
  len : ∀ w ∈ sp.len, w.Within 10 sp.body.proto.bits

structure Spelling.Regular (sp : Spelling) : Prop where
  body : sp.body.Regular
  len : ∀ w ∈ sp.len, Plain w

/-! ## Regular spellings -/

theorem Plain.text_eq {w : Numeral} (h : Plain w) : w.text = w.digits := by
  rw [h]
  exact Lib.Strtol.text_plain _

theorem Plain.value_eq {w : Numeral} (h : Plain w) (base : ℕ) :
    w.value base = valueOf base w.digits := by
  rw [h]
  exact Lib.Strtol.value_plain base _

theorem plain_plain (ds : List UInt8) : Plain (Numeral.plain ds) := rfl

theorem Decimal.within {m : ℕ} {ds : List UInt8} (h : Decimal m ds) :
    (Numeral.plain ds).Within 10 m where
  toOk := Lib.Strtol.plain_ok h.ne_nil h.digits
  nonneg := by simp
  le := by simpa using h.le

theorem Plain.decimal {m : ℕ} {w : Numeral} (h : Plain w) (hw : w.Within 10 m) :
    Decimal m w.digits where
  ne_nil := hw.ne_nil
  digits := hw.digits
  le := by
    have := hw.le
    rw [h.value_eq] at this
    exact_mod_cast this

theorem digitValue_lt {base : ℕ} {b : UInt8} (h : isDigit base b = true) :
    Lib.Strtol.digitValue b < base := of_decide_eq_true h

theorem valueOf_lt {base : ℕ} {ds : List UInt8} (h : ∀ b ∈ ds, isDigit base b = true) :
    valueOf base ds < base ^ ds.length := by
  induction ds using List.reverseRecOn with
  | nil => exact Nat.one_pos
  | append_singleton ds d ih =>
    have hds := ih fun b hb => h b (List.mem_append_left _ hb)
    have hd := digitValue_lt (h d (by simp))
    rw [valueOf, List.foldl_append, ← valueOf, List.length_append]
    show Lib.Strtol.digitValue d + base * valueOf base ds < base ^ (ds.length + 1)
    calc Lib.Strtol.digitValue d + base * valueOf base ds
        < base * (valueOf base ds + 1) := by rw [Nat.mul_succ]; omega
      _ ≤ base * base ^ ds.length := Nat.mul_le_mul_left _ hds
      _ = base ^ (ds.length + 1) := (Nat.pow_succ' ..).symm

theorem Group.within {ds : List UInt8} (h : Group ds) : (Numeral.plain ds).Within 16 0xffff where
  toOk := Lib.Strtol.plain_ok h.ne_nil h.digits
  nonneg := by simp
  le := by
    have hlt := (valueOf_lt h.digits).trans_le (Nat.pow_le_pow_right (by decide) h.length)
    have h16 : 16 ^ 4 = 65536 := by decide
    simp only [Lib.Strtol.value_plain]
    omega

theorem group_digits {w : Numeral} (h : w.Within 16 0xffff) (hlen : w.digits.length ≤ 4) :
    Group w.digits where
  ne_nil := h.ne_nil
  digits := h.digits
  length := hlen

end PoserCore.IpAddr
