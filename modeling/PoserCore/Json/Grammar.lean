import Mathlib.Algebra.Group.Int.Defs
import Mathlib.Data.Nat.Notation
import PoserCore.Json.Model

/-!
# The grammar of JSON texts

The grammar of RFC 8259, over bytes, together with the rules by which the deserializer deviates from
it.  A derivation lists the deviations it uses (`Feature`); one that uses none, or only those that RFC
8259 itself allows (`clamped`, `splitPair`), is a derivation in the grammar of RFC 8259.

`Truncated` are the texts that end where a loop of the deserializer asks for one more value.
-/

namespace PoserCore.Json

open Lib.Strtol (plus minus zero valueOf)

variable {F : Type}

/-- A value as a JSON text denotes it. -/
inductive Value (F : Type)
  | scalar (x : Scalar F)
  | array (items : List (Value F))
  | object (members : List (Key × Value F))

/-- What a text may have that not every reader takes the same way. -/
inductive Feature
  /-- A comma before the closing bracket. -/
  | trailingComma
  /-- A key that starts with another character than a quote. -/
  | bareKey
  /-- A control character in a string. -/
  | rawControl
  /-- A high surrogate followed by an escaped character that is not a low surrogate. -/
  | splitPair
  /-- A number with a plus sign. -/
  | plusSign
  /-- A number with a zero before its other digits. -/
  | leadingZero
  /-- A decimal point without digits after it. -/
  | emptyFraction
  /-- An integer outside of the range of `int64_t`. -/
  | clamped
  deriving DecidableEq

def Ws (s : List UInt8) : Prop := ∀ b ∈ s, b = 0x20 ∨ b = 0x09 ∨ b = 0x0a ∨ b = 0x0d

/-! ## Strings -/

inductive Escape
  | quote
  | backslash
  | slash
  | backspace
  | formFeed
  | newline
  | carriageReturn
  | tab

def Escape.letter : Escape → UInt8
  | .quote => 0x22
  | .backslash => 0x5c
  | .slash => 0x2f
  | .backspace => 0x62
  | .formFeed => 0x66
  | .newline => 0x6e
  | .carriageReturn => 0x72
  | .tab => 0x74

def Escape.byte : Escape → UInt8
  | .quote => 0x22
  | .backslash => 0x5c
  | .slash => 0x2f
  | .backspace => 0x08
  | .formFeed => 0x0c
  | .newline => 0x0a
  | .carriageReturn => 0x0d
  | .tab => 0x09

def hexValue (b : UInt8) : Option ℕ :=
  if 0x30 ≤ b.toNat ∧ b.toNat ≤ 0x39 then some (b.toNat - 0x30)
  else if 0x41 ≤ b.toNat ∧ b.toNat ≤ 0x46 then some (b.toNat - 0x41 + 10)
  else if 0x61 ≤ b.toNat ∧ b.toNat ≤ 0x66 then some (b.toNat - 0x61 + 10)
  else none

/-- Four hexadecimal digits. -/
structure Hex4 where
  a : UInt8
  b : UInt8
  c : UInt8
  d : UInt8

def Hex4.Ok (w : Hex4) : Prop :=
  (hexValue w.a).isSome ∧ (hexValue w.b).isSome ∧ (hexValue w.c).isSome ∧ (hexValue w.d).isSome

/-- The UTF-16 code unit. -/
def Hex4.value (w : Hex4) : ℕ :=
  (((hexValue w.a).getD 0 * 16 + (hexValue w.b).getD 0) * 16 + (hexValue w.c).getD 0) * 16 +
    (hexValue w.d).getD 0

def Hex4.text (w : Hex4) : List UInt8 := [w.a, w.b, w.c, w.d]

def Hex4.High (w : Hex4) : Prop := 0xd800 ≤ w.value ∧ w.value < 0xdc00

def Hex4.Low (w : Hex4) : Prop := 0xdc00 ≤ w.value ∧ w.value < 0xe000

instance (w : Hex4) : Decidable w.High := inferInstanceAs (Decidable (_ ∧ _))

instance (w : Hex4) : Decidable w.Low := inferInstanceAs (Decidable (_ ∧ _))

/-- The code point of a surrogate pair. -/
def pairValue (high low : Hex4) : ℕ :=
  0x10000 + (high.value - 0xd800) * 0x400 + (low.value - 0xdc00)

/-- UTF-8; a lone surrogate gets the three bytes its number would have. -/
def utf8 (n : ℕ) : List UInt8 :=
  if n < 0x80 then [.ofNat n]
  else if n < 0x800 then [.ofNat (0xc0 + n / 64), .ofNat (0x80 + n % 64)]
  else if n < 0x10000 then
    [.ofNat (0xe0 + n / 4096), .ofNat (0x80 + n / 64 % 64), .ofNat (0x80 + n % 64)]
  else
    [.ofNat (0xf0 + n / 262144), .ofNat (0x80 + n / 4096 % 64), .ofNat (0x80 + n / 64 % 64),
      .ofNat (0x80 + n % 64)]

/-- One character of a string: itself, or one of the two kinds of escape sequences. -/
inductive Item
  | raw (b : UInt8)
  | esc (e : Escape)
  | unit (w : Hex4)

def Item.Ok : Item → Prop
  | .raw b => b ≠ 0 ∧ b ≠ quote ∧ b ≠ backslash
  | .esc _ => True
  | .unit w => w.Ok

def Item.text : Item → List UInt8
  | .raw b => [b]
  | .esc e => [backslash, e.letter]
  | .unit w => backslash :: lowerU :: w.text

def itemsText (is : List Item) : List UInt8 := is.flatMap Item.text

/-- The bytes of the string. -/
def decode : List Item → List UInt8
  | [] => []
  | .raw b :: is => b :: decode is
  | .esc e :: is => e.byte :: decode is
  | .unit w :: .unit w' :: is =>
      if w.High ∧ w'.Low then utf8 (pairValue w w') ++ decode is
      else utf8 w.value ++ decode (.unit w' :: is)
  | .unit w :: is => utf8 w.value ++ decode is

/-- A high surrogate is followed by an escaped character other than a low one. -/
def splits : List Item → Bool
  | [] => false
  | .unit w :: .unit w' :: is =>
      if w.High then if w'.Low then splits is else true
      else splits (.unit w' :: is)
  | _ :: is => splits is

def Item.isControl : Item → Bool
  | .raw b => b < 0x20
  | _ => false

def stringUsed (is : List Item) : List Feature :=
  (if is.any Item.isControl then [.rawControl] else []) ++ if splits is then [.splitPair] else []

/-- The text of a key, which may start with another character than a quote. -/
structure KeyText where
  first : UInt8
  items : List Item

def KeyText.Ok (k : KeyText) : Prop :=
  k.first ≠ 0 ∧ k.first ≠ rbrace ∧ ¬ Ws [k.first] ∧ ∀ i ∈ k.items, i.Ok

def KeyText.text (k : KeyText) : List UInt8 := k.first :: itemsText k.items ++ [quote]

def KeyText.used (k : KeyText) : List Feature :=
  (if k.first = quote then [] else [.bareKey]) ++ stringUsed k.items

/-! ## Numbers -/

def Digit (b : UInt8) : Prop := 0x30 ≤ b.toNat ∧ b.toNat ≤ 0x39

structure Exponent where
  letter : UInt8
  sign : Option UInt8
  digits : List UInt8

def Sign (sign : Option UInt8) : Prop := ∀ b ∈ sign, b = plus ∨ b = minus

def Exponent.Ok (e : Exponent) : Prop :=
  (e.letter = lowerE ∨ e.letter = upperE) ∧ Sign e.sign ∧ e.digits ≠ [] ∧ ∀ b ∈ e.digits, Digit b

def Exponent.text (e : Exponent) : List UInt8 := e.letter :: e.sign.toList ++ e.digits

structure Number where
  sign : Option UInt8
  int : List UInt8
  fraction : Option (List UInt8)
  exponent : Option Exponent

structure Number.Ok (n : Number) : Prop where
  sign : Sign n.sign
  int_ne : n.int ≠ []
  int : ∀ b ∈ n.int, Digit b
  fraction : ∀ ds ∈ n.fraction, ∀ b ∈ ds, Digit b
  exponent : ∀ e ∈ n.exponent, e.Ok

def fractionText : Option (List UInt8) → List UInt8
  | none => []
  | some ds => dot :: ds

def exponentText : Option Exponent → List UInt8
  | none => []
  | some e => e.text

def Number.text (n : Number) : List UInt8 :=
  n.sign.toList ++ n.int ++ fractionText n.fraction ++ exponentText n.exponent

/-- The value of the integer part. -/
def Number.intValue (n : Number) : ℤ := if n.sign = some minus then -valueOf 10 n.int else valueOf 10 n.int

/-- The number has neither fraction nor exponent. -/
def Number.Integral (n : Number) : Prop := n.fraction = none ∧ n.exponent.isNone

instance (n : Number) : Decidable n.Integral := inferInstanceAs (Decidable (_ ∧ _))

def Number.InRange (n : Number) : Prop := -2 ^ 63 ≤ n.intValue ∧ n.intValue < 2 ^ 63

instance (n : Number) : Decidable n.InRange := inferInstanceAs (Decidable (_ ∧ _))

/-- An integer keeps its value if it can; any other number is what `strtod` makes of it. -/
def Number.value (env : Env F) (n : Number) : Scalar F :=
  if n.Integral then
    .integer (if n.InRange then .ofInt n.intValue
      else if n.intValue < 0 then Int64.minValue else Int64.maxValue)
  else .float (env.strtod n.text)

def Number.used (n : Number) : List Feature :=
  (if n.sign = some plus then [.plusSign] else []) ++
    (if 1 < n.int.length ∧ n.int.head? = some zero then [.leadingZero] else []) ++
    (if n.fraction = some [] then [.emptyFraction] else []) ++
    if n.Integral ∧ ¬ n.InRange then [.clamped] else []

/-! ## Texts -/

inductive Container
  | array
  | object

def Container.left : Container → UInt8
  | .array => lbracket
  | .object => lbrace

def Container.right : Container → UInt8
  | .array => rbracket
  | .object => rbrace

/-- A member after others: a key that is there already keeps its place and gets the new value. -/
def setMember {β : Type} (ms : List (Key × β)) (e : Key × β) : List (Key × β) :=
  if e.1 ∈ ms.map Prod.fst then ms.map fun m => if m.1 = e.1 then e else m else ms ++ [e]

/-- The members of an object, in the order of the text. -/
def collapse {β : Type} (es : List (Key × β)) : List (Key × β) := es.foldl setMember []

/-- The elements of an array carry an empty key. -/
def Container.value : Container → List (Key × Value F) → Value F
  | .array, es => .array (es.map Prod.snd)
  | .object, es => .object (collapse es)

/-- What a derivation derives. -/
inductive Sym (F : Type)
  | value (v : Value F)
  | elem (c : Container) (e : Key × Value F)
  | elems (c : Container) (es : List (Key × Value F))

/-- The comma before `es` is the last one of the container. -/
def trailing {β : Type} (es : List β) : List Feature := if es.isEmpty then [.trailingComma] else []

inductive Derives (env : Env F) : Sym F → List Feature → List UInt8 → Prop
  | null : Derives env (.value (.scalar .null)) [] litNull
  | false : Derives env (.value (.scalar (.bool .false))) [] litFalse
  | true : Derives env (.value (.scalar (.bool .true))) [] litTrue
  | string {is : List Item} (hi : ∀ i ∈ is, i.Ok) :
      Derives env (.value (.scalar (.string (decode is)))) (stringUsed is)
        (quote :: itemsText is ++ [quote])
  | number {n : Number} (hn : n.Ok) : Derives env (.value (.scalar (n.value env))) n.used n.text
  | container {c : Container} {es : List (Key × Value F)} {u : List Feature} {s : List UInt8}
      (h : Derives env (.elems c es) u s) :
      Derives env (.value (c.value es)) u (c.left :: s ++ [c.right])
  | item {v : Value F} {u : List Feature} {s : List UInt8} (h : Derives env (.value v) u s) :
      Derives env (.elem .array ([], v)) u s
  | member {k : KeyText} {v : Value F} {u : List Feature} {w w' s : List UInt8} (hk : k.Ok)
      (hw : Ws w) (hw' : Ws w') (h : Derives env (.value v) u s) :
      Derives env (.elem .object (decode k.items, v)) (k.used ++ u)
        (k.text ++ w ++ colon :: w' ++ s)
  | none {c : Container} {w : List UInt8} (hw : Ws w) : Derives env (.elems c []) [] w
  | last {c : Container} {e : Key × Value F} {u : List Feature} {w s w' : List UInt8} (hw : Ws w)
      (h : Derives env (.elem c e) u s) (hw' : Ws w') :
      Derives env (.elems c [e]) u (w ++ s ++ w')
  | more {c : Container} {e : Key × Value F} {es : List (Key × Value F)} {u us : List Feature}
      {w s w' r : List UInt8} (hw : Ws w) (h : Derives env (.elem c e) u s) (hw' : Ws w')
      (hr : Derives env (.elems c es) us r) :
      Derives env (.elems c (e :: es)) (u ++ trailing es ++ us) (w ++ s ++ w' ++ comma :: r)

/-- A text: a value with white space around it. -/
def IsText (env : Env F) (u : List Feature) (s : List UInt8) (v : Value F) : Prop :=
  ∃ w t w', s = w ++ t ++ w' ∧ Ws w ∧ Ws w' ∧ Derives env (.value v) u t

/-! ## Texts that end too early -/

inductive Open
  | value
  | elem (c : Container)
  /-- The elements of a container; `seen` says that there were others before. -/
  | elems (c : Container) (seen : Bool)

/-- The text stops inside of containers, and in the innermost one where a further value is due: after
a comma of an array, or after the colon of a member that is not the first of its object. -/
inductive Truncated (env : Env F) : Open → List UInt8 → Prop
  | container {c : Container} {s : List UInt8} (h : Truncated env (.elems c false) s) :
      Truncated env .value (c.left :: s)
  | item {s : List UInt8} (h : Truncated env .value s) : Truncated env (.elem .array) s
  | member {k : KeyText} {w w' s : List UInt8} (hk : k.Ok) (hp : Feature.splitPair ∉ k.used)
      (hw : Ws w) (hw' : Ws w') (h : Truncated env .value s) :
      Truncated env (.elem .object) (k.text ++ w ++ colon :: w' ++ s)
  | endArray {w : List UInt8} (hw : Ws w) : Truncated env (.elems .array true) w
  | endObject {k : KeyText} {w w' w'' : List UInt8} (hk : k.Ok) (hp : Feature.splitPair ∉ k.used)
      (hw : Ws w) (hw' : Ws w') (hw'' : Ws w'') :
      Truncated env (.elems .object true) (w ++ k.text ++ w' ++ colon :: w'')
  | here {c : Container} {seen : Bool} {w s : List UInt8} (hw : Ws w)
      (h : Truncated env (.elem c) s) : Truncated env (.elems c seen) (w ++ s)
  | later {c : Container} {seen : Bool} {e : Key × Value F} {u : List Feature}
      {w s w' r : List UInt8} (hw : Ws w) (he : Derives env (.elem c e) u s)
      (hp : Feature.splitPair ∉ u) (hw' : Ws w') (h : Truncated env (.elems c true) r) :
      Truncated env (.elems c seen) (w ++ s ++ w' ++ comma :: r)

end PoserCore.Json
