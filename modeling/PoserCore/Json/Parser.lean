import PoserCore.Json.Model

/-!
# The deserializer

The functions behind `PSC_JsonSerializer_deserialize`.  The read buffer is the list of bytes from
`bufpos` to the end of the C string; what the code reads at `bufsz`, the terminating NUL, is the empty
list.  The functions that build nodes take and return the heap.

`parse` succeeds without writing its result at the end of the input.  The variables that `parseArray`
and `parseObject` give it for the result live as long as their loops.
-/

namespace PoserCore.Json

open Lib.Strtol (plus minus isspace scanSign strtol)

variable {F : Type}

def isWs (b : UInt8) : Bool := b = 0x20 || b = 0x09 || b = 0x0d || b = 0x0a

def skipWs (s : List UInt8) : List UInt8 := s.dropWhile isWs

/-- A decimal digit -/
abbrev isDigit : UInt8 → Bool := Lib.Strtol.isDigit 10

/-! ## Strings -/

/-- A hexadecimal digit, found in `hex`. -/
def nibble (b : UInt8) : Option ℕ :=
  (hex.idxOf? b).map fun i => if 15 < i then i - 6 else i

/-- `n` hexadecimal digits, shifted into `bmpchr`. -/
def parseHex : (n bmpchr : ℕ) → List UInt8 → Option (ℕ × List UInt8)
  | 0, bmpchr, s => some (bmpchr, s)
  | _ + 1, _, [] => none
  | n + 1, bmpchr, b :: s =>
      match nibble b with
      | none => none
      | some d => parseHex n ((bmpchr <<< 4) % 2 ^ 16 ||| d) s

/-- The bytes appended for a code point. -/
def appendUnichr (unichr : ℕ) : List UInt8 :=
  if unichr < 0x80 then [UInt8.ofNat unichr]
  else
    let b0 := unichr &&& 0xff
    let b1 := unichr >>> 8 &&& 0xff
    let b2 := unichr >>> 16 &&& 0xff
    let follow2 := [UInt8.ofNat (0x80 ||| (b0 &&& 0x3f))]
    let follow1 := UInt8.ofNat (0x80 ||| (b1 <<< 2 &&& 0x3f) ||| b0 >>> 6) :: follow2
    if unichr < 0x800 then UInt8.ofNat (0xc0 ||| b1 <<< 2 ||| b0 >>> 6) :: follow2
    else if unichr < 0x10000 then UInt8.ofNat (0xe0 ||| b1 >>> 4) :: follow1
    else UInt8.ofNat (0xf0 ||| b2 >>> 2) ::
      UInt8.ofNat (0x80 ||| (b2 <<< 4 &&& 0x3f) ||| b1 >>> 4) :: follow1

/-- The escape sequences of one letter. -/
def escape (e : UInt8) : Option UInt8 :=
  if e = quote ∨ e = backslash ∨ e = slash then some e
  else if e = 0x62 then some 0x08
  else if e = 0x66 then some 0x0c
  else if e = 0x6e then some 0x0a
  else if e = 0x72 then some 0x0d
  else if e = 0x74 then some 0x09
  else none

def isHighSurrogate (unichr : ℕ) : Bool := unichr &&& 0xfc00 = 0xd800

def isLowSurrogate (unichr : ℕ) : Bool := unichr &&& 0xfc00 = 0xdc00

/-- An escape sequence after `\u`: the code point and what follows it. -/
def parseUnichr (s : List UInt8) : Option (ℕ × List UInt8) :=
  match parseHex 4 0 s with
  | none => none
  | some (unichr, s) =>
      if s.head? = some backslash ∧ s.tail.head? = some lowerU ∧ isHighSurrogate unichr then
        match parseHex 4 0 (s.drop 2) with
        | none => none
        | some (bmpchr, s) =>
            if isLowSurrogate bmpchr then
              some (((unichr &&& 0x3ff) <<< 10 ||| (bmpchr &&& 0x3ff)) + 0x10000, s)
            else none
      else some (unichr, s)

/-- The loop of `parsePlainString`. -/
def parseChars : ℕ → (parsed : List UInt8) → List UInt8 → Option (List UInt8 × List UInt8)
  | 0, _, _ => none
  | _ + 1, _, [] => none
  | n + 1, parsed, b :: s =>
      if b = quote then some (parsed, s)
      else if b = backslash then
        match s with
        | [] => none
        | e :: s =>
            match escape e with
            | some c => parseChars n (parsed ++ [c]) s
            | none =>
                if e = lowerU then
                  match parseUnichr s with
                  | none => none
                  | some (unichr, s) => parseChars n (parsed ++ appendUnichr unichr) s
                else none
      else parseChars n (parsed ++ [b]) s

/-- `parsePlainString`: the bytes and what follows them.  The first character is not looked at. -/
def parsePlainString (s : List UInt8) : Option (List UInt8 × List UInt8) :=
  parseChars s.length [] s.tail

/-! ## Numbers -/

/-- The digits at the start, and what follows them. -/
def spanDigits (s : List UInt8) : List UInt8 × List UInt8 := (s.takeWhile isDigit, s.dropWhile isDigit)

/-- `strtoll` with base 10: the value, and what `endp` points to.  A `long long` is as wide as a
`long`. -/
def strtoll (s : List UInt8) : Int64 × List UInt8 :=
  match strtol 10 s with
  | none => (0, s)
  | some converted => (.ofInt converted.value, converted.rest)

/-- A fraction, and what follows it. -/
def spanFraction (s : List UInt8) : List UInt8 × List UInt8 :=
  match s with
  | b :: t => if b = dot then (dot :: (spanDigits t).1, (spanDigits t).2) else ([], s)
  | [] => ([], s)

/-- An exponent, if it has digits, and what follows it. -/
def spanExponent (s : List UInt8) : List UInt8 × List UInt8 :=
  match s with
  | b :: t =>
      if b = lowerE ∨ b = upperE then
        let (sign, t) := scanSign t
        let (ds, t) := spanDigits t
        if ds = [] then ([], s) else (b :: sign.toList ++ ds, t)
      else ([], s)
  | [] => ([], s)

/-- `strtod` on a decimal literal: the value, and what `endp` points to.  It is called only where
`strtoll` read digits up to a point or an exponent, so that none of its other forms can start there. -/
def strtod (env : Env F) (s : List UInt8) : Option (F × List UInt8) :=
  let (sign, t) := scanSign (s.dropWhile isspace)
  let (ds, t) := spanDigits t
  let (fraction, t) := spanFraction t
  if ds = [] ∧ fraction.length ≤ 1 then none
  else
    let (exponent, t) := spanExponent t
    some (env.strtod (sign.toList ++ ds ++ fraction ++ exponent), t)

/-- `parseNumber`: the value of the node and what follows the number. -/
def parseNumber (env : Env F) (s : List UInt8) : Option (Scalar F × List UInt8) :=
  let (intval, endp) := strtoll s
  if endp.head? = some dot ∨ endp.head? = some lowerE ∨ endp.head? = some upperE then
    (strtod env s).map fun (floatval, endp) => (.float floatval, endp)
  else if endp.length = s.length then none
  else some (.integer intval, endp)

/-! ## Values -/

structure Parser (F : Type) where
  rest : List UInt8
  heap : Heap F

def Parser.skipWs (st : Parser F) : Parser F := { st with rest := Json.skipWs st.rest }

/-- `++self->bufpos` -/
def Parser.advance (st : Parser F) : Parser F := { st with rest := st.rest.tail }

/-- The result of a parser function: whether it returned 0, the variable for the node, and the state.
-/
structure Result (F : Type) where
  ok : Bool
  obj : Option Ptr
  st : Parser F

/-- The type of `parse`; it gives nothing when its fuel is used up. -/
abbrev Parse (F : Type) := Parser F → Option Ptr → Option (Result F)

/-- A node that was created is the result. -/
def Parser.created (st : Parser F) (x : Ptr × Heap F) (rest : List UInt8) : Result F :=
  ⟨true, some x.1, { st with rest := rest, heap := x.2 }⟩

def parseString (st : Parser F) (obj : Option Ptr) : Result F :=
  match parsePlainString st.rest with
  | none => ⟨false, obj, st⟩
  | some (str, rest) => st.created (st.heap.createString (str ++ [0]) str.length) rest

def createScalar (h : Heap F) (x : Scalar F) : Ptr × Heap F := h.create (.scalar x)

def parseNumberNode (env : Env F) (st : Parser F) (obj : Option Ptr) : Result F :=
  match parseNumber env st.rest with
  | none => ⟨false, obj, st⟩
  | some (x, rest) => st.created (createScalar st.heap x) rest

def parseLiteral (st : Parser F) (obj : Option Ptr) : Result F :=
  if litNull.isPrefixOf st.rest then st.created st.heap.createNull (st.rest.drop litNull.length)
  else if litFalse.isPrefixOf st.rest then
    st.created (st.heap.createBool false) (st.rest.drop litFalse.length)
  else if litTrue.isPrefixOf st.rest then
    st.created (st.heap.createBool true) (st.rest.drop litTrue.length)
  else ⟨false, obj, st⟩

/-- `fail` of a container. -/
def Parser.fail (st : Parser F) (container : Ptr) (obj : Option Ptr) : Result F :=
  ⟨false, obj, { st with heap := st.heap.destroy (some container) }⟩

/-- `succeed` of a container, at its closing bracket. -/
def Parser.succeed (st : Parser F) (container : Ptr) : Result F := ⟨true, some container, st.advance⟩

/-- The loop of `parseArray`. -/
def arrayLoop (parse : Parse F) (arr : Ptr) (obj : Option Ptr) :
    ℕ → Parser F → (item : Option Ptr) → Option (Result F)
  | 0, _, _ => none
  | n + 1, st, item =>
      let st := st.skipWs
      if st.rest.head? = some rbracket then some (st.succeed arr)
      else
        match parse st item with
        | none => none
        | some ⟨false, _, st⟩ => some (st.fail arr obj)
        | some ⟨true, item, st⟩ =>
            let st := { st with heap := (st.heap.append arr item).1 }.skipWs
            if st.rest.head? = some rbracket then some (st.succeed arr)
            else if st.rest.head? = some comma then arrayLoop parse arr obj n st.advance item
            else some (st.fail arr obj)

def parseArray (parse : Parse F) (st : Parser F) (obj : Option Ptr) : Option (Result F) :=
  let (arr, heap) := st.heap.createArray
  arrayLoop parse arr obj st.rest.length { st with heap := heap }.advance none

/-- The loop of `parseObject`. -/
def objectLoop (env : Env F) (parse : Parse F) (jobj : Ptr) (obj : Option Ptr) :
    ℕ → Parser F → (value : Option Ptr) → Option (Result F)
  | 0, _, _ => none
  | n + 1, st, value =>
      let st := st.skipWs
      if st.rest.head? = some rbrace then some (st.succeed jobj)
      else
        match parsePlainString st.rest with
        | none => some (st.fail jobj obj)
        | some (key, rest) =>
            let st := { st with rest := rest }.skipWs
            if st.rest.head? = some colon then
              match parse st.advance.skipWs value with
              | none => none
              | some ⟨false, _, st⟩ => some (st.fail jobj obj)
              | some ⟨true, value, st⟩ =>
                  let st := { st with
                    heap := (st.heap.setProperty env jobj (key ++ [0]) key.length value).1 }.skipWs
                  if st.rest.head? = some rbrace then some (st.succeed jobj)
                  else if st.rest.head? = some comma then
                    objectLoop env parse jobj obj n st.advance value
                  else some (st.fail jobj obj)
            else some (st.fail jobj obj)

def parseObject (env : Env F) (parse : Parse F) (st : Parser F) (obj : Option Ptr) :
    Option (Result F) :=
  let (jobj, heap) := st.heap.createObject
  objectLoop env parse jobj obj st.rest.length { st with heap := heap }.advance none

def parse (env : Env F) : ℕ → Parse F
  | 0, _, _ => none
  | n + 1, st, obj =>
      let st := st.skipWs
      match st.rest with
      | [] => some ⟨true, obj, st⟩
      | c :: _ =>
          if c = lbrace then parseObject env (parse env n) st obj
          else if c = lbracket then parseArray (parse env n) st obj
          else if c = quote then some (parseString st obj)
          else if c = plus ∨ c = minus ∨ isDigit c then some (parseNumberNode env st obj)
          else some (parseLiteral st obj)

/-- `PSC_JsonSerializer_deserialize`: the node it returns, and the heap. -/
def deserialize (env : Env F) (h : Heap F) (json : List UInt8) : Option (Option Ptr × Heap F) :=
  match parse env (strlen json + 1) ⟨cstr json, h⟩ none with
  | none => none
  | some ⟨_, obj, st⟩ =>
      if skipWs st.rest = [] then some (obj, st.heap) else some (none, st.heap.destroy obj)

end PoserCore.Json
