import PoserCore.Json.Parser

/-!
# The deserializer on its buffer

The functions of the deserializer as they work on `rdbuf`, `bufsz` and `bufpos`.  The buffer is the C
string `s`, so that `bufsz` is `s.length` and the terminating NUL has this index.  A read behind the
NUL and a `bufpos` behind `bufsz` are faults.

What the functions do with the bytes is defined with the deserializer on lists.
-/

namespace PoserCore.Json.Cursor

open Lib.Strtol (Numeral clamp plus minus isspace)

variable {F : Type}

/-- Why a function does not return. -/
inductive Stop
  | fault
  | fuel

abbrev Scan := Except Stop

/-- `rdbuf[i]` -/
def rdbuf (s : List UInt8) (i : ℕ) : Scan UInt8 :=
  if i ≤ s.length then pure (s.getD i 0) else throw .fault

/-- A new value for `bufpos`. -/
def moveTo (s : List UInt8) (bufpos : ℕ) : Scan ℕ :=
  if bufpos ≤ s.length then pure bufpos else throw .fault

def skipWs (s : List UInt8) : (fuel bufpos : ℕ) → Scan ℕ
  | 0, _ => throw .fuel
  | n + 1, bufpos =>
      if bufpos < s.length then do
        let c ← rdbuf s bufpos
        if isWs c then skipWs s n (← moveTo s (bufpos + 1)) else pure bufpos
      else pure bufpos

/-! ## Strings

`buf` is the position of the string, and `parsepos` an offset from there.  A result `none` is the
label `fail`. -/

/-- `n` hexadecimal digits from `pos` on, shifted into `bmpchr`. -/
def parseHex (s : List UInt8) : (n bmpchr pos : ℕ) → Scan (Option ℕ)
  | 0, bmpchr, _ => pure (some bmpchr)
  | n + 1, bmpchr, pos => do
      let c ← rdbuf s pos
      if c = 0 then pure none
      else
        match nibble c with
        | none => pure none
        | some d => parseHex s n ((bmpchr <<< 4) % 2 ^ 16 ||| d) (pos + 1)

/-- The escape sequence whose `u` is at `parsepos`: the code point and the offset behind it. -/
def parseUnichr (s : List UInt8) (buf parsepos : ℕ) : Scan (Option (ℕ × ℕ)) := do
  match ← parseHex s 4 0 (buf + (parsepos + 1)) with
  | none => pure none
  | some unichr =>
    let parsepos := parsepos + 5
    if (← rdbuf s (buf + parsepos)) = backslash then
      if (← rdbuf s (buf + (parsepos + 1))) = lowerU ∧ isHighSurrogate unichr then
        let parsepos := parsepos + 2
        match ← parseHex s 4 0 (buf + parsepos) with
        | none => pure none
        | some bmpchr =>
          if isLowSurrogate bmpchr then
            pure (some (((unichr &&& 0x3ff) <<< 10 ||| (bmpchr &&& 0x3ff)) + 0x10000, parsepos + 4))
          else pure none
      else pure (some (unichr, parsepos))
    else pure (some (unichr, parsepos))

/-- The loop of `parsePlainString`. -/
def parseChars (s : List UInt8) (buf : ℕ) :
    ℕ → (parsed : List UInt8) → (parsepos : ℕ) → Scan (Option (List UInt8 × ℕ))
  | 0, _, _ => throw .fuel
  | n + 1, parsed, parsepos =>
      if parsepos < s.length - buf then do
        let b ← rdbuf s (buf + parsepos)
        if b = quote then pure (some (parsed, parsepos + 1))
        else if b = backslash then do
          let parsepos := parsepos + 1
          let e ← rdbuf s (buf + parsepos)
          match escape e with
          | some c => parseChars s buf n (parsed ++ [c]) (parsepos + 1)
          | none =>
            if e = lowerU then
              match ← parseUnichr s buf parsepos with
              | none => pure none
              | some (unichr, parsepos) =>
                parseChars s buf n (parsed ++ appendUnichr unichr) parsepos
            else pure none
        else parseChars s buf n (parsed ++ [b]) (parsepos + 1)
      else pure none

/-- `parsePlainString`: what it stores in `str` and `len`, and `bufpos`. -/
def parsePlainString (s : List UInt8) (bufpos : ℕ) : Scan (Option (List UInt8 × ℕ × ℕ)) := do
  match ← parseChars s bufpos (s.length - bufpos + 1) [] 1 with
  | none => pure none
  | some (parsed, parsepos) =>
    pure (some (parsed ++ [0], parsed.length, ← moveTo s (bufpos + parsepos)))

/-! ## Numbers -/

/-- The position of the first byte without `p`, from `pos` on. -/
def scanWhile (p : UInt8 → Bool) (s : List UInt8) : (fuel pos : ℕ) → Scan ℕ
  | 0, _ => throw .fuel
  | n + 1, pos => do
      let c ← rdbuf s pos
      if p c then scanWhile p s n (pos + 1) else pure pos

/-- The bytes between two positions. -/
def between (s : List UInt8) (i j : ℕ) : List UInt8 := (s.drop i).take (j - i)

/-- An optional sign and the position behind it. -/
def scanSign (s : List UInt8) (pos : ℕ) : Scan (Option UInt8 × ℕ) := do
  let c ← rdbuf s pos
  if c = plus ∨ c = minus then pure (some c, pos + 1) else pure (none, pos)

/-- `strtoll`: the value and `endp` -/
def strtoll (s : List UInt8) (pos : ℕ) : Scan (Int64 × ℕ) := do
  let start ← scanWhile isspace s (s.length - pos + 1) pos
  let (sign, i) ← scanSign s start
  let j ← scanWhile isDigit s (s.length - i + 1) i
  if i = j then pure (0, pos)
  else pure (.ofInt (clamp (Numeral.value 10 ⟨[], sign, none, between s i j⟩)), j)

/-- The position behind a fraction. -/
def scanFraction (s : List UInt8) (pos : ℕ) : Scan ℕ := do
  let c ← rdbuf s pos
  if c = dot then scanWhile isDigit s (s.length - (pos + 1) + 1) (pos + 1) else pure pos

/-- The position behind an exponent. -/
def scanExponent (s : List UInt8) (pos : ℕ) : Scan ℕ := do
  let c ← rdbuf s pos
  if c = lowerE ∨ c = upperE then do
    let (_, i) ← scanSign s (pos + 1)
    let j ← scanWhile isDigit s (s.length - i + 1) i
    if i = j then pure pos else pure j
  else pure pos

/-- `strtod`: the value and `endp`, if there is a number -/
def strtod (env : Env F) (s : List UInt8) (pos : ℕ) : Scan (Option (F × ℕ)) := do
  let start ← scanWhile isspace s (s.length - pos + 1) pos
  let (_, i) ← scanSign s start
  let j ← scanWhile isDigit s (s.length - i + 1) i
  let k ← scanFraction s j
  if i = j ∧ k ≤ j + 1 then pure none
  else do
    let endp ← scanExponent s k
    pure (some (env.strtod (between s start endp), endp))

/-- `parseNumber`: the value of the node and `bufpos` -/
def parseNumber (env : Env F) (s : List UInt8) (bufpos : ℕ) : Scan (Option (Scalar F × ℕ)) := do
  let (intval, endp) ← strtoll s bufpos
  let c ← rdbuf s endp
  if c = dot ∨ c = lowerE ∨ c = upperE then
    match ← strtod env s bufpos with
    | none => pure none
    | some (floatval, endp) => pure (some (.float floatval, ← moveTo s endp))
  else if endp = bufpos then pure none
  else pure (some (.integer intval, ← moveTo s endp))

/-! ## Values -/

structure State (F : Type) where
  bufpos : ℕ
  heap : Heap F

/-- The result of a parser function: whether it returned 0, the variable for the node, and the state.
-/
structure Result (F : Type) where
  ok : Bool
  obj : Option Ptr
  st : State F

abbrev Parse (F : Type) := State F → Option Ptr → Scan (Result F)

def State.skipWs (s : List UInt8) (st : State F) : Scan (State F) := do
  pure { st with bufpos := ← Cursor.skipWs s (s.length - st.bufpos + 1) st.bufpos }

/-- `++self->bufpos` -/
def State.advance (s : List UInt8) (st : State F) : Scan (State F) := do
  pure { st with bufpos := ← moveTo s (st.bufpos + 1) }

/-- A node that was created is the result. -/
def State.created (st : State F) (x : Ptr × Heap F) (bufpos : ℕ) : Result F :=
  ⟨true, some x.1, { st with bufpos := bufpos, heap := x.2 }⟩

def parseString (s : List UInt8) (st : State F) (obj : Option Ptr) : Scan (Result F) := do
  match ← parsePlainString s st.bufpos with
  | none => pure ⟨false, obj, st⟩
  | some (str, len, bufpos) => pure (st.created (st.heap.createString str len) bufpos)

def parseNumberNode (env : Env F) (s : List UInt8) (st : State F) (obj : Option Ptr) :
    Scan (Result F) := do
  match ← parseNumber env s st.bufpos with
  | none => pure ⟨false, obj, st⟩
  | some (x, bufpos) => pure (st.created (createScalar st.heap x) bufpos)

/-- `strncmp` with a literal. -/
def isLit (s : List UInt8) : (lit : List UInt8) → (pos : ℕ) → Scan Bool
  | [], _ => pure true
  | c :: lit, pos => do
      let b ← rdbuf s pos
      if b = c then isLit s lit (pos + 1) else pure false

/-- The literal is there. -/
def atLit (s lit : List UInt8) (bufpos : ℕ) : Scan Bool :=
  if lit.length ≤ s.length - bufpos then isLit s lit bufpos else pure false

def parseLiteral (s : List UInt8) (st : State F) (obj : Option Ptr) : Scan (Result F) := do
  if ← atLit s litNull st.bufpos then
    pure (st.created st.heap.createNull (← moveTo s (st.bufpos + litNull.length)))
  else if ← atLit s litFalse st.bufpos then
    pure (st.created (st.heap.createBool false) (← moveTo s (st.bufpos + litFalse.length)))
  else if ← atLit s litTrue st.bufpos then
    pure (st.created (st.heap.createBool true) (← moveTo s (st.bufpos + litTrue.length)))
  else pure ⟨false, obj, st⟩

/-- `fail` of a container. -/
def State.fail (st : State F) (container : Ptr) (obj : Option Ptr) : Result F :=
  ⟨false, obj, { st with heap := st.heap.destroy (some container) }⟩

/-- `succeed` of a container, at its closing bracket. -/
def State.succeed (s : List UInt8) (st : State F) (container : Ptr) : Scan (Result F) := do
  pure ⟨true, some container, ← st.advance s⟩

/-- The loop of `parseArray`. -/
def arrayLoop (s : List UInt8) (parse : Parse F) (arr : Ptr) (obj : Option Ptr) :
    ℕ → State F → (item : Option Ptr) → Scan (Result F)
  | 0, _, _ => throw .fuel
  | n + 1, st, item => do
      let st ← st.skipWs s
      if (← rdbuf s st.bufpos) = rbracket then st.succeed s arr
      else do
        let r ← parse st item
        if r.ok then do
          let st ← { r.st with heap := (r.st.heap.append arr r.obj).1 : State F }.skipWs s
          let c ← rdbuf s st.bufpos
          if c = rbracket then st.succeed s arr
          else if c = comma then arrayLoop s parse arr obj n (← st.advance s) r.obj
          else pure (st.fail arr obj)
        else pure (r.st.fail arr obj)

def parseArray (s : List UInt8) (parse : Parse F) (st : State F) (obj : Option Ptr) :
    Scan (Result F) := do
  let (arr, heap) := st.heap.createArray
  arrayLoop s parse arr obj (s.length - st.bufpos) (← { st with heap := heap }.advance s) none

/-- The loop of `parseObject`. -/
def objectLoop (env : Env F) (s : List UInt8) (parse : Parse F) (jobj : Ptr) (obj : Option Ptr) :
    ℕ → State F → (value : Option Ptr) → Scan (Result F)
  | 0, _, _ => throw .fuel
  | n + 1, st, value => do
      let st ← st.skipWs s
      if (← rdbuf s st.bufpos) = rbrace then st.succeed s jobj
      else
        match ← parsePlainString s st.bufpos with
        | none => pure (st.fail jobj obj)
        | some (key, keylen, bufpos) =>
          let st ← { st with bufpos := bufpos : State F }.skipWs s
          if (← rdbuf s st.bufpos) = colon then do
            let st ← st.advance s
            let r ← parse (← st.skipWs s) value
            if r.ok then do
              let heap := (r.st.heap.setProperty env jobj key keylen r.obj).1
              let st ← { r.st with heap := heap : State F }.skipWs s
              let c ← rdbuf s st.bufpos
              if c = rbrace then st.succeed s jobj
              else if c = comma then objectLoop env s parse jobj obj n (← st.advance s) r.obj
              else pure (st.fail jobj obj)
            else pure (r.st.fail jobj obj)
          else pure (st.fail jobj obj)

def parseObject (env : Env F) (s : List UInt8) (parse : Parse F) (st : State F)
    (obj : Option Ptr) : Scan (Result F) := do
  let (jobj, heap) := st.heap.createObject
  objectLoop env s parse jobj obj (s.length - st.bufpos) (← { st with heap := heap }.advance s) none

def parse (env : Env F) (s : List UInt8) : ℕ → Parse F
  | 0, _, _ => throw .fuel
  | n + 1, st, obj => do
      let st ← st.skipWs s
      if st.bufpos = s.length then pure ⟨true, obj, st⟩
      else do
        let c ← rdbuf s st.bufpos
        if c = lbrace then parseObject env s (parse env s n) st obj
        else if c = lbracket then parseArray s (parse env s n) st obj
        else if c = quote then parseString s st obj
        else if c = plus ∨ c = minus ∨ isDigit c then parseNumberNode env s st obj
        else parseLiteral s st obj

/-- `PSC_JsonSerializer_deserialize`: the node it returns, and the heap. -/
def deserialize (env : Env F) (h : Heap F) (json : List UInt8) :
    Scan (Option Ptr × Heap F) := do
  let s := cstr json
  let r ← parse env s (s.length + 1) ⟨0, h⟩ none
  let st ← r.st.skipWs s
  if st.bufpos = s.length then pure (r.obj, st.heap) else pure (none, st.heap.destroy r.obj)

end PoserCore.Json.Cursor
