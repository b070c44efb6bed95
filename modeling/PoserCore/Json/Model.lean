import PoserCore.Dictionary.Model
import PoserCore.Lib.Strtol

/-!
# JSON values and the serializer

`PSC_Json`: nodes on a heap, the functions that build and destroy them, and the functions behind
`PSC_JsonSerializer_serialize`.  A node is named by its index, its identity for as long as the
program runs; the heap also remembers which nodes were put into a container and which were passed to
`PSC_Json_destroy`.  A destroyed node keeps its contents here.

The key strings that `PSC_Json_setProperty` makes are not nodes: an object holds their bytes.  `F`
are the values of type `double`.
-/

namespace PoserCore.Json

open Lib.Strtol (zero minus print)

abbrev Key := Dictionary.Key

/-- The identity of a node. -/
abbrev Ptr := ℕ

/-! ## Characters -/

def quote : UInt8 := 0x22
def backslash : UInt8 := 0x5c
def slash : UInt8 := 0x2f
def comma : UInt8 := 0x2c
def colon : UInt8 := 0x3a
def lbrace : UInt8 := 0x7b
def rbrace : UInt8 := 0x7d
def lbracket : UInt8 := 0x5b
def rbracket : UInt8 := 0x5d
def dot : UInt8 := 0x2e
def upperE : UInt8 := 0x45
def lowerE : UInt8 := 0x65
def lowerU : UInt8 := 0x75

def litNull : List UInt8 := [0x6e, 0x75, 0x6c, 0x6c]
def litFalse : List UInt8 := [0x66, 0x61, 0x6c, 0x73, 0x65]
def litTrue : List UInt8 := [0x74, 0x72, 0x75, 0x65]

/-- `hex`, the digits in both cases. -/
def hex : List UInt8 :=
  [0x30, 0x31, 0x32, 0x33, 0x34, 0x35, 0x36, 0x37, 0x38, 0x39, 0x61, 0x62, 0x63, 0x64, 0x65, 0x66,
    0x41, 0x42, 0x43, 0x44, 0x45, 0x46]

/-- The bytes of a C string. -/
def cstr (s : List UInt8) : List UInt8 := s.takeWhile fun b => b ≠ 0

def strlen (s : List UInt8) : ℕ := (cstr s).length

/-! ## Nodes -/

variable {F : Type}

/-- What the code takes from outside: the hash of the dictionaries, the value `strtod` gives to a
decimal literal, and `"%.15g"`. -/
structure Env (F : Type) where
  hash : Key → UInt64
  strtod : List UInt8 → F
  format : F → List UInt8

inductive Scalar (F : Type)
  | null
  | bool (value : Bool)
  | integer (value : Int64)
  | float (value : F)
  | string (value : List UInt8)

/-- A node; `none` is a `NULL` list or dictionary. -/
inductive Node (F : Type)
  | scalar (x : Scalar F)
  | array (values : Option (List (Option Ptr)))
  | object (keys : Option (List Key)) (values : Option (Dictionary.Dictionary Ptr Unit))

structure Heap (F : Type) where
  nodes : List (Node F)
  /-- Every node appended to an array or set as a property, once for each time. -/
  stored : List Ptr
  /-- Every node passed to `PSC_Json_destroy`, once for each call. -/
  destroyed : List Ptr

def Heap.empty : Heap F := ⟨[], [], []⟩

def Heap.create (h : Heap F) (x : Node F) : Ptr × Heap F :=
  (h.nodes.length, { h with nodes := h.nodes ++ [x] })

def Heap.createNull (h : Heap F) : Ptr × Heap F := h.create (.scalar .null)

def Heap.createBool (h : Heap F) (value : Bool) : Ptr × Heap F := h.create (.scalar (.bool value))

def Heap.createInteger (h : Heap F) (value : Int64) : Ptr × Heap F :=
  h.create (.scalar (.integer value))

def Heap.createFloat (h : Heap F) (value : F) : Ptr × Heap F := h.create (.scalar (.float value))

/-- The bytes of a string given with a length; length 0 means up to the first NUL. -/
def sized (value : List UInt8) (len : ℕ) : List UInt8 :=
  value.take (if len = 0 ∧ value.headD 0 ≠ 0 then strlen value else len)

/-- `PSC_Json_createString`, and its static and owned siblings. -/
def Heap.createString (h : Heap F) (value : List UInt8) (len : ℕ) : Ptr × Heap F :=
  h.create (.scalar (.string (sized value len)))

def Heap.createArray (h : Heap F) : Ptr × Heap F := h.create (.array none)

def Heap.createObject (h : Heap F) : Ptr × Heap F := h.create (.object none none)

/-- The nodes `PSC_Json_destroy` is called on for one call from outside.  A tree is never deeper than
the number of nodes, which bounds the recursion. -/
def destroyFrom (nodes : List (Node F)) : ℕ → Option Ptr → List Ptr
  | 0, _ => []
  | _ + 1, none => []
  | n + 1, some p => p :: match nodes[p]? with
      | some (.array (some items)) => items.flatMap (destroyFrom nodes n)
      | some (.object _ (some values)) => values.destroy.flatMap fun c => destroyFrom nodes n c.2
      | _ => []

def Heap.destroy (h : Heap F) (p : Option Ptr) : Heap F :=
  { h with destroyed := h.destroyed ++ destroyFrom h.nodes h.nodes.length p }

/-- `PSC_Json_append` -/
def Heap.append (h : Heap F) (self : Ptr) (item : Option Ptr) : Heap F × Bool :=
  match h.nodes[self]? with
  | some (.array values) =>
      ({ h with
          nodes := h.nodes.set self (.array (some (values.getD [] ++ [item])))
          stored := h.stored ++ item.toList }, true)
  | _ => (h, false)

/-- `PSC_Json_setProperty`; the dictionary calls `jsonDeleter` on the value it replaces. -/
def Heap.setProperty (env : Env F) (h : Heap F) (self : Ptr) (name : List UInt8) (namelen : ℕ)
    (value : Option Ptr) : Heap F × Bool :=
  match h.nodes[self]? with
  | some (.object keys values) =>
      let key := sized name namelen
      let dict := values.getD (.create env.hash (.all ()))
      let keys := if (dict.get key).isNone then some (keys.getD [] ++ [key]) else keys
      let dict' := dict.set key value .individual
      ({ nodes := h.nodes.set self (.object keys (some dict'))
         stored := h.stored ++ value.toList
         destroyed := h.destroyed ++ (dict'.calls.drop dict.calls.length).flatMap
          fun c => destroyFrom h.nodes h.nodes.length c.2 }, true)
  | _ => (h, false)

/-! ## The output buffer -/

/-- `wrbuf` up to `bufpos`; an owned buffer grows. -/
structure Writer where
  buf : List UInt8
  bufsz : ℕ
  bufowned : Bool

def appendChr (w : Writer) (c : UInt8) : Option Writer :=
  if w.bufowned = false ∧ w.bufsz ≤ w.buf.length + 1 then none
  else some { w with
    buf := w.buf ++ [c]
    bufsz := if w.buf.length = w.bufsz then w.bufsz + 1024 else w.bufsz }

/-- How a serializer function ends: with 0, with -1, by using a `NULL` pointer, or, when its `fuel`
is used up, not at all. -/
inductive Outcome
  | done (w : Writer)
  | full (w : Writer)
  | fault
  | fuel

def Outcome.andThen : Outcome → (Writer → Outcome) → Outcome
  | .done w, k => k w
  | r, _ => r

/-- One `serappend` after the other. -/
def serappend : Writer → List UInt8 → Outcome
  | w, [] => .done w
  | w, c :: cs =>
      match appendChr w c with
      | none => .full w
      | some w => serappend w cs

/-! ## The serializer -/

/-- The bytes written for one byte of a string. -/
def escapeByte (b : UInt8) : List UInt8 :=
  if b = quote ∨ b = backslash then [backslash, b]
  else if b = 0x08 then [backslash, 0x62]
  else if b = 0x0c then [backslash, 0x66]
  else if b = 0x0a then [backslash, 0x6e]
  else if b = 0x0d then [backslash, 0x72]
  else if b = 0x09 then [backslash, 0x74]
  else if b < 0x20 then
    [backslash, lowerU, zero, zero, hex.getD (b >>> 4).toNat 0, hex.getD (b &&& 0xf).toNat 0]
  else [b]

def serializePlainString (w : Writer) (p : List UInt8) : Outcome :=
  serappend w (quote :: p.flatMap escapeByte ++ [quote])

/-- `"%" PRId64` -/
def formatInteger (v : Int64) : List UInt8 :=
  if v.toInt < 0 then minus :: print 10 v.toInt.natAbs else print 10 v.toInt.natAbs

def serializeScalar (env : Env F) (w : Writer) : Scalar F → Outcome
  | .null => serappend w litNull
  | .bool false => serappend w litFalse
  | .bool true => serappend w litTrue
  | .integer v => serappend w (formatInteger v)
  | .float v => serappend w (env.format v)
  | .string p => serializePlainString w p

/-- The loop of `serializeArray` from index `i` on. -/
def serializeItems (serialize : Writer → Option Ptr → Outcome) :
    (i : ℕ) → List (Option Ptr) → Writer → Outcome
  | _, [], w => .done w
  | i, item :: items, w =>
      (serappend w (if i = 0 then [] else [comma])).andThen fun w =>
        (serialize w item).andThen fun w => serializeItems serialize (i + 1) items w

/-- The loop of `serializeObject` for `n` more indices from `i` on. -/
def serializeMembers (serialize : Writer → Option Ptr → Outcome) (keys : Option (List Key))
    (values : Dictionary.Dictionary Ptr Unit) : (n i : ℕ) → Writer → Outcome
  | 0, _, w => .done w
  | n + 1, i, w =>
      match keys.bind fun keys => keys[i]? with
      | none => .fault
      | some key =>
          (serappend w (if i = 0 then [] else [comma])).andThen fun w =>
            (serializePlainString w key).andThen fun w =>
              (serappend w [colon]).andThen fun w =>
                (serialize w (values.get key)).andThen fun w =>
                  serializeMembers serialize keys values n (i + 1) w

def serialize (env : Env F) (nodes : List (Node F)) : ℕ → Writer → Option Ptr → Outcome
  | 0, _, _ => .fuel
  | _ + 1, _, none => .fault
  | n + 1, w, some p =>
      match nodes[p]? with
      | none => .fault
      | some (.scalar x) => serializeScalar env w x
      | some (.array values) =>
          (serappend w [lbracket]).andThen fun w =>
            match values with
            | none => .fault
            | some items =>
                (serializeItems (serialize env nodes n) 0 items w).andThen fun w =>
                  serappend w [rbracket]
      | some (.object keys values) =>
          (serappend w [lbrace]).andThen fun w =>
            match values with
            | none => .fault
            | some values =>
                (serializeMembers (serialize env nodes n) keys values values.count 0 w).andThen
                  fun w => serappend w [rbrace]

/-- The buffer `PSC_JsonSerializer_serialize` starts with. -/
def Writer.empty : Writer := ⟨[], 0, true⟩

/-- `PSC_JsonSerializer_serialize`: the C string it returns. -/
def jsonSerialize (env : Env F) (nodes : List (Node F)) (fuel : ℕ) (value : Ptr) :
    Option (List UInt8) :=
  match serialize env nodes fuel .empty (some value) with
  | .done w | .full w => some (w.buf ++ [0])
  | _ => none

end PoserCore.Json
