import PoserCore.Lib.Strtol

/-!
# IP addresses

`PSC_IpAddr`: an address or network of one of the two protocols.  Its bytes are kept in an array of
16, of which an IPv4 address uses the last four.  Strings are the bytes before their NUL; the
functions of the C library are those of `Lib.Strtol`.

The reference counter of an object is not modelled.
-/

namespace PoserCore.IpAddr

set_option linter.dupNamespace false

open Lib.Strtol (strtol print)

def dot : UInt8 := 0x2e
def slash : UInt8 := 0x2f
def colon : UInt8 := 0x3a

inductive Proto
  | any
  | ipv4
  | ipv6
  deriving DecidableEq

structure IpAddr where
  proto : Proto
  prefixlen : ℕ
  /-- `none` where the field is not initialized. -/
  port : Option ℤ
  data : List UInt8
  str : List UInt8
  deriving DecidableEq

/-! ## Parsing -/

/-- The loop of `parsev4`, with `n + 1` numbers to go. -/
def parsev4Loop : (n : ℕ) → (bufp : List UInt8) → Option (List UInt8)
  | n, bufp =>
      match strtol 10 bufp with
      | none => none
      | some c =>
          if (n = 0 ∧ c.rest ≠ [] ∨ n ≠ 0 ∧ c.rest.head? ≠ some dot) ∨ c.erange ∨ c.value < 0 ∨
              c.value > 255 then none
          else
            let byte := UInt8.ofNat c.value.toNat
            match n with
            | 0 => some [byte]
            | n + 1 => (parsev4Loop n c.rest.tail).map (byte :: ·)

/-- `parsev4`: the bytes from `data + 12` on -/
def parsev4 (buf : List UInt8) : Option (List UInt8) := parsev4Loop 3 buf

/-- The two bytes of a word go to `data`, or to `taildat` once `taillen` is not -1. -/
def store (word : ℕ) (head : List UInt8) : Option (List UInt8) → List UInt8 × Option (List UInt8)
  | none => (head ++ [UInt8.ofNat (word >>> 8), UInt8.ofNat (word &&& 0xff)], none)
  | some tail => (head, some (tail ++ [UInt8.ofNat (word >>> 8), UInt8.ofNat (word &&& 0xff)]))

/-- A colon that is not followed by another one is skipped. -/
def skipColon (buf : List UInt8) : List UInt8 :=
  if buf.head? = some colon ∧ buf[1]? ≠ some colon then buf.tail else buf

/-- The loop of `parsev6`, with at most `n` passes.  `head` are the bytes in `data`, `tail` those in
`taildat`, which is `none` as long as `taillen` is -1. -/
def parsev6Loop : (n : ℕ) → (head : List UInt8) → (tail : Option (List UInt8)) →
    (buf : List UInt8) → Option (List UInt8 × Option (List UInt8))
  | 0, _, _, _ => none
  | n + 1, head, tail, buf =>
      if buf = [] then some (head, tail)
      else if tail = none ∧ buf.head? = some colon ∧ buf[1]? = some colon then
        parsev6Loop n head (some []) (buf.drop 2)
      else
        match strtol 16 buf with
        | none => none
        | some c =>
            if (c.rest ≠ [] ∧ c.rest.head? ≠ some colon) ∨ c.erange ∨ c.value < 0 ∨
                c.value > 0xffff then none
            else if 16 ≤ head.length + (tail.getD []).length then none
            else
              let stored := store c.value.toNat head tail
              parsev6Loop n stored.1 stored.2 (skipColon c.rest)

/-- `data` in the end: the bytes of the head in front, those of the tail at the end. -/
def place (head : List UInt8) (tail : Option (List UInt8)) : List UInt8 :=
  let tail := tail.getD []
  (head ++ List.replicate (16 - head.length) 0).take (16 - tail.length) ++ tail

/-- `parsev6` -/
def parsev6 (buf : List UInt8) : Option (List UInt8) :=
  (parsev6Loop (buf.length + 1) [] none buf).map fun r => place r.1 r.2

/-! ## Formatting -/

/-- `word[i]` -/
def word (data : List UInt8) (i : ℕ) : ℕ :=
  (data.getD (2 * i) 0).toNat <<< 8 ||| (data.getD (2 * i + 1) 0).toNat

/-- `gap` and `gaplen` -/
def findGap (word : ℕ → ℕ) : ℕ × ℕ :=
  (List.range 8).foldl (fun (gap, gaplen) i =>
    if word i = 0 then if i > gap + gaplen then (i, 1) else (gap, gaplen + 1) else (gap, gaplen)) (0, 0)

/-- The loop that prints the words from `i` on, with at most `n` passes. -/
def printWords (word : ℕ → ℕ) (gap gaplen : ℕ) : (n i : ℕ) → (needcolon : Bool) → List UInt8
  | 0, _, _ => []
  | n + 1, i, needcolon =>
      if 8 ≤ i then []
      else if i = gap ∧ 0 < gaplen then
        colon :: colon :: printWords word gap gaplen n (i + gaplen) false
      else (if needcolon then [colon] else []) ++ print 16 (word i) ++
        printWords word gap gaplen n (i + 1) true

/-- `toString`: the string it stores -/
def toString (proto : Proto) (prefixlen : ℕ) (data : List UInt8) : List UInt8 :=
  if proto = .ipv4 then
    let byte i := print 10 (data.getD i 0).toNat
    byte 12 ++ dot :: byte 13 ++ dot :: byte 14 ++ dot :: byte 15 ++
      if prefixlen < 32 then slash :: print 10 prefixlen else []
  else
    let gap := findGap (word data)
    printWords (word data) gap.1 gap.2 9 0 false ++
      if prefixlen < 128 then slash :: print 10 prefixlen else []

/-- A new object -/
def new (proto : Proto) (prefixlen : ℕ) (port : Option ℤ) (data : List UInt8) : IpAddr where
  proto := proto
  prefixlen := prefixlen
  port := port
  data := data
  str := toString proto prefixlen data

/-! ## Constructors -/

inductive SockAddr
  | inet (addr : Fin 4 → UInt8) (port : UInt16)
  | inet6 (addr : Fin 16 → UInt8) (port : UInt16)
  | other

/-- `PSC_IpAddr_fromSockAddr` -/
def fromSockAddr : SockAddr → Option IpAddr
  | .inet addr port => some (new .ipv4 32 (some port.toNat) (List.replicate 12 0 ++ List.ofFn addr))
  | .inet6 addr port => some (new .ipv6 128 (some port.toNat) (List.ofFn addr))
  | .other => none

/-- What is in front of the first slash, and what is behind it if there is one. -/
def splitPrefix (str : List UInt8) : List UInt8 × Option (List UInt8) :=
  (str.takeWhile (· ≠ slash),
    match str.dropWhile (· ≠ slash) with
    | [] => none
    | _ :: prstr => some prstr)

/-- The prefix length behind a slash. -/
def parsePrefix (prstr : List UInt8) : Option ℕ :=
  match strtol 10 prstr with
  | none => none
  | some c => if c.rest ≠ [] ∨ c.erange ∨ c.value < 0 ∨ c.value > 128 then none else some c.value.toNat

/-- The address in front of the slash. -/
def parseAddr (buf : List UInt8) (prefixlen : Option ℕ) : Option IpAddr :=
  match parsev4 buf with
  | some bytes =>
      match prefixlen with
      | none => some (new .ipv4 32 (some (-1)) (List.replicate 12 0 ++ bytes))
      | some n =>
          if n > 32 then none else some (new .ipv4 n (some (-1)) (List.replicate 12 0 ++ bytes))
  | none => (parsev6 buf).map fun data => new .ipv6 (prefixlen.getD 128) (some (-1)) data

/-- `PSC_IpAddr_create` -/
def create (str : List UInt8) : Option IpAddr :=
  if str.length < 2 ∨ str.length > 43 then none
  else
    match splitPrefix str with
    | (buf, none) => parseAddr buf none
    | (buf, some prstr) => (parsePrefix prstr).bind fun n => parseAddr buf (some n)

/-! ## Comparing -/

/-- `PSC_IpAddr_raw`, up to the length `PSC_IpAddr_rawLen` -/
def raw (self : IpAddr) : List UInt8 :=
  match self.proto with
  | .ipv4 => (self.data.drop 12).take 4
  | _ => self.data.take 16

/-- `PSC_IpAddr_equals` -/
def equals (self other : IpAddr) : Bool :=
  if self.proto ≠ other.proto then false
  else if self.prefixlen ≠ other.prefixlen then false
  else self.data.take 16 = other.data.take 16

/-- `PSC_IpAddr_matches` -/
def matchesPrefix (self other : IpAddr) : Bool :=
  if self.proto ≠ other.proto then false
  else if self.prefixlen < other.prefixlen then false
  else
    let bytes := other.prefixlen / 8
    if self.data.take bytes ≠ other.data.take bytes then false
    else
      let bits := other.prefixlen % 8
      if bits = 0 then true
      else
        let mask : UInt8 := .ofNat (0xff <<< (8 - bits))
        self.data.getD bytes 0 &&& mask = other.data.getD bytes 0 &&& mask

/-! ## Converting -/

/-- `PSC_IpAddr_tov4` -/
def tov4 (self : IpAddr) (prefixes : List IpAddr) : Option IpAddr :=
  if self.prefixlen < 96 then none
  else if prefixes.any fun p => p.prefixlen = 96 && matchesPrefix self p then
    some (new .ipv4 (self.prefixlen - 96) (some (-1))
      (List.replicate 12 0 ++ (self.data.drop 12).take 4))
  else none

/-- `PSC_IpAddr_tov6` -/
def tov6 (self p : IpAddr) : Option IpAddr :=
  if self.proto ≠ .ipv4 ∨ p.prefixlen ≠ 96 then none
  else some (new .ipv6 (self.prefixlen + 96) none (p.data.take 12 ++ (self.data.drop 12).take 4))

/-- The objects the functions of the class produce. -/
inductive Produced : IpAddr → Prop
  | create {s : List UInt8} {a : IpAddr} (h : create s = some a) : Produced a
  | fromSockAddr {sa : SockAddr} {a : IpAddr} (h : fromSockAddr sa = some a) : Produced a
  | tov4 {self a : IpAddr} {prefixes : List IpAddr} (hs : Produced self)
      (hp : ∀ p ∈ prefixes, Produced p) (h : tov4 self prefixes = some a) : Produced a
  | tov6 {self p a : IpAddr} (hs : Produced self) (hp : Produced p) (h : tov6 self p = some a) :
      Produced a

end PoserCore.IpAddr
