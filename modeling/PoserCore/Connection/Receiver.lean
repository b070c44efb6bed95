import PoserCore.Lib.Buffer
import PoserCore.Lib.Machine

/-!
# The receiving side of a connection

`doread` appends what the transport delivers to the read buffer, and `raisereceivedevents` takes the
buffer apart into `dataReceived` events: in binary mode everything or the expected number of bytes,
in text mode what a locator finds, terminated in place by a NUL whose character is kept in
`rdtextsave`.  A handler may mark the data as being handled, which stops both functions until
`PSC_Connection_confirmDataReceived`.

The handlers run in the middle of these functions and may switch the mode, mark and confirm, so the
functions are taken apart there and `frames` is the stack of those that are running.  A read may be
announced whenever none is, which covers every order in which the service calls `readConnection` and
`writeConnection`; the calls of these that go on with a handshake, a shutdown or a write do not touch
the read buffer and are left out, and so is the registration for events.  For a pipe the buffer has
another address, nothing else.

A confirmation inside a handler starts `raisereceivedevents` again before `rdbufpos` is advanced, and
can leave it behind `rdbufused`.  The difference of the two then wraps and the code leaves its
buffer, so no step is described from there.

`received` and `log` record what was read and what was done with it, and `held` the chunks marked
since nothing was being handled.
-/

namespace PoserCore.Connection.Receive

open Lib (Machine)
open Lib.Buffer (slice store)

/-! ## C strings -/

def cr : UInt8 := 13

def lf : UInt8 := 10

/-- The C string that starts at `off`, in memory that ends at `bound`. -/
def cstr (m : ℕ → UInt8) (off bound : ℕ) : List UInt8 :=
  (slice m off (bound - off)).takeWhile (· ≠ 0)

/-- `strchr` as an offset -/
def strchr (str : List UInt8) (c : UInt8) : Option ℕ := str.findIdx? (· = c)

/-- `strstr` as an offset -/
def strstr (str pat : List UInt8) : Option ℕ :=
  match str with
  | [] => if pat = [] then some 0 else none
  | c :: cs => if pat.isPrefixOf (c :: cs) then some 0 else (strstr cs pat).map (· + 1)

/-- `PSC_MessageEndLocator`: the offset of the end of the message in a C string, if it has one -/
abbrev Locator := List UInt8 → Option ℕ

def locateeol : Locator := fun str =>
  match strstr str [cr, lf] with
  | some result => some (result + 2)
  | none =>
    match strchr str lf with
    | some result => some (result + 1)
    | none => (strchr str cr).map (· + 1)

/-! ## The connection -/

/-- `PSC_EADataReceived`, with offsets in the read buffer for pointers -/
structure DataReceived where
  size : ℕ
  buf : Option ℕ
  text : Option ℕ
  handling : ℕ

/-- What a suspended `SSL_read_ex` waits for. -/
inductive TlsWant
  | nothing
  | read
  | write
  deriving DecidableEq

/-- A running function: `doread` at its read, `raisereceivedevents` at the head of its loop or in the
handlers of an event with `len` bytes, and what waits for it: the loop of `doread` over a TLS
connection (`again` if the last read filled the buffer) and `PSC_Connection_confirmDataReceived`. -/
inductive Frame
  | reading
  | looping
  | handlers (len : ℕ)
  | tlsRead (again : Bool)
  | confirming
  deriving DecidableEq

/-- What `raisereceivedevents` did with received bytes. -/
inductive Item
  | binary (expected : ℕ) (data : List UInt8)
  | text (data : List UInt8)
  | skipped (nuls : ℕ)
  deriving DecidableEq

/-- A chunk marked as being handled: where it is and what it holds. -/
structure Chunk where
  start : ℕ
  bytes : List UInt8
  deriving DecidableEq

structure Conn where
  tls : Bool
  rdlocator : Option Locator
  rdbufsz : ℕ
  rdbufused : ℕ
  rdbufpos : ℕ
  rdexpect : ℕ
  args : DataReceived
  tlsReadSt : TlsWant
  tlsReadagain : Bool
  deleteScheduled : Bool
  rdtextsave : UInt8
  rdbuf : ℕ → UInt8
  frames : List Frame
  received : List UInt8
  log : List Item
  held : List Chunk

/-- `PSC_Connection_create`, in memory that holds `mem` -/
def Conn.create (tls : Bool) (rdbufsz : ℕ) (mem : ℕ → UInt8) : Conn where
  tls := tls
  rdlocator := none
  rdbufsz := rdbufsz
  rdbufused := 0
  rdbufpos := 0
  rdexpect := 0
  args := ⟨0, none, none, 0⟩
  tlsReadSt := .nothing
  tlsReadagain := false
  deleteScheduled := false
  rdtextsave := 0
  rdbuf := store mem rdbufsz [0]
  frames := []
  received := []
  log := []
  held := []

/-! ## The receive mode -/

/-- `PSC_Connection_receiveBinary`, with -1 leaving everything as it is -/
def Conn.receiveBinary (self : Conn) (expected : ℕ) : Conn :=
  if self.rdbufsz < expected then self
  else { self with rdlocator := none, rdexpect := expected }

/-- `PSC_Connection_receiveText` -/
def Conn.receiveText (self : Conn) (locator : Locator) : Conn :=
  { self with rdlocator := some locator }

/-- `PSC_Connection_receiveLine` -/
def Conn.receiveLine (self : Conn) : Conn := self.receiveText locateeol

/-! ## `raisereceivedevents` -/

/-- The number of bytes not taken yet. -/
def Conn.left (self : Conn) : ℕ := self.rdbufused - self.rdbufpos

/-- The C string at `off` in the read buffer, which ends with a byte for a NUL. -/
def Conn.str (self : Conn) (off : ℕ) : List UInt8 := cstr self.rdbuf off (self.rdbufsz + 1)

/-- Put the character back that the terminator of the last text replaced. -/
def Conn.restoreText (self : Conn) : Conn :=
  if self.rdtextsave = 0 then self
  else { self with rdbuf := store self.rdbuf self.rdbufpos [self.rdtextsave], rdtextsave := 0 }

/-- The number of NULs before the next text. -/
def Conn.nuls (self : Conn) : ℕ :=
  ((slice self.rdbuf self.rdbufpos self.left).takeWhile (· = 0)).length

def Conn.skipNuls (self : Conn) : Conn :=
  { self with
    rdbufpos := self.rdbufpos + self.nuls
    log := self.log ++ [.skipped self.nuls] }

/-- The length of the next text, if it is complete or the buffer is full. -/
def Conn.textLength (self : Conn) (locator : Locator) : Option ℕ :=
  match locator (self.str self.rdbufpos) with
  | some len => some (if len > self.left then self.left else len)
  | none =>
    if self.rdbufpos ≠ 0 ∨ self.rdbufused < self.rdbufsz then none
    else some (self.str self.rdbufpos).length

/-- The length of the next binary data, if there is enough. -/
def Conn.binaryLength (self : Conn) : Option ℕ :=
  if self.rdexpect ≠ 0 then
    if self.rdexpect > self.left then none else some self.rdexpect
  else some self.left

/-- Terminate the text in place. -/
def Conn.cutText (self : Conn) (len : ℕ) : Conn :=
  { self with
    rdtextsave := self.rdbuf (self.rdbufpos + len)
    rdbuf := store self.rdbuf (self.rdbufpos + len) [0]
    args := { self.args with size := 0, buf := none, text := some self.rdbufpos } }

/-- Enter the handlers of `dataReceived` with a text. -/
def Conn.raiseText (self : Conn) (len : ℕ) : Conn :=
  let self := self.cutText len
  { self with
    frames := .handlers len :: self.frames.tail
    log := self.log ++ [.text (self.str self.rdbufpos)] }

/-- Enter the handlers of `dataReceived` with binary data. -/
def Conn.raiseBinary (self : Conn) (len : ℕ) : Conn :=
  { self with
    args := { self.args with size := len, buf := some self.rdbufpos, text := none }
    frames := .handlers len :: self.frames.tail
    log := self.log ++ [.binary self.rdexpect (slice self.rdbuf self.rdbufpos len)] }

/-- What is left has to wait for more data behind it. -/
def Conn.compacts (self : Conn) : Bool :=
  self.rdbufused ≠ 0 && (self.rdlocator.isSome || decide (self.left < self.rdexpect))

/-- Move what is left to the start of the buffer. -/
def Conn.compact (self : Conn) : Conn :=
  if self.compacts then
    { self with
      rdbuf := store (store self.rdbuf 0 (slice self.rdbuf self.rdbufpos self.left)) self.left [0]
      rdbufused := self.left
      rdbufpos := 0 }
  else self

/-- The end of `raisereceivedevents`. -/
def Conn.leave (self : Conn) : Conn :=
  { self.compact with frames := self.frames.tail }

/-- The loop of `raisereceivedevents` from its head to the next event, or to its end. -/
def Conn.pass (self : Conn) : Conn :=
  if self.args.handling ≠ 0 ∨ self.rdbufused = 0 then self.leave
  else
    let self := self.restoreText
    match self.rdlocator with
    | some locator =>
      let self := self.skipNuls
      if self.rdbufpos = self.rdbufused then
        ({ self with rdbufused := 0, rdbufpos := 0 } : Conn).leave
      else
        match self.textLength locator with
        | some len => self.raiseText len
        | none => self.leave
    | none =>
      match self.binaryLength with
      | some len => self.raiseBinary len
      | none => self.leave

/-- What the loop leaves alone, but for the data of an event. -/
def Conn.context (self : Conn) : ℕ × Option Locator × List UInt8 × ℕ × List Chunk × Bool :=
  (self.rdbufsz, self.rdlocator, self.received, self.args.handling, self.held, self.deleteScheduled)

theorem context_restoreText (s : Conn) : s.restoreText.context = s.context := by
  unfold Conn.restoreText
  split <;> rfl

theorem context_leave (s : Conn) : s.leave.context = s.context := by
  unfold Conn.leave Conn.compact
  split <;> rfl

theorem context_pass (s : Conn) : s.pass.context = s.context := by
  unfold Conn.pass
  split
  · exact context_leave s
  · refine Eq.trans ?_ (context_restoreText s)
    generalize s.restoreText = t
    dsimp only
    split
    · split
      · exact context_leave _
      · split
        · rfl
        · exact context_leave _
    · split
      · rfl
      · exact context_leave _

/-- The handlers of an event with `len` bytes have returned. -/
def Conn.advance (self : Conn) (len : ℕ) : Conn :=
  let pos := self.rdbufpos + len
  { self with
    rdbufpos := if pos = self.rdbufused then 0 else pos
    rdbufused := if pos = self.rdbufused then 0 else self.rdbufused
    frames := .looping :: self.frames.tail }

/-! ## `doread` -/

/-- Begin to read, above the functions `rest`. -/
def Conn.doread (self : Conn) (rest : List Frame) : Conn :=
  { self with tlsReadagain := false, frames := .reading :: rest }

/-- The transport delivers `bs`, which `doread` appends. -/
def Conn.append (self : Conn) (bs : List UInt8) (rest : List Frame) : Conn :=
  let wantsz := self.rdbufsz - self.rdbufused
  let used := self.rdbufused + bs.length
  { self with
    tlsReadSt := if self.tls then .nothing else self.tlsReadSt
    rdbufused := used
    rdbuf := store (store self.rdbuf self.rdbufused bs) used [0]
    frames := .looping :: (if self.tls then [.tlsRead (bs.length = wantsz)] else []) ++ rest
    received := self.received ++ bs }

/-- The loop of `doread` over a TLS connection after the events of a read. -/
def Conn.afterRead (self : Conn) (again : Bool) (rest : List Frame) : Conn :=
  let readagain := again || self.tlsReadagain
  if readagain ∧ self.args.handling = 0 then self.doread rest
  else { self with tlsReadagain := readagain, frames := rest }

/-! ## Handling -/

/-- The data of the current event: `args.buf` or the C string `args.text` with its NUL. -/
def Conn.chunk (self : Conn) : Chunk :=
  match self.args.text with
  | some off => ⟨off, slice self.rdbuf off ((self.str off).length + 1)⟩
  | none => ⟨self.args.buf.getD 0, slice self.rdbuf (self.args.buf.getD 0) self.args.size⟩

/-- `PSC_EADataReceived_markHandling` -/
def Conn.markHandling (self : Conn) : Conn :=
  { self with
    args := { self.args with handling := self.args.handling + 1 }
    held := self.held ++ [self.chunk] }

/-- `PSC_Connection_confirmDataReceived` up to its call of `raisereceivedevents`. -/
def Conn.confirmDataReceived (self : Conn) : Conn :=
  if self.args.handling = 0 then self
  else
    let self := { self with args := { self.args with handling := self.args.handling - 1 } }
    if self.args.handling ≠ 0 then self
    else { self with held := [], frames := .looping :: .confirming :: self.frames }

/-! ## The machine -/

inductive Act
  | readyRead
  | readyWrite
  | readData (bs : List UInt8)
  | readBlocks (want : TlsWant)
  | readFails
  | loop
  | handlersReturn
  | proceed
  | receiveBinary (expected : ℕ)
  | receiveText (locator : Locator)
  | receiveLine
  | markHandling
  | confirmDataReceived
  | close

/-- Code of the user runs: handlers of `dataReceived`, or whatever else the service calls. -/
def Conn.atUser (self : Conn) : Bool :=
  match self.frames with
  | [] => true
  | .handlers _ :: _ => true
  | _ => false

def Conn.step (self : Conn) : Act → Option Conn
  | .readyRead =>
    -- `readConnection`
    if self.frames = [] ∧ self.deleteScheduled = false then
      if self.args.handling ≠ 0 then some { self with tlsReadSt := .nothing }
      else some (self.doread [])
    else none
  | .readyWrite =>
    -- `writeConnection`, which does not look at `handling`
    if self.frames = [] ∧ self.tls ∧ self.tlsReadSt = .write then some (self.doread []) else none
  | .readData bs =>
    match self.frames with
    | .reading :: rest =>
      if 0 < bs.length ∧ bs.length ≤ self.rdbufsz - self.rdbufused then some (self.append bs rest)
      else none
    | _ => none
  | .readBlocks want =>
    match self.frames with
    | .reading :: rest =>
      some { self with frames := rest, tlsReadSt := if self.tls then want else self.tlsReadSt }
    | _ => none
  | .readFails =>
    match self.frames with
    | .reading :: rest => some { self with frames := rest, deleteScheduled := true }
    | _ => none
  | .loop =>
    match self.frames with
    | .looping :: _ =>
      if self.rdbufused ≠ 0 ∧ self.rdbufused < self.rdbufpos then none else some self.pass
    | _ => none
  | .handlersReturn =>
    match self.frames with
    | .handlers len :: _ => some (self.advance len)
    | _ => none
  | .proceed =>
    match self.frames with
    | .tlsRead again :: rest => some (self.afterRead again rest)
    | .confirming :: rest =>
      some (if self.tlsReadagain then self.doread rest else { self with frames := rest })
    | _ => none
  | .receiveBinary expected => if self.atUser then some (self.receiveBinary expected) else none
  | .receiveText locator => if self.atUser then some (self.receiveText locator) else none
  | .receiveLine => if self.atUser then some self.receiveLine else none
  | .markHandling =>
    match self.frames with
    | .handlers _ :: _ => some self.markHandling
    | _ => none
  | .confirmDataReceived => if self.atUser then some self.confirmDataReceived else none
  | .close => if self.atUser then some { self with deleteScheduled := true } else none

def machine (tls : Bool) (rdbufsz : ℕ) : Machine Conn Act where
  init s := ∃ mem, s = Conn.create tls rdbufsz mem
  step := Conn.step

theorem init_create (tls : Bool) (rdbufsz : ℕ) :
    (machine tls rdbufsz).init (.create tls rdbufsz fun _ => 0) := ⟨_, rfl⟩

end PoserCore.Connection.Receive
