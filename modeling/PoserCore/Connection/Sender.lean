import Mathlib.Algebra.Group.Nat.Defs
import PoserCore.Lib.Buffer
import PoserCore.Lib.Machine

/-!
# The sending side of a connection

`PSC_Connection_sendAsync` queues records, `dowrite` copies them to a staging buffer and writes from
it, `PSC_Connection_close` schedules the deletion and `PSC_Connection_destroy` ends it.  An id is
whatever the caller passed, `none` for `NULL`.

The handlers of `dataSent` and `closed` run in the middle of these functions and may send and close,
so a function that raises an event is taken apart there: `control` says where the service is, and
`closing` how many calls of `PSC_Connection_close` wait for the handlers of `closed` to return.  The
service may call `dowrite` whenever there is something to send, which covers `tryWrite` and
`writeConnection`, and with TLS also `readConnection`, which does not look at the queue; registration
for events is left out.  Whether the connection is still being
established or shut down only decides whether data is accepted, and is set from outside.

`calls` and `wire` record what was accepted for sending and what the transport took, and `raised` the
`dataSent` events; the number of the call in a record serves these only.
-/

namespace PoserCore.Connection.Send

open Lib (Machine)
open Lib.Buffer (slice store)

/-- `WRBUFSZ` -/
def wrbufsz : ℕ := 16 * 1024

/-- `NWRITERECS` -/
def nwriterecs : ℕ := 16

inductive ConnectionType
  | socket
  | pipeRd
  | pipeWr
  deriving DecidableEq

abbrev Id := ℕ

/-- `WriteRecord`; `wrbuf` is the caller's buffer, so its length is the `wrbuflen` of the record. -/
structure WriteRecord where
  wrbuf : List UInt8
  id : Option Id
  wrbufpos : ℕ
  /-- The number of the call that made the record. -/
  call : ℕ

structure WriteNotifyRecord where
  id : Option Id
  wrbufpos : ℕ
  call : ℕ

/-- Where the service is: in its loop, in the loop of `dowrite` over the notifications, in the two
loops of `PSC_Connection_destroy`, in the handlers of the `closed` event raised there, or after it.
`fault` is a write from outside of the buffer. -/
inductive Control
  | idle
  | notifying (notno : ℕ)
  | flushNotify (notno : ℕ)
  | flushRecs (recno : ℕ)
  | closed
  | gone
  | fault
  deriving DecidableEq

/-- A `dataSent` event: for which call, with which id, how many bytes the transport had taken, and
whether the connection had failed or was being destroyed. -/
structure Raised where
  call : ℕ
  id : Id
  sent : ℕ
  ending : Bool
  deriving DecidableEq

structure Conn where
  type : ConnectionType
  tls : Bool
  connectTimer : Bool
  tlsConnectTimer : Bool
  tlsShutdownSt : Bool
  deleteScheduled : ℕ
  wrbuf : ℕ → UInt8
  wrbuflen : ℕ
  wrbufpos : ℕ
  writerecs : List WriteRecord
  writenotify : List WriteNotifyRecord
  control : Control
  closing : ℕ
  /-- A write or a read failed. -/
  failed : Bool
  calls : List (List UInt8 × Option Id)
  wire : List UInt8
  raised : List Raised

/-- `PSC_Connection_create` -/
def Conn.create (type : ConnectionType) (tls connectTimer tlsConnectTimer : Bool) : Conn where
  type := type
  tls := tls
  connectTimer := connectTimer
  tlsConnectTimer := tlsConnectTimer
  tlsShutdownSt := false
  deleteScheduled := 0
  wrbuf := fun _ => 0
  wrbuflen := 0
  wrbufpos := 0
  writerecs := []
  writenotify := []
  control := .idle
  closing := 0
  failed := false
  calls := []
  wire := []
  raised := []

/-! ## Sending -/

/-- `PSC_Connection_sendAsync` accepts data. -/
def Conn.accepts (self : Conn) : Bool :=
  decide (self.type ≠ .pipeRd) && decide (self.deleteScheduled = 0) && !self.connectTimer &&
    !self.tlsConnectTimer && !self.tlsShutdownSt && decide (self.writerecs.length ≠ nwriterecs)

/-- `PSC_Connection_sendAsync`, with -1 leaving everything as it is -/
def Conn.sendAsync (self : Conn) (buf : List UInt8) (id : Option Id) : Conn :=
  if self.accepts then
    { self with
      writerecs := self.writerecs ++ [⟨buf, id, 0, self.calls.length⟩]
      calls := self.calls ++ [(buf, id)] }
  else self

/-! ## Writing -/

/-- What the staging loop of `dowrite` works on. -/
structure Staging where
  wrbuf : ℕ → UInt8
  wrbuflen : ℕ
  writenotify : List WriteNotifyRecord

/-- The part of a record that is not staged yet. -/
def WriteRecord.rest (r : WriteRecord) : List UInt8 := r.wrbuf.drop r.wrbufpos

/-- How much of a record fits behind `wrbuflen` staged bytes. -/
def WriteRecord.chunklen (r : WriteRecord) (wrbuflen : ℕ) : ℕ :=
  if r.wrbuf.length - r.wrbufpos + wrbuflen > wrbufsz then wrbufsz - wrbuflen
  else r.wrbuf.length - r.wrbufpos

/-- The `memcpy` of the staging loop. -/
def Staging.copy (st : Staging) (r : WriteRecord) : Staging :=
  { st with
    wrbuf := store st.wrbuf st.wrbuflen (r.rest.take (r.chunklen st.wrbuflen))
    wrbuflen := (st.wrbuflen + r.chunklen st.wrbuflen) % 2 ^ 16 }

/-- The notification for a record that is staged to its end. -/
def Staging.note (st : Staging) (r : WriteRecord) : Staging :=
  if r.id.isSome then
    { st with writenotify := st.writenotify ++ [⟨r.id, st.wrbuflen, r.call⟩] }
  else st

/-- The staging loop of `dowrite`: what it stages, and the records it leaves. -/
def stage : List WriteRecord → Staging → Staging × List WriteRecord
  | [], st => (st, [])
  | r :: rs, st =>
      if st.wrbuflen < wrbufsz then
        if r.wrbufpos + r.chunklen st.wrbuflen ≠ r.wrbuf.length then
          (st.copy r, { r with wrbufpos := r.wrbufpos + r.chunklen st.wrbuflen } :: rs)
        else stage rs ((st.copy r).note r)
      else (st, r :: rs)

/-- The first part of `dowrite`. -/
def Conn.fill (self : Conn) : Conn :=
  if self.writerecs ≠ [] ∧ self.wrbuflen = 0 then
    let r := stage self.writerecs ⟨self.wrbuf, self.wrbuflen, []⟩
    { self with
      wrbuf := r.1.wrbuf
      wrbuflen := r.1.wrbuflen
      writenotify := r.1.writenotify
      writerecs := r.2 }
  else self

/-- The first notification that is not done. -/
def firstNotify : List WriteNotifyRecord → ℕ
  | [] => 0
  | n :: ns => if n.id.isNone then firstNotify ns + 1 else 0

/-- What `write`, or `SSL_write_ex`, did. -/
inductive WriteResult
  | wrote (n : ℕ)
  | wouldBlock
  | failed

/-- `PSC_Connection_close`, up to the handlers of `closed` -/
def Conn.close (self : Conn) : Conn :=
  if self.deleteScheduled = 0 then { self with closing := self.closing + 1 } else self

/-- What a failed write or read does before it closes the connection. -/
def Conn.fail (self : Conn) : Conn :=
  { self with writerecs := [], wrbuflen := 0, failed := true }.close

/-- `dowrite`, up to its loop over the notifications -/
def Conn.dowrite (self : Conn) (res : WriteResult) : Option Conn :=
  let self := self.fill
  if self.wrbuflen < self.wrbufpos then some { self with control := .fault }
  else
    match res with
    | .wrote n =>
        if n ≤ self.wrbuflen - self.wrbufpos then
          some { self with
            wire := self.wire ++ slice self.wrbuf self.wrbufpos n
            wrbufpos := (self.wrbufpos + n) % 2 ^ 16
            control := .notifying (firstNotify self.writenotify) }
        else none
    | .wouldBlock => some self
    | .failed => some self.fail

/-- A `dataSent` event. -/
def Conn.raise (self : Conn) (n : WriteNotifyRecord) (ending : Bool) : Conn :=
  { self with raised := self.raised ++
      (n.id.map fun id => ⟨n.call, id, self.wire.length, ending⟩).toList }

/-- After the loop of `dowrite` over the notifications -/
def Conn.written (self : Conn) : Conn :=
  if self.wrbufpos < self.wrbuflen then { self with control := .idle }
  else { self with control := .idle, wrbuflen := 0, wrbufpos := 0, writenotify := [] }

/-- The rest of `dowrite`: one pass of the loop, in which only TLS marks the notification as done, or
what follows it. -/
def Conn.notify (self : Conn) (notno : ℕ) : Conn :=
  match self.writenotify[notno]? with
  | some n =>
      if n.wrbufpos ≤ self.wrbufpos then
        { self.raise n self.failed with
          control := .notifying (notno + 1)
          writenotify :=
            if self.tls then self.writenotify.set notno { n with id := none }
            else self.writenotify }
      else self.written
  | none => self.written

/-! ## The end -/

/-- `deleteConnection`; `shutdown` says that `SSL_shutdown` has to wait for the peer. -/
def Conn.deleteConnection (self : Conn) (shutdown : Bool) : Conn :=
  if self.wrbuflen ≠ 0 ∨ self.writerecs ≠ [] then self
  else if self.tls && shutdown then { self with tlsShutdownSt := true }
  else { self with deleteScheduled := 2, control := .flushNotify 0 }

/-- The next step of `PSC_Connection_destroy`. -/
def Conn.destroyStep (self : Conn) : Option Conn :=
  match self.control with
  | .flushNotify notno =>
      match self.writenotify[notno]? with
      | some n => some { self.raise n true with control := .flushNotify (notno + 1) }
      | none => some { self with control := .flushRecs 0 }
  | .flushRecs recno =>
      match self.writerecs[recno]? with
      | some r => some { self.raise ⟨r.id, 0, r.call⟩ true with control := .flushRecs (recno + 1) }
      | none =>
          if self.deleteScheduled = 0 then some { self with control := .closed }
          else if self.deleteScheduled = 1 then some { self with control := .idle }
          else some { self with control := .gone }
  | .closed => some { self with control := .gone }
  | _ => none

/-! ## Runs -/

inductive Action
  | sendAsync (buf : List UInt8) (id : Option Id)
  | close
  /-- The handlers of `closed` return to `PSC_Connection_close`. -/
  | deleteLater
  | dowrite (res : WriteResult)
  /-- The next step of the loop in `dowrite`. -/
  | notify
  /-- `doread` finds the connection closed or broken. -/
  | readFailed
  | deleteConnection (shutdown : Bool)
  | destroy
  /-- The next step of `PSC_Connection_destroy`. -/
  | destroyStep
  /-- Connecting, handshake or shutdown make progress. -/
  | progress (connectTimer tlsConnectTimer tlsShutdownSt : Bool)

/-- The service is in its loop. -/
def Conn.atRest (self : Conn) : Bool := decide (self.control = .idle) && decide (self.closing = 0)

/-- What makes the service call `dowrite`: data to send or, with TLS and unless the deletion is
scheduled, that `SSL_write_ex` waited for the peer. -/
def Conn.writable (self : Conn) : Bool :=
  decide (self.writerecs ≠ []) || decide (self.wrbuflen ≠ 0) ||
    (self.tls && decide (self.deleteScheduled = 0))

/-- An action of the callers, of the service or of a function that goes on. -/
def perform (s : Conn) : Action → Option Conn
  | .sendAsync buf id => some (s.sendAsync buf id)
  | .close => some s.close
  | .deleteLater =>
      if s.closing = 0 then none
      else some { s with
        closing := s.closing - 1
        deleteScheduled := if s.deleteScheduled = 0 then 1 else s.deleteScheduled }
  | .dowrite res => if s.atRest && s.writable then s.dowrite res else none
  | .notify =>
      match s.control, s.closing with
      | .notifying notno, 0 => some (s.notify notno)
      | _, _ => none
  | .readFailed => if s.atRest then some s.fail else none
  | .deleteConnection shutdown =>
      if s.atRest && decide (s.deleteScheduled = 1) then some (s.deleteConnection shutdown)
      else none
  | .destroy => if s.atRest then some { s with control := .flushNotify 0 } else none
  | .destroyStep => if s.closing = 0 then s.destroyStep else none
  | .progress c t h =>
      some { s with connectTimer := c, tlsConnectTimer := t, tlsShutdownSt := h }

/-- There is no action on a connection that is gone. -/
def step (s : Conn) (a : Action) : Option Conn :=
  if s.control = .gone ∨ s.control = .fault then none else perform s a

def machine : Machine Conn Action where
  init := fun s => ∃ type tls c t, s = .create type tls c t
  step := step

end PoserCore.Connection.Send
