import PoserCore.Connection.Receiver

/-!
# What a connection is registered for

`PSC_Connection` from its creation to the end of its descriptor, with what the service watches of it.
Everything that decides about that is here: the timers, the states of TLS, `paused` and `handling`, how
much is to be written, and the deletion.  Where an event is raised, its handlers run, and may call the
connection again; so the functions are cut there, and what is still to be run is in `frames`.

What `read`, `write` and the TLS library give, and how many events are raised, is left open (`Outcome`).
-/

namespace PoserCore.Connection.Life

open Lib (Machine)
open Receive (TlsWant)

inductive ConnectionType
  | socket
  | piperd
  | pipewr
  deriving DecidableEq

/-- What the service watches a descriptor for -/
structure Watch where
  pollin : Bool
  pollout : Bool
  deriving DecidableEq

structure Conn where
  type : ConnectionType
  tls : Bool
  tlsIsClient : Bool
  tlsNoverify : Bool
  connectTimer : Bool
  tlsConnectTimer : Bool
  tlsConnectSt : TlsWant
  tlsReadSt : TlsWant
  tlsWriteSt : TlsWant
  tlsShutdownSt : TlsWant
  tlsReadagain : Bool
  paused : ℕ
  handling : ℕ
  wrbuflen : ℕ
  wrbufpos : ℕ
  nrecs : ℕ
  deleteScheduled : ℕ
  rdreg : Bool
  wrreg : Bool

/-- Functions, and what is left of them after the handlers of an event -/
inductive Frame
  /-- The handlers of an event -/
  | handlers
  | close
  | deleteLater
  | wantreadwrite
  | dohandshake
  | dowrite
  | wrote
  | doread
  /-- `raisereceivedevents` -/
  | receive
  | received (full : Bool)
  | readMore
  | readConnection
  | writeConnection
  | tryWrite
  | deleteConnection
  | destroy
  | destroyRest
  | destroyEnd
  | pause
  | resume
  | sendAsync
  | markHandling
  | confirmDataReceived
  | confirmed
  deriving DecidableEq

structure State where
  conn : Conn
  watch : Watch
  /-- The descriptor is watched because `deleteConnection` waits for the peer. -/
  waits : Bool
  /-- What was watched when the descriptor was closed -/
  closed : Option Watch
  frames : List Frame

inductive Result
  | done
  | wantRead
  | wantWrite
  | error
  deriving DecidableEq

def Result.want : Result → TlsWant
  | .wantRead => .read
  | .wantWrite => .write
  | _ => .nothing

/-- What a function gets from outside -/
structure Outcome where
  rc : Result := .done
  /-- The number of `dataSent` events -/
  events : ℕ := 0
  /-- What `dowrite` leaves of the write records, and takes into its buffer -/
  nrecs : ℕ := 0
  wrbuflen : ℕ := 0
  written : ℕ := 0
  /-- The read filled the buffer. -/
  full : Bool := false
  /-- There is something to raise `dataReceived` with. -/
  more : Bool := false
  verified : Bool := true
  shutsdown : Bool := false

/-! ## Watching -/

/-- `PSC_Service_registerRead` if it is not registered -/
def State.watchRead (s : State) : State :=
  { s with
    watch := if s.conn.rdreg then s.watch else { s.watch with pollin := true }
    conn := { s.conn with rdreg := true } }

def State.unwatchRead (s : State) : State :=
  { s with
    watch := if s.conn.rdreg then { s.watch with pollin := false } else s.watch
    conn := { s.conn with rdreg := false }
    waits := false }

def State.watchWrite (s : State) : State :=
  { s with
    watch := if s.conn.wrreg then s.watch else { s.watch with pollout := true }
    conn := { s.conn with wrreg := true } }

def State.unwatchWrite (s : State) : State :=
  { s with
    watch := if s.conn.wrreg then { s.watch with pollout := false } else s.watch
    conn := { s.conn with wrreg := false } }

def Conn.pending (self : Conn) : Bool := self.wrbuflen ≠ 0 || self.nrecs ≠ 0

def Conn.wantWrite (self : Conn) : Bool :=
  self.connectTimer || self.tlsConnectSt = .write || self.tlsReadSt = .write ||
    self.tlsWriteSt = .write ||
    (self.paused = 0 && self.pending && !self.tlsConnectTimer && self.tlsShutdownSt = .nothing)

def Conn.wantRead (self : Conn) : Bool :=
  self.deleteScheduled = 0 && (self.tlsConnectSt = .read || self.tlsReadSt = .read ||
    self.tlsWriteSt = .read || (self.paused = 0 && self.handling = 0))

/-- `wantreadwrite` -/
def wantreadwrite (s : State) : State :=
  let s := if s.conn.wantWrite then s.watchWrite else s.unwatchWrite
  if s.conn.wantRead then s.watchRead else s.unwatchRead

/-- `deleteLater` -/
def deleteLater (s : State) : State :=
  if s.conn.deleteScheduled = 0 then
    let s := s.unwatchRead
    { s with conn := { s.conn with deleteScheduled := 1 } }
  else s

/-- `close` for the descriptor -/
def State.closeFd (s : State) : State := { s with closed := some s.watch }

/-! ## The functions -/

/-- After an error nothing is written any more. -/
def Conn.dropWrites (self : Conn) : Conn := { self with nrecs := 0, wrbuflen := 0 }

def State.setConn (s : State) (conn : Conn) : State := { s with conn := conn }

def dohandshake (o : Outcome) (s : State) : State × List Frame :=
  let self := { s.conn with tlsConnectSt := .nothing }
  match o.rc with
  | .done =>
      let s := s.setConn { self with tlsConnectTimer := false }
      if !self.tlsIsClient then (s, [.wantreadwrite])
      else if o.verified || self.tlsNoverify then (s, [.handlers, .wantreadwrite])
      else (s, [.close])
  | .error => (s.setConn { self with tlsConnectTimer := false }, [.close])
  | rc => (s.setConn { self with tlsConnectSt := rc.want }, [.wantreadwrite])

def dowrite (o : Outcome) (s : State) : State × List Frame :=
  let self := s.conn
  let self := if self.nrecs ≠ 0 && self.wrbuflen = 0 then
    { self with nrecs := o.nrecs, wrbuflen := o.wrbuflen } else self
  match o.rc with
  | .done =>
      let self := if self.tls then { self with tlsWriteSt := .nothing } else self
      (s.setConn { self with wrbufpos := self.wrbufpos + o.written },
        List.replicate o.events .handlers ++ [.wrote])
  | .error => (s.setConn self.dropWrites, if self.tls then [.close] else [.close, .wantreadwrite])
  | rc =>
      (s.setConn (if self.tls then { self with tlsWriteSt := rc.want } else self), [.wantreadwrite])

/-- `dowrite` after its events -/
def wrote (s : State) : State × List Frame :=
  if s.conn.wrbufpos < s.conn.wrbuflen then (s, if s.conn.tls then [.wantreadwrite] else [])
  else (s.setConn { s.conn with wrbuflen := 0, wrbufpos := 0 }, [.wantreadwrite])

def doread (o : Outcome) (s : State) : State × List Frame :=
  if s.conn.tls then
    let self := { s.conn with tlsReadagain := false }
    match o.rc with
    | .done => (s.setConn { self with tlsReadSt := .nothing }, [.receive, .received o.full])
    | .error => (s.setConn self.dropWrites, [.close])
    | rc => (s.setConn { self with tlsReadSt := rc.want }, [.readMore])
  else if s.conn.type = .pipewr then (s.setConn s.conn.dropWrites, [.close])
  else
    match o.rc with
    | .done => (s, [.receive, .wantreadwrite])
    | .error => (s.setConn s.conn.dropWrites, [.close])
    | _ => (s, [])

def readConnection (s : State) : State × List Frame :=
  if s.conn.tlsShutdownSt = .read then (s, [.deleteConnection])
  else if s.conn.tlsConnectSt = .read then (s, [.dohandshake])
  else if s.conn.tlsWriteSt = .read then (s, [.dowrite])
  else if s.conn.handling ≠ 0 then (s.setConn { s.conn with tlsReadSt := .nothing }, [.wantreadwrite])
  else (s, [.doread])

def writeConnection (o : Outcome) (s : State) : State × List Frame :=
  if s.conn.connectTimer then
    if o.rc = .error then (s, [.close])
    -- `connectTimer` stays where the timer is used for the handshake
    else if s.conn.tls then (s.setConn { s.conn with tlsConnectTimer := true }, [.dohandshake])
    else (s.setConn { s.conn with connectTimer := false }, [.wantreadwrite, .handlers])
  else if s.conn.tlsConnectSt = .write then (s, [.dohandshake])
  else if s.conn.tlsReadSt = .write then (s, [.doread])
  else if !s.conn.pending then (s.setConn { s.conn with tlsWriteSt := .nothing }, [.wantreadwrite])
  else (s, [.dowrite])

/-- `deleteConnection`; `rc` is the result of the last `SSL_shutdown`. -/
def deleteConnection (o : Outcome) (s : State) : State × List Frame :=
  if s.conn.pending then (s, [])
  else if s.conn.tls && !s.conn.connectTimer && s.conn.tlsConnectSt = .nothing then
    let self := { s.conn with tlsShutdownSt := .nothing }
    if !o.shutsdown && o.rc = .wantRead then
      ({ (s.setConn { self with tlsShutdownSt := .read }).watchRead with waits := true }, [])
    else (s.setConn { self with deleteScheduled := 2 }, [.destroy])
  else (s.setConn { s.conn with deleteScheduled := 2 }, [.destroy])

/-- `PSC_Connection_destroy` after its `dataSent` events -/
def destroyRest (s : State) : State × List Frame :=
  if s.conn.deleteScheduled = 0 then (s, [.handlers, .destroyEnd])
  else if s.conn.deleteScheduled = 1 then (s, [])
  else (s.unwatchWrite.closeFd, [])

def run (o : Outcome) (s : State) : Frame → State × List Frame
  | .handlers => (s, [])
  | .close => (s, if s.conn.deleteScheduled = 0 then [.handlers, .deleteLater] else [])
  | .deleteLater => (deleteLater s, [])
  | .wantreadwrite => (wantreadwrite s, [])
  | .dohandshake => dohandshake o s
  | .dowrite => dowrite o s
  | .wrote => wrote s
  | .doread => doread o s
  | .receive => (s, if s.conn.handling = 0 && o.more then [.handlers, .receive] else [])
  | .received full =>
      (s.setConn { s.conn with tlsReadagain := full || s.conn.tlsReadagain }, [.readMore])
  | .readMore =>
      (s, if s.conn.tlsReadagain && s.conn.handling = 0 then [.doread] else [.wantreadwrite])
  | .readConnection => readConnection s
  | .writeConnection => writeConnection o s
  | .tryWrite => (s, if !s.conn.wrreg && s.conn.pending then [.dowrite] else [])
  | .deleteConnection => deleteConnection o s
  | .destroy => (s, List.replicate o.events .handlers ++ [.destroyRest])
  | .destroyRest => destroyRest s
  | .destroyEnd => (s.unwatchRead.unwatchWrite.closeFd, [])
  | .pause =>
      (s.setConn { s.conn with paused := s.conn.paused + 1 },
        if s.conn.paused = 0 then [.wantreadwrite] else [])
  | .resume =>
      (s.setConn { s.conn with paused := s.conn.paused - 1 },
        if s.conn.paused = 1 then [.wantreadwrite] else [])
  | .sendAsync =>
      if s.conn.type = .piperd || s.conn.deleteScheduled ≠ 0 || s.conn.connectTimer ||
          s.conn.tlsConnectTimer || s.conn.tlsShutdownSt ≠ .nothing || s.conn.nrecs = 16 then (s, [])
      else (s.setConn { s.conn with nrecs := s.conn.nrecs + 1 }, [])
  | .markHandling => (s.setConn { s.conn with handling := s.conn.handling + 1 }, [])
  | .confirmDataReceived =>
      (s.setConn { s.conn with handling := s.conn.handling - 1 },
        if s.conn.handling = 1 then [.receive, .wantreadwrite, .confirmed] else [])
  | .confirmed => (s, if s.conn.tlsReadagain then [.doread] else [])

/-! ## The machine -/

inductive Action
  /-- The service, a timer or the user calls. -/
  | call (f : Frame)
  | run (o : Outcome)
  /-- The handlers return. -/
  | handlersReturn

/-- What the user can call, also in a handler -/
def Frame.isUser : Frame → Bool
  | .close | .pause | .resume | .sendAsync | .markHandling | .confirmDataReceived => true
  | _ => false

/-- What the service calls, as far as it is registered, and the owner of the connection -/
def Conn.isCalled (self : Conn) : Frame → Bool
  | .readConnection => self.paused = 0
  | .writeConnection => self.type ≠ .piperd
  | .tryWrite => self.type ≠ .piperd && self.paused = 0
  | .deleteConnection => self.deleteScheduled = 1
  | .destroy => true
  | _ => false

def step (s : State) : Action → Option State
  | .call f =>
      if s.closed.isSome then none
      else
        match s.frames with
        | [] => if f.isUser || s.conn.isCalled f then some { s with frames := [f] } else none
        | .handlers :: _ => if f.isUser then some { s with frames := f :: s.frames } else none
        | _ => none
  | .run o =>
      if s.closed.isSome then none
      else
        match s.frames with
        | [] => none
        | .handlers :: _ => none
        | f :: rest => some { (run o s f).1 with frames := (run o s f).2 ++ rest }
  | .handlersReturn =>
      match s.frames with
      | .handlers :: rest => some { s with frames := rest }
      | _ => none

structure ConnOpts where
  type : ConnectionType
  tls : Bool
  tlsIsClient : Bool
  tlsNoverify : Bool
  /-- `CCM_CONNECTING` -/
  connecting : Bool
  /-- The timer that is needed can be created. -/
  timer : Bool

def Conn.create (opts : ConnOpts) : Conn where
  type := opts.type
  tls := opts.tls
  tlsIsClient := opts.tls && opts.tlsIsClient
  tlsNoverify := opts.tlsNoverify
  connectTimer := false
  tlsConnectTimer := false
  tlsConnectSt := .nothing
  tlsReadSt := .nothing
  tlsWriteSt := .nothing
  tlsShutdownSt := .nothing
  tlsReadagain := false
  paused := 0
  handling := 0
  wrbuflen := 0
  wrbufpos := 0
  nrecs := 0
  deleteScheduled := 0
  rdreg := false
  wrreg := false

/-- `PSC_Connection_create` -/
def create (opts : ConnOpts) : State :=
  let self := Conn.create opts
  let s : State := ⟨self, ⟨false, false⟩, false, none, []⟩
  if opts.connecting then
    if opts.timer then (s.setConn { self with connectTimer := true }).watchWrite
    else { s with frames := [.close] }
  else if self.tls && !self.tlsIsClient then
    if opts.timer then
      (s.setConn { self with tlsConnectTimer := true, tlsConnectSt := .read }).watchRead
    else { s with frames := [.close] }
  else s.watchRead

def machine : Machine State Action where
  init s := ∃ opts, s = create opts
  step := step

end PoserCore.Connection.Life
