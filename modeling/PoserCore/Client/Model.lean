import Mathlib.Data.List.Basic
import PoserCore.IpAddr.Model
import PoserCore.Lib.Machine

/-!
# TCP clients

A client resolves a host to a list of addresses and connects to the first of them that works.  An
address whose connection was closed with `blacklist` is passed over a number of times.  The address
can also be resolved by a job of the thread pool, and the connection goes to a callback then.

`O` are the options of a client and `J` the jobs.  Everything but the resolving itself happens on
one thread: the blacklist belongs to the process and has no lock.  What the system answers stands
beside each address.  No client has TLS, and `PSC_Connection_create` fails where it cannot have a
timer for its timeout.
-/

namespace PoserCore.Client

open IpAddr (IpAddr SockAddr equals)
open Lib (Machine)

variable {O J : Type} [DecidableEq O] [DecidableEq J]

/-! ## The blacklist -/

def BLACKLISTSIZE : ℕ := 32

structure BlacklistEntry where
  addr : IpAddr
  hits : Int32

abbrev Blacklist := List (Option BlacklistEntry)

/-- `PSC_Connection_blacklistAddress` -/
def blacklistAddress (hits : Int32) (addr : IpAddr) : Blacklist → Blacklist
  | [] => []
  | some entry :: blacklist => some entry :: blacklistAddress hits addr blacklist
  | none :: blacklist => some ⟨addr, hits⟩ :: blacklist

/-- One pass of the loop of `blacklistcheck` -/
def hit (ip : IpAddr) : Option BlacklistEntry → Option BlacklistEntry
  | none => none
  | some entry =>
      if equals ip entry.addr then
        if entry.hits - 1 = 0 then none else some { entry with hits := entry.hits - 1 }
      else some entry

/-- `blacklistcheck`, with whether the address may be used -/
def blacklistcheck (ip : IpAddr) (blacklist : Blacklist) : Blacklist × Bool :=
  (blacklist.map (hit ip), blacklist.all fun entry => !entry.any fun entry => equals ip entry.addr)

/-! ## Connecting -/

/-- The descriptor that `socket` returns is not open. -/
structure Kernel where
  socket : List ℕ → ℕ
  unused : ∀ fds, socket fds ∉ fds

/-- An address, and whether `socket` and `connect` succeed for it -/
structure AddrInfo where
  addr : SockAddr
  socket : Bool
  connect : Bool

structure Connection where
  fd : ℕ
  addr : IpAddr
  blacklisthits : Int32
  deleteScheduled : Bool

/-- What happened to the blacklist: an address found a place in it, or was looked up -/
inductive Event
  | blacklisted (hits : Int32) (addr : IpAddr)
  | checked (ip : IpAddr)

/-- `owned` is whether `PSC_TcpClientOpts_destroy` is still to be called by the program. -/
structure TcpClientOpts where
  proto : IpAddr.Proto
  blacklisthits : Int32
  refcnt : ℤ
  owned : Bool
  freed : Bool

/-- A job that the thread pool took, and what `doResolve` found once it was run -/
structure ResolveJob (O J : Type) where
  job : J
  opts : O
  res0 : Option (Option (List AddrInfo))

structure State (O J : Type) where
  blacklist : Blacklist
  log : List Event
  /-- The sockets that are open -/
  fds : List ℕ
  connections : List Connection
  opts : O → Option TcpClientOpts
  jobs : List (ResolveJob O J)
  /-- The options of the jobs that the thread pool refused -/
  refused : List O
  /-- The calls of callbacks -/
  created : List (J × Option Connection)
  /-- Options were used after they were freed. -/
  dangling : Bool
  /-- NULL was used as a connection, which is the end of the process. -/
  fault : Bool

namespace State

/-- `PSC_IpAddr_fromSockAddr` and `blacklistcheck` -/
def check (s : State O J) (ip : IpAddr) : State O J :=
  { s with blacklist := (blacklistcheck ip s.blacklist).1, log := s.log ++ [.checked ip] }

/-- `PSC_Connection_blacklistAddress` -/
def block (s : State O J) (hits : Int32) (addr : IpAddr) : State O J :=
  { s with
    blacklist := blacklistAddress hits addr s.blacklist
    log := if s.blacklist.any Option.isNone then s.log ++ [.blacklisted hits addr] else s.log }

def close (s : State O J) (fd : ℕ) : State O J := { s with fds := s.fds.erase fd }

def deleteLater (s : State O J) (fd : ℕ) : State O J :=
  { s with
    connections := s.connections.map fun conn =>
      if conn.fd = fd then { conn with deleteScheduled := true } else conn }

def useOpts (s : State O J) (o : O) : State O J :=
  { s with dangling := s.dangling || !(s.opts o).any fun opts => !opts.freed }

end State

/-- The families that `createFromAddrinfo` skips -/
def skipped (proto : IpAddr.Proto) : SockAddr → Bool
  | .inet _ _ => proto = .ipv6
  | .inet6 _ _ => proto = .ipv4
  | .other => true

/-- One pass of the loop of `createFromAddrinfo`, with what it ends the loop with if it does.
`FD_SETSIZE` matters on `select` only. -/
def tryAddr (kernel : Kernel) (fdSetsize : Option ℕ) (opts : TcpClientOpts) (res : AddrInfo)
    (s : State O J) : State O J × Option (Option Connection) :=
  if skipped opts.proto res.addr then (s, none)
  else
    match IpAddr.fromSockAddr res.addr with
    | none => (s, none)
    | some ip =>
        if (blacklistcheck ip s.blacklist).2 then
          let s := s.check ip
          if res.socket then
            let fd := kernel.socket s.fds
            let s := { s with fds := fd :: s.fds }
            if fdSetsize.any (· ≤ fd) then (s.close fd, some none)
            else if res.connect then (s, some (some ⟨fd, ip, opts.blacklisthits, false⟩))
            else (s.close fd, none)
          else (s, none)
        else (s.check ip, none)

/-- The loop -/
def connectFirst (kernel : Kernel) (fdSetsize : Option ℕ) (opts : TcpClientOpts) :
    List AddrInfo → State O J → State O J × Option Connection
  | [], s => (s, none)
  | res :: rest, s =>
      match tryAddr kernel fdSetsize opts res s with
      | (s, none) => connectFirst kernel fdSetsize opts rest s
      | (s, some conn) => (s, conn)

/-- `createFromAddrinfo`, with `PSC_Connection_create` for what the loop ended with.  Without a
`timer` the connection is closed, and the NULL that comes instead of it is dereferenced. -/
def createFromAddrinfo (kernel : Kernel) (fdSetsize : Option ℕ) (o : O) (res0 : List AddrInfo)
    (timer : Bool) (s : State O J) : State O J × Option Connection :=
  let s := s.useOpts o
  match s.opts o with
  | none => (s, none)
  | some opts =>
      match connectFirst kernel fdSetsize opts res0 s with
      | (s, none) => (s, none)
      | (s, some conn) =>
          if timer then ({ s with connections := conn :: s.connections }, some conn)
          else
            ({ s with
              connections := { conn with deleteScheduled := true } :: s.connections
              fault := true }, none)

/-- What comes after `resolveAddress` -/
def create (kernel : Kernel) (fdSetsize : Option ℕ) (o : O) (res0 : Option (List AddrInfo))
    (timer : Bool) (s : State O J) : State O J × Option Connection :=
  match res0 with
  | none => (s, none)
  | some res0 => createFromAddrinfo kernel fdSetsize o res0 timer s

/-- `PSC_TcpClientOpts_destroy` -/
def destroyOpts (o : O) (s : State O J) : State O J :=
  let s := s.useOpts o
  match s.opts o with
  | none => s
  | some opts =>
      let refcnt := opts.refcnt - 1
      { s with
        opts := Function.update s.opts o
          (some { opts with refcnt := refcnt, freed := refcnt = 0 }) }

/-- `resolveDone` -/
def resolveDone (kernel : Kernel) (fdSetsize : Option ℕ) (job : ResolveJob O J)
    (res0 : Option (List AddrInfo)) (timer : Bool) (s : State O J) : State O J :=
  let (s, conn) := create kernel fdSetsize job.opts res0 timer s
  if s.fault then s
  else
    destroyOpts job.opts { s with
      jobs := s.jobs.filter fun other => other.job ≠ job.job
      created := (job.job, conn) :: s.created }

inductive Action (O J : Type)
  /-- `PSC_TcpClientOpts_create`, and the setters -/
  | createOpts (o : O) (proto : IpAddr.Proto) (blacklisthits : Int32)
  | destroyOpts (o : O)
  /-- `PSC_Connection_createTcpClient`, after `resolveAddress`; `timer` is whether
  `PSC_Connection_create` gets one. -/
  | createTcpClient (o : O) (res0 : Option (List AddrInfo)) (timer : Bool)
  /-- `PSC_Connection_createTcpClientAsync`, and whether the thread pool takes the job -/
  | createTcpClientAsync (o : O) (j : J) (accepted : Bool)
  | doResolve (j : J) (res0 : Option (List AddrInfo))
  | resolveDone (j : J) (timer : Bool)
  /-- `PSC_Connection_close` -/
  | close (fd : ℕ) (blacklist : Bool)
  /-- `deleteConnection`, which closes the socket -/
  | delete (fd : ℕ)

/-- What a call does -/
def call (kernel : Kernel) (fdSetsize : Option ℕ) (s : State O J) : Action O J → Option (State O J)
  | .createOpts o proto hits =>
      if (s.opts o).isNone then
        some { s with opts := Function.update s.opts o (some ⟨proto, hits, 1, true, false⟩) }
      else none
  | .destroyOpts o =>
      match s.opts o with
      | some opts =>
          if opts.owned then
            some (destroyOpts o
              { s with opts := Function.update s.opts o (some { opts with owned := false }) })
          else none
      | none => none
  | .createTcpClient o res0 timer =>
      if (s.opts o).any TcpClientOpts.owned then
        some (create kernel fdSetsize o res0 timer (s.useOpts o)).1
      else none
  | .createTcpClientAsync o j accepted =>
      match s.opts o with
      | some opts =>
          if opts.owned ∧ j ∉ s.jobs.map ResolveJob.job ∧ j ∉ s.created.map Prod.fst then
            let s := { s.useOpts o with
              opts := Function.update s.opts o (some { opts with refcnt := opts.refcnt + 1 }) }
            -- the caller is not told that the job was refused
            some (if accepted then { s with jobs := ⟨j, o, none⟩ :: s.jobs }
              else { s with refused := o :: s.refused })
          else none
      | none => none
  | .doResolve j res0 =>
      match s.jobs.find? fun job => job.job = j with
      | some job =>
          if job.res0.isNone then
            some { s.useOpts job.opts with
              jobs := s.jobs.map fun job =>
                if job.job = j then { job with res0 := some res0 } else job }
          else none
      | none => none
  | .resolveDone j timer =>
      match s.jobs.find? fun job => job.job = j with
      | some job => job.res0.map fun res0 => resolveDone kernel fdSetsize job res0 timer s
      | none => none
  | .close fd blacklist =>
      match s.connections.find? fun conn => conn.fd = fd with
      | some conn =>
          if conn.deleteScheduled then some s
          else if blacklist ∧ conn.blacklisthits ≠ 0 then
            some ((s.block conn.blacklisthits conn.addr).deleteLater fd)
          else some (s.deleteLater fd)
      | none => none
  | .delete fd =>
      match s.connections.find? fun conn => conn.fd = fd with
      | some conn =>
          if conn.deleteScheduled then
            some ({ s with connections := s.connections.filter fun conn => conn.fd ≠ fd }.close fd)
          else none
      | none => none

def step (kernel : Kernel) (fdSetsize : Option ℕ) (s : State O J) (a : Action O J) :
    Option (State O J) :=
  if s.fault then none else call kernel fdSetsize s a

def init (O J : Type) : State O J where
  blacklist := List.replicate BLACKLISTSIZE none
  log := []
  fds := []
  connections := []
  opts _ := none
  jobs := []
  refused := []
  created := []
  dangling := false
  fault := false

def clients (O J : Type) [DecidableEq O] [DecidableEq J] (kernel : Kernel)
    (fdSetsize : Option ℕ) : Machine (State O J) (Action O J) where
  init s := s = init O J
  step := step kernel fdSetsize

end PoserCore.Client
