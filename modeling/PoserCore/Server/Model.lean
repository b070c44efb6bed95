import Mathlib.Data.Nat.Notation
import Mathlib.Logic.Function.Basic
import PoserCore.Lib.Machine

/-!
# Servers

`PSC_Server`: the main thread accepts sockets and sends each to a worker, where `doaccept` makes a
connection of it.  Every worker has a queue of messages, which it handles one at a time and in order;
where there are no workers, the main thread does everything itself.  `PSC_Server_destroy` sends each
worker a message to destroy its pool of connections, and waits until the last one is closed.

A message, a handler and the way to or from a wait of the main thread are one step.  TLS, addresses
and what a connection does besides being closed are not modelled, and accepting while the server is
disabled, which closes the socket at once.
-/

namespace PoserCore.Server

set_option linter.dupNamespace false

open Lib (Machine)

/-- `AcceptRecord`; the sockets are numbered as they are accepted. -/
structure AcceptRecord where
  sock : ℕ
  pool : ℕ
  deriving DecidableEq

inductive Message
  | doaccept (record : AcceptRecord)
  | destroyPool (pool : ℕ)
  deriving DecidableEq

/-- A connection on a worker, or on the main thread (`none`). -/
structure Conn where
  sock : ℕ
  thread : Option ℕ
  pool : ℕ
  deriving DecidableEq

structure Server where
  /-- The number of workers; `none` as long as no socket was accepted. -/
  nthr : Option ℕ
  /-- The worker chosen last; `none` for the main thread. -/
  nextthr : Option ℕ
  /-- `clients[t].nactive` -/
  nactive : ℕ → ℕ
  nconn : ℕ
  /-- The value of the semaphore -/
  allclosed : ℕ
  /-- `nsocks` is not 0. -/
  listening : Bool
  /-- There is a `shutdownTimer`. -/
  shutdownTimer : Bool
  /-- `forceDestroy` is registered for `PSC_Service_shutdown`. -/
  forceDestroy : Bool

structure State where
  server : Server
  /-- The server is no longer allocated. -/
  freed : Bool
  /-- The main thread waits in `PSC_Server_destroy`. -/
  destroying : Bool
  /-- `PSC_Server_shutdown` was called. -/
  requested : Bool
  queue : ℕ → List Message
  /-- The number of accepted sockets -/
  accepted : ℕ
  /-- The connections that were made and did not raise their closed event. -/
  conns : List Conn
  /-- The number of pools that were created -/
  pools : ℕ
  /-- The pools that were destroyed, once for each time -/
  destroyed : List ℕ
  /-- The number of calls of `shutdownComplete` -/
  completed : ℕ
  /-- A `doaccept` ran after the server was freed. -/
  late : Bool

inductive Action
  /-- A socket is ready; `created` tells whether `PSC_Connection_create` succeeds. -/
  | acceptConnection (created : Bool)
  /-- A worker handles its next message. -/
  | work (t : ℕ) (created : Bool)
  /-- A connection raises its closed event on its thread. -/
  | close (c : Conn)
  /-- `timer` tells whether `PSC_Timer_create` succeeds. -/
  | shutdown (timeout : ℕ) (timer : Bool)
  | destroy
  /-- The timer expires. -/
  | timerExpired
  | serviceShutdown
  /-- `sem_wait` in `PSC_Server_destroy` returns. -/
  | resume

/-! ## Connections -/

/-- `removeConnection` on the thread -/
def Server.removeConnection (self : Server) (thread : Option ℕ) : Server :=
  { self with
    nactive := thread.elim self.nactive fun t => Function.update self.nactive t (self.nactive t - 1)
    nconn := self.nconn - 1
    allclosed := if self.nconn = 1 then self.allclosed + 1 else self.allclosed }

/-- The closed event of a connection -/
def State.raiseClosed (s : State) (c : Conn) : State :=
  { s with
    server := s.server.removeConnection c.thread
    conns := s.conns.erase c }

/-- `destroyPool`: every connection in the pool is destroyed. -/
def destroyPool (s : State) (pool : ℕ) : State :=
  let s := (s.conns.filter fun c => c.pool = pool).foldl State.raiseClosed s
  { s with destroyed := pool :: s.destroyed }

/-- `doaccept`; `none` where it waits for the semaphore -/
def doaccept (s : State) (thread : Option ℕ) (record : AcceptRecord) (created : Bool) : Option State :=
  if s.freed then some { s with late := true }
  else if !created then
    some { s with server := { s.server with
      nactive := thread.elim s.server.nactive fun t =>
        Function.update s.server.nactive t (s.server.nactive t - 1) } }
  else if s.server.nconn = 0 ∧ s.server.allclosed = 0 then none
  else
    some { s with
      server := { s.server with
        nconn := s.server.nconn + 1
        allclosed := if s.server.nconn = 0 then s.server.allclosed - 1 else s.server.allclosed }
      conns := ⟨record.sock, thread, record.pool⟩ :: s.conns }

/-! ## Accepting -/

/-- The loop that looks for a worker with fewer connections, with `n` workers to go. -/
def leastActive (nthr : ℕ) (nactive : ℕ → ℕ) : (n i minactive nextthr : ℕ) → ℕ
  | 0, _, _, nextthr => nextthr
  | n + 1, i, minactive, nextthr =>
      let thrno := (nextthr + i) % nthr
      if nactive thrno < minactive then leastActive nthr nactive n (i + 1) (nactive thrno) thrno
      else leastActive nthr nactive n (i + 1) minactive nextthr

/-- The pools are created when the first socket is accepted. -/
def createClients (workers : ℕ) (s : State) : State :=
  if s.server.nthr = none then
    { s with
      server := { s.server with
        nthr := some workers
        nextthr := if workers = 0 then none else some 0
        nactive := fun _ => 0 }
      pools := max workers 1 }
  else s

/-- The next worker, which gets one more connection. -/
def Server.nextThread (self : Server) : Server :=
  match self.nthr, self.nextthr with
  | some nthr, some nextthr =>
      let nextthr := leastActive nthr self.nactive (nthr - 1) 1 (self.nactive nextthr) nextthr
      { self with
        nactive := Function.update self.nactive nextthr (self.nactive nextthr + 1)
        nextthr := some nextthr }
  | _, _ => self

/-- `PSC_Service_runOnThread` for another thread than the caller's -/
def runOnThread (workers : ℕ) (s : State) (t : ℕ) (m : Message) : State :=
  if workers ≤ t then s
  else { s with queue := Function.update s.queue t (s.queue t ++ [m]) }

/-- `acceptConnection` -/
def acceptConnection (workers : ℕ) (s : State) (created : Bool) : Option State :=
  let s := createClients workers s
  let self := s.server.nextThread
  let record : AcceptRecord := ⟨s.accepted, self.nextthr.getD 0⟩
  let s := { s with server := self, accepted := s.accepted + 1 }
  match self.nextthr with
  | none => doaccept s none record created
  | some t => some (runOnThread workers s t (.doaccept record))

/-! ## Shutting down -/

/-- `PSC_Server_destroy` behind its wait -/
def finish (s : State) : State :=
  { s with
    server := { s.server with listening := false, forceDestroy := false }
    freed := true
    destroying := false
    completed := s.completed + 1 }

/-- The pools are destroyed, each on its thread. -/
def destroyPools (workers : ℕ) (s : State) : State :=
  match s.server.nthr with
  | none => s
  | some 0 => destroyPool s 0
  | some nthr => (List.range nthr).foldl (fun s t => runOnThread workers s t (.destroyPool t)) s

/-- `PSC_Server_destroy` up to its wait, or to its end -/
def destroy (workers : ℕ) (s : State) : State :=
  let s := { s with server := { s.server with shutdownTimer := false } }
  if s.server.nconn = 0 then finish s else { destroyPools workers s with destroying := true }

/-- `PSC_Server_shutdown` -/
def shutdown (workers : ℕ) (s : State) (timeout : ℕ) (timer : Bool) : State :=
  let s := { s with requested := true }
  if s.server.nconn = 0 then destroy workers s
  else
    let s := { s with server := { s.server with listening := false, forceDestroy := true } }
    if timeout = 0 then s
    else if !timer then destroy workers s
    else { s with server := { s.server with shutdownTimer := true } }

/-! ## Steps -/

/-- The main thread handles its next event. -/
def State.ready (s : State) : Prop := s.freed = false ∧ s.destroying = false

instance (s : State) : Decidable s.ready := inferInstanceAs (Decidable (_ ∧ _))

def step (workers : ℕ) (s : State) : Action → Option State
  | .acceptConnection created =>
      if s.ready ∧ s.server.listening = true then acceptConnection workers s created else none
  | .work t created =>
      match s.queue t with
      | [] => none
      | m :: rest =>
          let s := { s with queue := Function.update s.queue t rest }
          match m with
          | .doaccept record => doaccept s (some t) record created
          | .destroyPool pool => some (destroyPool s pool)
  | .close c =>
      if c ∈ s.conns ∧ (c.thread = none → s.destroying = false) then some (s.raiseClosed c) else none
  | .shutdown timeout timer =>
      -- the server is not to be used after this call
      if s.ready ∧ s.requested = false then some (shutdown workers s timeout timer) else none
  | .destroy => if s.ready then some (destroy workers s) else none
  | .timerExpired =>
      if s.ready ∧ s.server.shutdownTimer = true then some (destroy workers s) else none
  | .serviceShutdown =>
      if s.ready ∧ s.server.forceDestroy = true then some (destroy workers s) else none
  | .resume =>
      if s.destroying = true ∧ s.server.allclosed ≠ 0 then
        some (finish { s with server := { s.server with allclosed := s.server.allclosed - 1 } })
      else none

/-- A new server -/
def create : State where
  server :=
    { nthr := none
      nextthr := none
      nactive := fun _ => 0
      nconn := 0
      allclosed := 1
      listening := true
      shutdownTimer := false
      forceDestroy := false }
  freed := false
  destroying := false
  requested := false
  queue _ := []
  accepted := 0
  conns := []
  pools := 0
  destroyed := []
  completed := 0
  late := false

def machine (workers : ℕ) : Machine State Action where
  init s := s = create
  step := step workers

end PoserCore.Server
