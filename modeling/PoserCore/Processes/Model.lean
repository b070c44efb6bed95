import Mathlib.Data.Int.Notation
import Mathlib.Data.Nat.Notation
import Mathlib.Logic.Function.Basic
import PoserCore.Lib.Machine

/-!
# Child processes

`PSC_Process`: a child is forked on the main thread, the connections for its pipes are created on the
thread of the process, and its end, found by `reapChildren`, comes there as an event of the service.
The process destroys itself, after it raised `done`, when the child ended and the connections are
closed.

`P` are the processes; what happens to one is a function on its `Entry`.  A process that is freed is
not started any more.  Stopping a child and the arguments it is given are not modelled.
-/

namespace PoserCore.Processes

open Lib (Machine)

inductive StreamType
  | stdin
  | stdout
  | stderr
  deriving DecidableEq

def StreamType.all : List StreamType := [.stdin, .stdout, .stderr]

inductive StreamAction
  | leave
  | close
  | null
  | pipe
  deriving DecidableEq

inductive ChildStatus
  | none
  | running
  | exited
  | signaled
  deriving DecidableEq

structure EAProcessDone where
  exitval : ℤ
  status : ChildStatus
  deriving DecidableEq

structure EAChildExited where
  pid : ℕ
  val : ℤ
  signaled : Bool
  deriving DecidableEq

def EAChildExited.signal (self : EAChildExited) : ℤ := if self.signaled then self.val else 0

/-- `PSC_CHILD_SIGNALED` is 256. -/
def EAChildExited.status (self : EAChildExited) : ℤ := if self.signaled then 256 else self.val

structure Process where
  /-- Whether there is a connection -/
  streams : StreamType → Bool
  execError : ℤ
  /-- Nothing is the main thread. -/
  thrno : Option ℕ
  /-- It is 0 as long as no child was forked. -/
  pid : ℕ
  doneArgs : EAProcessDone
  actions : StreamType → StreamAction

structure EndProcArgs where
  pid : ℕ
  signo : ℤ
  status : ℤ
  deriving DecidableEq

/-- The functions that `PSC_Service_runOnThread` is called with for a process -/
inductive Command
  | tryDestroy
  | createpipeconn (type : StreamType)
  | endprocess (epa : EndProcArgs)
  deriving DecidableEq

inductive ConnState
  | absent
  | opened
  | closed
  deriving DecidableEq

/-- A process, and what others see of it -/
structure Entry where
  process : Process
  conn : StreamType → ConnState
  freed : Bool
  /-- The arguments `done` was raised with -/
  done : List EAProcessDone
  /-- What `waitpid` reported of the child -/
  ended : Option EAChildExited
  /-- The process was used after it was freed. -/
  late : Bool

namespace Entry

/-- `tryDestroy` -/
def tryDestroy (e : Entry) : Entry :=
  if e.freed then { e with late := true }
  else if e.process.doneArgs.status = .running then e
  else if e.process.streams .stdin then e
  else if e.process.streams .stdout then e
  else if e.process.streams .stderr then e
  else { e with done := e.done ++ [e.process.doneArgs], freed := true }

/-- `streamClosed` -/
def streamClosed (e : Entry) (type : StreamType) : Entry :=
  if e.freed then { e with late := true }
  else
    { e with process := { e.process with
        streams := Function.update e.process.streams type false } }.tryDestroy

/-- A connection raises `closed`. -/
def close (e : Entry) (type : StreamType) : Entry :=
  { e with conn := Function.update e.conn type .closed }.streamClosed type

def setDoneArgs (e : Entry) (doneArgs : EAProcessDone) : Entry :=
  { e with process := { e.process with doneArgs := doneArgs } }

/-- `endprocess` -/
def endprocess (e : Entry) (epa : EndProcArgs) : Entry :=
  if e.freed then { e with late := true }
  else if epa.pid ≠ e.process.pid then e
  else
    let e := if e.process.streams .stdin then e.close .stdin else e
    if epa.signo ≠ 0 then (e.setDoneArgs ⟨epa.signo, .signaled⟩).tryDestroy
    else (e.setDoneArgs ⟨epa.status, .exited⟩).tryDestroy

/-- `createpipeconn`; the callback gets the connection. -/
def createpipeconn (e : Entry) (type : StreamType) : Entry :=
  if e.freed then { e with late := true }
  else
    { e with
      process := { e.process with streams := Function.update e.process.streams type true }
      conn := Function.update e.conn type .opened }

def handle (e : Entry) : Command → Entry
  | .tryDestroy => e.tryDestroy
  | .createpipeconn type => e.createpipeconn type
  | .endprocess epa => e.endprocess epa

end Entry

variable {P : Type}

structure State (P : Type) where
  entry : P → Entry
  /-- The commands of each thread but the main thread -/
  queue : ℕ → List (P × Command)
  /-- The handlers on `PSC_Service_childExited`, by their receiver and id -/
  handlers : List (P × ℕ)
  /-- The children that were not reaped yet -/
  children : List (ℕ × P)

inductive Action (P : Type)
  /-- `PSC_Process_exec` or `PSC_Process_run`, with or without a callback; which pipes can be created,
  and what `fork` gives -/
  | start (p : P) (cb : Bool) (pipe : StreamType → Bool) (fork : Option ℕ)
  /-- `reapChildren` gets the next child. -/
  | reap (ea : EAChildExited)
  /-- A thread runs its next command. -/
  | work (t : ℕ)
  /-- A connection is closed, by its peer or by anyone. -/
  | close (p : P) (type : StreamType)

variable [DecidableEq P]

def State.setEntry (s : State P) (p : P) (e : Entry) : State P :=
  { s with entry := Function.update s.entry p e }

/-- `PSC_Service_runOnThread` on the main thread -/
def runOnThread (s : State P) (p : P) (c : Command) : State P :=
  match (s.entry p).process.thrno with
  | none => s.setEntry p ((s.entry p).handle c)
  | some t => { s with queue := Function.update s.queue t (s.queue t ++ [(p, c)]) }

/-- `childExited` -/
def childExited (s : State P) (p : P) (ea : EAChildExited) : State P :=
  if (s.entry p).freed then s.setEntry p { s.entry p with late := true }
  else runOnThread s p (.endprocess ⟨ea.pid, ea.signal, ea.status⟩)

/-- `PSC_Event_raise` for `PSC_Service_childExited`, on the handlers that are registered at its start.
One that is registered meanwhile, when a handler of `done` starts another process, waits for a child
of its own; only if that child were given the identifier that was just reaped would the code call it
in this round. -/
def raise (s : State P) (ea : EAChildExited) : State P :=
  (s.handlers.filter fun h => h.2 = ea.pid).foldl (fun s h => childExited s h.1 ea) s

/-- `PSC_Event_register` for `PSC_Service_childExited` -/
def register (s : State P) (p : P) (id : ℕ) : State P :=
  if s.handlers.contains (p, id) then s else { s with handlers := s.handlers ++ [(p, id)] }

/-- The pipes that are configured can be created, and there is someone to give them to. -/
def Process.canPipe (self : Process) (cb : Bool) (pipe : StreamType → Bool) : Bool :=
  StreamType.all.all fun type => self.actions type ≠ .pipe || (cb && pipe type)

def Process.pipes (self : Process) : List StreamType :=
  StreamType.all.filter fun type => self.actions type = .pipe

def Entry.start (e : Entry) (pid : ℕ) : Entry :=
  { e with process := { e.process with pid := pid, doneArgs := { e.process.doneArgs with status := .running } } }

/-- `runprocess` where no child is forked -/
def startFailed (s : State P) (p : P) : State P :=
  let e := s.entry p
  runOnThread (s.setEntry p (e.setDoneArgs ⟨e.process.execError, .exited⟩)) p .tryDestroy

/-- `runprocess` -/
def runprocess (s : State P) (p : P) (cb : Bool) (pipe : StreamType → Bool) (fork : Option ℕ) :
    State P :=
  let e := s.entry p
  if e.process.pid ≠ 0 then s
  else if !e.process.canPipe cb pipe then startFailed s p
  else
    match fork with
    | none => startFailed s p
    | some pid =>
        let s := register (s.setEntry p (e.start pid)) p pid
        let s := { s with children := s.children ++ [(pid, p)] }
        e.process.pipes.foldl (fun s type => runOnThread s p (.createpipeconn type)) s

/-- The body of the loop in `reapChildren`, for the child of a process -/
def reapChild (s : State P) (p : P) (ea : EAChildExited) : State P :=
  raise
    ({ s with children := s.children.filter fun c => c != (ea.pid, p) }.setEntry p
      { s.entry p with ended := some ea }) ea

def step (s : State P) : Action P → Option (State P)
  | .start p cb pipe fork =>
      if (s.entry p).freed then none
      -- a pid is given again only after the child was reaped
      else if fork.any fun pid => pid == 0 || s.children.any fun c => c.1 == pid then none
      else some (runprocess s p cb pipe fork)
  | .reap ea =>
      if ea.signaled && ea.val == 0 then none
      else (s.children.find? fun c => c.1 == ea.pid).map fun c => reapChild s c.2 ea
  | .work t =>
      match s.queue t with
      | [] => none
      | (p, c) :: queue =>
          some ({ s with queue := Function.update s.queue t queue }.setEntry p ((s.entry p).handle c))
  | .close p type =>
      if (s.entry p).conn type = .opened then some (s.setEntry p ((s.entry p).close type)) else none

/-- What a process is created with -/
structure ProcessOpts where
  execError : ℤ
  actions : StreamType → StreamAction
  thrno : Option ℕ

/-- `PSC_Process_create` -/
def Process.create (opts : ProcessOpts) : Process where
  streams _ := false
  execError := opts.execError
  thrno := opts.thrno
  pid := 0
  doneArgs := ⟨0, .none⟩
  actions := opts.actions

def create (opts : P → ProcessOpts) : State P where
  entry p :=
    { process := .create (opts p)
      conn := fun _ => .absent
      freed := false
      done := []
      ended := none
      late := false }
  queue _ := []
  handlers := []
  children := []

def machine (opts : P → ProcessOpts) : Machine (State P) (Action P) where
  init s := s = create opts
  step := step

end PoserCore.Processes
