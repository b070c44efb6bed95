import PoserCore.Events.Model

/-!
# The resolver

The lifetime of one `PSC_Resolver` on the thread that owns it.  The resolver is resolved on a job of
the thread pool, whose completion `resolveDone` handles on the owner's thread, or synchronously in
`PSC_Resolver_resolve` when the pool is not active or refuses the job.  Both raise its event `done`,
whose handlers may call any function of the resolver, so raises are kept on a stack.

The names that are looked up do not matter here, of the addresses only how many there are.  A raise
and `resolveDone` note an access to a resolver that was released.
-/

namespace PoserCore.Resolver

set_option linter.dupNamespace false

open Events (Event Raise Pool Op Addr EvHandlerEntry)

/-- `pool` says whether `done.pool` is set.  A job is named by its number. -/
structure Resolver where
  done : Event
  pool : Bool
  job : Option ℕ
  entries : ℕ
  handling : ℤ

/-- What `PSC_ThreadPool_active` and `PSC_ThreadPool_enqueue` answer. -/
inductive ThreadPool
  | inactive
  | refuses
  | accepts
  deriving DecidableEq

/-- Who raised `done`: `PSC_Resolver_resolve`, or `resolveDone` for a job. -/
inductive Caller
  | resolve
  | resolveDone (job : ℕ)
  deriving DecidableEq

structure Frame where
  caller : Caller
  raise : Raise

structure State where
  self : Resolver
  /-- How often the resolver was released -/
  released : ℕ
  /-- `hasCompleted` of the jobs in the pool for which `resolveDone` has not returned -/
  jobs : ℕ → Option Bool
  created : ℕ
  stack : List Frame
  /-- `PSC_Resolver_destroy` was called. -/
  destroyed : Bool
  /-- A raise or `resolveDone` accessed the resolver after it was released. -/
  fault : Bool

/-- `PSC_Resolver_create`, over whatever the memory of the event's entries holds -/
def create (self : Addr) (entry : Addr → EvHandlerEntry) : State where
  self := ⟨.create self entry, true, none, 0, 0⟩
  released := 0
  jobs _ := none
  created := 0
  stack := []
  destroyed := false
  fault := false

/-- `PSC_Event_destroyStatic` on `done` -/
def Resolver.destroyDone (self : Resolver) : Resolver :=
  if self.pool then
    { self with
      done := { self.done with sender := 0, first := none, last := none, handling := none, used := ∅ }
      pool := false }
  else self

/-- `PSC_Event_raise` on `done`, up to its loop -/
def State.raiseDone (s : State) (caller : Caller) : State :=
  { s with stack := ⟨caller, ⟨0, .null, s.self.done.first, false⟩⟩ :: s.stack }

/-- `PSC_Resolver_addAddr` -/
def addAddr (s : State) : State :=
  if s.self.job.isSome then s
  else { s with self := { s.self with entries := s.self.entries + 1 } }

/-- `PSC_Resolver_resolve`; a job that the pool refuses is destroyed at once. -/
def resolve (s : State) (forceAsync : Bool) (pool : ThreadPool) : State :=
  if s.self.job.isSome ∨ s.self.entries = 0 then s
  else if pool = .accepts then
    { s with
      self := { s.self with job := some s.created }
      jobs := Function.update s.jobs s.created (some true)
      created := s.created + 1 }
  else if forceAsync then s
  else s.raiseDone .resolve

/-- `PSC_ThreadPool_cancel` -/
def cancel (s : State) (job : ℕ) : State :=
  { s with jobs := Function.update s.jobs job ((s.jobs job).map fun _ => false) }

/-- `PSC_Resolver_destroy` -/
def destroy (s : State) : State :=
  if s.self.handling ≠ 0 then { s with self := { s.self with handling := -1 } }
  else
    let s := { s with self := s.self.destroyDone }
    match s.self.job with
    | some job => cancel s job
    | none => { s with released := s.released + 1 }

/-- `PSC_ThreadJob_destroy`, by which `threadJobDone` ends -/
def State.jobEnd (s : State) (job : ℕ) : State :=
  { s with jobs := Function.update s.jobs job none }

/-- `resolveDone`, up to its raise of `done` -/
def resolveDone (s : State) (job : ℕ) : State :=
  if s.released ≠ 0 then { s with fault := true }
  else if s.self.pool then
    if s.self.job.bind s.jobs = some true then
      { s with self := { s.self with handling := 1 } }.raiseDone (.resolveDone job)
    else { s with self := { s.self with job := none } }.jobEnd job
  else { s with released := s.released + 1 }.jobEnd job

/-- The rest of `resolveDone` -/
def resolveDoneEnd (s : State) (job : ℕ) : State :=
  if s.released ≠ 0 then { s with fault := true }
  else
    let resolver := { s.self with job := none, handling := 0 }
    if s.self.handling < 0 then (destroy { s with self := resolver }).jobEnd job
    else { s with self := resolver }.jobEnd job

/-- The loop body of `PSC_Event_raise` on `done`, up to the call of the handler -/
def visit (s : State) (caller : Caller) (f : Raise) (entry : Addr) (rest : List Frame) : State :=
  if s.released ≠ 0 then { s with fault := true }
  else
    let t := Events.visit s.self.done f entry
    { s with
      self := { s.self with done := t.event }
      stack := (t.frame.map (Frame.mk caller)).toList ++ rest }

/-- `resolveDone` or the loop, after the handler of an entry returned -/
def ret (s : State) (caller : Caller) (f : Raise) (rest : List Frame) : State :=
  if s.released ≠ 0 then { s with fault := true }
  else { s with stack := ⟨caller, { f with entry := s.self.done.handling, calling := false }⟩ :: rest }

/-- Calls of the owner, also from handlers of `done`; a job that is canceled or done; the steps of
the raise on top of the stack. -/
inductive Act
  | op (o : Op)
  | addAddr
  | resolve (forceAsync : Bool) (pool : ThreadPool)
  | destroy
  | cancel (job : ℕ)
  | threadJobDone (job : ℕ)
  | visit
  | ret
  | done
  deriving DecidableEq

/-- The owner's code runs when no raise does and in handlers, and uses the resolver while it is
there. -/
def State.calls (s : State) : Bool :=
  !s.fault && s.released = 0 &&
    match s.stack with
    | [] => true
    | f :: _ => f.raise.calling

def step (pool : Pool) (s : State) : Act → Option State
  | .op o =>
    if s.calls && s.self.pool then
      some { s with self := { s.self with done := s.self.done.apply pool o } }
    else none
  | .addAddr => if s.calls then some (addAddr s) else none
  | .resolve forceAsync p => if s.calls then some (resolve s forceAsync p) else none
  | .destroy =>
    if s.calls && !s.destroyed then some (Resolver.destroy { s with destroyed := true }) else none
  | .cancel job => if (s.jobs job).isSome then some (cancel s job) else none
  | .threadJobDone job =>
    if !s.fault && s.stack.isEmpty && (s.jobs job).isSome then some (resolveDone s job) else none
  | .visit =>
    match s.fault, s.stack with
    | false, ⟨caller, ⟨id, args, some entry, false⟩⟩ :: rest =>
      some (visit s caller ⟨id, args, some entry, false⟩ entry rest)
    | _, _ => none
  | .ret =>
    match s.fault, s.stack with
    | false, ⟨caller, ⟨id, args, entry, true⟩⟩ :: rest =>
      some (ret s caller ⟨id, args, entry, true⟩ rest)
    | _, _ => none
  | .done =>
    match s.fault, s.stack with
    | false, ⟨caller, ⟨_, _, none, false⟩⟩ :: rest =>
      match caller with
      | .resolve => some { s with stack := rest }
      | .resolveDone job => some (resolveDoneEnd { s with stack := rest } job)
    | _, _ => none

def machine (pool : Pool) : Lib.Machine State Act where
  init s := ∃ self entry, s = create self entry
  step := step pool

end PoserCore.Resolver
