import PoserCore.ThreadPool.Model

/-!
# Stacks and contexts

What `worker`, `PSC_AsyncTask_await` and `threadJobDone` do with the stacks of `async` jobs, besides
what they do with the jobs.  Such a job runs on a stack of its own.  When it awaits a task, its
context is saved and its worker goes on in its loop; later the job goes on in that context, maybe on
another worker.

`S` are the stacks.  What `mmap` returns is a stack that was not mapped before.  No memory is given
back before the pool ends, which is not modelled.
-/

namespace PoserCore.ThreadPool

open Lib (Machine)

variable {J W S : Type} [DecidableEq J] [DecidableEq W] [DecidableEq S]

/-- `resume` of a job is the stack of the context that is saved in its task. -/
structure Coroutines (J W S : Type) where
  pool : State J W
  /-- The stacks that are kept for other jobs -/
  freeStacks : List S
  mapped : List S
  stack : J → Option S
  /-- The worker in whose loop `caller` of the job was saved -/
  caller : J → Option W
  resume : J → Option S
  /-- The job whose calls are on the stack, from where it starts until `proc` returned -/
  frames : S → Option J
  /-- The stack that the worker runs on, if that is not its own -/
  current : W → Option S

namespace Coroutines

/-- `StackMgr_getStack` -/
def getStack (s : Coroutines J W S) (fresh : S) : S × Coroutines J W S :=
  match s.freeStacks with
  | stack :: freeStacks => (stack, { s with freeStacks := freeStacks })
  | [] => (fresh, { s with mapped := fresh :: s.mapped })

/-- The switch to an `async` job in `worker` -/
def switch (s : Coroutines J W S) (w : W) (j : J) (fresh : S) : Coroutines J W S :=
  if ((s.pool.job j).task).isSome then
    { s with
      caller := Function.update s.caller j (some w)
      resume := Function.update s.resume j none
      current := Function.update s.current w (s.resume j) }
  else
    let (stack, s) :=
      match s.stack j with
      | some stack => (stack, s)
      | none => s.getStack fresh
    { s with
      stack := Function.update s.stack j (some stack)
      caller := Function.update s.caller j (some w)
      frames := Function.update s.frames stack (some j)
      current := Function.update s.current w (some stack) }

/-- `proc` returned to `runThreadJob`. -/
def leave (s : Coroutines J W S) (w : W) : Coroutines J W S :=
  { s with
    frames := fun stack => if s.current w = some stack then none else s.frames stack
    current := Function.update s.current w none }

/-- The switch to the caller in `PSC_AsyncTask_await` -/
def suspend (s : Coroutines J W S) (w : W) (j : J) : Coroutines J W S :=
  { s with
    resume := Function.update s.resume j (s.current w)
    current := Function.update s.current w none }

/-- `StackMgr_returnStack` -/
def returnStack (s : Coroutines J W S) (j : J) : Coroutines J W S :=
  { s with
    freeStacks := (s.stack j).toList ++ s.freeStacks
    stack := Function.update s.stack j none }

/-- The part of a step that concerns the stacks -/
def switched (async : J → Bool) (s : Coroutines J W S) (fresh : S) :
    Action J W → Coroutines J W S
  | .run w =>
      match s.pool.worker w with
      | .dequeued j =>
          if (s.pool.job j).hasCompleted ∧ async j then s.switch w j fresh else s
      | _ => s
  | .finish w =>
      match s.pool.worker w with
      | .running j => if async j then s.leave w else s
      | _ => s
  | .await w =>
      match s.pool.worker w with
      | .running j => if async j then s.suspend w j else s
      | _ => s
  | .threadJobDone thrno =>
      match s.pool.posted.find? fun j => (s.pool.job j).thrno = thrno with
      | some j => if (s.pool.job j).task.isSome then s else s.returnStack j
      | none => s
  | _ => s

/-- A step of the pool, with the stack that `mmap` may return in it -/
def step (sz : ℕ) (async : J → Bool) (s : Coroutines J W S) (a : Action J W × S) :
    Option (Coroutines J W S) :=
  if a.2 ∈ s.mapped then none
  else
    (ThreadPool.step sz async s.pool a.1).map fun pool =>
      { s.switched async a.2 a.1 with pool := pool }

def init : Coroutines J W S where
  pool := create
  freeStacks := []
  mapped := []
  stack _ := none
  caller _ := none
  resume _ := none
  frames _ := none
  current _ := none

end Coroutines

def coroutines (J W S : Type) [DecidableEq J] [DecidableEq W] [DecidableEq S] (sz : ℕ)
    (async : J → Bool) : Machine (Coroutines J W S) (Action J W × S) where
  init s := s = Coroutines.init
  step := Coroutines.step sz async

end PoserCore.ThreadPool
