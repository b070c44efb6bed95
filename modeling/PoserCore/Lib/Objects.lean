import Mathlib.Logic.Function.Basic
import PoserCore.Lib.Machine

/-!
# Concurrent objects

An object has a state and operations.  An operation is a sequence of atomic actions on the state that
ends with a result; often it is a single one.  Any number of threads use the object: each calls an
operation, its actions happen at some time before it returns, and in between other threads act
(`Step`, `Path`).  Seen from outside, a use of the object is a sequence of calls and returns.

A machine that emits such events implements the object if every sequence it can emit is one of the
object (`Implements`).  For an object with single actions this is linearizability.  The rule
`Implements.of_simulation` proves it from a relation that every step of the machine keeps.
-/

namespace Lib

universe u v w

/-- What is seen of the threads that use an object. -/
inductive Event (ι Op Res : Type*)
  | call (i : ι) (op : Op)
  | ret (i : ι) (r : Res)

/-- An action of an operation leads to what is left of the operation, or to its result. -/
structure Object (τ : Type u) (Op : Type v) (Res : Type w) where
  init : τ → Prop
  act : τ → Op → τ → Op ⊕ Res → Prop

/-- Where a thread is that uses an object. -/
inductive Phase (Op Res : Type*)
  | idle
  | active (op : Op)
  | done (r : Res)

namespace Object

variable {ι : Type*} {τ : Type u} {Op : Type v} {Res : Type w} [DecidableEq ι]
variable {O : Object τ Op Res} {x x' x'' : τ} {ph ph' ph'' : ι → Phase Op Res}
variable {es es' : List (Event ι Op Res)}

/-- One step of the threads that use the object, and the event seen of it. -/
inductive Step (O : Object τ Op Res) :
    τ → (ι → Phase Op Res) → List (Event ι Op Res) → τ → (ι → Phase Op Res) → Prop
  | call {x : τ} {ph : ι → Phase Op Res} {i : ι} {op : Op} (hi : ph i = .idle) :
      Step O x ph [.call i op] x (Function.update ph i (.active op))
  | act {x x' : τ} {ph : ι → Phase Op Res} {i : ι} {op op' : Op} (hi : ph i = .active op)
      (h : O.act x op x' (.inl op')) : Step O x ph [] x' (Function.update ph i (.active op'))
  | finish {x x' : τ} {ph : ι → Phase Op Res} {i : ι} {op : Op} {r : Res} (hi : ph i = .active op)
      (h : O.act x op x' (.inr r)) : Step O x ph [] x' (Function.update ph i (.done r))
  | ret {x : τ} {ph : ι → Phase Op Res} {i : ι} {r : Res} (hi : ph i = .done r) :
      Step O x ph [.ret i r] x (Function.update ph i .idle)

/-- Any number of steps, and the events seen of them. -/
inductive Path (O : Object τ Op Res) (x : τ) (ph : ι → Phase Op Res) :
    List (Event ι Op Res) → τ → (ι → Phase Op Res) → Prop
  | refl : Path O x ph [] x ph
  | tail {x' x'' : τ} {ph' ph'' : ι → Phase Op Res} {es es' : List (Event ι Op Res)}
      (h : Path O x ph es x' ph') (hs : Step O x' ph' es' x'' ph'') :
      Path O x ph (es ++ es') x'' ph''

theorem Path.single (h : O.Step x ph es x' ph') : O.Path x ph es x' ph' := by
  rw [← List.nil_append es]
  exact .tail .refl h

theorem Path.trans (h : O.Path x ph es x' ph') (h' : O.Path x' ph' es' x'' ph'') :
    O.Path x ph (es ++ es') x'' ph'' := by
  induction h' with
  | refl =>
    rw [List.append_nil]
    exact h
  | tail _ hs ih =>
    rw [← List.append_assoc]
    exact ih.tail hs

/-- The events seen of threads that start with a new object. -/
def Seen (O : Object τ Op Res) (es : List (Event ι Op Res)) : Prop :=
  ∃ x x' ph, O.init x ∧ O.Path x (fun _ => .idle) es x' ph

end Object

section Implements

variable {σ α ε : Type*} {ι : Type*} {τ : Type u} {Op : Type v} {Res : Type w}

/-- The events emitted on the way to a state. -/
inductive Machine.Emits (M : Machine σ α) (vis : σ → α → List ε) : List ε → σ → Prop
  | init {s : σ} (h : M.init s) : Emits M vis [] s
  | step {s s' : σ} {a : α} {es : List ε} (h : Emits M vis es s) (hs : M.step s a = some s') :
      Emits M vis (es ++ vis s a) s'

variable [DecidableEq ι]

/-- Whatever the machine emits can be seen of the object. -/
def Implements (M : Machine σ α) (vis : σ → α → List (Event ι Op Res)) (O : Object τ Op Res) : Prop :=
  ∀ es s, M.Emits vis es s → O.Seen es

variable {M : Machine σ α} {vis : σ → α → List (Event ι Op Res)} {O : Object τ Op Res}

/-- A relation that holds at the start and that every step keeps, with steps of the object that show
the same events. -/
theorem Implements.of_simulation (R : σ → τ → (ι → Phase Op Res) → Prop)
    (h0 : ∀ s, M.init s → ∃ x, O.init x ∧ R s x fun _ => .idle)
    (hstep : ∀ s a s' x ph, R s x ph → M.step s a = some s' →
      ∃ x' ph', O.Path x ph (vis s a) x' ph' ∧ R s' x' ph') : Implements M vis O := by
  have key : ∀ es s, M.Emits vis es s →
      ∃ x x' ph, O.init x ∧ O.Path x (fun _ => .idle) es x' ph ∧ R s x' ph := by
    intro es s h
    induction h with
    | init h =>
      obtain ⟨x, hx, hR⟩ := h0 _ h
      exact ⟨x, x, _, hx, .refl, hR⟩
    | step _ hs ih =>
      obtain ⟨x, x', ph, hx, hpath, hR⟩ := ih
      obtain ⟨x'', ph', hpath', hR'⟩ := hstep _ _ _ _ _ hR hs
      exact ⟨x, x'', ph', hx, hpath.trans hpath', hR'⟩
  intro es s h
  obtain ⟨x, x', ph, hx, hpath, -⟩ := key es s h
  exact ⟨x, x', ph, hx, hpath⟩

end Implements

end Lib
