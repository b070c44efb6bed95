import Mathlib.Data.Option.Basic
import Mathlib.Tactic.SplitIfs

/-!
# Machines, runs and invariants

A machine is a set of initial states and a partial step function over actions: an action that is
not enabled has no successor.  `Run ok` collects the states reached by runs all of whose steps
satisfy `ok` in the state they start from, and `Reachable` those of unrestricted runs.  The rules
`Run.invariant` (what every step keeps holds of every run) and `Run.mono` (a weaker condition has
more runs) are all that the developments below use; `exec` replays a fixed list of actions.
-/

namespace Lib

universe u v

/-- Initial states and a partial step function. -/
structure Machine (σ : Type u) (α : Type v) where
  init : σ → Prop
  step : σ → α → Option σ

namespace Machine

variable {σ : Type u} {α : Type v} {M : Machine σ α} {ok ok' : σ → α → Prop}

/-- The states reached by runs whose steps all satisfy `ok`. -/
inductive Run (M : Machine σ α) (ok : σ → α → Prop) : σ → Prop
  | init {s : σ} (h : M.init s) : Run M ok s
  | step {s s' : σ} {a : α} (h : Run M ok s) (hok : ok s a) (hs : M.step s a = some s') :
      Run M ok s'

/-- The states reached by any run. -/
def Reachable (M : Machine σ α) : σ → Prop := M.Run fun _ _ => True

/-- What holds initially and is kept by every permitted step holds along every run. -/
theorem Run.invariant {I : σ → Prop} (h0 : ∀ s, M.init s → I s)
    (hstep : ∀ s a s', I s → ok s a → M.step s a = some s' → I s') {s : σ} (h : M.Run ok s) :
    I s := by
  induction h with
  | init h => exact h0 _ h
  | step _ hok hs ih => exact hstep _ _ _ ih hok hs

theorem Run.mono (h : ∀ s a, ok s a → ok' s a) {s : σ} (hr : M.Run ok s) : M.Run ok' s := by
  induction hr with
  | init h0 => exact .init h0
  | step _ hok hs ih => exact .step ih (h _ _ hok) hs

theorem Run.reachable {s : σ} (h : M.Run ok s) : M.Reachable s := h.mono fun _ _ _ => trivial

/-- Replay a list of actions, stopping at the first one that is not enabled. -/
def exec (M : Machine σ α) : List α → σ → Option σ
  | [], s => some s
  | a :: as, s => (M.step s a).bind (M.exec as)

/-- Replay a list of actions, also stopping at one that the Boolean condition `ok` forbids. -/
def execOk (M : Machine σ α) (ok : σ → α → Bool) : List α → σ → Option σ
  | [], s => some s
  | a :: as, s => if ok s a then (M.step s a).bind (M.execOk ok as) else none

theorem Run.execOk {ok : σ → α → Prop} {b : σ → α → Bool} (hb : ∀ s a, b s a = true → ok s a) :
    ∀ {as : List α} {s s' : σ}, M.Run ok s → M.execOk b as s = some s' → M.Run ok s'
  | [], s, s', h, he => by
      obtain rfl : s = s' := by simpa [Machine.execOk] using he
      exact h
  | a :: as, s, s', h, he => by
      rw [Machine.execOk] at he
      split_ifs at he with hok
      obtain ⟨t, ht, he⟩ := Option.bind_eq_some_iff.1 he
      exact Run.execOk hb (.step h (hb _ _ hok) ht) he

theorem Reachable.exec : ∀ {as : List α} {s s' : σ},
    M.Reachable s → M.exec as s = some s' → M.Reachable s'
  | [], s, s', h, he => by
      obtain rfl : s = s' := by simpa [Machine.exec] using he
      exact h
  | a :: as, s, s', h, he => by
      obtain ⟨t, ht, he⟩ := Option.bind_eq_some_iff.1 he
      exact Reachable.exec (Run.step h trivial ht) he

/-- What every action keeps of the state and the actions that led to it. -/
theorem exec_history {I : List α → σ → Prop}
    (hstep : ∀ as s a s', I as s → M.step s a = some s' → I (as ++ [a]) s') :
    ∀ {bs as : List α} {s s' : σ}, I as s → M.exec bs s = some s' → I (as ++ bs) s'
  | [], as, s, s', h, he => by
      obtain rfl : s = s' := by simpa [Machine.exec] using he
      rwa [List.append_nil]
  | b :: bs, as, s, s', h, he => by
      obtain ⟨t, ht, he⟩ := Option.bind_eq_some_iff.1 he
      rw [List.append_cons]
      exact exec_history hstep (hstep _ _ _ _ h ht) he

/-- A state satisfying `p` at the end of a replayed list of actions is reachable. -/
theorem exists_reachable {s₀ : σ} (h₀ : M.init s₀) {as : List α} {p : σ → Bool}
    (h : (M.exec as s₀).any p = true) : ∃ s, M.Reachable s ∧ p s = true := by
  obtain ⟨s, hs, hp⟩ := (Option.any_eq_true _ _).1 h
  exact ⟨s, Reachable.exec (Run.init h₀) hs, hp⟩

theorem exists_run {s₀ : σ} (h₀ : M.init s₀) {b : σ → α → Bool} (hb : ∀ s a, b s a = true → ok s a)
    {as : List α} {p : σ → Bool} (h : (M.execOk b as s₀).any p = true) :
    ∃ s, M.Run ok s ∧ p s = true := by
  obtain ⟨s, hs, hp⟩ := (Option.any_eq_true _ _).1 h
  exact ⟨s, Run.execOk hb (Run.init h₀) hs, hp⟩

end Machine

end Lib
