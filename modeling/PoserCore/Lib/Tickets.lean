import Mathlib.Data.Finset.Basic

/-!
# Tickets

Numbers are drawn one after the other; each is held by one index until it is spent.
`Tickets f n A` says that `n` tickets were drawn, that those in `A` were spent and that each other
one is held by exactly one index, where `f i` is the ticket `i` holds.
-/

namespace Lib

universe u

variable {ι : Type u}

/-- `n` tickets were drawn, `A` were spent, the others are held under `f`. -/
structure Tickets (f : ι → Option ℕ) (n : ℕ) (A : Finset ℕ) : Prop where
  spent : ∀ e ∈ A, e < n
  held : ∀ i e, f i = some e → e < n ∧ e ∉ A
  inj : ∀ i j e, f i = some e → f j = some e → i = j
  pending : ∀ e < n, e ∉ A → ∃ i, f i = some e

namespace Tickets

variable {f : ι → Option ℕ} {n e : ℕ} {A : Finset ℕ} {i : ι}

theorem none : Tickets (fun _ : ι => Option.none) 0 ∅ := by
  constructor <;> simp

variable [DecidableEq ι]

/-- An index without a ticket draws the next one. -/
theorem draw (h : Tickets f n A) (hi : f i = .none) :
    Tickets (Function.update f i (some n)) (n + 1) A := by
  have old : ∀ j e, j ≠ i → Function.update f i (some n) j = some e → f j = some e ∧ e < n := by
    intro j e hj he
    rw [Function.update_of_ne hj] at he
    exact ⟨he, (h.held j e he).1⟩
  have new : ∀ e, Function.update f i (some n) i = some e → n = e := by
    intro e he
    rw [Function.update_self] at he
    exact Option.some.inj he
  constructor
  case spent => exact fun e he => Nat.lt_succ_of_lt (h.spent e he)
  case held =>
    intro j e he
    rcases eq_or_ne j i with rfl | hj
    · obtain rfl := new e he
      exact ⟨Nat.lt_succ_self _, fun hA => lt_irrefl _ (h.spent _ hA)⟩
    · obtain ⟨hj', hlt⟩ := old j e hj he
      exact ⟨Nat.lt_succ_of_lt hlt, (h.held j e hj').2⟩
  case inj =>
    intro j k e hj hk
    by_cases hji : j = i <;> by_cases hki : k = i
    · rw [hji, hki]
    · have := (old k e hki hk).2
      have := new e (hji ▸ hj)
      omega
    · have := (old j e hji hj).2
      have := new e (hki ▸ hk)
      omega
    · exact h.inj j k e (old j e hji hj).1 (old k e hki hk).1
  case pending =>
    intro e he hA
    rcases Nat.lt_succ_iff_lt_or_eq.1 he with hlt | rfl
    · obtain ⟨j, hj⟩ := h.pending e hlt hA
      have hji : j ≠ i := fun e' => by simp [e', hi] at hj
      exact ⟨j, by rw [Function.update_of_ne hji, hj]⟩
    · exact ⟨i, Function.update_self ..⟩

/-- The holder of a ticket spends it. -/
theorem spend (h : Tickets f n A) (hi : f i = some e) :
    Tickets (Function.update f i .none) n (insert e A) := by
  have old : ∀ j e', Function.update f i .none j = some e' → f j = some e' ∧ j ≠ i := by
    intro j e' he
    rcases eq_or_ne j i with rfl | hj
    · simp at he
    · exact ⟨by rwa [Function.update_of_ne hj] at he, hj⟩
  constructor
  case spent =>
    intro e' he
    rcases Finset.mem_insert.1 he with rfl | he
    · exact (h.held i _ hi).1
    · exact h.spent e' he
  case held =>
    intro j e' he
    obtain ⟨hj, hne⟩ := old j e' he
    obtain ⟨hlt, hA⟩ := h.held j e' hj
    refine ⟨hlt, fun hm => ?_⟩
    rcases Finset.mem_insert.1 hm with rfl | hm
    · exact hne (h.inj j i _ hj hi)
    · exact hA hm
  case inj => exact fun j k e' hj hk => h.inj j k e' (old j e' hj).1 (old k e' hk).1
  case pending =>
    intro e' he hA
    rw [Finset.mem_insert, not_or] at hA
    obtain ⟨j, hj⟩ := h.pending e' he hA.2
    have hji : j ≠ i := fun e'' => hA.1 (Option.some.inj (by rw [← hj, e'', hi]))
    exact ⟨j, by rw [Function.update_of_ne hji, hj]⟩

end Tickets

end Lib
