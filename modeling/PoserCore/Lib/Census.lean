import Mathlib.Data.Finset.Card

/-!
# Counting threads by where they are

`Census A f n` says that exactly `n` indices `i` have `A (f i)`.  The index type may be infinite,
so the number is witnessed by a finite set.  The three update rules say how the number changes when
one index moves: into `A`, out of `A`, or neither.
-/

namespace Lib

universe u v

variable {ι : Type u} {β : Type v}

/-- Exactly `n` indices satisfy `A` under `f`. -/
def Census (A : β → Prop) (f : ι → β) (n : ℕ) : Prop :=
  ∃ S : Finset ι, (∀ i, i ∈ S ↔ A (f i)) ∧ S.card = n

namespace Census

variable {A : β → Prop} {f : ι → β} {n : ℕ} {i : ι} {b : β}

theorem of_forall_not (h : ∀ i, ¬ A (f i)) : Census A f 0 :=
  ⟨∅, fun i => by simp [h i], rfl⟩

theorem pos (h : Census A f n) (hi : A (f i)) : 0 < n := by
  obtain ⟨S, hS, rfl⟩ := h
  exact Finset.card_pos.2 ⟨i, (hS i).2 hi⟩

variable [DecidableEq ι]

theorem keep (h : Census A f n) (hb : A b ↔ A (f i)) : Census A (Function.update f i b) n := by
  obtain ⟨S, hS, rfl⟩ := h
  refine ⟨S, fun j => ?_, rfl⟩
  rcases eq_or_ne j i with rfl | hj
  · rw [Function.update_self, hb, hS]
  · rw [Function.update_of_ne hj, hS]

theorem enter (h : Census A f n) (hi : ¬ A (f i)) (hb : A b) :
    Census A (Function.update f i b) (n + 1) := by
  obtain ⟨S, hS, rfl⟩ := h
  refine ⟨insert i S, fun j => ?_, Finset.card_insert_of_notMem fun hm => hi ((hS i).1 hm)⟩
  rcases eq_or_ne j i with rfl | hj
  · simp [hb]
  · rw [Function.update_of_ne hj, Finset.mem_insert, hS, or_iff_right hj]

theorem leave (h : Census A f n) (hi : A (f i)) (hb : ¬ A b) :
    Census A (Function.update f i b) (n - 1) := by
  obtain ⟨S, hS, rfl⟩ := h
  refine ⟨S.erase i, fun j => ?_, Finset.card_erase_of_mem ((hS i).2 hi)⟩
  rcases eq_or_ne j i with rfl | hj
  · simp [hb]
  · rw [Function.update_of_ne hj, Finset.mem_erase, hS, and_iff_right hj]

end Census

end Lib
