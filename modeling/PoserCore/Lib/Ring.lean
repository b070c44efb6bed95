import Mathlib.Algebra.BigOperators.Group.Finset.Basic

/-!
# Rings of slots

The positions of a ring of `n` slots with a current position: `next` is the one after it, `back d`
the one `d` steps before it, and `ahead d` the one `d` steps after it.
-/

namespace Lib.Ring

/-- The position after `pos`. -/
def next (n pos : ℕ) : ℕ := if pos + 1 = n then 0 else pos + 1

/-- The position `d` steps before `pos`. -/
def back (n pos d : ℕ) : ℕ := if d ≤ pos then pos - d else pos + n - d

variable {n pos d : ℕ}

theorem next_lt (h : pos < n) : next n pos < n := by
  unfold next
  split_ifs <;> omega

theorem back_lt (h : pos < n) : back n pos d < n := by
  unfold back
  split_ifs <;> omega

@[simp]
theorem back_zero : back n pos 0 = pos := by simp [back]

theorem back_back (h : pos < n) (hd : d < n) : back n pos (back n pos d) = d := by
  unfold back
  split_ifs <;> omega

theorem back_next_succ (hd : d + 1 < n) :
    back n (next n pos) (d + 1) = back n pos d := by
  unfold back next
  split_ifs <;> omega

theorem back_ne (hd : d + 1 < n) : back n pos d ≠ next n pos := by
  unfold back next
  split_ifs <;> omega

/-- Going back through the whole ring meets every position once. -/
theorem sum_back {M : Type*} [AddCommMonoid M] (h : pos < n) (f : ℕ → M) :
    ∑ d ∈ Finset.range n, f (back n pos d) = ∑ j ∈ Finset.range n, f j :=
  Finset.sum_nbij' (back n pos) (back n pos)
    (fun _ _ => Finset.mem_range.2 (back_lt h)) (fun _ _ => Finset.mem_range.2 (back_lt h))
    (fun _ hd => back_back h (Finset.mem_range.1 hd))
    (fun _ hd => back_back h (Finset.mem_range.1 hd)) (fun _ _ => rfl)

/-! ## Ahead -/

/-- The position `d` steps after `pos`. -/
def ahead (n pos d : ℕ) : ℕ := if pos + d < n then pos + d else pos + d - n

theorem ahead_zero (h : pos < n) : ahead n pos 0 = pos := if_pos h

theorem ahead_full (n pos : ℕ) : ahead n pos n = pos := by
  unfold ahead
  split_ifs <;> omega

theorem ahead_lt (h : pos < n) (hd : d ≤ n) : ahead n pos d < n := by
  unfold ahead
  split_ifs <;> omega

theorem next_ahead (h : pos < n) (hd : d < n) : next n (ahead n pos d) = ahead n pos (d + 1) := by
  unfold ahead next
  split_ifs <;> omega

theorem ahead_next (hd : d < n) : ahead n (next n pos) d = ahead n pos (d + 1) := by
  unfold ahead next
  split_ifs <;> omega

theorem ahead_ne {d' : ℕ} (hd : d < d') (hd' : d' < n) :
    ahead n pos d ≠ ahead n pos d' := by
  unfold ahead
  split_ifs <;> omega

end Lib.Ring
