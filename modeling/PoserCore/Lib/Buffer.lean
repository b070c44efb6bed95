import Mathlib.Data.List.Basic
import Mathlib.Tactic.SplitIfs

/-!
# Buffers

Memory as a function from offsets to values, with the values of a range (`slice`) and the storing of
values at an offset (`store`), which is `memcpy` and, with a slice of the same memory, `memmove`.
-/

namespace Lib.Buffer

variable {α : Type*}

/-- The `len` values from `off` on. -/
def slice (m : ℕ → α) (off len : ℕ) : List α := (List.range len).map fun i => m (off + i)

/-- The memory after `xs` has been stored at `off`. -/
def store (m : ℕ → α) (off : ℕ) (xs : List α) (i : ℕ) : α :=
  if i < off then m i else (xs[i - off]?).getD (m i)

variable {m m' : ℕ → α} {off len : ℕ} {xs : List α}

@[simp]
theorem length_slice : (slice m off len).length = len := by simp [slice]

@[simp]
theorem slice_zero : slice m off 0 = [] := rfl

theorem getElem?_slice {i : ℕ} (h : i < len) : (slice m off len)[i]? = some (m (off + i)) := by
  simp [slice, h]

/-- Two memories that agree on two ranges have the same slices there. -/
theorem slice_shift {off' : ℕ} (h : ∀ i < len, m (off + i) = m' (off' + i)) :
    slice m off len = slice m' off' len :=
  List.map_congr_left fun i hi => h i (List.mem_range.1 hi)

theorem slice_congr (h : ∀ i, off ≤ i → i < off + len → m i = m' i) :
    slice m off len = slice m' off len :=
  slice_shift fun i hi => h _ (by omega) (by omega)

theorem slice_add (m : ℕ → α) (off a b : ℕ) :
    slice m off (a + b) = slice m off a ++ slice m (off + a) b := by
  simp [slice, List.range_add, Nat.add_assoc]

theorem slice_succ (m : ℕ → α) (off len : ℕ) :
    slice m off (len + 1) = m off :: slice m (off + 1) len := by
  rw [Nat.add_comm, slice_add]
  rfl

theorem take_slice {n : ℕ} (h : n ≤ len) : (slice m off len).take n = slice m off n := by
  obtain ⟨k, rfl⟩ := Nat.exists_eq_add_of_le h
  rw [slice_add, List.take_left' length_slice]

theorem drop_slice {n : ℕ} (h : n ≤ len) :
    (slice m off len).drop n = slice m (off + n) (len - n) := by
  obtain ⟨k, rfl⟩ := Nat.exists_eq_add_of_le h
  rw [slice_add, List.drop_left' length_slice, Nat.add_sub_cancel_left]

/-! ## Storing -/

theorem store_of_lt {i : ℕ} (h : i < off) : store m off xs i = m i := by simp [store, h]

theorem store_of_ge {i : ℕ} (h : off + xs.length ≤ i) : store m off xs i = m i := by
  unfold store
  rw [if_neg (by omega), List.getElem?_eq_none (by omega), Option.getD_none]

theorem store_congr {i : ℕ} (h : m i = m' i) : store m off xs i = store m' off xs i := by
  unfold store
  rw [h]

/-- What was stored is there. -/
theorem slice_store (m : ℕ → α) (off : ℕ) (xs : List α) :
    slice (store m off xs) off xs.length = xs := by
  refine List.ext_getElem (by simp) fun i hi hi' => ?_
  have hge : ¬ off + i < off := by omega
  simp [slice, store, hge, hi']

theorem slice_store_before {dst : ℕ} (h : off + len ≤ dst) :
    slice (store m dst xs) off len = slice m off len :=
  slice_congr fun _ _ hi => store_of_lt (by omega)

/-- What is stored behind a slice prolongs it. -/
theorem slice_store_append (m : ℕ → α) (off len : ℕ) (xs : List α) :
    slice (store m (off + len) xs) off (len + xs.length) = slice m off len ++ xs := by
  rw [slice_add, slice_store_before (Nat.le_refl _), slice_store]

end Lib.Buffer
