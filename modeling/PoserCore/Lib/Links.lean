import Mathlib.Data.List.Nodup
import Mathlib.Logic.Relation

/-!
# Singly linked lists in a store

`Links next l` says that the nodes `l` are chained by the pointers `next` in this order and that
the last one points nowhere.  The rules cover what a program does to such a list: writing elsewhere
(`Links.congr`), appending a node (`Links.snoc`), dropping the head (`Links.tail`) and following a
pointer (`Links.next_eq`); `Links.reaches` turns membership into reachability.  `Linked next l` is
the same for a list that may be empty, with the rule for giving a node another rest
(`Linked.splice`), which appends a node or takes one out (`Linked.snoc`, `Linked.unlink`).  A loop
that follows the pointers has fuel for each node (`fuel_cons`).
-/

namespace Lib

universe u

variable {α : Type u}

/-- The nodes are chained by `next`, and the last one points nowhere. -/
def Links (next : α → Option α) : List α → Prop
  | [] => False
  | [x] => next x = none
  | x :: y :: l => next x = some y ∧ Links next (y :: l)

namespace Links

variable {next next' : α → Option α} {l : List α} {x y : α}

theorem ne_nil (h : Links next l) : l ≠ [] := by
  rintro rfl
  exact h

theorem congr (h : Links next l) (heq : ∀ x ∈ l, next' x = next x) : Links next' l := by
  induction l with
  | nil => exact h
  | cons x l ih =>
    cases l with
    | nil => exact (heq x List.mem_cons_self).trans h
    | cons y l =>
      exact ⟨(heq x List.mem_cons_self).trans h.1, ih h.2 fun z hz => heq z (.tail _ hz)⟩

theorem tail (h : Links next (x :: l)) (hl : l ≠ []) : Links next l := by
  cases l with
  | nil => exact absurd rfl hl
  | cons y l => exact h.2

/-- A node that points nowhere is the last one. -/
theorem eq_append_of_none (h : Links next l) (hx : x ∈ l) (hn : next x = none) :
    ∃ l', l = l' ++ [x] := by
  induction l with
  | nil => simp at hx
  | cons z l ih =>
    cases l with
    | nil =>
      obtain rfl := List.mem_singleton.1 hx
      exact ⟨[], rfl⟩
    | cons y l =>
      rcases List.mem_cons.1 hx with rfl | hx
      · rw [h.1] at hn
        cases hn
      · obtain ⟨l', hl'⟩ := ih h.2 hx
        exact ⟨z :: l', by rw [hl', List.cons_append]⟩

theorem next_head (h : Links next (x :: l)) : next x = l.head? := by
  cases l with
  | nil => exact h
  | cons y l => exact h.1

/-- The pointer of a node is the node after it. -/
theorem next_eq {l₁ l₂ : List α} (h : Links next (l₁ ++ x :: l₂)) : next x = l₂.head? := by
  induction l₁ with
  | nil => exact next_head h
  | cons z l₁ ih => exact ih (tail h (by simp))

/-- Appending a node that points nowhere. -/
theorem snoc [DecidableEq α] {l' : List α} (h : Links next (l' ++ [x])) (hnd : (l' ++ [x]).Nodup)
    (hy : y ∉ l' ++ [x]) (hn : next y = none) :
    Links (Function.update next x (some y)) (l' ++ [x] ++ [y]) := by
  have hyx : y ≠ x := fun e => hy (by simp [e])
  induction l' with
  | nil => exact ⟨Function.update_self .., by rwa [Links, Function.update_of_ne hyx]⟩
  | cons z l' ih =>
    have hzx : z ≠ x := by
      rintro rfl
      simp at hnd
    have hrest := ih (tail h (by simp)) (List.nodup_cons.1 hnd).2 fun hm => hy (.tail _ hm)
    have hz : next z = (l' ++ [x]).head? := next_head h
    cases l' with
    | nil => exact ⟨by rw [Function.update_of_ne hzx, hz]; rfl, hrest⟩
    | cons w l' => exact ⟨by rw [Function.update_of_ne hzx, hz]; rfl, hrest⟩

theorem reaches (h : Links next (x :: l)) (hy : y ∈ x :: l) :
    Relation.ReflTransGen (fun a b => next a = some b) x y := by
  induction l generalizing x with
  | nil =>
    obtain rfl : y = x := by simpa using hy
    exact .refl
  | cons z l ih =>
    rcases List.mem_cons.1 hy with rfl | hy
    · exact .refl
    · exact .head h.1 (ih h.2 hy)

/-- Following the pointer of a member stays in the list. -/
theorem mem_next (h : Links next l) (hx : x ∈ l) (hn : next x = some y) : y ∈ l := by
  obtain ⟨l₁, l₂, rfl⟩ := List.append_of_mem hx
  rw [next_eq h] at hn
  exact List.mem_append_right _ (.tail _ (List.mem_of_head? hn))

end Links

/-! ## Lists that may be empty -/

/-- The nodes are chained by `next`, and the last one points nowhere, if there is one. -/
def Linked (next : α → Option α) : List α → Prop
  | [] => True
  | x :: l => next x = l.head? ∧ Linked next l

namespace Linked

variable {next next' : α → Option α} {l l₁ l₂ : List α} {x y p : α}

theorem congr (h : Linked next l) (heq : ∀ x ∈ l, next' x = next x) : Linked next' l := by
  induction l with
  | nil => trivial
  | cons x l ih =>
    exact ⟨(heq x List.mem_cons_self).trans h.1, ih h.2 fun z hz => heq z (.tail _ hz)⟩

theorem of_append (h : Linked next (l₁ ++ l₂)) : Linked next l₂ := by
  induction l₁ with
  | nil => exact h
  | cons z l₁ ih => exact ih h.2

/-- The pointer of a node is the node after it. -/
theorem next_eq (h : Linked next (l₁ ++ x :: l₂)) : next x = l₂.head? := h.of_append.1

variable [DecidableEq α]

/-- A node gets another rest: its pointer is changed to the head of it. -/
theorem splice {l₃ : List α} (h : Linked next (l₁ ++ p :: l₂)) (h₃ : Linked next l₃) (hp : p ∉ l₁)
    (hp₃ : p ∉ l₃) : Linked (Function.update next p l₃.head?) (l₁ ++ p :: l₃) := by
  induction l₁ with
  | nil =>
    refine ⟨Function.update_self .., h₃.congr fun z hz => Function.update_of_ne ?_ ..⟩
    rintro rfl
    exact hp₃ hz
  | cons z l₁ ih =>
    have hz : z ≠ p := fun e => hp (by simp [e])
    refine ⟨?_, ih h.2 fun hm => hp (.tail _ hm)⟩
    rw [Function.update_of_ne hz, h.1]
    cases l₁ <;> rfl

/-- Appending a node that points nowhere to a list that has a last node. -/
theorem snoc (h : Linked next (l ++ [x])) (hnd : (l ++ [x]).Nodup) (hy : y ∉ l ++ [x])
    (hn : next y = none) : Linked (Function.update next x (some y)) (l ++ [x] ++ [y]) := by
  have hx : x ∉ l := fun hm => (List.nodup_append.1 hnd).2.2 x hm x List.mem_cons_self rfl
  have hyx : x ∉ [y] := fun hm => hy (by simp [List.mem_singleton.1 hm])
  rw [List.append_assoc]
  exact splice h (show Linked next [y] from ⟨hn, trivial⟩) hx hyx

/-- Taking a node out: its predecessor points to what it pointed to. -/
theorem unlink (h : Linked next (l₁ ++ p :: x :: l₂)) (hnd : (l₁ ++ p :: x :: l₂).Nodup) :
    Linked (Function.update next p (next x)) (l₁ ++ p :: l₂) := by
  have hp : p ∉ l₁ ++ x :: l₂ := (List.nodup_cons.1 (List.nodup_middle.1 hnd)).1
  have hrest : Linked next (x :: l₂) := h.of_append.2
  rw [hrest.1]
  exact h.splice hrest.2 (fun hm => hp (List.mem_append_left _ hm))
    fun hm => hp (List.mem_append_right _ (.tail _ hm))

end Linked

/-- Fuel for a list is fuel for one step and for the rest of the list. -/
theorem fuel_cons {l : List α} {x : α} {n : ℕ} (hn : (x :: l).length ≤ n) :
    ∃ m, n = m + 1 ∧ l.length ≤ m := by
  cases n with
  | zero => exact absurd hn (Nat.not_succ_le_zero _)
  | succ m => exact ⟨m, rfl, Nat.le_of_succ_le_succ hn⟩

/-! ## Positions in a list -/

/-- Some occurrence of `p` in the list is followed by `q`, or is `q`. -/
def After (l : List α) (p q : α) : Prop := ∃ l₁ l₂, l = l₁ ++ p :: l₂ ∧ q ∈ p :: l₂

namespace After

variable {next : α → Option α} {l : List α} {p q n : α}

theorem refl (h : p ∈ l) : After l p p := by
  obtain ⟨l₁, l₂, rfl⟩ := List.append_of_mem h
  exact ⟨l₁, l₂, rfl, .head _⟩

theorem mem (h : After l p q) : p ∈ l := by
  obtain ⟨l₁, l₂, rfl, -⟩ := h
  simp

theorem append (h : After l p q) (l' : List α) : After (l ++ l') p q := by
  obtain ⟨l₁, l₂, rfl, hq⟩ := h
  exact ⟨l₁, l₂ ++ l', by simp, List.mem_append_left l' hq⟩

/-- The later position follows a pointer. -/
theorem advance (h : After l p q) (hl : Links next l) (hn : next q = some n) : After l p n := by
  obtain ⟨l₁, l₂, rfl, hq⟩ := h
  refine ⟨l₁, l₂, rfl, ?_⟩
  have hs : Links next (p :: l₂) := by
    clear hq hn
    induction l₁ with
    | nil => exact hl
    | cons x l₁ ih => exact ih (hl.tail (by simp))
  exact hs.mem_next hq hn

/-- The earlier position follows a pointer, unless the two are the same. -/
theorem follow (h : After l p q) (hl : Links next l) (hn : next p = some n) (hne : q ≠ p) :
    After l n q := by
  obtain ⟨l₁, l₂, rfl, hq⟩ := h
  rw [hl.next_eq] at hn
  cases l₂ with
  | nil => cases hn
  | cons y l₂ =>
    obtain rfl : y = n := by simpa using hn
    exact ⟨l₁ ++ [p], l₂, by simp, (List.mem_cons.1 hq).resolve_left hne⟩

theorem tail {x : α} (h : After (x :: l) p q) : p = x ∨ After l p q := by
  obtain ⟨l₁, l₂, he, hq⟩ := h
  cases l₁ with
  | nil => exact .inl (List.cons.inj he).1.symm
  | cons y l₁ => exact .inr ⟨l₁, l₂, (List.cons.inj he).2, hq⟩

/-- In a list without repetitions the position of `p` is the given one. -/
theorem mem_of_nodup {l₁ l₂ : List α} (h : After (l₁ ++ p :: l₂) p q)
    (hnd : (l₁ ++ p :: l₂).Nodup) : q ∈ p :: l₂ := by
  induction l₁ with
  | nil =>
    obtain ⟨l₁', l₂', he, hq⟩ := h
    cases l₁' with
    | nil =>
      obtain ⟨-, rfl⟩ := List.cons.inj he
      exact hq
    | cons y l₁' =>
      obtain ⟨rfl, rfl⟩ := List.cons.inj he
      simp at hnd
  | cons x l₁ ih =>
    have hx := List.nodup_cons.1 hnd
    rcases tail h with rfl | h
    · simp at hx
    · exact ih h hx.2

end After

end Lib
