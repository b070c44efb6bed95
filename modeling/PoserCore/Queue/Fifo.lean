import Mathlib.Data.List.Basic
import PoserCore.Lib.Ring
import PoserCore.Queue.Model

/-!
# The queue is first in, first out

`Holds q l`: the queue holds the entries `l`, the oldest one first, in a ring that starts at `front`.
Growing the ring does not change what it holds, wherever it starts (`Holds.expand`), so that every
run of calls does what it does to the list `l` (`queue_fifo`).
-/

namespace PoserCore.Queue

open Lib Lib.Buffer

variable {α φ : Type}

/-! ## What calls mean -/

inductive Op (α φ : Type)
  | enqueue (obj : α) (deleter : Option φ)
  | dequeue

/-- A call on a list of entries, with the object that it returns. -/
def Op.spec (l : List (QueueEntry α φ)) : Op α φ → List (QueueEntry α φ) × List (Option α)
  | .enqueue obj deleter => (l ++ [⟨obj, deleter⟩], [])
  | .dequeue => (l.tail, [l.head?.map QueueEntry.obj])

/-- Calls on a list of entries, with the objects that the dequeueing ones return. -/
def spec : List (Op α φ) → List (QueueEntry α φ) → List (QueueEntry α φ) × List (Option α)
  | [], l => (l, [])
  | op :: ops, l =>
      let r := spec ops (op.spec l).1
      (r.1, (op.spec l).2 ++ r.2)

def Op.apply (q : Queue α φ) : Op α φ → Option (Queue α φ × List (Option α))
  | .enqueue obj deleter => (q.enqueue obj deleter).map fun q => (q, [])
  | .dequeue => q.dequeue.map fun r => (r.1, [r.2])

/-- Calls on a queue, with the objects that the dequeueing ones return. -/
def run : List (Op α φ) → Queue α φ → Option (Queue α φ × List (Option α))
  | [], q => some (q, [])
  | op :: ops, q => do
      let (q, objs) ← op.apply q
      let (q, objs') ← run ops q
      some (q, objs ++ objs')

/-! ## What a queue holds -/

structure Holds (q : Queue α φ) (l : List (QueueEntry α φ)) : Prop where
  front : q.front < q.capa
  count : q.count = l.length
  count_le : q.count ≤ q.capa
  back : q.back = Ring.ahead q.capa q.front q.count
  entries : ∀ i e, l[i]? = some e → q.entries (Ring.ahead q.capa q.front i) = some e

variable {q : Queue α φ} {l : List (QueueEntry α φ)}

theorem holds_create : Holds (Queue.create : Queue α φ) [] where
  front := Nat.zero_lt_succ _
  count := rfl
  count_le := Nat.zero_le _
  back := rfl
  entries i e h := by simp at h

theorem Holds.entry (h : Holds q l) {i : ℕ} {e : QueueEntry α φ} (he : l[i]? = some e) :
    q.entry (Ring.ahead q.capa q.front i) = some e := by
  have hi : i < l.length := (List.getElem?_eq_some_iff.1 he).1
  have hle := h.count_le
  rw [h.count] at hle
  rw [Queue.entry, if_pos (Ring.ahead_lt h.front (by omega)), h.entries i e he]

/-! ## Growing -/

theorem expand_of_zero (hf : q.front = 0) : expand q =
    { q with entries := realloc q.entries q.capa, back := q.capa, capa := 2 * q.capa } := by
  simp [expand, hf]

theorem expand_of_ne (hf : q.front ≠ 0) : expand q =
    { q with
      entries := store (realloc q.entries q.capa) (q.front + q.capa)
        (slice (realloc q.entries q.capa) q.front (q.capa - q.front))
      front := q.front + q.capa
      capa := 2 * q.capa } := by
  simp [expand, hf]

/-- A full ring that does not start at 0 is opened where it wraps. -/
theorem entries_moved (m : ℕ → Option (QueueEntry α φ)) {front capa i : ℕ} (hf : front < capa)
    (hi : i < capa) :
    store (realloc m capa) (front + capa) (slice (realloc m capa) front (capa - front))
      (Ring.ahead (2 * capa) (front + capa) i) = m (Ring.ahead capa front i) := by
  by_cases hwrap : front + i < capa
  · have hnew : Ring.ahead (2 * capa) (front + capa) i = front + capa + i := if_pos (by omega)
    rw [hnew, Ring.ahead, if_pos hwrap, store, if_neg (by omega), Nat.add_sub_cancel_left,
      getElem?_slice (by omega), Option.getD_some, realloc, if_pos hwrap]
  · have hnew : Ring.ahead (2 * capa) (front + capa) i = front + i - capa := by
      rw [Ring.ahead, if_neg (by omega)]
      omega
    rw [hnew, Ring.ahead, if_neg hwrap, store_of_lt (by omega), realloc, if_pos (by omega)]

theorem Holds.expand (h : Holds q l) (hfull : q.count = q.capa) :
    Holds (expand q) l ∧ (Queue.expand q).count < (Queue.expand q).capa := by
  have hfront := h.front
  have hlt {i : ℕ} {e : QueueEntry α φ} (he : l[i]? = some e) : i < q.capa := by
    rw [← hfull, h.count]
    exact (List.getElem?_eq_some_iff.1 he).1
  by_cases hf : q.front = 0
  · rw [expand_of_zero hf]
    refine ⟨⟨?_, h.count, ?_, ?_, fun i e he => ?_⟩, ?_⟩
    · change q.front < 2 * q.capa
      omega
    · change q.count ≤ 2 * q.capa
      omega
    · change q.capa = Ring.ahead (2 * q.capa) q.front q.count
      rw [Ring.ahead, if_pos (by omega)]
      omega
    · have hi := hlt he
      have hpos {n : ℕ} (hn : i < n) : Ring.ahead n q.front i = i := by
        rw [Ring.ahead, if_pos (by omega), hf, Nat.zero_add]
      have hentry := h.entries i e he
      rw [hpos hi] at hentry
      change realloc q.entries q.capa (Ring.ahead (2 * q.capa) q.front i) = some e
      rw [hpos (by omega), realloc, if_pos hi, hentry]
    · change q.count < 2 * q.capa
      omega
  · rw [expand_of_ne hf]
    refine ⟨⟨?_, h.count, ?_, ?_, fun i e he => ?_⟩, ?_⟩
    · change q.front + q.capa < 2 * q.capa
      omega
    · change q.count ≤ 2 * q.capa
      omega
    · change q.back = Ring.ahead (2 * q.capa) (q.front + q.capa) q.count
      rw [h.back, hfull, Ring.ahead_full, Ring.ahead, if_neg (by omega)]
      omega
    · exact (entries_moved q.entries hfront (hlt he)).trans (h.entries i e he)
    · change q.count < 2 * q.capa
      omega

/-! ## Calls -/

theorem Holds.enqueue_room (h : Holds q l) (hroom : q.count < q.capa) (obj : α)
    (deleter : Option φ) : Holds { q with
      entries := Function.update q.entries q.back (some ⟨obj, deleter⟩)
      back := if q.back + 1 = q.capa then 0 else q.back + 1
      count := q.count + 1 } (l ++ [⟨obj, deleter⟩]) := by
  refine ⟨h.front, by rw [h.count, List.length_append]; rfl, hroom, ?_, fun i e he => ?_⟩
  · exact (congrArg (Ring.next q.capa) h.back).trans (Ring.next_ahead h.front hroom)
  · change Function.update q.entries q.back (some ⟨obj, deleter⟩) (Ring.ahead q.capa q.front i) = _
    rw [List.getElem?_append] at he
    split_ifs at he with hi
    · have hne : Ring.ahead q.capa q.front i ≠ q.back := by
        rw [h.back]
        exact Ring.ahead_ne (h.count ▸ hi) hroom
      rw [Function.update_of_ne hne, h.entries i e he]
    · have hlt := (List.getElem?_eq_some_iff.1 he).1
      rw [List.length_singleton] at hlt
      have hi : i = q.count := by
        rw [h.count]
        omega
      rw [hi, ← h.back, Function.update_self]
      rwa [Nat.lt_one_iff.1 hlt] at he

theorem Holds.enqueue (h : Holds q l) (obj : α) (deleter : Option φ) :
    ∃ q', q.enqueue obj deleter = some q' ∧ Holds q' (l ++ [⟨obj, deleter⟩]) := by
  have hback {q : Queue α φ} (h : Holds q l) (hc : q.count < q.capa) : q.back < q.capa := by
    rw [h.back]
    exact Ring.ahead_lt h.front hc.le
  rw [Queue.enqueue]
  by_cases hfull : q.count = q.capa
  · obtain ⟨h', hc⟩ := h.expand hfull
    rw [if_pos hfull, if_pos (hback h' hc)]
    exact ⟨_, rfl, h'.enqueue_room hc obj deleter⟩
  · have hc : q.count < q.capa := Nat.lt_of_le_of_ne h.count_le hfull
    rw [if_neg hfull, if_pos (hback h hc)]
    exact ⟨_, rfl, h.enqueue_room hc obj deleter⟩

theorem Holds.dequeue (h : Holds q l) :
    ∃ q', q.dequeue = some (q', l.head?.map QueueEntry.obj) ∧ Holds q' l.tail := by
  have hcount := h.count
  rw [Queue.dequeue]
  cases l with
  | nil =>
    rw [List.length_nil] at hcount
    rw [if_pos hcount]
    exact ⟨q, rfl, h⟩
  | cons e l =>
    have hle := h.count_le
    rw [List.length_cons] at hcount
    have hentry : q.entry q.front = some e := by
      have h0 : q.entry (Ring.ahead q.capa q.front 0) = some e := h.entry rfl
      rwa [Ring.ahead_zero h.front] at h0
    rw [if_neg (by omega), hentry]
    refine ⟨_, rfl, Ring.next_lt h.front, ?_, ?_, ?_, fun i x hx => ?_⟩
    · rw [hcount, Nat.add_sub_cancel]
      rfl
    · change q.count - 1 ≤ q.capa
      omega
    · change q.back = Ring.ahead q.capa (Ring.next q.capa q.front) (q.count - 1)
      rw [Ring.ahead_next (by omega), Nat.sub_add_cancel (by omega), h.back]
    · have hi := (List.getElem?_eq_some_iff.1 hx).1
      change q.entries (Ring.ahead q.capa (Ring.next q.capa q.front) i) = some x
      rw [List.tail_cons] at hx hi
      rw [Ring.ahead_next (by omega)]
      exact h.entries (i + 1) x hx

/-- The entries from the one with number `i` on are deleted. -/
theorem destroyFrom_eq (h : Holds q l) : ∀ (n i : ℕ), i + n = l.length →
    q.destroyFrom n (Ring.ahead q.capa q.front i) =
      some ((l.drop i).flatMap QueueEntry.delete)
  | 0, i, hi => by
      rw [List.drop_eq_nil_of_le (by omega)]
      rfl
  | n + 1, i, hi => by
      have hlt : i < l.length := by omega
      have hle := h.count_le
      rw [h.count] at hle
      have hnext : (if Ring.ahead q.capa q.front i + 1 = q.capa then 0
          else Ring.ahead q.capa q.front i + 1) = Ring.ahead q.capa q.front (i + 1) :=
        Ring.next_ahead h.front (by omega)
      rw [Queue.destroyFrom, h.entry (List.getElem?_eq_getElem hlt), hnext,
        List.drop_eq_getElem_cons hlt, List.flatMap_cons]
      change (q.destroyFrom n (Ring.ahead q.capa q.front (i + 1))).bind _ = _
      rw [destroyFrom_eq h n (i + 1) (by omega)]
      rfl

theorem Holds.destroy (h : Holds q l) : q.destroy = some (l.flatMap QueueEntry.delete) := by
  have hall := destroyFrom_eq h l.length 0 (Nat.zero_add _)
  rwa [Ring.ahead_zero h.front, ← h.count] at hall

/-! ## Runs -/

theorem Holds.apply (h : Holds q l) (op : Op α φ) :
    ∃ q', op.apply q = some (q', (op.spec l).2) ∧ Holds q' (op.spec l).1 := by
  cases op with
  | enqueue obj deleter =>
    obtain ⟨q', hq, h'⟩ := h.enqueue obj deleter
    exact ⟨q', by rw [Op.apply, hq]; rfl, h'⟩
  | dequeue =>
    obtain ⟨q', hq, h'⟩ := h.dequeue
    exact ⟨q', by rw [Op.apply, hq]; rfl, h'⟩

theorem Holds.run (h : Holds q l) (ops : List (Op α φ)) :
    ∃ q', run ops q = some (q', (spec ops l).2) ∧ Holds q' (spec ops l).1 := by
  induction ops generalizing q l with
  | nil => exact ⟨q, rfl, h⟩
  | cons op ops ih =>
    obtain ⟨q₁, hq₁, h₁⟩ := h.apply op
    obtain ⟨q₂, hq₂, h₂⟩ := ih h₁
    refine ⟨q₂, ?_, h₂⟩
    rw [Queue.run, hq₁]
    change (Queue.run ops q₁).bind _ = _
    rw [hq₂]
    rfl

/-- Any calls on a new queue do what they do to a list of entries that begins with the oldest one;
what is left at the end is deleted in this order. -/
theorem queue_fifo (ops : List (Op α φ)) :
    ∃ q, run ops Queue.create = some (q, (spec ops []).2) ∧
      q.destroy = some ((spec ops []).1.flatMap QueueEntry.delete) := by
  obtain ⟨q, hq, h⟩ := Holds.run (holds_create : Holds (Queue.create : Queue α φ) []) ops
  exact ⟨q, hq, h.destroy⟩

end PoserCore.Queue
