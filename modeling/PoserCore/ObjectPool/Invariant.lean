import Mathlib.Algebra.Order.BigOperators.Group.List
import Mathlib.Algebra.Order.Group.Nat
import Mathlib.Data.Finset.Card
import Mathlib.Data.Finset.Range
import Mathlib.Data.List.Nodup
import Mathlib.Tactic.SplitIfs
import PoserCore.ObjectPool.Model

/-!
# The representation of an object pool

`Core s cs`: the chunks of the pool are `cs`, linked in this order, and their counters are right.
`FirstOk s cs`: `firstfree` names the first free object, or one behind all chunks while none is free.
Both say nothing about `lastused`, on which nothing but the release of chunks depends.
-/

namespace PoserCore.ObjectPool

/-- The slots of a chunk that are not in use. -/
def unused (o : ℕ) (hdr : Hdr) : Finset ℕ :=
  (Finset.range o).filter fun k => (hdr.slot k).used = false

theorem mem_unused {o k : ℕ} {hdr : Hdr} : k ∈ unused o hdr ↔ k < o ∧ (hdr.slot k).used = false := by
  rw [unused, Finset.mem_filter, Finset.mem_range]

/-- The chunk with number `i`, between its neighbours. -/
structure ChunkOk (o : ℕ) (cs : List Addr) (i : ℕ) (hdr : Hdr) : Prop where
  prev : hdr.prev = if i = 0 then none else cs[i - 1]?
  next : hdr.next = cs[i + 1]?
  nfree : hdr.nfree = (unused o hdr).card
  ids : ∀ k < o, (hdr.slot k).used = true → (hdr.slot k).id = i * o + k

/-- The free objects of a chunk. -/
def freeIn (mem : Addr → Option Hdr) (a : Addr) : ℕ := ((mem a).map Hdr.nfree).getD 0

structure Core (s : Pool) (cs : List Addr) : Prop where
  nodup : cs.Nodup
  first : cs ≠ [] → s.first = cs.head?
  last : s.last = cs.getLast?
  chunks : ∀ i a, cs[i]? = some a → ∃ hdr, s.mem a = some hdr ∧ ChunkOk s.objsperchunk cs i hdr
  nobj : s.nobj = cs.length * s.objsperchunk
  nfree : s.nfree = (cs.map (freeIn s.mem)).sum
  keep : ∀ a, s.keep = some a → a ∉ cs ∧
    ∃ hdr, s.mem a = some hdr ∧ ∀ k < s.objsperchunk, (hdr.slot k).used = false

/-- The object with number `n` is in use. -/
def UsedAt (s : Pool) (cs : List Addr) (n : ℕ) : Prop :=
  ∃ a hdr, cs[n / s.objsperchunk]? = some a ∧ s.mem a = some hdr ∧
    (hdr.slot (n % s.objsperchunk)).used = true

structure FirstOk (s : Pool) (cs : List Addr) : Prop where
  below : ∀ m < s.nobj, (∀ n, s.firstfree = some n → m < n) → UsedAt s cs m
  at_ : ∀ n, s.firstfree = some n → n < s.nobj → ¬ UsedAt s cs n

/-- The object in slot `k` of the chunk `a` is in use. -/
def InUse (s : Pool) (cs : List Addr) (a : Addr) (k : ℕ) : Prop :=
  k < s.objsperchunk ∧ a ∈ cs ∧ ∃ hdr, s.mem a = some hdr ∧ (hdr.slot k).used = true

/-- The objects that were handed out are those in use. -/
structure LiveOk (s : Pool) (cs : List Addr) (live : List (Addr × ℕ)) : Prop where
  nodup : live.Nodup
  iff : ∀ a k, (a, k) ∈ live ↔ InUse s cs a k

variable {s s' : Pool} {cs : List Addr}

/-! ## Chunks -/

theorem Core.chunk (hc : Core s cs) {i : ℕ} (hi : i < cs.length) :
    ∃ a hdr, cs[i]? = some a ∧ s.mem a = some hdr ∧ ChunkOk s.objsperchunk cs i hdr := by
  obtain ⟨hdr, hm, hok⟩ := hc.chunks i cs[i] (List.getElem?_eq_getElem hi)
  exact ⟨cs[i], hdr, List.getElem?_eq_getElem hi, hm, hok⟩

theorem Core.chunk_of_mem (hc : Core s cs) {a : Addr} (ha : a ∈ cs) :
    ∃ i hdr, cs[i]? = some a ∧ s.mem a = some hdr ∧ ChunkOk s.objsperchunk cs i hdr := by
  obtain ⟨i, hi⟩ := List.mem_iff_getElem?.1 ha
  obtain ⟨hdr, hm, hok⟩ := hc.chunks i a hi
  exact ⟨i, hdr, hi, hm, hok⟩

theorem Core.chunkOk (hc : Core s cs) {i : ℕ} {a : Addr} {hdr : Hdr} (hi : cs[i]? = some a)
    (hm : s.mem a = some hdr) : ChunkOk s.objsperchunk cs i hdr := by
  obtain ⟨hdr', hm', hok⟩ := hc.chunks i a hi
  exact Option.some_inj.1 (hm'.symm.trans hm) ▸ hok

theorem Core.chunkOk_of_mem (hc : Core s cs) {a : Addr} {hdr : Hdr} (ha : a ∈ cs)
    (hm : s.mem a = some hdr) : ∃ i : ℕ, cs[i]? = some a ∧ ChunkOk s.objsperchunk cs i hdr := by
  obtain ⟨i, hi⟩ := List.mem_iff_getElem?.1 ha
  exact ⟨i, hi, hc.chunkOk hi hm⟩

theorem Core.index_unique (hc : Core s cs) {i j : ℕ} {a : Addr} (hi : cs[i]? = some a)
    (hj : cs[j]? = some a) : i = j := by
  obtain ⟨hlt, hi⟩ := List.getElem?_eq_some_iff.1 hi
  obtain ⟨hlt', hj⟩ := List.getElem?_eq_some_iff.1 hj
  exact (hc.nodup.getElem_inj_iff).1 (hi.trans hj.symm)

theorem walk_from (hc : Core s cs) (n j : ℕ) : walk s.mem cs[j]? n = cs[j + n]? := by
  induction n generalizing j with
  | zero => rfl
  | succ n ih =>
    cases hj : cs[j]? with
    | none =>
      rw [walk]
      rw [List.getElem?_eq_none_iff] at hj
      exact (List.getElem?_eq_none (by omega)).symm
    | some a =>
      obtain ⟨hdr, hm, hok⟩ := hc.chunks j a hj
      rw [walk, hm, Option.bind_some, hok.next, ih, Nat.add_right_comm, Nat.add_assoc]

/-- From the first chunk, `n` links lead to the chunk with number `n`. -/
theorem Core.walk (hc : Core s cs) {n : ℕ} (hn : n < cs.length) :
    walk s.mem s.first n = cs[n]? := by
  have hne : cs ≠ [] := by
    rintro rfl
    exact absurd hn (Nat.not_lt_zero n)
  rw [hc.first hne, List.head?_eq_getElem?, walk_from hc, Nat.zero_add]

theorem sum_update {mem : Addr → Option Hdr} {a : Addr} {hdr : Hdr} (hnd : cs.Nodup) (ha : a ∈ cs) :
    (cs.map (freeIn (Function.update mem a (some hdr)))).sum + freeIn mem a =
      (cs.map (freeIn mem)).sum + hdr.nfree := by
  have hother (l : List Addr) (hl : a ∉ l) :
      l.map (freeIn (Function.update mem a (some hdr))) = l.map (freeIn mem) := by
    refine List.map_congr_left fun b hb => ?_
    rw [freeIn, Function.update_of_ne fun h : b = a => hl (h ▸ hb), freeIn]
  have hself : freeIn (Function.update mem a (some hdr)) a = hdr.nfree := by
    rw [freeIn, Function.update_self]
    rfl
  obtain ⟨l, l', rfl⟩ := List.append_of_mem ha
  have hnd' := List.nodup_middle.1 hnd
  have hl : a ∉ l := fun h => (List.nodup_cons.1 hnd').1 (List.mem_append_left _ h)
  have hl' : a ∉ l' := fun h => (List.nodup_cons.1 hnd').1 (List.mem_append_right _ h)
  simp only [List.map_append, List.map_cons, List.sum_append, List.sum_cons, hother l hl,
    hother l' hl', hself]
  omega

/-- One chunk gets other contents. -/
theorem Core.modify (hc : Core s cs) {i : ℕ} {a : Addr} {hdr hdr' : Hdr} (hi : cs[i]? = some a)
    (hm : s.mem a = some hdr) (hmem : s'.mem = Function.update s.mem a (some hdr'))
    (hprev : hdr'.prev = hdr.prev) (hnext : hdr'.next = hdr.next)
    (hnfree : hdr'.nfree = (unused s.objsperchunk hdr').card)
    (hids : ∀ k < s.objsperchunk, (hdr'.slot k).used = true →
      (hdr'.slot k).id = i * s.objsperchunk + k)
    (ho : s'.objsperchunk = s.objsperchunk) (hfirst : s'.first = s.first)
    (hlast : s'.last = s.last) (hnobj : s'.nobj = s.nobj) (hkeep : s'.keep = s.keep)
    (hfree : s'.nfree + hdr.nfree = s.nfree + hdr'.nfree) :
    Core s' cs where
  nodup := hc.nodup
  first := by
    rw [hfirst]
    exact hc.first
  last := by
    rw [hlast]
    exact hc.last
  chunks j b hj := by
    rw [ho, hmem]
    by_cases hb : b = a
    · subst hb
      obtain rfl := hc.index_unique hi hj
      have hok := hc.chunkOk hi hm
      exact ⟨hdr', Function.update_self .., hprev.trans hok.prev, hnext.trans hok.next, hnfree, hids⟩
    · rw [Function.update_of_ne hb]
      exact hc.chunks j b hj
  nobj := by rw [hnobj, ho, hc.nobj]
  nfree := by
    have hsum := @sum_update _ s.mem a hdr' hc.nodup (List.mem_of_getElem? hi)
    have hold : freeIn s.mem a = hdr.nfree := by rw [freeIn, hm]; rfl
    rw [← hmem, hold, ← hc.nfree] at hsum
    omega
  keep b hb := by
    rw [hkeep] at hb
    obtain ⟨hnot, hk, hmk, hused⟩ := hc.keep b hb
    have hba : b ≠ a := fun h => hnot (h ▸ List.mem_of_getElem? hi)
    rw [ho, hmem, Function.update_of_ne hba]
    exact ⟨hnot, hk, hmk, hused⟩

/-! ## Slots -/

theorem unused_take {o k : ℕ} {hdr : Hdr} {obj : PoolObj} (hobj : obj.used = true) :
    unused o { hdr with slot := Function.update hdr.slot k obj } = (unused o hdr).erase k := by
  ext j
  rw [Finset.mem_erase, mem_unused, mem_unused]
  by_cases hj : j = k
  · subst hj
    simp [hobj]
  · simp [hj]

theorem unused_free {o k : ℕ} (hk : k < o) {hdr : Hdr} {obj : PoolObj} (hobj : obj.used = false) :
    unused o { hdr with slot := Function.update hdr.slot k obj } = insert k (unused o hdr) := by
  ext j
  rw [Finset.mem_insert, mem_unused, mem_unused]
  by_cases hj : j = k
  · subst hj
    simp [hobj, hk]
  · simp [hj]

theorem unused_congr {o : ℕ} {hdr hdr' : Hdr} (h : hdr'.slot = hdr.slot) :
    unused o hdr' = unused o hdr := by
  rw [unused, unused, h]

/-- The object is in slot `k` of the chunk with number `i`. -/
theorem div_mod_index {o i k : ℕ} (hk : k < o) : (i * o + k) / o = i ∧ (i * o + k) % o = k := by
  have ho : 0 < o := Nat.zero_lt_of_lt hk
  constructor
  · rw [Nat.add_comm, Nat.add_mul_div_right _ _ ho, Nat.div_eq_of_lt hk, Nat.zero_add]
  · rw [Nat.add_comm, Nat.add_mul_mod_self_right, Nat.mod_eq_of_lt hk]

theorem usedAt_iff {i k : ℕ} (hk : k < s.objsperchunk) {a : Addr} {hdr : Hdr} (hi : cs[i]? = some a)
    (hm : s.mem a = some hdr) :
    UsedAt s cs (i * s.objsperchunk + k) ↔ (hdr.slot k).used = true := by
  obtain ⟨hdiv, hmod⟩ := div_mod_index (i := i) hk
  rw [UsedAt, hdiv, hmod]
  constructor
  · rintro ⟨a', hdr', ha, hm', hu⟩
    cases hi.symm.trans ha
    cases hm.symm.trans hm'
    exact hu
  · exact fun hu => ⟨a, hdr, hi, hm, hu⟩

/-- An object in use: it is in slot `k` of the chunk `a` with number `i`, where its number says. -/
structure Placed (s : Pool) (cs : List Addr) (a : Addr) (k : ℕ) (hdr : Hdr) (i : ℕ) : Prop where
  slot : k < s.objsperchunk
  chunk : cs[i]? = some a
  mem : s.mem a = some hdr
  used : (hdr.slot k).used = true
  id : (hdr.slot k).id = i * s.objsperchunk + k
  div : (hdr.slot k).id / s.objsperchunk = i
  walk : ObjectPool.walk s.mem s.first ((hdr.slot k).id / s.objsperchunk) = some a

theorem Core.placed (hc : Core s cs) {a : Addr} {k : ℕ} (h : InUse s cs a k) :
    ∃ hdr i, Placed s cs a k hdr i := by
  obtain ⟨hk, ha, hdr, hm, hu⟩ := h
  obtain ⟨i, hi, hok⟩ := hc.chunkOk_of_mem ha hm
  have hid : (hdr.slot k).id = i * s.objsperchunk + k := hok.ids k hk hu
  have hdiv : (hdr.slot k).id / s.objsperchunk = i := by
    rw [hid]
    exact (div_mod_index hk).1
  refine ⟨hdr, i, hk, hi, hm, hu, hid, hdiv, ?_⟩
  rw [hdiv]
  exact (hc.walk (List.getElem?_eq_some_iff.1 hi).1).trans hi

end PoserCore.ObjectPool
