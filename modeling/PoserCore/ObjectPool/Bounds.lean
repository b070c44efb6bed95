import PoserCore.ObjectPool.LastUsed

/-!
# Which slots the object pool inspects

The slots that `ObjectPool_alloc` and `PoolObj_free` look at, as addresses: a chunk and an index that
may be anything.  In runs in which the last chunk is only released together with all others, every
one of them is in a linked chunk and below `objsperchunk`, `firstfree` never names a slot of a chunk
that is gone (`pool_in_bounds`), and every live object is where its number says (`pool_safe`).

After a release that leaves chunks the search starts at an index that is computed from the number of
the object and not from its slot (`pool_leaves_chunk`).  A chunk that is not the last one may be
released as well, for a new chunk does not change `lastused` (`pool_hands_out_twice`).
-/

namespace PoserCore.ObjectPool

open Lib (Machine)

/-! ## `ObjectPool_alloc` -/

/-- The slots of a chunk from `k` on until one is not in use, `n` at most. -/
def scanned (hdr : Hdr) : (n k : ℕ) → List ℕ
  | 0, _ => []
  | n + 1, k => k :: if (hdr.slot k).used then scanned hdr n (k + 1) else []

/-- `while (!hdr->nfree)` -/
def skipFull (mem : Addr → Option Hdr) : (fuel : ℕ) → Option Addr → Option Addr
  | 0, _ => none
  | fuel + 1, p =>
      p.bind fun a => (mem a).bind fun hdr =>
        if hdr.nfree = 0 then skipFull mem fuel hdr.next else some a

/-- The search for the next free object, behind slot `k` of the chunk `a`.  One slot more than a chunk
has is enough to see it leave the chunk. -/
def nextInspected (s : Pool) (a : Addr) (hdr : Hdr) (k : ℕ) : Option (List (Addr × ℤ)) :=
  if hdr.nfree ≠ 0 then
    some ((scanned hdr (s.objsperchunk + 1) (k + 1)).map fun j : ℕ => (a, (j : ℤ)))
  else do
    let a ← skipFull s.mem s.nobj hdr.next
    let hdr ← s.mem a
    some ((scanned hdr (s.objsperchunk + 1) 0).map fun j : ℕ => (a, (j : ℤ)))

/-- What `ObjectPool_alloc` inspects besides the object it returns; nothing if it follows `NULL`. -/
def Pool.allocInspected (s : Pool) : Option (List (Addr × ℤ)) :=
  match s.firstfree with
  | none => some []
  | some n => do
      let a ← walk s.mem s.first (n / s.objsperchunk)
      let hdr ← s.mem a
      let k := n % s.objsperchunk
      let s := taken s a hdr k n
      if s.nfree ≠ 0 then nextInspected s a (hdr.take k n) k else some []

/-! ## `PoolObj_free` -/

/-- The slots of a chunk from `k` down to one that is in use. -/
def scannedDown (hdr : Hdr) : (k : ℕ) → List ℤ
  | 0 => 0 :: if (hdr.slot 0).used then [] else [-1]
  | k + 1 => (k + 1) :: if (hdr.slot (k + 1)).used then [] else scannedDown hdr k

/-- What `PoolObj_free` inspects to find the last object in use; nothing if it follows `NULL`.  After a
release it starts at the object with number `(chunkno + 1) * objsperchunk - 1`, counted from the
chunk that is left. -/
def Pool.freeInspected (s : Pool) (obj : Addr × ℕ) : Option (List (Addr × ℤ)) := do
  let s := dropKeep s
  let hdr ← s.mem obj.1
  let id := (hdr.slot obj.2).id
  let s := { s with
    mem := Function.update s.mem obj.1
      (some { hdr with slot := Function.update hdr.slot obj.2 ⟨id, false⟩ })
    firstfree := if s.firstfree.all (id < ·) then some id else s.firstfree
    nfree := s.nfree + 1 }
  let chunkno := id / s.objsperchunk
  let a ← walk s.mem s.first chunkno
  let hdr ← s.mem a
  let s := { s with mem := Function.update s.mem a (some { hdr with nfree := hdr.nfree + 1 }) }
  if s.lastused ≠ some id then some []
  else do
    let (s, p, released) ← release (s.nobj + 1) s (some a)
    if chunkno < released then some []
    else if 0 < released then p.map fun b => [(b, ((chunkno + 1) * s.objsperchunk - 1 : ℤ))]
    else do
      let hdr ← s.mem obj.1
      some ((scannedDown hdr obj.2).map fun j => (obj.1, j))

/-! ## Bounds -/

/-- The chunk is one of the pool, a number of links away from the first one. -/
def Linked (s : Pool) (a : Addr) : Prop :=
  ∃ n, n * s.objsperchunk < s.nobj ∧ walk s.mem s.first n = some a ∧ (s.mem a).isSome

/-- The slots are in chunks of the pool. -/
def InBounds (s : Pool) (slots : List (Addr × ℤ)) : Prop :=
  ∀ x ∈ slots, Linked s x.1 ∧ 0 ≤ x.2 ∧ x.2 < s.objsperchunk

/-- The call returns, and it returns and inspects slots in chunks of the pool only. -/
def Action.Bounded : State → Action → Prop
  | .run s _, .alloc addr => ∃ s' a k slots, s.alloc addr = some (s', a, k) ∧
      s.allocInspected = some slots ∧ InBounds s' ((a, (k : ℤ)) :: slots)
  | .run s _, .free obj found => ∃ s' slots, s.free obj found = some s' ∧
      s.freeInspected obj = some slots ∧ InBounds s [(obj.1, (obj.2 : ℤ))] ∧ InBounds s' slots
  | .fault, _ => False

/-- `firstfree` names a slot of a chunk of the pool. -/
def FirstIn (s : Pool) : Prop :=
  ∀ n, s.firstfree = some n → n < s.nobj ∧
    ∃ a, walk s.mem s.first (n / s.objsperchunk) = some a ∧ (s.mem a).isSome

/-- The condition on a step: the last object in use leaves its chunk without any only where this is
the last chunk and no other object is live. -/
def Action.Drains : State → Action → Prop
  | .run s _, .free obj _ => ∀ hdr, s.mem obj.1 = some hdr →
      s.lastused = some (hdr.slot obj.2).id → hdr.nfree + 1 = s.objsperchunk →
      s.last = some obj.1 ∧ s.nfree + 1 = s.nobj
  | _, _ => True

variable {s s' : Pool} {cs : List Addr} {a : Addr} {hdr : Hdr} {k : ℕ}

theorem linked_of_mem (hc : Core s cs) (ho : 0 < s.objsperchunk) (ha : a ∈ cs) : Linked s a := by
  obtain ⟨i, hdr, hi, hm, -⟩ := hc.chunk_of_mem ha
  have hlt := (List.getElem?_eq_some_iff.1 hi).1
  refine ⟨i, ?_, (hc.walk hlt).trans hi, hm ▸ rfl⟩
  rw [hc.nobj]
  exact Nat.mul_lt_mul_of_pos_right hlt ho

theorem firstIn_of (hc : Core s cs) (hf : FirstOk s cs) (hfree : FreeOk s) : FirstIn s := by
  intro n hn
  have hlt := firstfree_lt hc hf hfree hn
  have ho : 0 < s.objsperchunk := by
    rw [hc.nobj] at hlt
    exact Nat.pos_of_mul_pos_left (Nat.zero_lt_of_lt hlt)
  obtain ⟨_, _, a, hdr, -, -, -, -, -, hm, hw⟩ := hc.locate ho hlt
  exact ⟨hlt, a, hw, hm ▸ rfl⟩

theorem scanned_le {n : ℕ} {t : ℕ} (hkt : k ≤ t) (hu : (hdr.slot t).used = false) :
    ∀ j ∈ scanned hdr n k, j ≤ t := by
  induction n generalizing k with
  | zero => exact List.forall_mem_nil _
  | succ n ih =>
    rw [scanned]
    refine List.forall_mem_cons.2 ⟨hkt, fun j hj => ?_⟩
    split_ifs at hj with hk
    · apply ih (Nat.lt_of_le_of_ne hkt ?_) j hj
      rintro rfl
      rw [hk] at hu
      cases hu
    · exact absurd hj List.not_mem_nil

theorem inBounds_scanned (ha : Linked s a) {n t : ℕ} (hkt : k ≤ t) (ht : t < s.objsperchunk)
    (hu : (hdr.slot t).used = false) :
    InBounds s ((scanned hdr n k).map fun j : ℕ => (a, (j : ℤ))) := by
  intro x hx
  obtain ⟨j, hj, rfl⟩ := List.mem_map.1 hx
  have := scanned_le hkt hu j hj
  exact ⟨ha, by omega, by dsimp only; omega⟩

theorem skipFull_spec (hc : Core s cs) : ∀ (fuel j : ℕ), cs.length ≤ j + fuel →
    (∃ i, j ≤ i ∧ ∃ a hdr, cs[i]? = some a ∧ s.mem a = some hdr ∧ hdr.nfree ≠ 0) →
    ∃ (i : ℕ) (a : Addr) (hdr : Hdr), cs[i]? = some a ∧ s.mem a = some hdr ∧ hdr.nfree ≠ 0 ∧
      skipFull s.mem fuel cs[j]? = some a
  | 0, j, hlen, ⟨i, hji, a, hdr, hi, _⟩ => by
      have := (List.getElem?_eq_some_iff.1 hi).1
      omega
  | fuel + 1, j, hlen, ⟨i, hji, a, hdr, hi, hm, hne⟩ => by
      have hlt : j < cs.length := hji.trans_lt (List.getElem?_eq_some_iff.1 hi).1
      obtain ⟨b, bhdr, hb, hmb, hok⟩ := hc.chunk hlt
      rw [skipFull, hb, Option.bind_some, hmb, Option.bind_some]
      by_cases hz : bhdr.nfree = 0
      · have hij : j + 1 ≤ i := by
          refine Nat.lt_of_le_of_ne hji ?_
          rintro rfl
          cases hb.symm.trans hi
          cases hmb.symm.trans hm
          exact hne hz
        rw [if_pos hz, hok.next]
        exact skipFull_spec hc fuel (j + 1) (by omega) ⟨i, hij, a, hdr, hi, hm, hne⟩
      · exact ⟨j, b, bhdr, hb, hmb, hz, by rw [if_neg hz]⟩

/-- The search for the next free object stays in bounds. -/
theorem nextInspected_spec (hc : Core s cs) (ho : 0 < s.objsperchunk) {i : ℕ}
    (hi : cs[i]? = some a) (hm : s.mem a = some hdr) (hz : s.nfree ≠ 0)
    (hbelow : ∀ m ≤ i * s.objsperchunk + k, UsedAt s cs m) :
    ∃ slots, nextInspected s a hdr k = some slots ∧ InBounds s slots := by
  have hok := hc.chunkOk hi hm
  rw [nextInspected]
  by_cases hn : hdr.nfree = 0
  · rw [if_neg (not_not.2 hn)]
    obtain ⟨j, b, bhdr, hj, hmb, hbn, hrun⟩ :=
      skipFull_spec hc s.nobj (i + 1) (Nat.le_add_left_of_le (hc.length_le_nobj ho))
        (hc.exists_free_behind hz hi hm hn hbelow)
    have hokb := hc.chunkOk hj hmb
    obtain ⟨t, ht, hu⟩ := exists_unused hokb hbn
    rw [hok.next, hrun, Option.bind_eq_bind, Option.bind_some, Option.bind_eq_bind, hmb,
      Option.bind_some]
    exact ⟨_, rfl, inBounds_scanned (linked_of_mem hc ho (List.mem_of_getElem? hj)) t.zero_le ht hu⟩
  · rw [if_pos hn]
    obtain ⟨t, ht, hu⟩ := exists_unused hok hn
    have hkt : k + 1 ≤ t := by
      by_contra hle
      rw [(usedAt_iff ht hi hm).1 (hbelow _ (by omega))] at hu
      cases hu
    exact ⟨_, rfl, inBounds_scanned (linked_of_mem hc ho (List.mem_of_getElem? hi)) hkt ht hu⟩

theorem scannedDown_le {j : ℕ} (hj : j ≤ k) (hu : (hdr.slot j).used = true) :
    ∀ x ∈ scannedDown hdr k, 0 ≤ x ∧ x ≤ k := by
  induction k with
  | zero =>
    obtain rfl := Nat.le_zero.1 hj
    rw [scannedDown, if_pos hu]
    simp
  | succ k ih =>
    rw [scannedDown]
    refine List.forall_mem_cons.2 ⟨by omega, fun x hx => ?_⟩
    split_ifs at hx with hk
    · exact absurd hx List.not_mem_nil
    · have hjk : j ≤ k := by
        rcases Nat.eq_or_lt_of_le hj with rfl | hlt
        · exact absurd hu hk
        · exact Nat.le_of_lt_succ hlt
      have := ih hjk x hx
      omega

theorem inBounds_scannedDown (ha : Linked s a) (hk : k < s.objsperchunk) {j : ℕ} (hj : j ≤ k)
    (hu : (hdr.slot j).used = true) : InBounds s ((scannedDown hdr k).map fun j => (a, j)) := by
  intro x hx
  obtain ⟨y, hy, rfl⟩ := List.mem_map.1 hx
  have := scannedDown_le hj hu y hy
  exact ⟨ha, this.1, by dsimp only; omega⟩

theorem inBounds_cons {slots : List (Addr × ℤ)} (ha : Linked s a) (hk : k < s.objsperchunk)
    (h : InBounds s slots) : InBounds s ((a, (k : ℤ)) :: slots) := by
  refine List.forall_mem_cons.2 ⟨⟨ha, by omega, by dsimp only; omega⟩, h⟩

/-! ## Calls in bounds -/

theorem allocFree_bounded (hc : Core s cs) (hf : FirstOk s cs) (hl : LastOk s cs) {n : ℕ}
    (hff : s.firstfree = some n) (hn : n < s.nobj) (ho : 0 < s.objsperchunk) :
    ∃ s' a k slots, allocFree s n = some (s', a, k) ∧ LastOk s' cs ∧ FreeOk s' ∧
      s.allocInspected = some slots ∧ InBounds s' ((a, (k : ℤ)) :: slots) := by
  obtain ⟨i, k, a, hdr, rfl, hdiv, hmod, hk, hia, hm, hw⟩ := hc.locate ho hn
  have hfree : (hdr.slot k).used = false := by
    have := hf.at_ _ hff hn
    rwa [usedAt_iff hk hia hm, Bool.not_eq_true] at this
  rw [allocFree_eq hw hm, Pool.allocInspected, hff]
  dsimp only
  rw [hw, Option.bind_eq_bind, Option.bind_some, hm, Option.bind_eq_bind, Option.bind_some, hdiv,
    hmod]
  have hcore := core_taken hc hia hm hk hfree
  have hlast := lastOk_taken hc hl hia hm hk
  have hself : (taken s a hdr k (i * s.objsperchunk + k)).mem a =
    some (hdr.take k (i * s.objsperchunk + k)) := Function.update_self ..
  have hlinked (s' : Pool) (hs : ∃ o, s' = { taken s a hdr k (i * s.objsperchunk + k) with
      firstfree := o }) : Linked s' a := by
    obtain ⟨o, rfl⟩ := hs
    exact linked_of_mem (hcore.withFirst o) ho (List.mem_of_getElem? hia)
  by_cases hz : (taken s a hdr k (i * s.objsperchunk + k)).nfree = 0
  · rw [if_neg (not_not.2 hz), if_neg (not_not.2 hz)]
    refine ⟨_, a, k, [], rfl, hlast.congr rfl rfl fun _ => .rfl, ?_, rfl,
      inBounds_cons (hlinked _ ⟨none, rfl⟩) hk (List.forall_mem_nil _)⟩
    rintro _ ⟨⟩
  · have hbelow := usedAt_taken_le hc hf hia hm hk hff hn
    obtain ⟨next, hnext, -⟩ := nextFree_spec hcore ho hia hself hk hz hbelow
    obtain ⟨slots, hslots, hin⟩ := nextInspected_spec hcore ho hia hself hz hbelow
    rw [if_pos hz, if_pos hz, hnext]
    exact ⟨_, a, k, slots, rfl, hlast.congr rfl rfl fun _ => .rfl, fun _ _ => hz, hslots,
      inBounds_cons (hlinked _ ⟨some next, rfl⟩) hk hin⟩

/-- What every permitted step keeps. -/
structure Sound (s : Pool) (cs : List Addr) : Prop where
  core : Core s cs
  first : FirstOk s cs
  last : LastOk s cs
  free : FreeOk s

theorem Sound.withCount (h : Sound s cs) (n : UInt32) : Sound { s with keepcnt := n } cs :=
  ⟨h.core.withCount n, ⟨h.first.below, h.first.at_⟩, h.last.congr rfl rfl fun _ => .rfl, h.free⟩

theorem alloc_bounded (h : Sound s cs) (ho : 2 ≤ s.objsperchunk) {addr : Addr}
    (haddr : s.mem addr = none) : ∃ s' a k cs' slots, s.alloc addr = some (s', a, k) ∧
      s'.objsperchunk = s.objsperchunk ∧ Sound s' cs' ∧ ¬ InUse s cs a k ∧
      (∀ b j, InUse s' cs' b j ↔ (b, j) = (a, k) ∨ InUse s cs b j) ∧
      s.allocInspected = some slots ∧ InBounds s' ((a, (k : ℤ)) :: slots) := by
  obtain ⟨n, hs⟩ := alloc_keepcnt s
  have h' := h.withCount n
  have hpos : 0 < s.objsperchunk := by omega
  have hinspected : s.allocInspected = Pool.allocInspected { s with keepcnt := n } := rfl
  rw [Pool.alloc, hs]
  dsimp only
  cases hff : s.firstfree with
  | some m =>
    have hm := firstfree_lt h'.core h'.first h'.free hff
    obtain ⟨s', a, k, hrun, hobj, hcore, hfirst, hnot, hiff⟩ :=
      allocFree_spec h'.core h'.first hff hm hpos
    obtain ⟨s'', a', k', slots, hrun', hlast, hfree, hslots, hin⟩ :=
      allocFree_bounded h'.core h'.first h'.last hff hm hpos
    cases hrun.symm.trans hrun'
    exact ⟨s', a, k, cs, slots, hrun, hobj, ⟨hcore, hfirst, hlast, hfree⟩, hnot, hiff,
      hinspected.trans hslots, hin⟩
  | none =>
    obtain ⟨s', a, hdr, hrun, ha, hsnoc⟩ := allocChunk_snoc h'.core haddr
    have hcore := hsnoc.core h'.core ha hpos
    have hobj : s'.objsperchunk = s.objsperchunk := hsnoc.objsperchunk
    have hfree : FreeOk s' := by
      intro _ _
      have htotal := hsnoc.total
      have hnfree := hsnoc.nfree
      dsimp only at htotal hnfree
      omega
    refine ⟨s', a, 0, cs ++ [a], [], hrun, hobj, ⟨hcore, hsnoc.firstOk h'.core h'.first hff hpos,
      hsnoc.lastOk h'.core hpos h'.last (lastused_allocChunk hrun), hfree⟩, fun h => ha h.2.1,
      hsnoc.inUse h'.core ha hpos, ?_, inBounds_cons ?_ (hobj ▸ hpos) (List.forall_mem_nil _)⟩
    · rw [Pool.allocInspected, hff]
    · exact linked_of_mem hcore (hobj ▸ hpos) (by simp)

theorem freeInspected_eq (hm : (dropKeep s).mem a = some hdr)
    (hw : walk (dropKeep s).mem (dropKeep s).first
      ((hdr.slot k).id / (dropKeep s).objsperchunk) = some a) :
    s.freeInspected (a, k) =
      let chunkno := (hdr.slot k).id / (dropKeep s).objsperchunk
      let s' := freed (dropKeep s) a hdr k
      if s'.lastused ≠ some (hdr.slot k).id then some []
      else (release (s'.nobj + 1) s' (some a)).bind fun (s', p, released) =>
        if chunkno < released then some []
        else if 0 < released then p.map fun b => [(b, ((chunkno + 1) * s'.objsperchunk - 1 : ℤ))]
        else (s'.mem a).bind fun hdr' => some ((scannedDown hdr' k).map fun j => (a, j)) := by
  have hwalk := walk_slot hm hw (Function.update hdr.slot k ⟨(hdr.slot k).id, false⟩)
  simp only [Pool.freeInspected, Option.bind_eq_bind, hm, Option.bind_some, hwalk,
    Function.update_self, Function.update_idem, freed, Hdr.give]
  rfl

/-- The last object leaves a pool without any. -/
theorem release_last (hc : Core s cs) (ho : 0 < s.objsperchunk) (hz : s.nfree = s.nobj)
    (hlast : s.last = some a) : ∃ s', release (s.nobj + 1) s (some a) = some (s', none, cs.length) ∧
      s'.objsperchunk = s.objsperchunk ∧ Core s' [] ∧ ∀ b j, ¬ InUse s cs b j := by
  obtain ⟨s', hrun, hobj, hcore⟩ :=
    release_all _ (Nat.lt_succ_of_le (hc.length_le_nobj ho)) hc hz
  rw [hlast] at hrun
  refine ⟨s', hrun, hobj, hcore, ?_⟩
  rintro b j ⟨hj, hb, bhdr, hmb, hu⟩
  obtain ⟨i, hi, hok⟩ := hc.chunkOk_of_mem hb hmb
  rw [unused_of_full hok (hc.all_free hz hi hmb) hj] at hu
  cases hu

theorem sound_empty (hc : Core s []) :
    Sound { s with lastused := none, firstfree := none } [] := by
  have hnobj : s.nobj = 0 := by rw [hc.nobj, List.length_nil, Nat.zero_mul]
  have hno (n : ℕ) : ¬ UsedAt { s with lastused := none, firstfree := none } [] n := by
    rintro ⟨b, bhdr, hb, -⟩
    cases hb
  refine ⟨(hc.withLastused none).withFirst none, ⟨fun m hm _ => ?_, fun n hn => (nomatch hn)⟩,
    ⟨fun n hn => (nomatch hn), fun p hp => absurd hp (hno p)⟩, fun n hn => (nomatch hn)⟩
  exact absurd (hnobj ▸ hm) (Nat.not_lt_zero m)

theorem free_bounded (h : Sound s cs) (huse : InUse s cs a k) (found : Option ℕ)
    (hdrain : ∀ hdr, s.mem a = some hdr → s.lastused = some (hdr.slot k).id →
      hdr.nfree + 1 = s.objsperchunk → s.last = some a ∧ s.nfree + 1 = s.nobj) :
    ∃ s' cs' slots, s.free (a, k) found = some s' ∧ s'.objsperchunk = s.objsperchunk ∧
      Sound s' cs' ∧ (∀ b j, InUse s' cs' b j ↔ InUse s cs b j ∧ (b, j) ≠ (a, k)) ∧
      s.freeInspected (a, k) = some slots ∧ InBounds s [(a, (k : ℤ))] ∧ InBounds s' slots := by
  have hsame := same_dropKeep h.core
  have hc := core_dropKeep h.core
  have hfirst := hsame.firstOk h.first
  have hl : LastOk (dropKeep s) cs := h.last.congr hsame.objsperchunk hsame.lastused hsame.usedAt
  have ha : a ∈ cs := huse.2.1
  have hin : InBounds s [(a, (k : ℤ))] :=
    inBounds_cons (linked_of_mem h.core (Nat.zero_lt_of_lt huse.1) ha) huse.1
      (List.forall_mem_nil _)
  obtain ⟨hdr, i, ⟨hk, hi, hm, hu, hid, hdiv, hw⟩, hm0, hcore, huse⟩ := h.core.freeing huse
  have hlt : i < cs.length := (List.getElem?_eq_some_iff.1 hi).1
  rw [free_eq hm hw, freeInspected_eq hm hw, hdiv]
  have hfree : FirstOk (freed (dropKeep s) a hdr k) cs := firstOk_freed hc hfirst hi hm hk hid
  have hnfree : FreeOk (freed (dropKeep s) a hdr k) := fun _ _ => Nat.succ_ne_zero _
  have hself : (freed (dropKeep s) a hdr k).mem a = some (hdr.give k) := Function.update_self ..
  have hlast : (freed (dropKeep s) a hdr k).lastused = (dropKeep s).lastused := rfl
  dsimp only
  by_cases hlu : (dropKeep s).lastused = some (hdr.slot k).id
  · rw [if_neg (not_not.2 (hlast.trans hlu)), if_neg (not_not.2 (hlast.trans hlu))]
    rw [hid] at hlu
    by_cases hfull : (hdr.give k).nfree = (freed (dropKeep s) a hdr k).objsperchunk
    · -- no other object is live
      obtain ⟨hla, hz⟩ := hdrain hdr hm0 (hsame.lastused.symm.trans (hlu.trans (congrArg some hid.symm)))
        (hfull.trans hsame.objsperchunk)
      have hz' : (freed (dropKeep s) a hdr k).nfree = (freed (dropKeep s) a hdr k).nobj :=
        (congrArg (· + 1) hsame.nfree).trans (hz.trans hsame.nobj.symm)
      obtain ⟨s', hrun, hobj, hcore', hno⟩ :=
        release_last hcore (Nat.zero_lt_of_lt hk) hz' (hsame.last.trans hla)
      rw [hrun, Option.bind_some, Option.bind_some]
      dsimp only
      rw [if_pos hlt, if_pos hlt]
      refine ⟨_, [], [], rfl, hobj.trans hsame.objsperchunk, sound_empty hcore', fun b j => ?_, rfl,
        hin, List.forall_mem_nil _⟩
      rw [← huse]
      exact iff_of_false (fun hb => List.not_mem_nil hb.2.1) (hno b j)
    · -- the chunk has another object
      have hne : hdr.nfree + 1 ≠ (dropKeep s).objsperchunk := hfull
      obtain ⟨j, hj, hscan, hu', hbelow⟩ := @scanDown_spec (hdr.give k) k (i * (dropKeep s).objsperchunk)
        (exists_before hc hl hi hm hk hlu hne)
      rw [release, hself, Option.bind_some, if_neg hfull, Option.bind_some, Option.bind_some]
      dsimp only
      rw [if_neg (Nat.not_lt_zero _), if_neg (Nat.not_lt_zero _), if_neg (Nat.not_lt_zero _),
        if_neg (Nat.not_lt_zero _), hself, Option.bind_some, Option.bind_some, hid, hscan,
        Option.some_or]
      refine ⟨_, cs, _, rfl, hsame.objsperchunk, ⟨hcore.withLastused _, hfree.congr,
        lastOk_found hc hl hi hm hk hlu hj hu' hbelow, hnfree⟩, huse, rfl, hin, ?_⟩
      have hlinked := linked_of_mem (hcore.withLastused (some (i * (dropKeep s).objsperchunk + j)))
        (Nat.zero_lt_of_lt hk) ha
      exact inBounds_scannedDown hlinked hk hj hu'
  · rw [if_pos (hlast ▸ hlu), if_pos (hlast ▸ hlu)]
    exact ⟨_, cs, [], rfl, hsame.objsperchunk, ⟨hcore, hfree, lastOk_freed hc hl hi hm hk (hid ▸ hlu),
      hnfree⟩, huse, rfl, hin, List.forall_mem_nil _⟩

/-! ## Runs -/

def DrainInv (objsperchunk : ℕ) : State → Prop
  | .run s live => s.objsperchunk = objsperchunk ∧ ∃ cs, Sound s cs ∧ LiveOk s cs live
  | .fault => False

theorem drainInv_create (n : ℕ) : DrainInv n (.run (.create n) []) := by
  obtain ⟨-, cs, hc, hf, hl⟩ := inv_create n
  have hcs : cs = [] := List.getLast?_eq_none_iff.1 hc.last.symm
  subst hcs
  refine ⟨rfl, [], ⟨hc, hf, ⟨fun n hn => (nomatch hn), ?_⟩, fun n hn => (nomatch hn)⟩, hl⟩
  rintro p ⟨b, bhdr, hb, -⟩
  cases hb

/-- A permitted step stays in bounds and keeps the representation. -/
theorem drain_step {n : ℕ} (hn : 2 ≤ n) {st st' : State} {act : Action} (hinv : DrainInv n st)
    (hok : act.Drains st) (hstep : step st act = some st') : DrainInv n st' ∧ act.Bounded st := by
  cases st with
  | fault => exact hinv.elim
  | run s live =>
    obtain ⟨rfl, cs, hs, hl⟩ := hinv
    cases act with
    | alloc addr =>
      simp only [step] at hstep
      split_ifs at hstep with haddr
      obtain ⟨s', a, k, cs', slots, hrun, ho, hs', hnot, hiff, hslots, hin⟩ :=
        alloc_bounded hs hn (Option.not_isSome_iff_eq_none.1 haddr)
      rw [hrun] at hstep
      cases hstep
      refine ⟨⟨ho, cs', hs', List.nodup_cons.2 ⟨fun h => hnot ((hl.iff a k).1 h), hl.nodup⟩,
        fun b j => ?_⟩, s', a, k, slots, hrun, hslots, hin⟩
      rw [List.mem_cons, hl.iff, hiff]
    | free obj found =>
      simp only [step] at hstep
      split_ifs at hstep with hlive
      obtain ⟨a, k⟩ := obj
      obtain ⟨s', cs', slots, hrun, ho, hs', hiff, hslots, hin, hin'⟩ :=
        free_bounded hs ((hl.iff a k).1 hlive) found hok
      rw [hrun] at hstep
      cases hstep
      refine ⟨⟨ho, cs', hs', hl.nodup.erase _, fun b j => ?_⟩, s', slots, hrun, hslots, hin, hin'⟩
      rw [hl.nodup.mem_erase_iff, hl.iff, hiff, and_comm]

theorem drain_run {objsperchunk : ℕ} (hn : 2 ≤ objsperchunk) {st : State}
    (hrun : (machine objsperchunk).Run (fun st act => act.Drains st) st) :
    DrainInv objsperchunk st := by
  refine hrun.invariant ?_ fun st act st' hi hok hs => (drain_step hn hi hok hs).1
  rintro _ rfl
  exact drainInv_create objsperchunk

/-- In every run that keeps to the condition `firstfree` is no slot of a released chunk, and the next
call that keeps to it, whichever it is, stays in the chunks of the pool. -/
theorem pool_in_bounds {objsperchunk : ℕ} (hn : 2 ≤ objsperchunk) {st : State}
    (hrun : (machine objsperchunk).Run (fun st act => act.Drains st) st) :
    (∃ s live, st = .run s live ∧ FirstIn s) ∧
      ∀ act st', act.Drains st → step st act = some st' → act.Bounded st := by
  have hinv := drain_run hn hrun
  refine ⟨?_, fun act st' hok hs => (drain_step hn hinv hok hs).2⟩
  cases st with
  | fault => exact hinv.elim
  | run s live =>
    obtain ⟨-, cs, hs, -⟩ := hinv
    exact ⟨s, live, rfl, firstIn_of hs.core hs.first hs.free⟩

/-- A test for `Action.Drains`. -/
def Action.drainTest : State → Action → Bool
  | .run s _, .free obj _ => (s.mem obj.1).all fun hdr =>
      decide (s.lastused = some (hdr.slot obj.2).id → hdr.nfree + 1 = s.objsperchunk →
        s.last = some obj.1 ∧ s.nfree + 1 = s.nobj)
  | _, _ => true

theorem drainTest_sound {st : State} {act : Action} (h : act.drainTest st = true) :
    act.Drains st := by
  cases st with
  | fault => trivial
  | run s live =>
    cases act with
    | alloc addr => trivial
    | free obj found => exact fun hdr hm => of_decide_eq_true ((Option.all_eq_true _ _).1 h hdr hm)

/-- Two chunks are used and given back together, and the pool goes on with one of them. -/
theorem pool_in_bounds_drained : ∃ s live, FirstIn s ∧ live = [(10, 0)] ∧ s.firstfree = some 1 ∧
    Action.Bounded (.run s live) (.alloc 30) := by
  have hrun : ((machine 2).execOk (fun st act => act.drainTest st)
      [.alloc 10, .alloc 20, .alloc 20, .alloc 30, .free (10, 0) none, .free (10, 1) none,
        .free (20, 1) none, .free (20, 0) none, .alloc 30] (.run (.create 2) [])).any
      (State.running fun s live =>
        decide (live = [(10, 0)] ∧ s.firstfree = some 1 ∧ s.mem 30 = none)) = true := by
    decide +kernel
  obtain ⟨s, live, hst, hp⟩ :=
    exists_running (Machine.exists_run rfl (fun _ _ => drainTest_sound) hrun)
  obtain ⟨⟨_, _, hs, hfirst⟩, hnext⟩ := pool_in_bounds (by decide) hst
  obtain ⟨rfl, rfl⟩ := State.run.inj hs
  obtain ⟨hlive, hff, h30⟩ := of_decide_eq_true hp
  have hnone : ¬ (s.mem 30).isSome = true := by
    rw [h30]
    decide
  exact ⟨s, live, hfirst, hlive, hff, hnext (.alloc 30) _ trivial (if_neg hnone)⟩

/-- The second chunk of two is released, and the search starts at slot 3 of the first one, which has
two slots. -/
theorem pool_leaves_chunk : ∃ st act st', (machine 2).Reachable st ∧ step st act = some st' ∧
    ¬ act.Bounded st := by
  have hrun : ((machine 2).exec [.alloc 10, .alloc 20, .alloc 20, .alloc 30, .free (20, 1) none]
      (.run (.create 2) [])).any (State.running fun s live =>
        decide ((20, 0) ∈ live ∧ s.freeInspected (20, 0) = some [(10, 3)] ∧
          (s.free (20, 0) none).map Pool.objsperchunk = some 2)) = true := by decide +kernel
  obtain ⟨s, live, hst, hlast⟩ := exists_running (Machine.exists_reachable rfl hrun)
  obtain ⟨hlive, hslots, hobj⟩ := of_decide_eq_true hlast
  refine ⟨.run s live, .free (20, 0) none, _, hst, if_pos hlive, ?_⟩
  rintro ⟨s', slots, hfree, hslots', -, hin⟩
  rw [hfree, Option.map_some, Option.some_inj] at hobj
  cases hslots.symm.trans hslots'
  have hlt := (hin (10, 3) List.mem_cons_self).2.2
  rw [hobj] at hlt
  exact absurd hlt (by decide)

/-! ### Live objects -/

/-- Every live object has a place of its own in every run that keeps to the condition. -/
theorem pool_safe {objsperchunk : ℕ} (hn : 2 ≤ objsperchunk) {st : State}
    (hrun : (machine objsperchunk).Run (fun st act => act.Drains st) st) :
    ∃ s live, st = .run s live ∧ Safe s live := by
  have hinv := drain_run hn hrun
  cases st with
  | fault => exact hinv.elim
  | run s live =>
    obtain ⟨-, cs, hs, hl⟩ := hinv
    exact ⟨s, live, rfl, safe_of_inv hs.core hl⟩

/-- The number of a live object. -/
def idOf (s : Pool) (o : Addr × ℕ) : Option ℕ := (s.mem o.1).map fun hdr => (hdr.slot o.2).id

/-- Two chunks are full, and the object that is freed in each of them is handed out again. -/
theorem pool_safe_two_chunks : ∃ s live, Safe s live ∧
    live = [(20, 1), (10, 0), (20, 0), (10, 1)] ∧ idOf s (20, 1) = some 3 := by
  have hrun : ((machine 2).execOk (fun st act => act.drainTest st)
      [.alloc 10, .alloc 20, .alloc 20, .alloc 30, .free (20, 1) none, .free (10, 0) none,
        .alloc 30, .alloc 30] (.run (.create 2) [])).any (State.running fun s live =>
          decide (live = [(20, 1), (10, 0), (20, 0), (10, 1)] ∧ idOf s (20, 1) = some 3)) =
      true := by decide +kernel
  obtain ⟨s, live, hst, hp⟩ :=
    exists_running (Machine.exists_run rfl (fun _ _ => drainTest_sound) hrun)
  obtain ⟨_, _, hs, hsafe⟩ := pool_safe (by decide) hst
  obtain ⟨rfl, rfl⟩ := State.run.inj hs
  obtain ⟨hlive, hid⟩ := of_decide_eq_true hp
  exact ⟨s, live, hsafe, hlive, hid⟩

/-- The first chunk goes although there is a second one, and two live objects get one number. -/
theorem pool_hands_out_twice : ∃ s live, (machine 2).Reachable (.run s live) ∧ ¬ Safe s live := by
  have hrun : ((machine 2).exec [.alloc 10, .alloc 20, .alloc 20, .free (10, 1) none,
      .free (10, 0) none, .alloc 30] (.run (.create 2) [])).any (State.running fun s live =>
        decide (live = [(10, 0), (20, 0)] ∧ idOf s (10, 0) = some 2 ∧
          idOf s (20, 0) = some 2)) = true := by decide +kernel
  obtain ⟨s, live, hst, htwice⟩ := exists_running (Machine.exists_reachable rfl hrun)
  obtain ⟨rfl, h10, h20⟩ := of_decide_eq_true htwice
  refine ⟨s, _, hst, fun hsafe => ?_⟩
  obtain ⟨hdr, hm, hid⟩ := Option.map_eq_some_iff.1 h10
  obtain ⟨hdr', hm', hid'⟩ := Option.map_eq_some_iff.1 h20
  cases hsafe.ids (10, 0) (by simp) (20, 0) (by simp) hdr hdr' hm hm' (hid.trans hid'.symm)

end PoserCore.ObjectPool
