import Mathlib.Data.List.Sort
import PoserCore.ObjectPool.Destroy

/-!
# When `ObjectPool_destroy` does what it should

The kept chunk is unmapped at first, but `keep` still names it, and `first` still names the first
chunk when that was released.  So the pool is destroyed as it should be (`destroyed_iff`) if it has a
chunk or never had one and `objdestroy` frees only objects of the first chunk, without making
`PoolObj_free` unmap the kept chunk again.
-/

namespace PoserCore.ObjectPool

open Lib (Machine)

variable {s s' : Pool} {cs l : List Addr} {a : Addr} {hdr : Hdr} {k : ℕ}

/-! ## The objects of the first chunk -/

/-- The slots in use among `n` of a chunk, from `k` on. -/
def usedFrom (hdr : Hdr) (k n : ℕ) : List ℕ := (List.range' k n).filter fun j => (hdr.slot j).used

theorem mem_usedFrom {n j : ℕ} :
    j ∈ usedFrom hdr k n ↔ (k ≤ j ∧ j < k + n) ∧ (hdr.slot j).used = true := by
  rw [usedFrom, List.mem_filter, List.mem_range'_1]

theorem usedFrom_succ (hdr : Hdr) (k n : ℕ) : usedFrom hdr k (n + 1) =
    if (hdr.slot k).used then k :: usedFrom hdr (k + 1) n else usedFrom hdr (k + 1) n := by
  rw [usedFrom, List.range'_succ, List.filter_cons]
  rfl

theorem usedFrom_give {j n : ℕ} (hkj : k < j) : usedFrom (hdr.give k) j n = usedFrom hdr j n := by
  refine List.filter_congr fun i hi => ?_
  have hik : i ≠ k := by
    rintro rfl
    exact absurd (List.mem_range'_1.1 hi).1 (Nat.not_le.2 hkj)
  simp only [Hdr.give, Function.update_of_ne hik]

/-- The kept chunk is unmapped on the way when these objects are freed. -/
def Unmaps (s : Pool) (js : List ℕ) : Prop :=
  (s.keepcnt - 1).toNat < js.length ∨ js ≠ [] ∧ s.lastused = js.getLast?

instance (s : Pool) (js : List ℕ) : Decidable (Unmaps s js) := inferInstanceAs (Decidable (_ ∨ _))

theorem toNat_sub_one {c : UInt32} (hc : c ≠ 0) : (c - 1).toNat + 1 = c.toNat := by
  have hpos : 0 < c.toNat := Nat.pos_of_ne_zero fun h => hc (UInt32.toNat_inj.1 h)
  have hle : 1 ≤ c := UInt32.le_iff_toNat_le.2 hpos
  rw [UInt32.toNat_sub_of_le c 1 hle]
  exact Nat.sub_add_cancel hpos

/-- One object goes, and the others go after that. -/
theorem unmaps_cons (hne : s.lastused ≠ some k) (js : List ℕ) :
    (dropUnmapped s ++
      if Unmaps (freed (dropKeep s) a hdr k) js then (dropKeep s).keep.toList else []) =
      if Unmaps s (k :: js) then s.keep.toList else [] := by
  have hlast : (s.lastused = (k :: js).getLast?) ↔ js ≠ [] ∧ s.lastused = js.getLast? := by
    cases js with
    | nil => simpa using hne
    | cons j js => simp
  cases hk : s.keep with
  | none => simp [dropUnmapped, dropKeep, hk]
  | some b =>
    by_cases hcount : s.keepcnt - 1 = 0
    · have hall : Unmaps s (k :: js) := .inl (by rw [hcount]; exact Nat.succ_pos _)
      simp [dropUnmapped, dropKeep, hk, hcount, hall]
    · have hsub := toNat_sub_one hcount
      have hiff : Unmaps (freed (dropKeep s) a hdr k) js ↔ Unmaps s (k :: js) := by
        simp only [Unmaps, freed, dropKeep, hk, Option.isSome_some, if_true, if_neg hcount, hlast,
          List.length_cons, ← hsub, Nat.succ_lt_succ_iff]
        simp
      have hdropped : dropUnmapped s = [] := if_neg hcount
      have hkept : (dropKeep s).keep = some b := by simp [dropKeep, hk, hcount]
      simp only [hdropped, hkept, hiff, List.nil_append]

theorem destroyObjs_zero (n : ℕ) (d : Destroying) : destroyObjs a n d 0 k = some d := by
  cases n <;> rfl

theorem destroyObjs_unused {d : Destroying} (hm : d.pool.mem a = some hdr)
    (hu : ¬ (hdr.slot k).used = true) (n used : ℕ) :
    destroyObjs a (n + 1) d used k = destroyObjs a n d used (k + 1) := by
  cases used with
  | zero => rw [destroyObjs_zero, destroyObjs_zero]
  | succ used => rw [destroyObjs, hm, Option.bind_some, if_neg hu]

theorem destroyObjs_used {d : Destroying} (hm : d.pool.mem a = some hdr)
    (hu : (hdr.slot k).used = true) (n used : ℕ) : destroyObjs a (n + 1) d (used + 1) k =
      (d.objdestroy (a, k)).bind fun d => destroyObjs a n d used (k + 1) := by
  rw [destroyObjs, hm, Option.bind_some, if_pos hu]

theorem AtFirst.objsperchunk_freed (h : AtFirst s a hdr l) :
    (freed (dropKeep s) a hdr k).objsperchunk = s.objsperchunk :=
  (same_dropKeep_of h.keep).objsperchunk

theorem AtFirst.lastused_freed (h : AtFirst s a hdr l) :
    (freed (dropKeep s) a hdr k).lastused = s.lastused :=
  (same_dropKeep_of h.keep).lastused

/-- The number of used objects is right after the object was freed. -/
theorem AtFirst.count_freed (h : AtFirst s a hdr l) {js : List ℕ}
    (hfree : hdr.nfree + (k :: js).length = s.objsperchunk) :
    (hdr.give k).nfree + js.length = (freed (dropKeep s) a hdr k).objsperchunk := by
  rw [h.objsperchunk_freed, ← hfree, List.length_cons]
  exact Nat.add_right_comm ..

/-- All objects in use are freed, unless the search for the last one leaves the chunk. -/
theorem destroyObjs_spec : ∀ (n : ℕ) {s : Pool} {called : List (Addr × ℕ)} {unmapped : List Addr}
    {hdr : Hdr} {k : ℕ}, AtFirst s a hdr l → k + n = s.objsperchunk →
    hdr.nfree + (usedFrom hdr k n).length = s.objsperchunk →
    (∀ j ∈ (usedFrom hdr k n).dropLast, s.lastused ≠ some j) →
    ∃ s', destroyObjs a n ⟨s, called, unmapped⟩ (usedFrom hdr k n).length k =
        some ⟨s', called ++ (usedFrom hdr k n).map (a, ·),
          unmapped ++ if Unmaps s (usedFrom hdr k n) then s.keep.toList else []⟩ ∧
      s'.first = some a ∧ s'.objsperchunk = s.objsperchunk ∧ ∀ b ∈ l, s'.mem b = s.mem b
  | 0, s, called, unmapped, hdr, k, h, _, _, _ => by
      have hno : ¬ Unmaps s [] := by simp [Unmaps]
      refine ⟨s, ?_, h.first, rfl, fun _ _ => rfl⟩
      rw [usedFrom, List.range'_zero, List.filter_nil, if_neg hno, List.append_nil, List.map_nil,
        List.append_nil]
      exact destroyObjs_zero ..
  | n + 1, s, called, unmapped, hdr, k, h, hkn, hfree, hlast => by
      by_cases hu : (hdr.slot k).used = true
      · rw [usedFrom_succ, if_pos hu] at hfree hlast ⊢
        have hk : k < s.objsperchunk := by omega
        rw [List.length_cons, destroyObjs_used h.chunk hu]
        by_cases hk' : s.lastused = some k
        · -- no other object is in use
          have hnil : usedFrom hdr (k + 1) n = [] := by
            by_contra hne
            rw [List.dropLast_cons_of_ne_nil hne] at hlast
            exact hlast k List.mem_cons_self hk'
          rw [hnil] at hfree ⊢
          obtain ⟨s', hrun, hfirst, ho, hmem⟩ :=
            h.objdestroy_releases hk hu hk' hfree called unmapped
          have hun : Unmaps s [k] := .inr ⟨List.cons_ne_nil k [], hk'⟩
          refine ⟨s', ?_, hfirst, ho, hmem⟩
          rw [hrun, if_pos hun]
          exact destroyObjs_zero ..
        · have hgive := @usedFrom_give hdr k (k + 1) n (Nat.lt_succ_self k)
          have hkn' : k + 1 + n = (freed (dropKeep s) a hdr k).objsperchunk := by
            rw [h.objsperchunk_freed]
            omega
          have hlast' : ∀ j ∈ (usedFrom hdr (k + 1) n).dropLast,
              (freed (dropKeep s) a hdr k).lastused ≠ some j := by
            intro j hj
            have hne : usedFrom hdr (k + 1) n ≠ [] := by
              intro hnil
              rw [hnil] at hj
              cases hj
            rw [List.dropLast_cons_of_ne_nil hne] at hlast
            rw [h.lastused_freed]
            exact hlast j (List.mem_cons_of_mem _ hj)
          obtain ⟨s', hrun, hfirst, ho, hmem⟩ := destroyObjs_spec n (h.free hk) hkn'
            (hgive ▸ h.count_freed hfree) (hgive ▸ hlast')
          refine ⟨s', ?_, hfirst, ho.trans h.objsperchunk_freed,
            fun b hb => (hmem b hb).trans (h.freed_mem hb)⟩
          rw [h.objdestroy hk hu hk', Option.bind_some]
          rw [hgive] at hrun
          rw [hrun, List.append_assoc, List.append_assoc, ← unmaps_cons hk']
          rfl
      · rw [usedFrom_succ, if_neg hu] at hfree hlast ⊢
        rw [destroyObjs_unused h.chunk hu]
        exact destroyObjs_spec n h (by omega) hfree hlast

/-- `lastused` names an object before the last one. -/
theorem destroyObjs_leaves : ∀ (n : ℕ) {s : Pool} {called : List (Addr × ℕ)}
    {unmapped : List Addr} {hdr : Hdr} {k j : ℕ}, AtFirst s a hdr l → k + n = s.objsperchunk →
    hdr.nfree + (usedFrom hdr k n).length = s.objsperchunk →
    (∀ i < k, (hdr.slot i).used = false) → j ∈ (usedFrom hdr k n).dropLast →
    s.lastused = some j →
    destroyObjs a n ⟨s, called, unmapped⟩ (usedFrom hdr k n).length k = none
  | 0, s, called, unmapped, hdr, k, j, _, _, _, _, hj, _ => by cases hj
  | n + 1, s, called, unmapped, hdr, k, j, h, hkn, hfree, hbefore, hj, hlast => by
      by_cases hu : (hdr.slot k).used = true
      · rw [usedFrom_succ, if_pos hu] at hfree hj ⊢
        have hk : k < s.objsperchunk := by omega
        rw [List.length_cons, destroyObjs_used h.chunk hu]
        have hne : usedFrom hdr (k + 1) n ≠ [] := by
          intro hnil
          rw [hnil] at hj
          cases hj
        rw [List.dropLast_cons_of_ne_nil hne] at hj
        by_cases hk' : s.lastused = some k
        · have hmore : hdr.nfree + 1 ≠ s.objsperchunk := by
            have := List.length_pos_iff.2 hne
            rw [List.length_cons] at hfree
            omega
          rw [h.objdestroy_leaves hk hu hk' hbefore hmore]
          rfl
        · have hgive := @usedFrom_give hdr k (k + 1) n (Nat.lt_succ_self k)
          have hkn' : k + 1 + n = (freed (dropKeep s) a hdr k).objsperchunk := by
            rw [h.objsperchunk_freed]
            omega
          have hbefore' : ∀ i < k + 1, ((hdr.give k).slot i).used = false := by
            intro i hi
            rcases Nat.eq_or_lt_of_le (Nat.le_of_lt_succ hi) with rfl | hlt
            · simp [Hdr.give]
            · simp only [Hdr.give, Function.update_of_ne hlt.ne]
              exact hbefore i hlt
          have hj' : j ∈ (usedFrom hdr (k + 1) n).dropLast := by
            refine (List.mem_cons.1 hj).resolve_left ?_
            rintro rfl
            exact hk' hlast
          rw [h.objdestroy hk hu hk', Option.bind_some, ← hgive]
          exact destroyObjs_leaves n (h.free hk) hkn' (hgive ▸ h.count_freed hfree) hbefore'
            (hgive ▸ hj') (h.lastused_freed.trans hlast)
      · rw [usedFrom_succ, if_neg hu] at hfree hj ⊢
        have hbefore' : ∀ i < k + 1, (hdr.slot i).used = false := by
          intro i hi
          rcases Nat.eq_or_lt_of_le (Nat.le_of_lt_succ hi) with rfl | hlt
          · exact Bool.not_eq_true _ ▸ hu
          · exact hbefore i hlt
        rw [destroyObjs_unused h.chunk hu]
        exact destroyObjs_leaves n h (by omega) hfree hbefore' hj hlast

/-! ## The other chunks -/

/-- The chunks are linked in this order, and the last one has no next one. -/
def Chained (mem : Addr → Option Hdr) : List Addr → Prop
  | [] => True
  | a :: l => (∃ hdr, mem a = some hdr ∧ hdr.next = l.head?) ∧ Chained mem l

theorem Chained.congr {mem mem' : Addr → Option Hdr} (h : Chained mem l)
    (heq : ∀ b ∈ l, mem' b = mem b) : Chained mem' l := by
  induction l with
  | nil => trivial
  | cons a l ih =>
    refine ⟨?_, ih h.2 fun b hb => heq b (List.mem_cons_of_mem _ hb)⟩
    rw [heq a List.mem_cons_self]
    exact h.1

theorem Core.chained (hc : Core s cs) {done : List Addr} (hcs : done ++ l = cs) :
    Chained s.mem l := by
  induction l generalizing done with
  | nil => trivial
  | cons a l ih =>
    have hi : cs[done.length]? = some a := by
      rw [← hcs, List.getElem?_append_right le_rfl, Nat.sub_self, List.getElem?_cons_zero]
    obtain ⟨hdr, hm, hok⟩ := hc.chunks _ a hi
    refine ⟨⟨hdr, hm, ?_⟩, ih ((List.append_cons ..).symm.trans hcs)⟩
    rw [hok.next, ← hcs, List.getElem?_append_right (Nat.le_succ _), Nat.succ_sub le_rfl,
      Nat.sub_self, List.getElem?_cons_succ, List.head?_eq_getElem?]

/-- What is unmapped is none of the chunks that follow. -/
theorem unmap_mem {d : Destroying} (ha : a ∉ l) {b : Addr} (hb : b ∈ l) :
    (d.unmap a).pool.mem b = d.pool.mem b := by
  have hba : b ≠ a := fun h => ha (h ▸ hb)
  exact Function.update_of_ne hba ..

/-- Without a callback, or with nothing to call it for, the chunks are unmapped one by one. -/
theorem destroyChunks_idle {objdestroy : Bool} : ∀ {l : List Addr} {fuel : ℕ} {d : Destroying},
    l.length < fuel → l.Nodup → Chained d.pool.mem l →
    (objdestroy = true → ∀ b ∈ l, ∀ hdr, d.pool.mem b = some hdr →
      hdr.nfree = d.pool.objsperchunk) →
    ∃ s, destroyChunks objdestroy fuel d l.head? = some ⟨s, d.called, d.unmapped ++ l⟩
  | [], fuel + 1, d, _, _, _, _ => ⟨d.pool, by rw [List.append_nil]; rfl⟩
  | a :: l, fuel + 1, d, hlen, hnd, hch, hidle => by
      obtain ⟨⟨hdr, hm, hnext⟩, hch⟩ := hch
      obtain ⟨ha, hnd⟩ := List.nodup_cons.1 hnd
      have hobjs : (if objdestroy = true then
          destroyObjs a d.pool.objsperchunk d (d.pool.objsperchunk - hdr.nfree) 0 else some d) =
          some d := by
        split_ifs with hcb
        · rw [hidle hcb a List.mem_cons_self hdr hm, Nat.sub_self]
          exact destroyObjs_zero ..
        · rfl
      have hmem {b : Addr} (hb : b ∈ l) : (d.unmap a).pool.mem b = d.pool.mem b := unmap_mem ha hb
      obtain ⟨s, hrun⟩ := destroyChunks_idle (Nat.lt_of_succ_lt_succ hlen) hnd
        (hch.congr fun b hb => hmem hb) fun hcb b hb bhdr hmb =>
          hidle hcb b (List.mem_cons_of_mem _ hb) bhdr (hmem hb ▸ hmb)
      refine ⟨s, ?_⟩
      rw [List.head?_cons, destroyChunks, hm, Option.bind_some]
      dsimp only
      rw [hobjs, Option.bind_some, hnext, hrun, Destroying.unmap, List.append_assoc,
        List.singleton_append]

theorem mem_dropKeep_le {b : Addr} (h : (dropKeep s).mem b = some hdr) : s.mem b = some hdr := by
  rw [dropKeep] at h
  split_ifs at h
  · by_cases hb : s.keep = some b
    · have hnone : unmapKeep s b = none := (unmapKeep_eq_none s b).2 (.inr (Option.mem_toList.2 hb))
      cases hnone.symm.trans h
    · exact (mem_unmapKeep_of hb).symm.trans h
  · exact h
  · exact h

/-- `PoolObj_free` uses the first chunk to find any other. -/
theorem objdestroy_gone {d : Destroying} {c : Addr} (hfirst : d.pool.first = some c)
    (hc : d.pool.mem c = none) (hm : d.pool.mem a = some hdr)
    (hno : 0 < (hdr.slot k).id / d.pool.objsperchunk) : d.objdestroy (a, k) = none := by
  have hsame : Same d.pool (dropKeep d.pool) [] := same_dropKeep_of (List.forall_mem_nil _)
  have hc' : (dropKeep d.pool).mem c = none := (unmapped_dropKeep d.pool c).2 (.inl hc)
  have hca : c ≠ a := by
    rintro rfl
    cases hc.symm.trans hm
  have hinspected : d.pool.freeInspected (a, k) = none := by
    cases hma : (dropKeep d.pool).mem a with
    | none => simp only [Pool.freeInspected, Option.bind_eq_bind, hma, Option.bind_none]
    | some hdr' =>
      cases hm.symm.trans (mem_dropKeep_le hma)
      obtain ⟨n, hn⟩ := Nat.exists_eq_succ_of_ne_zero (Nat.ne_of_gt hno)
      simp only [Pool.freeInspected, Option.bind_eq_bind, hma, Option.bind_some,
        hsame.objsperchunk, hsame.first, hfirst, hn, walk, Function.update_of_ne hca, hc',
        Option.bind_none]
  rw [Destroying.objdestroy, hinspected]
  rfl

theorem destroyObjs_gone {d : Destroying} (hm : d.pool.mem a = some hdr)
    (hgone : ∀ j < d.pool.objsperchunk, (hdr.slot j).used = true → d.objdestroy (a, j) = none) :
    ∀ (n used : ℕ) {k : ℕ}, k + n = d.pool.objsperchunk → destroyObjs a n d (used + 1) k = none
  | 0, _, _, _ => rfl
  | n + 1, used, k, hkn => by
      by_cases hu : (hdr.slot k).used = true
      · rw [destroyObjs_used hm hu, hgone k (by omega) hu, Option.bind_none]
      · rw [destroyObjs_unused hm hu]
        exact destroyObjs_gone hm hgone n used (by omega)

/-- The first chunk is gone, and another one has an object in use. -/
theorem destroyChunks_busy {c b : Addr} : ∀ {l : List Addr} {fuel : ℕ} {d : Destroying},
    d.pool.first = some c → d.pool.mem c = none → l.Nodup → Chained d.pool.mem l →
    (∀ b ∈ l, ∀ hdr, d.pool.mem b = some hdr → ∀ j < d.pool.objsperchunk,
      (hdr.slot j).used = true → 0 < (hdr.slot j).id / d.pool.objsperchunk) →
    b ∈ l → (∀ hdr, d.pool.mem b = some hdr → hdr.nfree < d.pool.objsperchunk) →
    destroyChunks true fuel d l.head? = none
  | [], _, _, _, _, _, _, _, hb, _ => absurd hb List.not_mem_nil
  | a :: l, 0, d, _, _, _, _, _, _, _ => rfl
  | a :: l, fuel + 1, d, hfirst, hc, hnd, hch, hids, hb, hbusy => by
      obtain ⟨⟨hdr, hm, hnext⟩, hch⟩ := hch
      obtain ⟨ha, hnd⟩ := List.nodup_cons.1 hnd
      rw [List.head?_cons, destroyChunks, hm, Option.bind_some]
      dsimp only
      rw [if_pos rfl]
      cases hused : d.pool.objsperchunk - hdr.nfree with
      | succ used =>
        rw [destroyObjs_gone hm (fun j hj hu => ?_) _ _ (Nat.zero_add _), Option.bind_none]
        exact objdestroy_gone hfirst hc hm (hids a List.mem_cons_self hdr hm j hj hu)
      | zero =>
        have hmem {b : Addr} (hb : b ∈ l) : (d.unmap a).pool.mem b = d.pool.mem b :=
          unmap_mem ha hb
        have hbl : b ∈ l := by
          refine (List.mem_cons.1 hb).resolve_left ?_
          rintro rfl
          have := hbusy hdr hm
          omega
        rw [destroyObjs_zero, Option.bind_some, hnext]
        refine destroyChunks_busy hfirst ?_ hnd (hch.congr fun b hb => hmem hb)
          (fun b hb bhdr hmb => hids b (List.mem_cons_of_mem _ hb) bhdr (hmem hb ▸ hmb)) hbl
          fun bhdr hmb => hbusy bhdr (hmem hbl ▸ hmb)
        have hca : c ≠ a := by
          rintro rfl
          rw [hc] at hm
          cases hm
        exact (Function.update_of_ne hca ..).trans hc

/-! ## The whole pool -/

variable {c : Addr}

/-- The pool after the kept chunk was unmapped. -/
theorem Core.atFirst (hc : Core s (c :: l)) (ho : 0 < s.objsperchunk) (hm : s.mem c = some hdr) :
    AtFirst { s with mem := unmapKeep s } c hdr l := by
  have hok := hc.chunkOk (i := 0) rfl hm
  refine ⟨hc.first (List.cons_ne_nil c l), (mem_unmapKeep hc List.mem_cons_self).trans hm, hok.prev,
    ?_, fun b hb hk => (hc.keep b hk).1 hb, (List.nodup_cons.1 hc.nodup).1, fun j hj hu => ?_⟩
  · show 0 < s.nobj
    rw [hc.nobj, List.length_cons, Nat.succ_mul]
    exact Nat.lt_add_left _ ho
  · rw [hok.ids j hj hu, Nat.zero_mul, Nat.zero_add]

theorem pairwise_usedFrom (hdr : Hdr) (k n : ℕ) : (usedFrom hdr k n).Pairwise (· < ·) :=
  (List.pairwise_lt_range' ..).filter _

theorem nodup_usedFrom (hdr : Hdr) (k n : ℕ) : (usedFrom hdr k n).Nodup :=
  (pairwise_usedFrom hdr k n).imp fun h => Nat.ne_of_lt h

theorem ChunkOk.count {i : ℕ} (hok : ChunkOk s.objsperchunk cs i hdr) :
    hdr.nfree + (usedFrom hdr 0 s.objsperchunk).length = s.objsperchunk := by
  have hset : (usedFrom hdr 0 s.objsperchunk).toFinset =
      (Finset.range s.objsperchunk).filter fun j => ¬ (hdr.slot j).used = false := by
    ext j
    rw [List.mem_toFinset, mem_usedFrom, Finset.mem_filter, Finset.mem_range, Nat.zero_add,
      Bool.not_eq_false, and_iff_right (Nat.zero_le j)]
  rw [hok.nfree, ← List.toFinset_card_of_nodup (nodup_usedFrom ..), hset, unused,
    Finset.card_filter_add_card_filter_not, Finset.card_range]

theorem LiveOk.mem_first {live : List (Addr × ℕ)} (hl : LiveOk s (c :: l) live)
    (hm : s.mem c = some hdr) : (c, k) ∈ live ↔ k ∈ usedFrom hdr 0 s.objsperchunk := by
  rw [hl.iff, InUse, mem_usedFrom, Nat.zero_add]
  constructor
  · rintro ⟨hk, -, hdr', hm', hu⟩
    cases hm.symm.trans hm'
    exact ⟨⟨Nat.zero_le k, hk⟩, hu⟩
  · rintro ⟨⟨-, hk⟩, hu⟩
    exact ⟨hk, List.mem_cons_self, hdr, hm, hu⟩

/-- All live objects are in the first chunk if the other chunks have none in use. -/
theorem first_iff_idle {live : List (Addr × ℕ)} (hc : Core s (c :: l))
    (hl : LiveOk s (c :: l) live) : (∀ x ∈ live, x.1 = c) ↔
      ∀ b ∈ l, ∀ hdr, s.mem b = some hdr → hdr.nfree = s.objsperchunk := by
  constructor
  · intro hfirst b hb hdr hm
    obtain ⟨i, hi, hok⟩ := hc.chunkOk_of_mem (List.mem_cons_of_mem c hb) hm
    have hall : unused s.objsperchunk hdr = Finset.range s.objsperchunk := by
      refine Finset.filter_true_of_mem fun j hj => ?_
      by_contra hu
      have hlive : (b, j) ∈ live := (hl.iff b j).2
        ⟨Finset.mem_range.1 hj, List.mem_cons_of_mem c hb, hdr, hm, Bool.not_eq_false _ ▸ hu⟩
      have hbc : b = c := hfirst (b, j) hlive
      exact (List.nodup_cons.1 hc.nodup).1 (hbc ▸ hb)
    rw [hok.nfree, hall, Finset.card_range]
  · rintro hidle ⟨b, j⟩ hx
    obtain ⟨hj, hb, hdr, hm, hu⟩ := (hl.iff b j).1 hx
    refine (List.mem_cons.1 hb).resolve_right fun hbl => ?_
    obtain ⟨i, hi, hok⟩ := hc.chunkOk_of_mem hb hm
    rw [unused_of_full hok (hidle b hbl hdr hm) hj] at hu
    cases hu

theorem linked_iff (hc : Core s cs) (ho : 0 < s.objsperchunk) : Linked s a ↔ a ∈ cs := by
  refine ⟨?_, linked_of_mem hc ho⟩
  rintro ⟨n, hn, hw, -⟩
  have hlt : n < cs.length := by
    rw [hc.nobj] at hn
    exact Nat.lt_of_mul_lt_mul_right hn
  exact List.mem_of_getElem? ((hc.walk hlt).symm.trans hw)

/-- `ObjectPool_destroy` on a pool with chunks. -/
theorem destroy_cons (hc : Core s (c :: l)) (hm : s.mem c = some hdr) (objdestroy : Bool) :
    s.destroy objdestroy =
      (if objdestroy then
        destroyObjs c s.objsperchunk ⟨{ s with mem := unmapKeep s }, [], s.keep.toList⟩
          (usedFrom hdr 0 s.objsperchunk).length 0
      else some ⟨{ s with mem := unmapKeep s }, [], s.keep.toList⟩).bind fun d =>
        destroyChunks objdestroy s.nobj (d.unmap c) l.head? := by
  have hok := hc.chunkOk (i := 0) rfl hm
  have hcount : s.objsperchunk - hdr.nfree = (usedFrom hdr 0 s.objsperchunk).length :=
    Nat.sub_eq_of_eq_add' hok.count.symm
  have hnext : hdr.next = l.head? := by
    rw [hok.next, List.getElem?_cons_succ, List.head?_eq_getElem?]
  have hunmap : unmapKeep s c = some hdr := (mem_unmapKeep hc List.mem_cons_self).trans hm
  rw [Pool.destroy, hc.first (List.cons_ne_nil c l), List.head?_cons, destroyChunks]
  dsimp only
  rw [hunmap, Option.bind_some, hcount, hnext]

/-- After the objects of the first chunk, the chunks behind are as before. -/
theorem chained_behind (hc : Core s (c :: l)) {d : Destroying}
    (hmem : ∀ b ∈ l, d.pool.mem b = unmapKeep s b) :
    (∀ b ∈ l, (d.unmap c).pool.mem b = s.mem b) ∧ Chained (d.unmap c).pool.mem l := by
  have hbehind : ∀ b ∈ l, (d.unmap c).pool.mem b = s.mem b := fun b hb =>
    (unmap_mem (List.nodup_cons.1 hc.nodup).1 hb).trans
      ((hmem b hb).trans (mem_unmapKeep hc (List.mem_cons_of_mem c hb)))
  exact ⟨hbehind, (hc.chained (@List.singleton_append _ c l)).congr hbehind⟩

theorem destroy_leaves (hc : Core s (c :: l)) (ho : 0 < s.objsperchunk) (hm : s.mem c = some hdr)
    {j : ℕ} (hj : j ∈ (usedFrom hdr 0 s.objsperchunk).dropLast) (hlast : s.lastused = some j) :
    s.destroy true = none := by
  have hok := hc.chunkOk (i := 0) rfl hm
  rw [destroy_cons hc hm, if_pos rfl, destroyObjs_leaves _ (hc.atFirst ho hm) (Nat.zero_add _)
    hok.count (fun i hi => absurd hi (Nat.not_lt_zero i)) hj hlast, Option.bind_none]

/-- The objects of the first chunk are freed, and the others have to follow. -/
theorem destroy_first (hc : Core s (c :: l)) (ho : 0 < s.objsperchunk) (hm : s.mem c = some hdr)
    (hlast : ∀ j ∈ (usedFrom hdr 0 s.objsperchunk).dropLast, s.lastused ≠ some j) :
    ∃ d : Destroying, s.destroy true = destroyChunks true s.nobj (d.unmap c) l.head? ∧
      d.called = (usedFrom hdr 0 s.objsperchunk).map (c, ·) ∧
      d.unmapped = s.keep.toList ++
        (if Unmaps s (usedFrom hdr 0 s.objsperchunk) then s.keep.toList else []) ∧
      d.pool.first = some c ∧ d.pool.objsperchunk = s.objsperchunk ∧
      ∀ b ∈ l, d.pool.mem b = unmapKeep s b := by
  have hok := hc.chunkOk (i := 0) rfl hm
  obtain ⟨s', hrun, hfirst, hobj, hmem⟩ :=
    destroyObjs_spec _ (hc.atFirst ho hm) (Nat.zero_add _) hok.count hlast
  rw [destroy_cons hc hm, if_pos rfl, hrun, Option.bind_some]
  exact ⟨_, rfl, List.nil_append _, rfl, hfirst, hobj, hmem⟩

theorem destroy_busy (hc : Core s (c :: l)) (ho : 0 < s.objsperchunk) (hm : s.mem c = some hdr)
    (hlast : ∀ j ∈ (usedFrom hdr 0 s.objsperchunk).dropLast, s.lastused ≠ some j)
    (hbusy : ¬ ∀ b ∈ l, ∀ hdr, s.mem b = some hdr → hdr.nfree = s.objsperchunk) :
    s.destroy true = none := by
  obtain ⟨d, hrun, -, -, hfirst, hobj, hmem⟩ := destroy_first hc ho hm hlast
  obtain ⟨hbehind, hch⟩ := chained_behind hc hmem
  have hnd := List.nodup_cons.1 hc.nodup
  obtain ⟨b, hb, bhdr, hmb, hne⟩ : ∃ b ∈ l, ∃ hdr, s.mem b = some hdr ∧
      hdr.nfree ≠ s.objsperchunk := by
    by_contra hno
    refine hbusy fun b hb bhdr hmb => ?_
    by_contra hne
    exact hno ⟨b, hb, bhdr, hmb, hne⟩
  have hobj' : (d.unmap c).pool.objsperchunk = s.objsperchunk := hobj
  rw [hrun]
  refine destroyChunks_busy (c := c) (b := b) hfirst (Function.update_self ..) hnd.2 hch ?_ hb ?_
  · intro b' hb' hdr' hm' j hj hu
    rw [hbehind b' hb'] at hm'
    rw [hobj'] at hj ⊢
    obtain ⟨i, hi⟩ := List.mem_iff_getElem?.1 hb'
    have hok := hc.chunkOk ((List.getElem?_cons_succ).trans hi) hm'
    rw [hok.ids j hj hu, (div_mod_index hj).1]
    exact Nat.succ_pos i
  · intro hdr' hm'
    rw [hbehind b hb] at hm'
    cases hmb.symm.trans hm'
    obtain ⟨i, -, hok⟩ := hc.chunkOk_of_mem (List.mem_cons_of_mem c hb) hmb
    rw [hobj']
    exact Nat.lt_of_le_of_ne (nfree_le_card hok) hne

theorem destroy_idle (hc : Core s (c :: l)) (ho : 0 < s.objsperchunk) (hm : s.mem c = some hdr)
    (hlast : ∀ j ∈ (usedFrom hdr 0 s.objsperchunk).dropLast, s.lastused ≠ some j)
    (hidle : ∀ b ∈ l, ∀ hdr, s.mem b = some hdr → hdr.nfree = s.objsperchunk) :
    ∃ s', s.destroy true = some ⟨s', (usedFrom hdr 0 s.objsperchunk).map (c, ·), s.keep.toList ++
      (if Unmaps s (usedFrom hdr 0 s.objsperchunk) then s.keep.toList else []) ++ c :: l⟩ := by
  obtain ⟨d, hrun, hcalled, hunmapped, -, hobj, hmem⟩ := destroy_first hc ho hm hlast
  obtain ⟨hbehind, hch⟩ := chained_behind hc hmem
  obtain ⟨s', hrest⟩ := destroyChunks_idle (hc.length_le_nobj ho) (List.nodup_cons.1 hc.nodup).2 hch
    fun _ b hb bhdr hmb => (hidle b hb bhdr (hbehind b hb ▸ hmb)).trans hobj.symm
  refine ⟨s', ?_⟩
  rw [hrun, hrest, Destroying.unmap, hcalled, hunmapped, List.append_assoc, List.singleton_append]

/-- Without a callback, every pool with a chunk is destroyed. -/
theorem destroy_plain (hc : Core s (c :: l)) (ho : 0 < s.objsperchunk) (hm : s.mem c = some hdr) :
    ∃ s', s.destroy false = some ⟨s', [], s.keep.toList ++ c :: l⟩ := by
  obtain ⟨hbehind, hch⟩ :=
    chained_behind hc (d := ⟨{ s with mem := unmapKeep s }, [], s.keep.toList⟩) fun _ _ => rfl
  obtain ⟨s', hrest⟩ := @destroyChunks_idle false _ _ _ (hc.length_le_nobj ho)
    (List.nodup_cons.1 hc.nodup).2 hch fun h => nomatch h
  refine ⟨s', ?_⟩
  rw [destroy_cons hc hm, if_neg Bool.false_ne_true, Option.bind_some, hrest, Destroying.unmap,
    List.append_assoc, List.singleton_append]

/-! ## The condition -/

/-- `objdestroy` can be called for all live objects: they are in the first chunk (so that their slots
are their numbers), `lastused` names none of them but the last one, and while a chunk is kept they
are too few to end its time and `lastused` names none at all. -/
structure Callable (s : Pool) (live : List (Addr × ℕ)) : Prop where
  first : ∀ x ∈ live, s.first = some x.1
  last : ∀ x ∈ live, s.lastused = some x.2 → ∀ y ∈ live, y.2 ≤ x.2
  kept : s.keep ≠ none → live.length ≤ (s.keepcnt - 1).toNat ∧ ∀ x ∈ live, s.lastused ≠ some x.2

theorem mem_dropLast_iff {js : List ℕ} (hjs : js.Pairwise (· < ·)) {j : ℕ} (hj : j ∈ js) :
    j ∈ js.dropLast ↔ ∃ i ∈ js, j < i := by
  rcases List.eq_nil_or_concat' js with rfl | ⟨init, z, rfl⟩
  · cases hj
  · have hlt := (List.pairwise_append.1 hjs).2.2
    rw [List.dropLast_concat]
    constructor
    · exact fun hj => ⟨z, by simp, hlt j hj z (List.mem_singleton_self z)⟩
    · rintro ⟨i, hi, hji⟩
      refine (List.mem_append.1 hj).resolve_right fun hz => ?_
      cases List.mem_singleton.1 hz
      rcases List.mem_append.1 hi with hi | hi
      · exact absurd (hlt i hi j (List.mem_singleton_self j)) (Nat.lt_asymm hji)
      · cases List.mem_singleton.1 hi
        exact Nat.lt_irrefl _ hji

theorem getLast?_of_not_mem {js : List ℕ} {j : ℕ} (hj : j ∈ js) (hnot : j ∉ js.dropLast) :
    js.getLast? = some j := by
  rcases List.eq_nil_or_concat' js with rfl | ⟨init, z, rfl⟩
  · cases hj
  · rw [List.dropLast_concat] at hnot
    cases List.mem_singleton.1 ((List.mem_append.1 hj).resolve_left hnot)
    exact List.getLast?_concat

/-- The live objects are those that are called. -/
theorem perm_live {live : List (Addr × ℕ)} (hl : LiveOk s (c :: l) live)
    (hm : s.mem c = some hdr) (hfirst : ∀ x ∈ live, x.1 = c) :
    ((usedFrom hdr 0 s.objsperchunk).map (c, ·)).Perm live := by
  have hnd := (nodup_usedFrom hdr 0 s.objsperchunk).map (Prod.mk_right_injective c)
  refine (List.perm_ext_iff_of_nodup hnd hl.nodup).2 fun ⟨b, j⟩ => ?_
  rw [List.mem_map]
  constructor
  · rintro ⟨i, hi, h⟩
    cases h
    exact (hl.mem_first hm).2 hi
  · intro hx
    obtain rfl : b = c := hfirst (b, j) hx
    exact ⟨j, (hl.mem_first hm).1 hx, rfl⟩

/-- The condition, for the slots in use of the first chunk. -/
theorem callable_iff {live : List (Addr × ℕ)} (hc : Core s (c :: l)) (hl : LiveOk s (c :: l) live)
    (hm : s.mem c = some hdr) : Callable s live ↔
      (∀ b ∈ l, ∀ hdr, s.mem b = some hdr → hdr.nfree = s.objsperchunk) ∧
      (∀ j ∈ (usedFrom hdr 0 s.objsperchunk).dropLast, s.lastused ≠ some j) ∧
      (s.keep = none ∨ ¬ Unmaps s (usedFrom hdr 0 s.objsperchunk)) := by
  have hsorted := pairwise_usedFrom hdr 0 s.objsperchunk
  have hc1 : s.first = some c := hc.first (List.cons_ne_nil c l)
  have hlen (hfirst : ∀ x ∈ live, x.1 = c) :
      (usedFrom hdr 0 s.objsperchunk).length = live.length :=
    List.length_map _ ▸ (perm_live hl hm hfirst).length_eq
  constructor
  · intro h
    have hfirst : ∀ x ∈ live, x.1 = c := fun x hx =>
      (Option.some_inj.1 (hc1.symm.trans (h.first x hx))).symm
    refine ⟨(first_iff_idle hc hl).1 hfirst, fun j hj hlast => ?_,
      or_iff_not_imp_left.2 fun hk => ?_⟩
    · have hmem := List.dropLast_subset _ hj
      obtain ⟨i, hi, hji⟩ := (mem_dropLast_iff hsorted hmem).1 hj
      have hle := h.last (c, j) ((hl.mem_first hm).2 hmem) hlast (c, i) ((hl.mem_first hm).2 hi)
      exact absurd hji (Nat.not_lt.2 hle)
    · obtain ⟨hfew, hnone⟩ := h.kept hk
      rintro (hmany | ⟨hne, hlast⟩)
      · rw [hlen hfirst] at hmany
        exact absurd hmany (Nat.not_lt.2 hfew)
      · rw [List.getLast?_eq_some_getLast hne] at hlast
        exact hnone (c, _) ((hl.mem_first hm).2 (List.getLast_mem hne)) hlast
  · rintro ⟨hidle, hlast, hkept⟩
    have hfirst := (first_iff_idle hc hl).2 hidle
    have hslot (x : Addr × ℕ) (hx : x ∈ live) : x.2 ∈ usedFrom hdr 0 s.objsperchunk := by
      obtain ⟨b, j⟩ := x
      obtain rfl : b = c := hfirst (b, j) hx
      exact (hl.mem_first hm).1 hx
    refine ⟨fun x hx => hfirst x hx ▸ hc1, fun x hx hlu y hy => ?_,
      fun hk => ⟨?_, fun x hx hlu => ?_⟩⟩
    · by_contra hlt
      exact hlast x.2 ((mem_dropLast_iff hsorted (hslot x hx)).2
        ⟨y.2, hslot y hy, Nat.not_le.1 hlt⟩) hlu
    · by_contra hmany
      refine hkept.resolve_left hk (.inl ?_)
      rw [hlen hfirst]
      exact Nat.not_le.1 hmany
    · have hlast' := getLast?_of_not_mem (hslot x hx) fun hd => hlast x.2 hd hlu
      exact hkept.resolve_left hk (.inr ⟨List.ne_nil_of_mem (hslot x hx), hlu.trans hlast'.symm⟩)

/-- A pool with a chunk. -/
theorem destroyed_of_chunk {live : List (Addr × ℕ)} {objdestroy : Bool} (hc : Core s (c :: l))
    (hl : LiveOk s (c :: l) live) (ho : 0 < s.objsperchunk) :
    Destroyed s live objdestroy ↔ (objdestroy = true → Callable s live) := by
  obtain ⟨hdr, hm, -⟩ := hc.chunks 0 c rfl
  have howned (a : Addr) : a ∈ s.keep.toList ++ c :: l ↔ Linked s a ∨ s.keep = some a := by
    rw [List.mem_append, Option.mem_toList, linked_iff hc ho, or_comm]
  have hnd : (s.keep.toList ++ c :: l).Nodup := by
    cases hk : s.keep with
    | none => exact hc.nodup
    | some b => exact List.nodup_cons.2 ⟨(hc.keep b hk).1, hc.nodup⟩
  cases objdestroy with
  | false =>
    obtain ⟨s', hrun⟩ := destroy_plain hc ho hm
    exact iff_of_true ⟨_, hrun, .refl _, hnd, howned⟩ fun h => nomatch h
  | true =>
    rw [callable_iff hc hl hm]
    by_cases hlast : ∀ j ∈ (usedFrom hdr 0 s.objsperchunk).dropLast, s.lastused ≠ some j
    · by_cases hidle : ∀ b ∈ l, ∀ hdr, s.mem b = some hdr → hdr.nfree = s.objsperchunk
      · obtain ⟨s', hrun⟩ := destroy_idle hc ho hm hlast hidle
        by_cases hkept : s.keep = none ∨ ¬ Unmaps s (usedFrom hdr 0 s.objsperchunk)
        · have hlog : (if Unmaps s (usedFrom hdr 0 s.objsperchunk) then s.keep.toList else []) =
              [] := by
            rcases hkept with hk | hno
            · rw [hk]
              exact ite_self []
            · exact if_neg hno
          rw [hlog, List.append_nil] at hrun
          exact iff_of_true ⟨_, hrun, perm_live hl hm ((first_iff_idle hc hl).2 hidle), hnd, howned⟩
            fun _ => ⟨hidle, hlast, hkept⟩
        · -- the kept chunk is unmapped twice
          refine iff_of_false ?_ fun h => hkept (h rfl).2.2
          obtain ⟨hk, hun⟩ := not_or.1 hkept
          obtain ⟨b, hb⟩ := Option.ne_none_iff_exists'.1 hk
          rw [if_pos (not_not.1 hun), hb] at hrun
          rintro ⟨d, hd, -, htwice, -⟩
          cases hrun.symm.trans hd
          exact (List.nodup_cons.1 htwice).1 List.mem_cons_self
      · rw [Destroyed, destroy_busy hc ho hm hlast hidle]
        exact iff_of_false (fun ⟨_, h, _⟩ => nomatch h) fun h => hidle (h rfl).1
    · refine iff_of_false ?_ fun h => hlast (h rfl).2.1
      have ⟨j, hj⟩ := not_forall.1 hlast
      obtain ⟨hmem, hlu⟩ := Classical.not_imp.1 hj
      rw [Destroyed, destroy_leaves hc ho hm hmem (not_not.1 hlu)]
      exact fun ⟨_, h, _⟩ => nomatch h

/-- A pool without one, because it was never used or because all chunks were released. -/
theorem destroyed_of_empty {live : List (Addr × ℕ)} {objdestroy : Bool} (hc : Core s [])
    (hl : LiveOk s [] live) (hkeep : s.first = s.keep) :
    Destroyed s live objdestroy ↔ s.first = none := by
  have hnobj : s.nobj = 0 := by rw [hc.nobj, List.length_nil, Nat.zero_mul]
  cases hf : s.first with
  | none =>
    have hk : s.keep = none := hkeep.symm.trans hf
    have hlive : live = [] := List.eq_nil_iff_forall_not_mem.2 fun ⟨b, j⟩ hx =>
      List.not_mem_nil ((hl.iff b j).1 hx).2.1
    refine iff_of_true ⟨_, by rw [Pool.destroy, hf]; rfl, ?_, ?_, fun a => ?_⟩ rfl
    · rw [hlive, ite_self]
    · rw [hk]
      exact List.nodup_nil
    · rw [hk]
      refine iff_of_false List.not_mem_nil ?_
      rintro (⟨n, hn, -⟩ | h)
      · rw [hnobj] at hn
        exact Nat.not_lt_zero _ hn
      · cases h
  | some a =>
    have hgone : unmapKeep s a = none :=
      (unmapKeep_eq_none s a).2 (.inr (Option.mem_toList.2 (hkeep.symm.trans hf)))
    refine iff_of_false ?_ (Option.some_ne_none a)
    rw [Destroyed, Pool.destroy, hf, destroyChunks]
    dsimp only
    rw [hgone, Option.bind_none]
    exact fun ⟨_, h, _⟩ => nomatch h

/-! ## Runs -/

/-- When all chunks are released, the first one is kept, and `first` still names it. -/
theorem release_keep : ∀ (fuel : ℕ) {s s' : Pool} {cs : List Addr} {p : Option Addr} {n : ℕ},
    Core s cs → release fuel s s.last = some (s', p, n) →
      s'.first = s.first ∧ (s'.last = none → cs ≠ [] → s'.keep = cs.head?)
  | 0, _, _, _, _, _, _, h => by cases h
  | fuel + 1, s, s', cs, p, n, hc, h => by
      rcases List.eq_nil_or_concat' cs with rfl | ⟨cs, a, rfl⟩
      · have hl : s.last = none := hc.last
        rw [hl] at h
        cases h
        exact ⟨rfl, fun _ hne => absurd rfl hne⟩
      · have hl : s.last = some a := by rw [hc.last]; simp
        obtain ⟨hdr, hm, -⟩ := hc.chunks cs.length a (by simp)
        rw [hl] at h
        by_cases hfree : hdr.nfree = s.objsperchunk
        · obtain ⟨s1, hd, hrun⟩ := dropped_release hc hm hfree fuel
          rw [hrun] at h
          obtain ⟨⟨s2, p2, n2⟩, hrest, h⟩ := Option.map_eq_some_iff.1 h
          cases h
          have hcore := hd.core hc hm hfree
          obtain ⟨hfirst, hkeep⟩ := release_keep fuel hcore hrest
          refine ⟨hfirst.trans hd.first, fun hlast _ => ?_⟩
          cases cs with
          | nil =>
            have hnone : s1.last = none := hcore.last
            cases fuel with
            | zero => cases hrest
            | succ fuel =>
              rw [hnone] at hrest
              cases hrest
              exact hd.keep
          | cons c cs => exact hkeep hlast (List.cons_ne_nil c cs)
        · rw [release, hm, Option.bind_some, if_neg hfree] at h
          cases h
          exact ⟨rfl, fun hlast => absurd (hl.symm.trans hlast) (Option.some_ne_none a)⟩

/-- An object in use is freed, and no chunk is left. -/
theorem free_drained (hc : Core s cs) (huse : InUse s cs a k) {found : Option ℕ}
    (hok : ∀ hdr, s.mem a = some hdr → s.lastused = some (hdr.slot k).id →
      hdr.nfree + 1 = s.objsperchunk → s.last = some a)
    (hrun : s.free (a, k) found = some s') (hlast : s'.last = none) : s'.first = s'.keep := by
  have hsame := same_dropKeep hc
  have hne : cs ≠ [] := List.ne_nil_of_mem huse.2.1
  obtain ⟨hdr, i, hp, hm, hcore, -⟩ := hc.freeing huse
  rw [free_eq hp.mem hp.walk] at hrun
  have hself : (freed (dropKeep s) a hdr k).mem a = some (hdr.give k) := Function.update_self ..
  have hsome : (freed (dropKeep s) a hdr k).last ≠ none := by
    rw [hcore.last]
    exact fun h => hne (List.getLast?_eq_none_iff.1 h)
  dsimp only at hrun
  split_ifs at hrun with hlu
  · cases hrun
    exact absurd hlast hsome
  · obtain ⟨⟨s2, p, n⟩, hrel, hrun⟩ := Option.bind_eq_some_iff.1 hrun
    -- what follows the loop leaves the links alone
    have hends : s'.first = s2.first ∧ s'.last = s2.last ∧ s'.keep = s2.keep := by
      dsimp only at hrun
      split_ifs at hrun
      · cases hrun
        exact ⟨rfl, rfl, rfl⟩
      · cases hrun
        exact ⟨rfl, rfl, rfl⟩
      · obtain ⟨hdr', -, hrun⟩ := Option.bind_eq_some_iff.1 hrun
        cases hrun
        exact ⟨rfl, rfl, rfl⟩
    obtain ⟨hfirst', hlast', hkeep'⟩ := hends
    rw [hlast'] at hlast
    by_cases hfull : (hdr.give k).nfree = (freed (dropKeep s) a hdr k).objsperchunk
    · have hla : (freed (dropKeep s) a hdr k).last = some a :=
        hsame.last.trans (hok hdr hm (hsame.lastused.symm.trans (not_not.1 hlu))
          (hfull.trans hsame.objsperchunk))
      rw [← hla] at hrel
      obtain ⟨hfirst, hkeep⟩ := release_keep _ hcore hrel
      rw [hfirst', hkeep', hfirst, hcore.first hne, hkeep hlast hne]
    · rw [release, hself, Option.bind_some, if_neg hfull] at hrel
      cases hrel
      exact absurd hlast hsome

/-- When no chunk is left, `first` names the kept one. -/
def Drained : State → Prop
  | .run s _ => s.last = none → s.first = s.keep
  | .fault => True

theorem drained_step {n : ℕ} (hn : 0 < n) (st : State) (act : Action) (st' : State)
    (hinv : Inv n st) (hok : act.Ok st) (hstep : step st act = some st') : Drained st' := by
  have hinv' := inv_step hn st act st' hinv hok hstep
  cases st with
  | fault => exact hinv.elim
  | run s live =>
    cases act with
    | alloc addr =>
      simp only [step] at hstep
      split_ifs at hstep with haddr
      cases hrun : s.alloc addr with
      | none =>
        rw [hrun] at hstep
        cases hstep
        trivial
      | some r =>
        rw [hrun] at hstep
        cases hstep
        obtain ⟨-, cs, hc, -, hl⟩ := hinv'
        -- the object that was handed out is in a chunk
        have hmem : r.2.1 ∈ cs := ((hl.iff r.2.1 r.2.2).1 List.mem_cons_self).2.1
        intro hlast
        rw [hc.last, List.getLast?_eq_none_iff] at hlast
        exact absurd hlast (List.ne_nil_of_mem hmem)
    | free obj found =>
      obtain ⟨-, cs, hc, -, hl⟩ := hinv
      simp only [step] at hstep
      split_ifs at hstep with hlive
      cases hrun : s.free obj found with
      | none =>
        rw [hrun] at hstep
        cases hstep
        trivial
      | some s' =>
        rw [hrun] at hstep
        cases hstep
        exact free_drained hc ((hl.iff obj.1 obj.2).1 hlive) hok hrun

theorem inv_of_run {objsperchunk : ℕ} (hn : 0 < objsperchunk) {st : State}
    (hrun : (machine objsperchunk).Run (fun st act => act.Ok st) st) :
    Inv objsperchunk st ∧ Drained st := by
  refine hrun.invariant (I := fun st => Inv objsperchunk st ∧ Drained st) ?_
    fun st act st' hi hok hs =>
      ⟨inv_step hn st act st' hi.1 hok hs, drained_step hn st act st' hi.1 hok hs⟩
  rintro _ rfl
  exact ⟨inv_create objsperchunk, fun _ => rfl⟩

/-- After a run in which no chunk but the last one is released, and this only together with all others,
and in which `firstfree` is never used where it names no slot of the pool. -/
theorem destroyed_iff {objsperchunk : ℕ} (hn : 0 < objsperchunk) {s : Pool}
    {live : List (Addr × ℕ)}
    (hrun : (machine objsperchunk).Run (fun st act => act.Ok st ∧ act.Drains st) (.run s live))
    (objdestroy : Bool) : Destroyed s live objdestroy ↔
      (s.first ≠ none → s.last ≠ none) ∧ (objdestroy = true → Callable s live) := by
  obtain ⟨⟨rfl, cs, hc, -, hl⟩, hdrained⟩ := inv_of_run hn (hrun.mono fun _ _ hok => hok.1)
  cases cs with
  | nil =>
    have hlast : s.last = none := hc.last
    have hkeep : s.first = s.keep := hdrained hlast
    have hno : ∀ x, x ∉ live := fun ⟨b, j⟩ hx => List.not_mem_nil ((hl.iff b j).1 hx).2.1
    rw [destroyed_of_empty hc hl hkeep]
    constructor
    · intro hf
      refine ⟨fun hne => absurd hf hne, fun _ => ⟨fun x hx => absurd hx (hno x),
        fun x hx => absurd hx (hno x), fun hk => absurd (hkeep.symm.trans hf) hk⟩⟩
    · intro h
      by_contra hf
      exact h.1 hf hlast
  | cons c l =>
    rw [destroyed_of_chunk hc hl hn]
    have hlast : s.last ≠ none := by
      rw [hc.last]
      simp
    exact (and_iff_right fun _ => hlast).symm

theorem tests_sound {st : State} {act : Action} (h : (act.test st && act.drainTest st) = true) :
    act.Ok st ∧ act.Drains st := by
  obtain ⟨htest, hdrain⟩ := Bool.and_eq_true_iff.1 h
  exact ⟨test_sound htest, drainTest_sound hdrain⟩

/-- Two objects are live in the first chunk, and the second one has none. -/
theorem destroyed_iff_two : ∃ s live, Destroyed s live true ∧ live = [(10, 1), (10, 0)] ∧
    s.last = some 20 := by
  have hrun : ((machine 2).execOk (fun st act => act.test st && act.drainTest st)
      [.alloc 10, .alloc 20, .alloc 20, .free (20, 0) none] (.run (.create 2) [])).any
      (State.running fun s live =>
        decide (live = [(10, 1), (10, 0)] ∧ s.first = some 10 ∧ s.last = some 20 ∧
          s.keep = none ∧ s.lastused = some 1)) = true := by decide +kernel
  obtain ⟨s, live, hst, hlive⟩ :=
    exists_running (Machine.exists_run rfl (fun _ _ => tests_sound) hrun)
  obtain ⟨rfl, hfirst, hlast, hkeep, hused⟩ := of_decide_eq_true hlive
  refine ⟨s, _, (destroyed_iff (by decide) hst true).2
    ⟨fun _ h => absurd (hlast.symm.trans h) nofun, fun _ => ⟨?_, ?_, fun h => absurd hkeep h⟩⟩,
    rfl, hlast⟩
  · rw [hfirst]
    decide
  · rw [hused]
    decide

/-- A run to a pool that is not destroyed as it should be. -/
theorem exists_not_destroyed {p : Pool → List (Addr × ℕ) → Prop}
    [∀ s live, Decidable (p s live)] {objdestroy : Bool} (acts : List Action)
    (hrun : ((machine 2).exec acts (.run (.create 2) [])).any (State.running fun s live =>
      decide (p s live) &&
        (s.destroy objdestroy).all fun d : Destroying => ! decide d.unmapped.Nodup) = true) :
    ∃ s live, (machine 2).Reachable (.run s live) ∧ p s live ∧ ¬ Destroyed s live objdestroy := by
  obtain ⟨s, live, hst, hbad⟩ := exists_running (Machine.exists_reachable rfl hrun)
  obtain ⟨hp, hbad⟩ := Bool.and_eq_true_iff.1 hbad
  refine ⟨s, live, hst, of_decide_eq_true hp, ?_⟩
  rintro ⟨d, hd, -, hnd, -⟩
  have htwice := (Option.all_eq_true _ _).1 hbad d hd
  rw [decide_eq_true hnd] at htwice
  cases htwice

/-- All objects were freed; the second of two chunks has a live object. -/
theorem destroy_fails :
    (∃ s live, (machine 2).Reachable (.run s live) ∧ live = [] ∧ ¬ Destroyed s live false) ∧
      ∃ s live, (machine 2).Reachable (.run s live) ∧ live = [(20, 0), (10, 1), (10, 0)] ∧
        ¬ Destroyed s live true := by
  constructor
  · exact exists_not_destroyed [.alloc 10, .alloc 20, .free (10, 1) none, .free (10, 0) none]
      (by decide +kernel)
  · exact exists_not_destroyed [.alloc 10, .alloc 20, .alloc 20] (by decide +kernel)

end PoserCore.ObjectPool
