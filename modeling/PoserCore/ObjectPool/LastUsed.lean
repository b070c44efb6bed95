import PoserCore.ObjectPool.Safety

/-!
# The last object in use

A new chunk does not change `lastused`, so the objects behind the one it names can only be the first
of their chunks (`LastOk`).  This is enough for the search in `PoolObj_free`: where it is made in the
chunk of the object, the chunk has another object in use before it.  Where the chunk has none left,
all chunks go if no other object is live (`release_all`).
-/

namespace PoserCore.ObjectPool

variable {s s' : Pool} {cs : List Addr} {a : Addr} {hdr : Hdr} {k : ℕ}

structure LastOk (s : Pool) (cs : List Addr) : Prop where
  used : ∀ n, s.lastused = some n → UsedAt s cs n
  above : ∀ p, UsedAt s cs p → (∀ n, s.lastused = some n → n < p) → p % s.objsperchunk = 0

/-- While `firstfree` names an object, there is one. -/
def FreeOk (s : Pool) : Prop := ∀ n, s.firstfree = some n → s.nfree ≠ 0

theorem firstfree_lt (hc : Core s cs) (hf : FirstOk s cs) (hfree : FreeOk s) {n : ℕ}
    (hn : s.firstfree = some n) : n < s.nobj := by
  obtain ⟨i, b, bhdr, hi, hm, hne⟩ := hc.exists_free (hfree n hn)
  have hok := hc.chunkOk hi hm
  obtain ⟨t, ht, hu⟩ := exists_unused hok hne
  have hlt : i * s.objsperchunk + t < s.nobj := by
    have hi' := Nat.mul_le_mul_right s.objsperchunk (List.getElem?_eq_some_iff.1 hi).1
    rw [hc.nobj]
    rw [Nat.succ_mul] at hi'
    omega
  by_contra hge
  -- otherwise all objects would be in use
  have hused := hf.below _ hlt fun n' hn' => by
    rw [hn, Option.some_inj] at hn'
    omega
  rw [usedAt_iff ht hi hm, hu] at hused
  cases hused

theorem LastOk.congr (h : LastOk s cs) (ho : s'.objsperchunk = s.objsperchunk)
    (hl : s'.lastused = s.lastused) (hu : ∀ n, UsedAt s' cs n ↔ UsedAt s cs n) : LastOk s' cs := by
  refine ⟨fun n hn => (hu n).2 (h.used n (hl ▸ hn)), fun p hp hlt => ?_⟩
  rw [ho]
  exact h.above p ((hu p).1 hp) fun n hn => hlt n (hl.trans hn)

/-! ## `ObjectPool_alloc` -/

/-- The object that is taken is the last one in use, or one before that. -/
theorem lastOk_taken (hc : Core s cs) (hl : LastOk s cs) {i : ℕ} (hi : cs[i]? = some a)
    (hm : s.mem a = some hdr) (hk : k < s.objsperchunk) :
    LastOk (taken s a hdr k (i * s.objsperchunk + k)) cs := by
  have hused := usedAt_taken hc hi hm hk
  generalize hn : i * s.objsperchunk + k = n at hused
  have hlast : (taken s a hdr k n).lastused =
    if s.lastused.all (· < n) then some n else s.lastused := rfl
  refine ⟨fun m hm' => (hused m).2 ?_, fun p hp hlt => ?_⟩
  · rw [hlast] at hm'
    split_ifs at hm' with hall
    · exact .inl (Option.some_inj.1 hm').symm
    · exact .inr (hl.used m hm')
  · rw [hlast] at hlt
    split_ifs at hlt with hall
    · have hnp := hlt n rfl
      refine hl.above p (((hused p).1 hp).resolve_left (Nat.ne_of_gt hnp)) fun m hm' => ?_
      rw [hm', Option.all_some, decide_eq_true_eq] at hall
      omega
    · refine hl.above p (((hused p).1 hp).resolve_left ?_) hlt
      rintro rfl
      exact hall ((Option.all_eq_true _ _).2 fun m hm' => decide_eq_true (hlt m hm'))

theorem Snoc.usedAt (hs : Snoc s s' cs a hdr) (hc : Core s cs) (ho : 0 < s.objsperchunk) (p : ℕ) :
    UsedAt s' (cs ++ [a]) p ↔ p = s.nobj ∨ UsedAt s cs p := by
  have hlast : (cs ++ [a])[cs.length]? = some a := by simp
  have hnobj : UsedAt s' (cs ++ [a]) s.nobj := by
    have ho' : 0 < s'.objsperchunk := hs.objsperchunk ▸ ho
    have h := usedAt_iff ho' hlast hs.new
    rw [hs.objsperchunk, Nat.add_zero, ← hc.nobj] at h
    exact h.2 ((hs.slot 0 ho).2 rfl)
  constructor
  · rintro ⟨b, bhdr', hb, hm', hu⟩
    rw [hs.objsperchunk] at hb hu
    rcases Nat.lt_or_ge (p / s.objsperchunk) cs.length with hlt | hge
    · rw [List.getElem?_append_left hlt] at hb
      obtain ⟨bhdr, hmb, -⟩ := hc.chunks _ b hb
      obtain ⟨bhdr2, hm2, hslot, -⟩ := hs.old _ b bhdr hb hmb
      cases hm2.symm.trans hm'
      exact .inr ⟨b, bhdr, hb, hmb, hslot ▸ hu⟩
    · have hdiv : p / s.objsperchunk = cs.length := by
        have := (List.getElem?_eq_some_iff.1 hb).1
        rw [List.length_append, List.length_singleton] at this
        omega
      rw [hdiv, hlast, Option.some_inj] at hb
      subst hb
      cases hs.new.symm.trans hm'
      have hmod := (hs.slot _ (Nat.mod_lt p ho)).1 hu
      have hp := Nat.div_add_mod' p s.objsperchunk
      rw [hdiv, hmod, Nat.add_zero] at hp
      exact .inl (hp.symm.trans hc.nobj.symm)
  · rintro (rfl | ⟨b, bhdr, hb, hm, hu⟩)
    · exact hnobj
    · obtain ⟨bhdr', hm', hslot, -⟩ := hs.old _ b bhdr hb hm
      refine ⟨b, bhdr', ?_, hm', ?_⟩
      · rw [hs.objsperchunk]
        exact getElem?_snoc hb
      · rw [hs.objsperchunk, hslot]
        exact hu

/-- The object of a new chunk is its first one. -/
theorem Snoc.lastOk (hs : Snoc s s' cs a hdr) (hc : Core s cs) (ho : 0 < s.objsperchunk)
    (hl : LastOk s cs) (hlast : s'.lastused = s.lastused) : LastOk s' (cs ++ [a]) := by
  refine ⟨fun n hn => (hs.usedAt hc ho n).2 (.inr (hl.used n (hlast ▸ hn))), fun p hp hlt => ?_⟩
  rw [hs.objsperchunk]
  rcases (hs.usedAt hc ho p).1 hp with rfl | hp
  · rw [hc.nobj, Nat.mul_mod_left]
  · exact hl.above p hp fun n hn => hlt n (hlast.trans hn)

theorem lastused_allocChunk {addr : Addr} {k : ℕ} (h : allocChunk s addr = some (s', a, k)) :
    s'.lastused = s.lastused := by
  simp only [allocChunk, Option.bind_eq_bind] at h
  obtain ⟨hdr, -, h⟩ := Option.bind_eq_some_iff.1 h
  cases hl : s.last with
  | none =>
    rw [hl] at h
    cases h
    rfl
  | some l =>
    rw [hl] at h
    obtain ⟨lhdr, -, h⟩ := Option.bind_eq_some_iff.1 h
    cases h
    rfl

/-! ## `PoolObj_free` -/

/-- Another object than the last one is freed. -/
theorem lastOk_freed (hc : Core s cs) (hl : LastOk s cs) {i : ℕ} (hi : cs[i]? = some a)
    (hm : s.mem a = some hdr) (hk : k < s.objsperchunk)
    (hne : s.lastused ≠ some (i * s.objsperchunk + k)) : LastOk (freed s a hdr k) cs := by
  have hused := usedAt_freed hc hi hm hk
  refine ⟨fun n hn => (hused n).2 ⟨?_, hl.used n hn⟩, fun p hp hlt => ?_⟩
  · rintro rfl
    exact hne hn
  · exact hl.above p ((hused p).1 hp).2 hlt

/-- The search in a chunk ends at the next object in use. -/
theorem scanDown_spec {n : ℕ} (h : ∃ j ≤ k, (hdr.slot j).used = true) :
    ∃ j ≤ k, scanDown hdr k (n + k) = some (n + j) ∧ (hdr.slot j).used = true ∧
      ∀ t, j < t → t ≤ k → (hdr.slot t).used = false := by
  induction k with
  | zero =>
    obtain ⟨j, hj, hu⟩ := h
    obtain rfl := Nat.le_zero.1 hj
    refine ⟨0, le_rfl, ?_, hu, fun t hjt ht => absurd hjt (Nat.not_lt.2 ht)⟩
    rw [scanDown, if_pos hu]
  | succ k ih =>
    rw [scanDown]
    by_cases hk : (hdr.slot (k + 1)).used = true
    · refine ⟨k + 1, le_rfl, by rw [if_pos hk], hk, fun t hjt ht => ?_⟩
      exact absurd hjt (Nat.not_lt.2 ht)
    · obtain ⟨j, hj, hu⟩ := h
      have hjk : j ≤ k := by
        rcases Nat.eq_or_lt_of_le hj with rfl | hlt
        · exact absurd hu hk
        · exact Nat.le_of_lt_succ hlt
      obtain ⟨j, hj, hscan, hu, hbelow⟩ := ih ⟨j, hjk, hu⟩
      refine ⟨j, Nat.le_succ_of_le hj, ?_, hu, fun t hjt ht => ?_⟩
      · rw [if_neg hk]
        exact hscan
      · rcases Nat.eq_or_lt_of_le ht with rfl | hlt
        · simpa using hk
        · exact hbelow t hjt (Nat.le_of_lt_succ hlt)

/-- The last object is freed, and its chunk has another one. -/
theorem exists_before (hc : Core s cs) (hl : LastOk s cs) {i : ℕ} (hi : cs[i]? = some a)
    (hm : s.mem a = some hdr) (hk : k < s.objsperchunk)
    (hlast : s.lastused = some (i * s.objsperchunk + k))
    (hne : hdr.nfree + 1 ≠ s.objsperchunk) : ∃ j ≤ k, ((hdr.give k).slot j).used = true := by
  have hok := hc.chunkOk hi hm
  by_contra hno
  have hno (j : ℕ) (hj : j ≤ k) (hjk : j ≠ k) : (hdr.slot j).used = false := by
    have := not_exists.1 hno j
    simp only [Hdr.give, Function.update_of_ne hjk, not_and, Bool.not_eq_true] at this
    exact this hj
  -- the slots behind are free as well
  have hafter (t : ℕ) (hkt : k < t) (ht : t < s.objsperchunk) : (hdr.slot t).used = false := by
    by_contra hu
    rw [Bool.not_eq_false, ← usedAt_iff ht hi hm] at hu
    have hmod := hl.above _ hu fun n hn => by
      rw [hlast, Option.some_inj] at hn
      omega
    rw [(div_mod_index ht).2] at hmod
    omega
  have hunused : unused s.objsperchunk hdr = (Finset.range s.objsperchunk).erase k := by
    have hkused : (hdr.slot k).used = true := (usedAt_iff hk hi hm).1 (hl.used _ hlast)
    ext t
    rw [mem_unused, Finset.mem_erase, Finset.mem_range]
    constructor
    · rintro ⟨ht, hu⟩
      refine ⟨?_, ht⟩
      rintro rfl
      rw [hkused] at hu
      cases hu
    · rintro ⟨htk, ht⟩
      refine ⟨ht, ?_⟩
      rcases Nat.lt_or_gt_of_ne htk with hlt | hgt
      · exact hno t hlt.le htk
      · exact hafter t hgt ht
  rw [hok.nfree, hunused, Finset.card_erase_of_mem (Finset.mem_range.2 hk), Finset.card_range] at hne
  omega

/-- The object found is the last one. -/
theorem lastOk_found (hc : Core s cs) (hl : LastOk s cs) {i j : ℕ} (hi : cs[i]? = some a)
    (hm : s.mem a = some hdr) (hk : k < s.objsperchunk)
    (hlast : s.lastused = some (i * s.objsperchunk + k)) (hj : j ≤ k)
    (hu : ((hdr.give k).slot j).used = true)
    (hbetween : ∀ t, j < t → t ≤ k → ((hdr.give k).slot t).used = false) :
    LastOk { freed s a hdr k with lastused := some (i * s.objsperchunk + j) } cs := by
  have hused := usedAt_freed hc hi hm hk
  have hself : (freed s a hdr k).mem a = some (hdr.give k) := Function.update_self ..
  have hslot {t : ℕ} (ht : t < s.objsperchunk) :
      UsedAt (freed s a hdr k) cs (i * s.objsperchunk + t) ↔ ((hdr.give k).slot t).used = true :=
    @usedAt_iff (freed s a hdr k) cs i t ht a _ hi hself
  constructor
  · rintro _ ⟨⟩
    exact (hslot (hj.trans_lt hk)).2 hu
  · intro p hp hlt
    have hp : UsedAt (freed s a hdr k) cs p := hp
    have hjp : i * s.objsperchunk + j < p := hlt _ rfl
    refine hl.above p ((hused p).1 hp).2 fun n hn => ?_
    rw [hlast, Option.some_inj] at hn
    subst hn
    by_contra hge
    obtain ⟨t, rfl⟩ : ∃ t, p = i * s.objsperchunk + t := ⟨p - i * s.objsperchunk, by omega⟩
    have hfree := hbetween t (by omega) (by omega)
    rw [(hslot (by omega)).1 hp] at hfree
    cases hfree

/-! ## No object is left -/

theorem nfree_le_card {i : ℕ} (hok : ChunkOk s.objsperchunk cs i hdr) :
    hdr.nfree ≤ s.objsperchunk := by
  have h := Finset.card_filter_le (Finset.range s.objsperchunk) fun j => (hdr.slot j).used = false
  rw [Finset.card_range] at h
  rw [hok.nfree]
  exact h

/-- When the counter says that all objects are free, they are free in every chunk. -/
theorem Core.all_free (hc : Core s cs) (hz : s.nfree = s.nobj) {i : ℕ} (hi : cs[i]? = some a)
    (hm : s.mem a = some hdr) : hdr.nfree = s.objsperchunk := by
  have hle : ∀ x ∈ cs.map (freeIn s.mem), x ≤ s.objsperchunk := by
    intro x hx
    obtain ⟨b, hb, rfl⟩ := List.mem_map.1 hx
    obtain ⟨j, bhdr, hj, hmb, hok⟩ := hc.chunk_of_mem hb
    rw [freeIn, hmb]
    exact nfree_le_card hok
  have hself : freeIn s.mem a = hdr.nfree := by rw [freeIn, hm]; rfl
  have hsum := hc.nfree.symm.trans (hz.trans hc.nobj)
  obtain ⟨l, l', rfl⟩ := List.append_of_mem (List.mem_of_getElem? hi)
  have hl : (l.map (freeIn s.mem)).sum ≤ _ := List.sum_le_card_nsmul _ s.objsperchunk fun x hx =>
    hle x (List.map_append ▸ List.mem_append_left _ hx)
  have hl' : (l'.map (freeIn s.mem)).sum ≤ _ := List.sum_le_card_nsmul _ s.objsperchunk fun x hx =>
    hle x (List.map_append ▸ List.mem_append_right _ (List.mem_cons_of_mem _ hx))
  have ha := hle (freeIn s.mem a) (List.mem_map_of_mem (List.mem_of_getElem? hi))
  simp only [List.map_append, List.map_cons, List.sum_append, List.sum_cons, List.length_append,
    List.length_cons, List.length_map, Nat.nsmul_eq_mul, Nat.add_mul, Nat.succ_mul, hself] at hsum hl hl' ha
  omega

/-- Then all chunks are released. -/
theorem release_all : ∀ (fuel : ℕ) {s : Pool} {cs : List Addr}, cs.length < fuel → Core s cs →
    s.nfree = s.nobj → ∃ s', release fuel s s.last = some (s', none, cs.length) ∧
      s'.objsperchunk = s.objsperchunk ∧ Core s' []
  | 0, _, _, hlen, _, _ => absurd hlen (Nat.not_lt_zero _)
  | fuel + 1, s, cs, hlen, hc, hz => by
      rcases List.eq_nil_or_concat' cs with rfl | ⟨cs, a, rfl⟩
      · have hl : s.last = none := hc.last
        exact ⟨s, by rw [hl, release]; rfl, rfl, hc⟩
      · have hl : s.last = some a := by rw [hc.last]; simp
        have hi : (cs ++ [a])[cs.length]? = some a := by simp
        obtain ⟨hdr, hm, -⟩ := hc.chunks cs.length a hi
        have hfree := hc.all_free hz hi hm
        obtain ⟨s1, hd, hrun⟩ := dropped_release hc hm hfree fuel
        have hz1 : s1.nfree = s1.nobj := by rw [hd.nfree, hd.nobj, hz]
        rw [List.length_append, List.length_singleton] at hlen
        obtain ⟨s2, hrun2, ho2, hcore2⟩ :=
          release_all fuel (Nat.lt_of_succ_lt_succ hlen) (hd.core hc hm hfree) hz1
        refine ⟨s2, ?_, ho2.trans hd.objsperchunk, hcore2⟩
        rw [hl, hrun, hrun2, List.length_append, List.length_singleton]
        rfl

end PoserCore.ObjectPool
