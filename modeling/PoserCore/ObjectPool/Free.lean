import PoserCore.ObjectPool.Alloc

/-!
# `PoolObj_free`

`free` keeps the representation and takes one object out of use (`free_spec`), unless it releases a
chunk that is not the last one.
-/

namespace PoserCore.ObjectPool

variable {s s' : Pool} {cs : List Addr} {a : Addr} {hdr : Hdr} {k : ℕ}

/-! ## The kept chunk -/

theorem mem_unmapKeep_of {b : Addr} (hb : s.keep ≠ some b) : unmapKeep s b = s.mem b := by
  rw [unmapKeep]
  cases hk : s.keep with
  | none => rfl
  | some c =>
    have hbc : b ≠ c := fun h => hb (h ▸ hk)
    exact Function.update_of_ne hbc ..

theorem mem_unmapKeep (hc : Core s cs) {b : Addr} (hb : b ∈ cs) : unmapKeep s b = s.mem b :=
  mem_unmapKeep_of fun h => (hc.keep b h).1 hb

/-- The pool `s'` has the same chunks with the same contents. -/
structure Same (s s' : Pool) (cs : List Addr) : Prop where
  objsperchunk : s'.objsperchunk = s.objsperchunk
  nobj : s'.nobj = s.nobj
  nfree : s'.nfree = s.nfree
  firstfree : s'.firstfree = s.firstfree
  lastused : s'.lastused = s.lastused
  first : s'.first = s.first
  last : s'.last = s.last
  mem : ∀ b ∈ cs, s'.mem b = s.mem b

theorem same_dropKeep_of (hk : ∀ b ∈ cs, s.keep ≠ some b) : Same s (dropKeep s) cs := by
  rw [dropKeep]
  split_ifs
  · exact ⟨rfl, rfl, rfl, rfl, rfl, rfl, rfl, fun b hb => mem_unmapKeep_of (hk b hb)⟩
  · exact ⟨rfl, rfl, rfl, rfl, rfl, rfl, rfl, fun _ _ => rfl⟩
  · exact ⟨rfl, rfl, rfl, rfl, rfl, rfl, rfl, fun _ _ => rfl⟩

theorem same_dropKeep (hc : Core s cs) : Same s (dropKeep s) cs :=
  same_dropKeep_of fun b hb h => (hc.keep b h).1 hb

theorem core_dropKeep (hc : Core s cs) : Core (dropKeep s) cs := by
  rw [dropKeep]
  split_ifs
  · refine ⟨hc.nodup, hc.first, hc.last, fun i b hi => ?_, hc.nobj, ?_, fun b hb => by cases hb⟩
    · simp only [mem_unmapKeep hc (List.mem_of_getElem? hi)]
      exact hc.chunks i b hi
    · have hmap : cs.map (freeIn (unmapKeep s)) = cs.map (freeIn s.mem) :=
        List.map_congr_left fun b hb => by rw [freeIn, freeIn, mem_unmapKeep hc hb]
      simp only [hmap]
      exact hc.nfree
  · exact hc.withCount _
  · exact hc

theorem Same.inUse (hs : Same s s' cs) (b : Addr) (j : ℕ) : InUse s' cs b j ↔ InUse s cs b j := by
  rw [InUse, InUse, hs.objsperchunk]
  refine and_congr_right fun _ => and_congr_right fun hb => ?_
  rw [hs.mem b hb]

theorem Same.usedAt (hs : Same s s' cs) (n : ℕ) : UsedAt s' cs n ↔ UsedAt s cs n := by
  rw [UsedAt, UsedAt, hs.objsperchunk]
  refine exists_congr fun b => exists_congr fun bhdr => and_congr_right fun hb => ?_
  rw [hs.mem b (List.mem_of_getElem? hb)]

theorem Same.firstOk (hs : Same s s' cs) (hf : FirstOk s cs) : FirstOk s' cs := by
  refine ⟨fun m hm hlt => ?_, fun n hn hlt => ?_⟩
  · rw [hs.usedAt]
    exact hf.below m (hs.nobj ▸ hm) (hs.firstfree ▸ hlt)
  · rw [hs.usedAt]
    exact hf.at_ n (hs.firstfree ▸ hn) (hs.nobj ▸ hlt)

/-! ## One object -/

/-- The chunk after the object in slot `k` was freed. -/
def Hdr.give (hdr : Hdr) (k : ℕ) : Hdr :=
  { hdr with slot := Function.update hdr.slot k ⟨(hdr.slot k).id, false⟩, nfree := hdr.nfree + 1 }

/-- The pool after that, before chunks are released. -/
def freed (s : Pool) (a : Addr) (hdr : Hdr) (k : ℕ) : Pool :=
  { s with
    mem := Function.update s.mem a (some (hdr.give k))
    firstfree := if s.firstfree.all ((hdr.slot k).id < ·) then some (hdr.slot k).id else s.firstfree
    nfree := s.nfree + 1 }

theorem core_freed (hc : Core s cs) {i : ℕ} (hi : cs[i]? = some a) (hm : s.mem a = some hdr)
    (hk : k < s.objsperchunk) (hu : (hdr.slot k).used = true) : Core (freed s a hdr k) cs := by
  have hok := hc.chunkOk hi hm
  have hmem : (freed s a hdr k).mem = Function.update s.mem a (some (hdr.give k)) := rfl
  refine hc.modify hi hm hmem rfl rfl ?_ (fun j hj hu => ?_) rfl rfl rfl rfl rfl ?_
  · have hun : unused s.objsperchunk (hdr.give k) = insert k (unused s.objsperchunk hdr) :=
      unused_free hk rfl
    have hnot : k ∉ unused s.objsperchunk hdr := fun h => by
      rw [(mem_unused.1 h).2] at hu
      cases hu
    rw [hun, Finset.card_insert_of_notMem hnot, ← hok.nfree]
    rfl
  · by_cases hjk : j = k
    · subst hjk
      simp [Hdr.give] at hu
    · simp only [Hdr.give, Function.update_of_ne hjk] at hu ⊢
      exact hok.ids j hj hu
  · simp only [freed, Hdr.give]
    omega

theorem inUse_freed {i : ℕ} (hi : cs[i]? = some a) (hm : s.mem a = some hdr)
    (hk : k < s.objsperchunk) (b : Addr) (j : ℕ) :
    InUse (freed s a hdr k) cs b j ↔ InUse s cs b j ∧ (b, j) ≠ (a, k) := by
  have hmem : (freed s a hdr k).mem = Function.update s.mem a (some (hdr.give k)) := rfl
  rw [inUse_modify hk hi hm hmem rfl rfl b j]
  split_ifs with h <;> simp [h]

theorem usedAt_freed (hc : Core s cs) {i : ℕ} (hi : cs[i]? = some a) (hm : s.mem a = some hdr)
    (hk : k < s.objsperchunk) (m : ℕ) : UsedAt (freed s a hdr k) cs m ↔
      m ≠ i * s.objsperchunk + k ∧ UsedAt s cs m := by
  have hmem : (freed s a hdr k).mem = Function.update s.mem a (some (hdr.give k)) := rfl
  rw [usedAt_modify hc hk hi hm hmem rfl rfl m]
  split_ifs with h <;> simp [h]

theorem firstOk_freed (hc : Core s cs) (hf : FirstOk s cs) {i : ℕ} (hi : cs[i]? = some a)
    (hm : s.mem a = some hdr) (hk : k < s.objsperchunk)
    (hid : (hdr.slot k).id = i * s.objsperchunk + k) : FirstOk (freed s a hdr k) cs := by
  have hused := usedAt_freed hc hi hm hk
  refine ⟨fun m hmn hlt => ?_, fun n hn hlt => ?_⟩
  · rw [hused]
    simp only [freed, hid] at hlt
    split_ifs at hlt with hall
    · have hlt := hlt _ rfl
      refine ⟨Nat.ne_of_lt hlt, hf.below m hmn fun n hn => ?_⟩
      rw [hn, Option.all_some, decide_eq_true_eq] at hall
      exact hlt.trans hall
    · refine ⟨?_, hf.below m hmn hlt⟩
      rintro rfl
      refine hall ((Option.all_eq_true _ _).2 fun n hn => ?_)
      exact decide_eq_true (hlt n hn)
  · rw [hused]
    simp only [freed, hid] at hn
    split_ifs at hn with hall
    · cases hn
      exact fun h => h.1 rfl
    · exact fun h => hf.at_ n hn hlt h.2

/-- The links do not change with the contents. -/
theorem walk_congr {mem mem' : Addr → Option Hdr}
    (h : ∀ b, (mem' b).map Hdr.next = (mem b).map Hdr.next) (p : Option Addr) (n : ℕ) :
    walk mem' p n = walk mem p n := by
  induction n generalizing p with
  | zero => rfl
  | succ n ih =>
    cases p with
    | none => rfl
    | some b =>
      have hb := h b
      rw [walk, walk]
      cases hm : mem b with
      | none =>
        rw [hm, Option.map_none, Option.map_eq_none_iff] at hb
        rw [hb]
        rfl
      | some bhdr =>
        rw [hm, Option.map_some] at hb
        obtain ⟨bhdr', hm', hnext⟩ := Option.map_eq_some_iff.1 hb
        rw [hm', Option.bind_some, Option.bind_some, hnext, ih]

/-- Nor does the way to the chunk. -/
theorem walk_slot {mem : Addr → Option Hdr} {p : Option Addr} {n : ℕ} (hm : mem a = some hdr)
    (hw : walk mem p n = some a) (slot : ℕ → PoolObj) :
    walk (Function.update mem a (some { hdr with slot := slot })) p n = some a := by
  rw [walk_congr (fun b => ?_), hw]
  by_cases hb : b = a
  · subst hb
    rw [Function.update_self, hm]
    rfl
  · rw [Function.update_of_ne hb]

theorem free_eq {found : Option ℕ} (hm : (dropKeep s).mem a = some hdr)
    (hw : walk (dropKeep s).mem (dropKeep s).first
      ((hdr.slot k).id / (dropKeep s).objsperchunk) = some a) :
    s.free (a, k) found =
      let s' := freed (dropKeep s) a hdr k
      if s'.lastused ≠ some (hdr.slot k).id then some s'
      else (release (s'.nobj + 1) s' (some a)).bind fun (s', _, released) =>
        if (hdr.slot k).id / (dropKeep s).objsperchunk < released then
          some { s' with lastused := none, firstfree := none }
        else if 0 < released then some { s' with lastused := found }
        else (s'.mem a).bind fun hdr' =>
          some { s' with lastused := (scanDown hdr' k (hdr.slot k).id).or found } := by
  have hwalk := walk_slot hm hw (Function.update hdr.slot k ⟨(hdr.slot k).id, false⟩)
  simp only [Pool.free, Option.bind_eq_bind, hm, Option.bind_some, hwalk, Function.update_self,
    Function.update_idem, freed, Hdr.give]
  rfl

/-! ## Chunks that are released -/

/-- The pool `s'` has the chunks of `s` but the last one, `a`, which it keeps. -/
structure Dropped (s s' : Pool) (cs : List Addr) (a : Addr) (hdr : Hdr) : Prop where
  objsperchunk : s'.objsperchunk = s.objsperchunk
  first : s'.first = s.first
  last : s'.last = hdr.prev
  nobj : s'.nobj = s.nobj - s.objsperchunk
  nfree : s'.nfree = s.nfree - s.objsperchunk
  firstfree : s'.firstfree = s.firstfree
  keep : s'.keep = some a
  kept : s'.mem a = some hdr
  old : ∀ i c chdr, cs[i]? = some c → s.mem c = some chdr → ∃ chdr', s'.mem c = some chdr' ∧
    chdr'.slot = chdr.slot ∧ chdr'.nfree = chdr.nfree ∧ chdr'.prev = chdr.prev ∧
    chdr'.next = cs[i + 1]?

theorem getElem?_snoc {b : Addr} {i : ℕ} (h : cs[i]? = some b) : (cs ++ [a])[i]? = some b := by
  rw [List.getElem?_append_left (List.getElem?_eq_some_iff.1 h).1, h]

/-- The body of the loop. -/
theorem dropped_release (hc : Core s (cs ++ [a])) (hm : s.mem a = some hdr)
    (hfree : hdr.nfree = s.objsperchunk) (fuel : ℕ) : ∃ s', Dropped s s' cs a hdr ∧
      release (fuel + 1) s (some a) =
        (release fuel s' s'.last).map fun (s', p, n) => (s', p, n + 1) := by
  have hacs : a ∉ cs := fun h =>
    (List.nodup_append.1 hc.nodup).2.2 a h a (List.mem_singleton_self a) rfl
  have hmem {b : Addr} (hb : b ∈ cs ++ [a]) : unmapKeep s b = s.mem b := mem_unmapKeep hc hb
  have hprev : hdr.prev = cs.getLast? := by
    have hok := hc.chunkOk (i := cs.length) (by simp) hm
    rw [hok.prev, List.getLast?_eq_getElem?]
    split_ifs with h0
    · rw [List.eq_nil_of_length_eq_zero h0]
      rfl
    · rw [List.getElem?_append_left (by omega)]
  rw [release, hm, Option.bind_some, if_pos hfree]
  cases hl : cs.getLast? with
  | none =>
    obtain rfl : cs = [] := List.getLast?_eq_none_iff.1 hl
    refine ⟨{ s with
      last := hdr.prev
      nfree := s.nfree - s.objsperchunk
      nobj := s.nobj - s.objsperchunk
      mem := unmapKeep s
      keep := some a
      keepcnt := 16 }, ⟨rfl, rfl, rfl, rfl, rfl, rfl, rfl, ?_, by simp⟩, ?_⟩
    · exact (hmem (by simp)).trans hm
    · simp only [hprev, hl, Option.bind_eq_bind, Option.bind_some, Option.map_eq_bind]
      rfl
  | some b =>
    have hb : b ∈ cs := List.mem_of_getLast? hl
    have hba : b ≠ a := fun h => hacs (h ▸ hb)
    have hbi : cs[cs.length - 1]? = some b := by rw [← List.getLast?_eq_getElem?, hl]
    obtain ⟨bhdr, hmb, -⟩ := hc.chunks (cs.length - 1) b (getElem?_snoc hbi)
    refine ⟨{ s with
      last := hdr.prev
      nfree := s.nfree - s.objsperchunk
      nobj := s.nobj - s.objsperchunk
      mem := Function.update (unmapKeep s) b (some { bhdr with next := none })
      keep := some a
      keepcnt := 16 }, ⟨rfl, rfl, rfl, rfl, rfl, rfl, rfl, ?_, fun i c chdr hi hmc => ?_⟩, ?_⟩
    · simp only [Function.update_of_ne hba.symm]
      exact (hmem (by simp)).trans hm
    · have hic := (List.getElem?_eq_some_iff.1 hi).1
      by_cases hcb : c = b
      · subst hcb
        cases hmb.symm.trans hmc
        have hlast : i = cs.length - 1 := hc.index_unique (getElem?_snoc hi) (getElem?_snoc hbi)
        refine ⟨_, Function.update_self .., rfl, rfl, rfl, ?_⟩
        exact (List.getElem?_eq_none (by omega)).symm
      · have hok := hc.chunkOk (getElem?_snoc hi) hmc
        have hlt : i + 1 < cs.length := by
          refine Nat.lt_of_le_of_ne hic fun h => hcb ?_
          have hi' : i = cs.length - 1 := by omega
          rw [hi', hbi, Option.some_inj] at hi
          exact hi.symm
        refine ⟨chdr, ?_, rfl, rfl, rfl, ?_⟩
        · simp only [Function.update_of_ne hcb]
          exact (hmem (List.mem_append_left _ (List.mem_of_getElem? hi))).trans hmc
        · rw [hok.next, List.getElem?_append_left hlt]
    · have hmb' : unmapKeep s b = some bhdr := (hmem (List.mem_append_left _ hb)).trans hmb
      simp only [hprev, hl, hmb', Option.bind_eq_bind, Option.bind_some, Option.map_eq_bind]
      rfl

theorem unused_of_full {i : ℕ} (hok : ChunkOk s.objsperchunk cs i hdr)
    (hfree : hdr.nfree = s.objsperchunk) {j : ℕ} (hj : j < s.objsperchunk) :
    (hdr.slot j).used = false := by
  have hcard : (unused s.objsperchunk hdr).card = (Finset.range s.objsperchunk).card := by
    rw [← hok.nfree, hfree, Finset.card_range]
  exact Finset.filter_card_eq hcard j (Finset.mem_range.2 hj)

theorem Dropped.core (hd : Dropped s s' cs a hdr) (hc : Core s (cs ++ [a]))
    (hm : s.mem a = some hdr) (hfree : hdr.nfree = s.objsperchunk) : Core s' cs where
  nodup := (List.nodup_append.1 hc.nodup).1
  first hne := by
    rw [hd.first, hc.first (by simp), List.head?_append_of_ne_nil _ hne]
  last := by
    have hok := hc.chunkOk (i := cs.length) (by simp) hm
    rw [hd.last, hok.prev, List.getLast?_eq_getElem?]
    split_ifs with h0
    · rw [List.eq_nil_of_length_eq_zero h0]
      rfl
    · rw [List.getElem?_append_left (by omega)]
  chunks i c hi := by
    have hic := (List.getElem?_eq_some_iff.1 hi).1
    obtain ⟨chdr, hmc, hok⟩ := hc.chunks i c (getElem?_snoc hi)
    obtain ⟨chdr', hm', hslot, hnfree, hprev, hnext⟩ := hd.old i c chdr hi hmc
    rw [hd.objsperchunk]
    refine ⟨chdr', hm', ?_, hnext, ?_, ?_⟩
    · rw [hprev, hok.prev]
      split_ifs
      · rfl
      · rw [List.getElem?_append_left (by omega)]
    · rw [hnfree, hok.nfree, unused_congr hslot]
    · rw [hslot]
      exact hok.ids
  nobj := by
    rw [hd.nobj, hd.objsperchunk, hc.nobj, List.length_append, List.length_singleton, Nat.succ_mul,
      Nat.add_sub_cancel]
  nfree := by
    have hmap : cs.map (freeIn s'.mem) = cs.map (freeIn s.mem) := by
      refine List.map_congr_left fun c hcs => ?_
      obtain ⟨i, hi⟩ := List.mem_iff_getElem?.1 hcs
      have hic := (List.getElem?_eq_some_iff.1 hi).1
      obtain ⟨chdr, hmc, -⟩ := hc.chunks i c (getElem?_snoc hi)
      obtain ⟨chdr', hm', -, hnfree, -⟩ := hd.old i c chdr hi hmc
      rw [freeIn, freeIn, hmc, hm', Option.map_some, Option.map_some, hnfree]
    have hlast : freeIn s.mem a = s.objsperchunk := by
      rw [freeIn, hm, Option.map_some, Option.getD_some, hfree]
    rw [hd.nfree, hc.nfree, List.map_append, List.sum_append, hmap, List.map_singleton,
      List.sum_singleton, hlast, Nat.add_sub_cancel]
  keep b hb := by
    rw [hd.keep, Option.some_inj] at hb
    subst hb
    have hok := hc.chunkOk (i := cs.length) (by simp) hm
    refine ⟨fun h => (List.nodup_append.1 hc.nodup).2.2 a h a (List.mem_singleton_self a) rfl, hdr,
      hd.kept, fun j hj => ?_⟩
    rw [hd.objsperchunk] at hj
    exact unused_of_full hok hfree hj

theorem Dropped.inUse (hd : Dropped s s' cs a hdr) (hc : Core s (cs ++ [a]))
    (hm : s.mem a = some hdr) (hfree : hdr.nfree = s.objsperchunk) (b : Addr) (j : ℕ) :
    InUse s' cs b j ↔ InUse s (cs ++ [a]) b j := by
  rw [InUse, InUse, hd.objsperchunk, List.mem_append, List.mem_singleton]
  refine and_congr_right fun hj => ?_
  constructor
  · rintro ⟨hb, bhdr', hm', hu⟩
    obtain ⟨i, hi⟩ := List.mem_iff_getElem?.1 hb
    have hib := (List.getElem?_eq_some_iff.1 hi).1
    obtain ⟨bhdr, hmb, -⟩ := hc.chunks i b (getElem?_snoc hi)
    obtain ⟨bhdr2, hm2, hslot, -⟩ := hd.old i b bhdr hi hmb
    cases hm2.symm.trans hm'
    exact ⟨.inl hb, bhdr, hmb, hslot ▸ hu⟩
  · rintro ⟨hb, bhdr, hmb, hu⟩
    rcases hb with hb | rfl
    · obtain ⟨i, hi⟩ := List.mem_iff_getElem?.1 hb
      obtain ⟨bhdr2, hm2, hslot, -⟩ := hd.old i b bhdr hi hmb
      exact ⟨hb, bhdr2, hm2, hslot ▸ hu⟩
    · cases hm.symm.trans hmb
      have hok := hc.chunkOk (i := cs.length) (by simp) hm
      rw [unused_of_full hok hfree hj] at hu
      cases hu

theorem Dropped.firstOk (hd : Dropped s s' cs a hdr) (hc : Core s (cs ++ [a]))
    (hcore : Core s' cs) (hf : FirstOk s (cs ++ [a])) : FirstOk s' cs := by
  have hle : s'.nobj ≤ s.nobj := by
    rw [hd.nobj]
    exact Nat.sub_le ..
  have hused (n : ℕ) (hn : n < s'.nobj) : UsedAt s' cs n ↔ UsedAt s (cs ++ [a]) n := by
    have ho : 0 < s.objsperchunk := by
      rw [hcore.nobj, hd.objsperchunk] at hn
      exact Nat.pos_of_mul_pos_left (Nat.zero_lt_of_lt hn)
    have hi : n / s.objsperchunk < cs.length := by
      rw [Nat.div_lt_iff_lt_mul ho, ← hd.objsperchunk, ← hcore.nobj]
      exact hn
    rw [UsedAt, UsedAt, hd.objsperchunk, List.getElem?_append_left hi]
    refine exists_congr fun b => ?_
    constructor
    · rintro ⟨bhdr', hb, hm', hu⟩
      obtain ⟨bhdr, hmb, -⟩ := hc.chunks _ b (getElem?_snoc hb)
      obtain ⟨bhdr2, hm2, hslot, -⟩ := hd.old _ b bhdr hb hmb
      cases hm2.symm.trans hm'
      exact ⟨bhdr, hb, hmb, hslot ▸ hu⟩
    · rintro ⟨bhdr, hb, hmb, hu⟩
      obtain ⟨bhdr2, hm2, hslot, -⟩ := hd.old _ b bhdr hb hmb
      exact ⟨bhdr2, hb, hm2, hslot ▸ hu⟩
  refine ⟨fun m hm hlt => ?_, fun n hn hlt => ?_⟩
  · rw [hused m hm]
    exact hf.below m (hm.trans_le hle) (hd.firstfree ▸ hlt)
  · rw [hused n hlt]
    exact hf.at_ n (hd.firstfree ▸ hn) (hlt.trans_le hle)

/-- The loop releases chunks from the last one on. -/
theorem release_spec : ∀ (fuel : ℕ) {s : Pool} {cs : List Addr}, cs.length < fuel → Core s cs →
    FirstOk s cs → ∃ s' p n cs', release fuel s s.last = some (s', p, n) ∧
      s'.objsperchunk = s.objsperchunk ∧ Core s' cs' ∧ FirstOk s' cs' ∧
      cs.length = cs'.length + n ∧ cs' <+: cs ∧ ∀ b j, InUse s' cs' b j ↔ InUse s cs b j
  | 0, _, _, hlen, _, _ => absurd hlen (Nat.not_lt_zero _)
  | fuel + 1, s, cs, hlen, hc, hf => by
      rcases List.eq_nil_or_concat' cs with rfl | ⟨cs, a, rfl⟩
      · have hl : s.last = none := hc.last
        exact ⟨s, none, 0, [], by rw [hl, release], rfl, hc, hf, rfl, List.prefix_rfl,
          fun _ _ => .rfl⟩
      · have hl : s.last = some a := by rw [hc.last]; simp
        obtain ⟨hdr, hm, -⟩ := hc.chunks cs.length a (by simp)
        rw [hl]
        by_cases hfree : hdr.nfree = s.objsperchunk
        · obtain ⟨s1, hd, hrun⟩ := dropped_release hc hm hfree fuel
          have hcore := hd.core hc hm hfree
          have hlen' : cs.length < fuel := by
            rw [List.length_append, List.length_singleton] at hlen
            omega
          obtain ⟨s2, p, n, cs2, hrun2, ho2, hcore2, hf2, hlen2, hpre2, huse2⟩ :=
            release_spec fuel hlen' hcore (hd.firstOk hc hcore hf)
          refine ⟨s2, p, n + 1, cs2, ?_, ho2.trans hd.objsperchunk, hcore2, hf2, ?_,
            hpre2.trans (List.prefix_append _ _), fun b j => ?_⟩
          · rw [hrun, hrun2]
            rfl
          · rw [List.length_append, List.length_singleton, hlen2, Nat.add_assoc]
          · rw [huse2, hd.inUse hc hm hfree]
        · refine ⟨s, some a, 0, cs ++ [a], ?_, rfl, hc, hf, rfl, List.prefix_rfl, fun _ _ => .rfl⟩
          rw [release, hm, Option.bind_some, if_neg hfree]

/-! ## `PoolObj_free` -/

theorem FirstOk.congr (hf : FirstOk s cs) {lastused : Option ℕ} :
    FirstOk { s with lastused := lastused } cs := ⟨hf.below, hf.at_⟩

theorem Core.withLastused (hc : Core s cs) (lastused : Option ℕ) :
    Core { s with lastused := lastused } cs :=
  ⟨hc.nodup, hc.first, hc.last, hc.chunks, hc.nobj, hc.nfree, hc.keep⟩

/-- The object to be freed, and the pool after it was marked as free. -/
theorem Core.freeing (hc : Core s cs) (huse : InUse s cs a k) : ∃ hdr i,
    Placed (dropKeep s) cs a k hdr i ∧ s.mem a = some hdr ∧ Core (freed (dropKeep s) a hdr k) cs ∧
      ∀ b j, InUse (freed (dropKeep s) a hdr k) cs b j ↔ InUse s cs b j ∧ (b, j) ≠ (a, k) := by
  have hsame := same_dropKeep hc
  have hc1 := core_dropKeep hc
  obtain ⟨hdr, i, hp⟩ := hc1.placed ((hsame.inUse a k).2 huse)
  refine ⟨hdr, i, hp, (hsame.mem a huse.2.1).symm.trans hp.mem,
    core_freed hc1 hp.chunk hp.mem hp.slot hp.used, fun b j => ?_⟩
  rw [inUse_freed hp.chunk hp.mem hp.slot, hsame.inUse]

/-- An object in use is freed. -/
theorem free_spec (hc : Core s cs) (hf : FirstOk s cs) (huse : InUse s cs a k) (found : Option ℕ)
    (hlast : ∀ hdr, s.mem a = some hdr → s.lastused = some (hdr.slot k).id →
      hdr.nfree + 1 = s.objsperchunk → s.last = some a) :
    ∃ s' cs', s.free (a, k) found = some s' ∧ s'.objsperchunk = s.objsperchunk ∧ Core s' cs' ∧
      FirstOk s' cs' ∧ ∀ b j, InUse s' cs' b j ↔ InUse s cs b j ∧ (b, j) ≠ (a, k) := by
  have hsame := same_dropKeep hc
  have ha : a ∈ cs := huse.2.1
  obtain ⟨hdr, i, hp, hm, hcore, huse⟩ := hc.freeing huse
  have hi := hp.chunk
  have hlt : i < cs.length := (List.getElem?_eq_some_iff.1 hi).1
  rw [free_eq hp.mem hp.walk, hp.div]
  have hfirst := firstOk_freed (core_dropKeep hc) (hsame.firstOk hf) hi hp.mem hp.slot hp.id
  have hself : (freed (dropKeep s) a hdr k).mem a = some (hdr.give k) := Function.update_self ..
  by_cases hlu : (freed (dropKeep s) a hdr k).lastused = some (hdr.slot k).id
  · simp only [hlu, ne_eq, not_true_eq_false, if_false]
    by_cases hfull : (hdr.give k).nfree = (freed (dropKeep s) a hdr k).objsperchunk
    · -- the chunk is empty now, and the last one
      have hla : (freed (dropKeep s) a hdr k).last = some a :=
        hsame.last.trans (hlast hdr hm (hsame.lastused.symm.trans hlu)
          (hfull.trans hsame.objsperchunk))
      have hfuel : cs.length < (freed (dropKeep s) a hdr k).nobj + 1 :=
        Nat.lt_succ_of_le (hcore.length_le_nobj (Nat.zero_lt_of_lt hp.slot))
      obtain ⟨s', p, n, cs', hrun, ho', hcore', hfirst', hlen, hpre, huse'⟩ :=
        release_spec _ hfuel hcore hfirst
      rw [hla] at hrun
      rw [hrun]
      simp only [Option.bind_some]
      have ho : s'.objsperchunk = s.objsperchunk := ho'.trans hsame.objsperchunk
      have huse (b : Addr) (j : ℕ) : InUse s' cs' b j ↔ InUse s cs b j ∧ (b, j) ≠ (a, k) := by
        rw [huse', huse]
      split_ifs with hall hsome
      · -- no chunk is left
        have hi' : i = cs.length - 1 := by
          have hl := hcore.last.symm.trans hla
          rw [List.getLast?_eq_getElem?] at hl
          exact hcore.index_unique hi hl
        obtain rfl : cs' = [] := List.eq_nil_of_length_eq_zero (by omega)
        refine ⟨_, [], rfl, ho, (hcore'.withLastused none).withFirst none,
          ⟨fun m hm _ => ?_, fun n hn => by cases hn⟩, huse⟩
        have hnobj : s'.nobj = 0 := by rw [hcore'.nobj, List.length_nil, Nat.zero_mul]
        exact absurd (hnobj ▸ hm) (Nat.not_lt_zero m)
      · exact ⟨_, cs', rfl, ho, hcore'.withLastused found, hfirst'.congr, huse⟩
      · obtain rfl : cs' = cs := hpre.eq_of_length (by omega)
        obtain ⟨-, hdr', -, hm', -⟩ := hcore'.chunk_of_mem ha
        rw [hm', Option.bind_some]
        exact ⟨_, _, rfl, ho, hcore'.withLastused _, hfirst'.congr, huse⟩
    · rw [release, hself, Option.bind_some, if_neg hfull, Option.bind_some]
      simp only [Nat.not_lt_zero, if_false, hself, Option.bind_some]
      exact ⟨_, cs, rfl, hsame.objsperchunk, hcore.withLastused _, hfirst.congr, huse⟩
  · simp only [hlu, ne_eq, not_false_eq_true, if_true]
    exact ⟨_, cs, rfl, hsame.objsperchunk, hcore, hfirst, huse⟩

end PoserCore.ObjectPool
