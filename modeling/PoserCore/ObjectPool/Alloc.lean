import PoserCore.ObjectPool.Invariant

/-!
# `ObjectPool_alloc`

`alloc` keeps the representation and hands out an object that was not in use (`alloc_spec`), unless
`firstfree` is stale.
-/

namespace PoserCore.ObjectPool

variable {s : Pool} {cs : List Addr}

/-! ## The search for the next free object -/

theorem scan_spec {hdr : Hdr} {n k : ℕ} (h : ∃ i < n, (hdr.slot (k + i)).used = false) :
    ∃ j < n, scan hdr n k = some j ∧ (hdr.slot (k + j)).used = false ∧
      ∀ i < j, (hdr.slot (k + i)).used = true := by
  induction n generalizing k with
  | zero =>
    obtain ⟨i, hi, -⟩ := h
    exact absurd hi (Nat.not_lt_zero i)
  | succ n ih =>
    have hshift (i : ℕ) : k + 1 + i = k + (i + 1) := by omega
    rw [scan]
    by_cases hk : (hdr.slot k).used = true
    · obtain ⟨i, hi, hu⟩ := h
      obtain ⟨i, rfl⟩ : ∃ i', i = i' + 1 := by
        refine Nat.exists_eq_succ_of_ne_zero ?_
        rintro rfl
        rw [Nat.add_zero, hk] at hu
        cases hu
      obtain ⟨j, hj, hscan, hu', hbelow⟩ := ih ⟨i, Nat.lt_of_succ_lt_succ hi, by rwa [hshift]⟩
      refine ⟨j + 1, Nat.succ_lt_succ hj, ?_, hshift j ▸ hu', fun i hi => ?_⟩
      · rw [if_pos hk, hscan]
        rfl
      · cases i with
        | zero => exact hk
        | succ i => exact hshift i ▸ hbelow i (Nat.lt_of_succ_lt_succ hi)
    · exact ⟨0, Nat.succ_pos n, by rw [if_neg hk], by simpa using hk, fun i hi => by cases hi⟩

/-- The next chunk with a free object is found. -/
theorem nextChunk_spec (hc : Core s cs) : ∀ (fuel j : ℕ), cs.length ≤ j + fuel →
    (∃ i, j ≤ i ∧ ∃ a hdr, cs[i]? = some a ∧ s.mem a = some hdr ∧ hdr.nfree ≠ 0) →
    ∃ i a hdr, j ≤ i ∧ cs[i]? = some a ∧ s.mem a = some hdr ∧ hdr.nfree ≠ 0 ∧
      nextChunk s.mem fuel cs[j]? j = some (hdr, i) ∧
      ∀ i' a' hdr', j ≤ i' → i' < i → cs[i']? = some a' → s.mem a' = some hdr' → hdr'.nfree = 0
  | 0, j, hlen, ⟨i, hji, a, hdr, hi, _⟩ => by
      have := (List.getElem?_eq_some_iff.1 hi).1
      omega
  | fuel + 1, j, hlen, ⟨i, hji, a, hdr, hi, hm, hne⟩ => by
      have hlt : j < cs.length := hji.trans_lt (List.getElem?_eq_some_iff.1 hi).1
      obtain ⟨b, bhdr, hb, hmb, hok⟩ := hc.chunk hlt
      rw [nextChunk, hb, Option.bind_some, hmb, Option.bind_some]
      by_cases hz : bhdr.nfree = 0
      · have hij : j + 1 ≤ i := by
          refine Nat.lt_of_le_of_ne hji ?_
          rintro rfl
          cases hb.symm.trans hi
          cases hmb.symm.trans hm
          exact hne hz
        obtain ⟨i', a', hdr', hle, hi', hm', hne', hrun, hbelow⟩ :=
          nextChunk_spec hc fuel (j + 1) (by omega) ⟨i, hij, a, hdr, hi, hm, hne⟩
        refine ⟨i', a', hdr', by omega, hi', hm', hne', ?_, ?_⟩
        · rw [if_pos hz, hok.next, hrun]
        · intro i2 a2 hdr2 hle2 hlt2 hi2 hm2
          rcases Nat.eq_or_lt_of_le hle2 with rfl | hlt3
          · cases hb.symm.trans hi2
            cases hmb.symm.trans hm2
            exact hz
          · exact hbelow i2 a2 hdr2 hlt3 hlt2 hi2 hm2
      · refine ⟨j, b, bhdr, le_rfl, hb, hmb, hz, by rw [if_neg hz], ?_⟩
        intro i2 a2 hdr2 hle2 hlt2
        omega

theorem used_of_nfree {i : ℕ} {hdr : Hdr} (hok : ChunkOk s.objsperchunk cs i hdr)
    (hz : hdr.nfree = 0) {k : ℕ} (hk : k < s.objsperchunk) : (hdr.slot k).used = true := by
  rw [hok.nfree, Finset.card_eq_zero] at hz
  by_contra hu
  have : k ∈ unused s.objsperchunk hdr := mem_unused.2 ⟨hk, by simpa using hu⟩
  rw [hz] at this
  simp at this

theorem exists_unused {i : ℕ} {hdr : Hdr} (hok : ChunkOk s.objsperchunk cs i hdr)
    (hz : hdr.nfree ≠ 0) : ∃ k < s.objsperchunk, (hdr.slot k).used = false := by
  rw [hok.nfree] at hz
  obtain ⟨k, hk⟩ := Finset.card_pos.1 (Nat.pos_of_ne_zero hz)
  exact ⟨k, mem_unused.1 hk⟩

/-- Somewhere there is a free object while the counter of the pool says so. -/
theorem Core.exists_free (hc : Core s cs) (hz : s.nfree ≠ 0) :
    ∃ (i : ℕ) (a : Addr) (hdr : Hdr), cs[i]? = some a ∧ s.mem a = some hdr ∧ hdr.nfree ≠ 0 := by
  by_contra hno
  refine hz (hc.nfree.trans (List.sum_eq_zero fun x hx => ?_))
  obtain ⟨a, ha, rfl⟩ := List.mem_map.1 hx
  obtain ⟨i, hdr, hi, hm, -⟩ := hc.chunk_of_mem ha
  by_contra hne
  refine hno ⟨i, a, hdr, hi, hm, ?_⟩
  rwa [freeIn, hm] at hne

/-- While all objects up to one in a full chunk are in use, there is one behind this chunk. -/
theorem Core.exists_free_behind (hc : Core s cs) (hz : s.nfree ≠ 0) {i k : ℕ} {a : Addr} {hdr : Hdr}
    (hi : cs[i]? = some a) (hm : s.mem a = some hdr) (hn : hdr.nfree = 0)
    (hbelow : ∀ m ≤ i * s.objsperchunk + k, UsedAt s cs m) :
    ∃ j, i + 1 ≤ j ∧ ∃ b bhdr, cs[j]? = some b ∧ s.mem b = some bhdr ∧ bhdr.nfree ≠ 0 := by
  obtain ⟨j, b, bhdr, hj, hmb, hbn⟩ := hc.exists_free hz
  refine ⟨j, ?_, b, bhdr, hj, hmb, hbn⟩
  by_contra hle
  obtain ⟨t, ht, hu⟩ := exists_unused (hc.chunkOk hj hmb) hbn
  rcases Nat.eq_or_lt_of_le (Nat.le_of_lt_succ (Nat.not_le.1 hle)) with rfl | hlt
  · cases hi.symm.trans hj
    cases hm.symm.trans hmb
    exact hbn hn
  · have hle : j * s.objsperchunk + t ≤ i * s.objsperchunk + k := by
      have := Nat.mul_le_mul_right s.objsperchunk hlt
      rw [Nat.succ_mul] at this
      omega
    rw [(usedAt_iff ht hj hmb).1 (hbelow _ hle)] at hu
    cases hu

theorem Core.length_le_nobj (hc : Core s cs) (ho : 0 < s.objsperchunk) : cs.length ≤ s.nobj := by
  rw [hc.nobj]
  exact Nat.le_mul_of_pos_right cs.length ho

/-- The object that `firstfree` names afterwards is the first one free. -/
theorem nextFree_spec (hc : Core s cs) (ho : 0 < s.objsperchunk) {i k : ℕ} {a : Addr} {hdr : Hdr}
    (hi : cs[i]? = some a) (hm : s.mem a = some hdr) (hk : k < s.objsperchunk) (hz : s.nfree ≠ 0)
    (hbelow : ∀ m ≤ i * s.objsperchunk + k, UsedAt s cs m) :
    ∃ n, nextFree s hdr i k = some n ∧ (∀ m < n, UsedAt s cs m) ∧ ¬ UsedAt s cs n := by
  have hok := hc.chunkOk hi hm
  rw [nextFree]
  by_cases hn : hdr.nfree = 0
  · -- the chunk is full, and so are those before it
    obtain ⟨j, b, bhdr, hle, hj, hmb, hbn, hrun, hfull⟩ :=
      nextChunk_spec hc s.nobj (i + 1) (Nat.le_add_left_of_le (hc.length_le_nobj ho))
        (hc.exists_free_behind hz hi hm hn hbelow)
    have hokb := hc.chunkOk hj hmb
    obtain ⟨t, ht, hu⟩ := exists_unused hokb hbn
    obtain ⟨t, ht, hscan, hu, hslots⟩ := scan_spec (k := 0) ⟨t, ht, by rwa [Nat.zero_add]⟩
    rw [Nat.zero_add] at hu
    refine ⟨j * s.objsperchunk + t, ?_, fun m hmn => ?_, ?_⟩
    · simp [hn, hok.next, hrun, hscan]
    · -- below the slot in its chunk, in a full chunk before it, or in the full chunk
      have hdiv := Nat.div_add_mod' m s.objsperchunk
      have hmod := Nat.mod_lt m ho
      generalize m / s.objsperchunk = q at hdiv
      generalize m % s.objsperchunk = r at hdiv hmod
      subst hdiv
      have hqj : q ≤ j := by
        by_contra hlt
        have := Nat.mul_le_mul_right s.objsperchunk (Nat.lt_of_not_le hlt)
        rw [Nat.succ_mul] at this
        omega
      have hq : q < cs.length := hqj.trans_lt (List.getElem?_eq_some_iff.1 hj).1
      obtain ⟨c, chdr, hqc, hmc, hokc⟩ := hc.chunk hq
      rcases Nat.lt_or_ge i q with hiq | hqi
      · rw [usedAt_iff hmod hqc hmc]
        rcases Nat.eq_or_lt_of_le hqj with rfl | hlt
        · cases hj.symm.trans hqc
          cases hmb.symm.trans hmc
          have := hslots r (by omega)
          rwa [Nat.zero_add] at this
        · exact used_of_nfree hokc (hfull q c chdr hiq hlt hqc hmc) hmod
      · rcases Nat.eq_or_lt_of_le hqi with rfl | hlt
        · rw [usedAt_iff hmod hi hm]
          exact used_of_nfree hok hn hmod
        · refine hbelow _ ?_
          have := Nat.mul_le_mul_right s.objsperchunk hlt
          rw [Nat.succ_mul] at this
          omega
    · rw [usedAt_iff ht hj hmb, hu]
      simp
  · obtain ⟨t, ht, hu⟩ := exists_unused hok hn
    have hkt : k < t := by
      by_contra hle
      rw [(usedAt_iff ht hi hm).1 (hbelow _ (by omega))] at hu
      cases hu
    have hex : ∃ j < s.objsperchunk - (k + 1), (hdr.slot (k + 1 + j)).used = false :=
      ⟨t - (k + 1), by omega, by rwa [Nat.add_sub_cancel' hkt]⟩
    obtain ⟨j, hj, hscan, hu, hslots⟩ := scan_spec hex
    refine ⟨i * s.objsperchunk + (k + 1) + j, ?_, fun m hmn => ?_, ?_⟩
    · simp [hn, hscan]
    · rcases Nat.lt_or_ge (i * s.objsperchunk + k) m with hlt | hle
      · obtain ⟨t, rfl⟩ : ∃ t, m = i * s.objsperchunk + (k + 1 + t) :=
          ⟨m - (i * s.objsperchunk + (k + 1)), by omega⟩
        rw [usedAt_iff (by omega) hi hm]
        exact hslots t (by omega)
      · exact hbelow m hle
    · rw [Nat.add_assoc, usedAt_iff (by omega) hi hm, hu]
      simp

/-! ## What is in use afterwards -/

/-- A slot of a chunk is changed. -/
theorem inUse_modify {s' : Pool} {i : ℕ} {a : Addr} {hdr hdr' : Hdr} {k : ℕ} {obj : PoolObj}
    (hk : k < s.objsperchunk) (hi : cs[i]? = some a) (hm : s.mem a = some hdr)
    (hmem : s'.mem = Function.update s.mem a (some hdr'))
    (hslot : hdr'.slot = Function.update hdr.slot k obj) (ho : s'.objsperchunk = s.objsperchunk)
    (b : Addr) (j : ℕ) :
    InUse s' cs b j ↔ if (b, j) = (a, k) then obj.used = true else InUse s cs b j := by
  have ha : a ∈ cs := List.mem_of_getElem? hi
  rw [InUse, InUse, ho, hmem]
  by_cases hb : b = a
  · subst hb
    by_cases hj : j = k
    · subst hj
      simp [hslot, hk, ha]
    · simp [hslot, hj, ha, hm]
  · simp [hb]

theorem usedAt_modify {s' : Pool} {i : ℕ} {a : Addr} {hdr hdr' : Hdr} {k : ℕ} {obj : PoolObj}
    (hc : Core s cs) (hk : k < s.objsperchunk) (hi : cs[i]? = some a) (hm : s.mem a = some hdr)
    (hmem : s'.mem = Function.update s.mem a (some hdr'))
    (hslot : hdr'.slot = Function.update hdr.slot k obj) (ho : s'.objsperchunk = s.objsperchunk)
    (m : ℕ) :
    UsedAt s' cs m ↔ if m = i * s.objsperchunk + k then obj.used = true else UsedAt s cs m := by
  have hpos : 0 < s.objsperchunk := Nat.zero_lt_of_lt hk
  have hdiv := Nat.div_add_mod' m s.objsperchunk
  have hmod := Nat.mod_lt m hpos
  split_ifs with h
  · subst h
    rw [← ho] at hk ⊢
    have hself : s'.mem a = some hdr' := by rw [hmem, Function.update_self]
    rw [usedAt_iff hk hi hself, hslot, Function.update_self]
  · rw [UsedAt, UsedAt, ho, hmem]
    refine exists_congr fun b => ?_
    by_cases hb : b = a
    · subst hb
      constructor
      · rintro ⟨hdr2, hq, hm2, hu⟩
        rw [Function.update_self] at hm2
        cases hm2
        refine ⟨hdr, hq, hm, ?_⟩
        have hne : m % s.objsperchunk ≠ k := by
          intro hmk
          rw [hc.index_unique hi hq, ← hmk] at h
          exact h hdiv.symm
        rwa [hslot, Function.update_of_ne hne] at hu
      · rintro ⟨hdr2, hq, hm2, hu⟩
        cases hm.symm.trans hm2
        refine ⟨hdr', hq, Function.update_self .., ?_⟩
        have hne : m % s.objsperchunk ≠ k := by
          intro hmk
          rw [hc.index_unique hi hq, ← hmk] at h
          exact h hdiv.symm
        rwa [hslot, Function.update_of_ne hne]
    · rw [Function.update_of_ne hb]

/-! ## A free object -/

/-- The chunk after the object `n` in slot `k` was taken. -/
def Hdr.take (hdr : Hdr) (k n : ℕ) : Hdr :=
  { hdr with slot := Function.update hdr.slot k ⟨n, true⟩, nfree := hdr.nfree - 1 }

/-- The pool after that, but for `firstfree`. -/
def taken (s : Pool) (a : Addr) (hdr : Hdr) (k n : ℕ) : Pool :=
  { s with
    mem := Function.update s.mem a (some (hdr.take k n))
    lastused := if s.lastused.all (· < n) then some n else s.lastused
    nfree := s.nfree - 1 }

theorem allocFree_eq {n : ℕ} {a : Addr} {hdr : Hdr}
    (hw : walk s.mem s.first (n / s.objsperchunk) = some a) (hm : s.mem a = some hdr) :
    allocFree s n =
      let k := n % s.objsperchunk
      let s' := taken s a hdr k n
      if s'.nfree ≠ 0 then
        (nextFree s' (hdr.take k n) (n / s.objsperchunk) k).map fun next =>
          ({ s' with firstfree := some next }, a, k)
      else some ({ s' with firstfree := none }, a, k) := by
  simp only [allocFree, hw, hm, Option.bind_eq_bind, Option.bind_some, taken, Hdr.take,
    Option.map_eq_bind, Function.comp_def]

theorem Core.withFirst (hc : Core s cs) (o : Option ℕ) : Core { s with firstfree := o } cs :=
  ⟨hc.nodup, hc.first, hc.last, hc.chunks, hc.nobj, hc.nfree, hc.keep⟩

theorem Core.nfree_le (hc : Core s cs) {a : Addr} {hdr : Hdr} (ha : a ∈ cs)
    (hm : s.mem a = some hdr) : hdr.nfree ≤ s.nfree := by
  have hfree : freeIn s.mem a = hdr.nfree := by rw [freeIn, hm]; rfl
  rw [hc.nfree, ← hfree]
  exact List.single_le_sum (by simp) _ (List.mem_map_of_mem ha)

theorem core_taken (hc : Core s cs) {i k : ℕ} {a : Addr} {hdr : Hdr} (hi : cs[i]? = some a)
    (hm : s.mem a = some hdr) (hk : k < s.objsperchunk) (hfree : (hdr.slot k).used = false) :
    Core (taken s a hdr k (i * s.objsperchunk + k)) cs := by
  have hok := hc.chunkOk hi hm
  have hmem : k ∈ unused s.objsperchunk hdr := mem_unused.2 ⟨hk, hfree⟩
  have hpos : 0 < hdr.nfree := by
    rw [hok.nfree]
    exact Finset.card_pos.2 ⟨k, hmem⟩
  have hle := hc.nfree_le (List.mem_of_getElem? hi) hm
  have hmem' : (taken s a hdr k (i * s.objsperchunk + k)).mem =
    Function.update s.mem a (some (hdr.take k (i * s.objsperchunk + k))) := rfl
  refine hc.modify hi hm hmem' rfl rfl ?_ (fun j hj hu => ?_) rfl rfl rfl rfl rfl ?_
  · have hun : unused s.objsperchunk (hdr.take k (i * s.objsperchunk + k)) =
        (unused s.objsperchunk hdr).erase k := unused_take rfl
    rw [hun, Finset.card_erase_of_mem hmem, ← hok.nfree]
    rfl
  · by_cases hjk : j = k
    · subst hjk
      simp [Hdr.take]
    · simp only [Hdr.take, Function.update_of_ne hjk] at hu ⊢
      exact hok.ids j hj hu
  · simp only [taken, Hdr.take]
    omega

/-- No object is free when the counter of the pool is 0. -/
theorem Core.used_of_nfree (hc : Core s cs) (hz : s.nfree = 0) {m : ℕ} (hm : m < s.nobj) :
    UsedAt s cs m := by
  have ho : 0 < s.objsperchunk := by
    rw [hc.nobj] at hm
    exact Nat.pos_of_mul_pos_left (Nat.zero_lt_of_lt hm)
  have hi : m / s.objsperchunk < cs.length := by
    rw [Nat.div_lt_iff_lt_mul ho, ← hc.nobj]
    exact hm
  obtain ⟨a, hdr, hia, hma, hok⟩ := hc.chunk hi
  have hle := hc.nfree_le (List.mem_of_getElem? hia) hma
  exact ⟨a, hdr, hia, hma, ObjectPool.used_of_nfree hok (by omega) (Nat.mod_lt m ho)⟩

theorem usedAt_taken (hc : Core s cs) {i k : ℕ} {a : Addr} {hdr : Hdr} (hi : cs[i]? = some a)
    (hm : s.mem a = some hdr) (hk : k < s.objsperchunk) (m : ℕ) :
    UsedAt (taken s a hdr k (i * s.objsperchunk + k)) cs m ↔
      m = i * s.objsperchunk + k ∨ UsedAt s cs m := by
  have hmem : (taken s a hdr k (i * s.objsperchunk + k)).mem =
    Function.update s.mem a (some (hdr.take k (i * s.objsperchunk + k))) := rfl
  rw [usedAt_modify hc hk hi hm hmem rfl rfl m]
  split_ifs with h <;> simp [h]

/-- The first free object was taken, so all objects up to it are in use. -/
theorem usedAt_taken_le (hc : Core s cs) (hf : FirstOk s cs) {i k : ℕ} {a : Addr} {hdr : Hdr}
    (hi : cs[i]? = some a) (hm : s.mem a = some hdr) (hk : k < s.objsperchunk)
    (hff : s.firstfree = some (i * s.objsperchunk + k)) (hn : i * s.objsperchunk + k < s.nobj) :
    ∀ m ≤ i * s.objsperchunk + k, UsedAt (taken s a hdr k (i * s.objsperchunk + k)) cs m := by
  intro m hle
  rw [usedAt_taken hc hi hm hk]
  rcases Nat.eq_or_lt_of_le hle with h | h
  · exact .inl h
  · refine .inr (hf.below m (h.trans hn) fun n hn' => ?_)
    rw [hff, Option.some_inj] at hn'
    exact hn' ▸ h

/-- The chunk and the slot of an object, by its number. -/
theorem Core.locate (hc : Core s cs) (ho : 0 < s.objsperchunk) {n : ℕ} (hn : n < s.nobj) :
    ∃ i k a hdr, n = i * s.objsperchunk + k ∧ n / s.objsperchunk = i ∧ n % s.objsperchunk = k ∧
      k < s.objsperchunk ∧ cs[i]? = some a ∧ s.mem a = some hdr ∧
      ObjectPool.walk s.mem s.first (n / s.objsperchunk) = some a := by
  have hi : n / s.objsperchunk < cs.length := by
    rw [Nat.div_lt_iff_lt_mul ho, ← hc.nobj]
    exact hn
  obtain ⟨a, hdr, hia, hm, -⟩ := hc.chunk hi
  exact ⟨_, _, a, hdr, (Nat.div_add_mod' ..).symm, rfl, rfl, Nat.mod_lt n ho, hia, hm,
    (hc.walk hi).trans hia⟩

theorem allocFree_spec (hc : Core s cs) (hf : FirstOk s cs) {n : ℕ} (hff : s.firstfree = some n)
    (hn : n < s.nobj) (ho : 0 < s.objsperchunk) :
    ∃ s' a k, allocFree s n = some (s', a, k) ∧ s'.objsperchunk = s.objsperchunk ∧ Core s' cs ∧
      FirstOk s' cs ∧ ¬ InUse s cs a k ∧
      ∀ b j, InUse s' cs b j ↔ (b, j) = (a, k) ∨ InUse s cs b j := by
  obtain ⟨i, k, a, hdr, rfl, hdiv, hmod, hk, hia, hm, hw⟩ := hc.locate ho hn
  have hfree : (hdr.slot k).used = false := by
    have := hf.at_ _ hff hn
    rwa [usedAt_iff hk hia hm, Bool.not_eq_true] at this
  rw [allocFree_eq hw hm, hdiv, hmod]
  have hmem : (taken s a hdr k (i * s.objsperchunk + k)).mem =
    Function.update s.mem a (some (hdr.take k (i * s.objsperchunk + k))) := rfl
  have hcore := core_taken hc hia hm hk hfree
  have huse (b : Addr) (j : ℕ) :
      InUse (taken s a hdr k (i * s.objsperchunk + k)) cs b j ↔ (b, j) = (a, k) ∨ InUse s cs b j := by
    rw [inUse_modify hk hia hm hmem rfl rfl b j]
    split_ifs with h <;> simp [h]
  have hnot : ¬ InUse s cs a k := by
    rintro ⟨-, -, hdr2, hm2, hu⟩
    cases hm.symm.trans hm2
    rw [hfree] at hu
    cases hu
  by_cases hz : (taken s a hdr k (i * s.objsperchunk + k)).nfree = 0
  · refine ⟨{ taken s a hdr k (i * s.objsperchunk + k) with firstfree := none }, a, k, ?_, rfl,
      hcore.withFirst none, ⟨fun m hm _ => hcore.used_of_nfree hz hm, fun n hn => by cases hn⟩,
      hnot, huse⟩
    simp only [hz, ne_eq, not_true_eq_false, if_false]
  · have hbelow := usedAt_taken_le hc hf hia hm hk hff hn
    have hself : (taken s a hdr k (i * s.objsperchunk + k)).mem a =
      some (hdr.take k (i * s.objsperchunk + k)) := Function.update_self ..
    obtain ⟨next, hnext, hall, hnot'⟩ := nextFree_spec hcore ho hia hself hk hz hbelow
    refine ⟨{ taken s a hdr k (i * s.objsperchunk + k) with firstfree := some next }, a, k, ?_, rfl,
      hcore.withFirst _, ⟨fun m _ hm' => hall m (hm' next rfl), ?_⟩, hnot, huse⟩
    · simp only [ne_eq, hz, not_false_eq_true, if_true, hnext, Option.map_some]
    · rintro _ ⟨⟩ _
      exact hnot'

/-! ## A new chunk -/

/-- The pool `s'` has the chunk `a` behind those of `s`, with one object in use. -/
structure Snoc (s s' : Pool) (cs : List Addr) (a : Addr) (hdr : Hdr) : Prop where
  objsperchunk : s'.objsperchunk = s.objsperchunk
  new : s'.mem a = some hdr
  prev : hdr.prev = s.last
  next : hdr.next = none
  nfree : hdr.nfree = s.objsperchunk - 1
  slot : ∀ k < s.objsperchunk, (hdr.slot k).used = true ↔ k = 0
  id : (hdr.slot 0).id = s.nobj
  old : ∀ i c chdr, cs[i]? = some c → s.mem c = some chdr → ∃ chdr', s'.mem c = some chdr' ∧
    chdr'.slot = chdr.slot ∧ chdr'.nfree = chdr.nfree ∧ chdr'.prev = chdr.prev ∧
    chdr'.next = (cs ++ [a])[i + 1]?
  first : s'.first = (cs ++ [a]).head?
  last : s'.last = some a
  keep : s'.keep = none
  total : s'.nfree = s.nfree + hdr.nfree
  nobj : s'.nobj = s.nobj + s.objsperchunk
  firstfree : s'.firstfree = some (s.nobj + 1)

variable {s' : Pool} {a : Addr} {hdr : Hdr}

theorem Snoc.core (hs : Snoc s s' cs a hdr) (hc : Core s cs) (ha : a ∉ cs)
    (ho : 0 < s.objsperchunk) : Core s' (cs ++ [a]) where
  nodup := by
    refine List.nodup_append.2 ⟨hc.nodup, List.nodup_singleton a, ?_⟩
    rintro b hb c hc rfl
    exact ha (List.mem_singleton.1 hc ▸ hb)
  first _ := hs.first
  last := by rw [hs.last, List.getLast?_append]; rfl
  chunks i c hi := by
    rw [hs.objsperchunk]
    rcases Nat.lt_or_ge i cs.length with hlt | hge
    · have hi' : cs[i]? = some c := by rwa [List.getElem?_append_left hlt] at hi
      obtain ⟨chdr, hm, hok⟩ := hc.chunks i c hi'
      obtain ⟨chdr', hm', hslot, hnfree, hprev, hnext⟩ := hs.old i c chdr hi' hm
      refine ⟨chdr', hm', ?_, hnext, ?_, ?_⟩
      · rw [hprev, hok.prev]
        split_ifs
        · rfl
        · rw [List.getElem?_append_left (by omega)]
      · rw [hnfree, hok.nfree, unused_congr hslot]
      · rw [hslot]
        exact hok.ids
    · obtain rfl : i = cs.length := by
        have := (List.getElem?_eq_some_iff.1 hi).1
        rw [List.length_append, List.length_singleton] at this
        omega
      obtain rfl : a = c := by simpa using hi
      refine ⟨hdr, hs.new, ?_, ?_, ?_, fun k hk hu => ?_⟩
      · rw [hs.prev, hc.last, List.getLast?_eq_getElem?]
        split_ifs with h0
        · rw [List.eq_nil_of_length_eq_zero h0]
          rfl
        · rw [List.getElem?_append_left (by omega)]
      · rw [hs.next]
        exact (List.getElem?_eq_none (by simp)).symm
      · have hun : unused s.objsperchunk hdr = (Finset.range s.objsperchunk).erase 0 := by
          ext k
          rw [mem_unused, Finset.mem_erase, Finset.mem_range, and_comm]
          refine and_congr_left fun hk => ?_
          rw [← Bool.not_eq_true, hs.slot k hk]
        rw [hs.nfree, hun, Finset.card_erase_of_mem (Finset.mem_range.2 ho), Finset.card_range]
      · obtain rfl := (hs.slot k hk).1 hu
        rw [hs.id, hc.nobj, Nat.add_zero]
  nobj := by
    rw [hs.nobj, hs.objsperchunk, hc.nobj, List.length_append, List.length_singleton, Nat.succ_mul]
  nfree := by
    have hmap : cs.map (freeIn s'.mem) = cs.map (freeIn s.mem) := by
      refine List.map_congr_left fun c hc' => ?_
      obtain ⟨i, chdr, hi, hm, -⟩ := hc.chunk_of_mem hc'
      obtain ⟨chdr', hm', -, hnfree, -⟩ := hs.old i c chdr hi hm
      rw [freeIn, freeIn, hm, hm', Option.map_some, Option.map_some, hnfree]
    have hnew : freeIn s'.mem a = hdr.nfree := by rw [freeIn, hs.new]; rfl
    rw [hs.total, hc.nfree, List.map_append, List.sum_append, hmap, List.map_singleton,
      List.sum_singleton, hnew]
  keep b hb := by
    rw [hs.keep] at hb
    cases hb

theorem Snoc.inUse (hs : Snoc s s' cs a hdr) (hc : Core s cs) (ha : a ∉ cs)
    (ho : 0 < s.objsperchunk) (b : Addr) (j : ℕ) :
    InUse s' (cs ++ [a]) b j ↔ (b, j) = (a, 0) ∨ InUse s cs b j := by
  rw [InUse, InUse, hs.objsperchunk, List.mem_append, List.mem_singleton, Prod.mk.injEq]
  by_cases hb : b = a
  · subst hb
    constructor
    · rintro ⟨hj, -, hdr', hm, hu⟩
      cases hs.new.symm.trans hm
      exact .inl ⟨rfl, (hs.slot j hj).1 hu⟩
    · rintro (⟨-, rfl⟩ | ⟨-, hb, -⟩)
      · exact ⟨ho, .inr rfl, hdr, hs.new, (hs.slot 0 ho).2 rfl⟩
      · exact absurd hb ha
  · constructor
    · rintro ⟨hj, hmem, hdr', hm, hu⟩
      have hbc : b ∈ cs := hmem.resolve_right hb
      obtain ⟨i, chdr, hi, hm0, -⟩ := hc.chunk_of_mem hbc
      obtain ⟨chdr', hm', hslot, -⟩ := hs.old i b chdr hi hm0
      cases hm'.symm.trans hm
      exact .inr ⟨hj, hbc, chdr, hm0, hslot ▸ hu⟩
    · rintro (⟨hba, -⟩ | ⟨hj, hbc, chdr, hm0, hu⟩)
      · exact absurd hba hb
      · obtain ⟨i, hi⟩ := List.mem_iff_getElem?.1 hbc
        obtain ⟨chdr', hm', hslot, -⟩ := hs.old i b chdr hi hm0
        exact ⟨hj, .inl hbc, chdr', hm', hslot ▸ hu⟩

theorem Snoc.firstOk (hs : Snoc s s' cs a hdr) (hc : Core s cs) (hf : FirstOk s cs)
    (hff : s.firstfree = none) (ho : 0 < s.objsperchunk) : FirstOk s' (cs ++ [a]) := by
  have hlast : (cs ++ [a])[cs.length]? = some a := by simp
  have hnobj := hc.nobj
  have hnew {k : ℕ} (hk : k < s.objsperchunk) : UsedAt s' (cs ++ [a]) (s.nobj + k) ↔ k = 0 := by
    rw [← hs.slot k hk, hnobj, ← hs.objsperchunk]
    rw [← hs.objsperchunk] at hk
    exact usedAt_iff hk hlast hs.new
  refine ⟨fun m hm hlt => ?_, fun n hn hlt => ?_⟩
  · have hlt := hlt _ hs.firstfree
    rcases Nat.eq_or_lt_of_le (Nat.le_of_lt_succ hlt) with rfl | hlt
    · exact (hnew (k := 0) (by omega)).2 rfl
    · obtain ⟨c, chdr, hi, hmc, hu⟩ := hf.below m hlt fun n hn => by
        rw [hff] at hn
        cases hn
      obtain ⟨chdr', hm', hslot, -⟩ := hs.old _ c chdr hi hmc
      refine ⟨c, chdr', ?_, hm', ?_⟩
      · rw [hs.objsperchunk, List.getElem?_append_left (List.getElem?_eq_some_iff.1 hi).1]
        exact hi
      · rw [hs.objsperchunk, hslot]
        exact hu
  · rw [hs.firstfree, Option.some_inj] at hn
    subst hn
    rw [hs.nobj] at hlt
    rw [hnew (Nat.add_lt_add_iff_left.1 hlt)]
    decide

/-- The chunk that was kept, or a new one. -/
theorem exists_chunk (hc : Core s cs) {addr : Addr} (haddr : s.mem addr = none) :
    s.keep.getD addr ∉ cs ∧ ∃ hdr,
      (if s.keep.isSome then s.mem (s.keep.getD addr) else some zeros) = some hdr ∧
        ∀ k < s.objsperchunk, (hdr.slot k).used = false := by
  cases hk : s.keep with
  | none =>
    refine ⟨fun hmem => ?_, zeros, rfl, fun _ _ => rfl⟩
    obtain ⟨i, chdr, -, hm, -⟩ := hc.chunk_of_mem hmem
    cases haddr.symm.trans hm
  | some b =>
    obtain ⟨hnot, bhdr, hm, hun⟩ := hc.keep b hk
    exact ⟨hnot, bhdr, hm, hun⟩

theorem allocChunk_snoc (hc : Core s cs) {addr : Addr} (haddr : s.mem addr = none) :
    ∃ s' a hdr, allocChunk s addr = some (s', a, 0) ∧ a ∉ cs ∧ Snoc s s' cs a hdr := by
  obtain ⟨ha, hdr0, hhdr, hun⟩ := exists_chunk hc haddr
  generalize hadef : s.keep.getD addr = a at ha hhdr
  have hslot (k : ℕ) (hk : k < s.objsperchunk) :
      (Function.update hdr0.slot 0 (⟨s.nobj, true⟩ : PoolObj) k).used = true ↔ k = 0 := by
    by_cases h0 : k = 0
    · simp [h0]
    · simp [h0, hun k hk]
  simp only [allocChunk, hadef, hhdr, Option.bind_eq_bind, Option.bind_some]
  cases hlast : s.last with
  | none =>
    obtain rfl : cs = [] := by
      rw [hc.last] at hlast
      exact List.getLast?_eq_none_iff.1 hlast
    refine ⟨_, a, ⟨none, none, s.objsperchunk - 1, Function.update hdr0.slot 0 ⟨s.nobj, true⟩⟩, rfl,
      ha, ?_⟩
    exact ⟨rfl, Function.update_self .., hlast.symm, rfl, rfl, hslot, by simp, by simp, rfl, rfl, rfl,
      rfl, rfl, rfl⟩
  | some l =>
    have hl : cs.getLast? = some l := hc.last.symm.trans hlast
    have hmem : l ∈ cs := List.mem_of_getLast? hl
    have hla : l ≠ a := fun h => ha (h ▸ hmem)
    obtain ⟨i, lhdr, hi, hm, hok⟩ := hc.chunk_of_mem hmem
    simp only [Function.update_of_ne hla, hm, Option.bind_some]
    refine ⟨_, a, ⟨some l, none, s.objsperchunk - 1, Function.update hdr0.slot 0 ⟨s.nobj, true⟩⟩,
      rfl, ha, ?_⟩
    have hnew (lhdr : Hdr) (hdr : Hdr) : Function.update (Function.update s.mem a (some hdr)) l
        (some lhdr) a = some hdr := by
      rw [Function.update_of_ne hla.symm, Function.update_self]
    refine ⟨rfl, hnew _ _, hlast.symm, rfl, rfl, hslot, by simp, fun j c chdr hj hmc => ?_, ?_, rfl,
      rfl, rfl, rfl, rfl⟩
    · have hca : c ≠ a := fun h => ha (h ▸ List.mem_of_getElem? hj)
      have hokc := hc.chunkOk hj hmc
      by_cases hcl : c = l
      · subst hcl
        cases hm.symm.trans hmc
        refine ⟨_, Function.update_self .., rfl, rfl, rfl, ?_⟩
        have hj' : j + 1 = cs.length := by
          rw [List.getLast?_eq_getElem?] at hl
          have := hc.index_unique hj hl
          have := List.length_pos_of_mem hmem
          omega
        simp [hj']
      · refine ⟨chdr, ?_, rfl, rfl, rfl, ?_⟩
        · simp only [Function.update_of_ne hcl, Function.update_of_ne hca, hmc]
        · have hj' : j + 1 < cs.length := by
            have hlt := (List.getElem?_eq_some_iff.1 hj).1
            refine Nat.lt_of_le_of_ne hlt fun h => hcl ?_
            rw [List.getLast?_eq_getElem?, ← h, Nat.add_sub_cancel, hj] at hl
            exact Option.some_inj.1 hl
          rw [List.getElem?_append_left hj', hokc.next]
    · have hne : cs ≠ [] := List.ne_nil_of_mem hmem
      rw [List.head?_append_of_ne_nil _ hne]
      exact hc.first hne

/-! ## `ObjectPool_alloc` -/

theorem Core.withCount (hc : Core s cs) (n : UInt32) : Core { s with keepcnt := n } cs :=
  ⟨hc.nodup, hc.first, hc.last, hc.chunks, hc.nobj, hc.nfree, hc.keep⟩

theorem alloc_keepcnt (s : Pool) : ∃ n,
    (if s.keep.isSome then { s with keepcnt := s.keepcnt + 1 } else s) = { s with keepcnt := n } := by
  split_ifs
  · exact ⟨_, rfl⟩
  · exact ⟨s.keepcnt, rfl⟩

/-- An object is handed out that was not in use. -/
theorem alloc_spec (hc : Core s cs) (hf : FirstOk s cs) (ho : 0 < s.objsperchunk) {addr : Addr}
    (haddr : s.mem addr = none) (hn : ∀ n, s.firstfree = some n → n < s.nobj) :
    ∃ s' a k cs', s.alloc addr = some (s', a, k) ∧ s'.objsperchunk = s.objsperchunk ∧
      Core s' cs' ∧ FirstOk s' cs' ∧ ¬ InUse s cs a k ∧
      ∀ b j, InUse s' cs' b j ↔ (b, j) = (a, k) ∨ InUse s cs b j := by
  obtain ⟨n, hs⟩ := alloc_keepcnt s
  have hc' := hc.withCount n
  have hf' : FirstOk { s with keepcnt := n } cs := ⟨hf.below, hf.at_⟩
  rw [Pool.alloc, hs]
  cases hff : s.firstfree with
  | some m =>
    obtain ⟨s', a, k, hrun, hobj, hcore, hfirst, hnot, hiff⟩ :=
      allocFree_spec hc' hf' hff (hn m hff) ho
    exact ⟨s', a, k, cs, hrun, hobj, hcore, hfirst, hnot, hiff⟩
  | none =>
    obtain ⟨s', a, hdr, hrun, ha, hsnoc⟩ := allocChunk_snoc hc' haddr
    exact ⟨s', a, 0, cs ++ [a], hrun, hsnoc.objsperchunk, hsnoc.core hc' ha ho,
      hsnoc.firstOk hc' hf' hff ho, fun h => ha h.2.1, hsnoc.inUse hc' ha ho⟩

end PoserCore.ObjectPool
