import PoserCore.ObjectPool.Bounds

/-!
# `ObjectPool_destroy`

The chunks that `munmap` gets are written down, and so are the objects that `objdestroy` is called
for.  The callback of the code ends with `PoolObj_free`, and this is all it does to the pool.  Where
the code uses a chunk that is not mapped, or looks for an object in use outside of a chunk, the
functions here return `none`.

Only objects of the first chunk can be freed this way.  What `PoolObj_free` does for one of them
(`AtFirst.objdestroy` and the two theorems behind it) depends on `lastused` and on the kept chunk.
-/

namespace PoserCore.ObjectPool

/-! ## What `PoolObj_free` unmaps -/

/-- The kept chunk, when its time is over. -/
def dropUnmapped (s : Pool) : List Addr :=
  if s.keepcnt - 1 = 0 then s.keep.toList else []

/-- `PoolObj_free` up to the release of chunks, with the chunk of the object and its number. -/
def Pool.freeObj (s : Pool) (obj : Addr × ℕ) : Option (Pool × Addr × ℕ) := do
  let s := dropKeep s
  let hdr ← s.mem obj.1
  let id := (hdr.slot obj.2).id
  let s := { s with
    mem := Function.update s.mem obj.1
      (some { hdr with slot := Function.update hdr.slot obj.2 ⟨id, false⟩ })
    firstfree := if s.firstfree.all (id < ·) then some id else s.firstfree
    nfree := s.nfree + 1 }
  let a ← walk s.mem s.first (id / s.objsperchunk)
  let hdr ← s.mem a
  some ({ s with mem := Function.update s.mem a (some { hdr with nfree := hdr.nfree + 1 }) }, a, id)

/-- The body of the loop that releases chunks: the chunk `a` takes the place of the kept one. -/
def releaseOne (s : Pool) (a : Addr) (hdr : Hdr) : Option Pool :=
  let s := { s with
    last := hdr.prev
    nfree := s.nfree - s.objsperchunk
    nobj := s.nobj - s.objsperchunk
    mem := unmapKeep s
    keep := some a
    keepcnt := 16 }
  match s.last with
  | none => some s
  | some b => (s.mem b).map fun bhdr =>
      { s with mem := Function.update s.mem b (some { bhdr with next := none }) }

/-- What this loop unmaps. -/
def releaseUnmapped : (fuel : ℕ) → Pool → Option Addr → List Addr
  | 0, _, _ => []
  | _ + 1, _, none => []
  | fuel + 1, s, some a =>
      match s.mem a with
      | none => []
      | some hdr =>
        if hdr.nfree = s.objsperchunk then
          s.keep.toList ++ match releaseOne s a hdr with
            | none => []
            | some s => releaseUnmapped fuel s s.last
        else []

/-- What `PoolObj_free` unmaps; nothing if it follows `NULL`. -/
def Pool.freeUnmapped (s : Pool) (obj : Addr × ℕ) : Option (List Addr) :=
  (s.freeObj obj).map fun (s', a, id) =>
    dropUnmapped s ++
      if s'.lastused ≠ some id then [] else releaseUnmapped (s'.nobj + 1) s' (some a)

theorem release_eq (fuel : ℕ) (s : Pool) (a : Addr) : release (fuel + 1) s (some a) =
    (s.mem a).bind fun hdr =>
      if hdr.nfree = s.objsperchunk then
        (releaseOne s a hdr).bind fun s =>
          (release fuel s s.last).map fun (s, p, n) => (s, p, n + 1)
      else some (s, some a, 0) := by
  rw [release]
  refine congrArg _ (funext fun hdr => ?_)
  split_ifs with hfree
  · simp only [releaseOne, Option.bind_eq_bind, Option.map_eq_bind]
    cases hdr.prev with
    | none => rfl
    | some b => rfl
  · rfl

theorem free_eq_freeObj (s : Pool) (obj : Addr × ℕ) (found : Option ℕ) : s.free obj found =
    (s.freeObj obj).bind fun (s, a, id) =>
      if s.lastused ≠ some id then some s
      else (release (s.nobj + 1) s (some a)).bind fun (s', _, released) =>
        if id / s.objsperchunk < released then some { s' with lastused := none, firstfree := none }
        else if 0 < released then some { s' with lastused := found }
        else (s'.mem obj.1).bind fun hdr =>
          some { s' with lastused := (scanDown hdr obj.2 id).or found } := by
  simp only [Pool.free, Pool.freeObj, Option.bind_eq_bind, Option.bind_assoc, Option.bind_some]

theorem unmapKeep_eq_none (s : Pool) (b : Addr) :
    unmapKeep s b = none ↔ s.mem b = none ∨ b ∈ s.keep.toList := by
  rw [unmapKeep, Option.mem_toList]
  cases s.keep with
  | none => simp
  | some c =>
    by_cases hb : b = c
    · subst hb
      simp
    · simp [hb, Ne.symm hb]

/-- The list is right: these chunks are not mapped afterwards, and all others are as before. -/
theorem unmapped_dropKeep (s : Pool) (b : Addr) :
    (dropKeep s).mem b = none ↔ s.mem b = none ∨ b ∈ dropUnmapped s := by
  rw [dropKeep, dropUnmapped]
  split_ifs with hk hcount hcount
  · exact unmapKeep_eq_none s b
  · simp
  · simp [Option.not_isSome_iff_eq_none.1 hk]
  · simp

theorem mem_update_eq_none {mem : Addr → Option Hdr} {a : Addr} {hdr hdr' : Hdr}
    (hm : mem a = some hdr) (b : Addr) :
    Function.update mem a (some hdr') b = none ↔ mem b = none := by
  by_cases hb : b = a
  · subst hb
    rw [Function.update_self, hm]
    exact iff_of_false (Option.some_ne_none _) (Option.some_ne_none _)
  · rw [Function.update_of_ne hb]

theorem unmapped_releaseOne {s s' : Pool} {a : Addr} {hdr : Hdr}
    (h : releaseOne s a hdr = some s') (b : Addr) :
    s'.mem b = none ↔ s.mem b = none ∨ b ∈ s.keep.toList := by
  rw [releaseOne] at h
  cases hp : hdr.prev with
  | none =>
    simp only [hp, Option.some_inj] at h
    subst h
    exact unmapKeep_eq_none s b
  | some c =>
    simp only [hp] at h
    obtain ⟨chdr, hm, rfl⟩ := Option.map_eq_some_iff.1 h
    exact (mem_update_eq_none hm b).trans (unmapKeep_eq_none s b)

theorem unmapped_release : ∀ (fuel : ℕ) {s s' : Pool} {p q : Option Addr} {n : ℕ},
    release fuel s p = some (s', q, n) → ∀ b,
      s'.mem b = none ↔ s.mem b = none ∨ b ∈ releaseUnmapped fuel s p
  | 0, _, _, _, _, _, h => by cases h
  | fuel + 1, s, s', none, q, n, h => by
      cases h
      simp [releaseUnmapped]
  | fuel + 1, s, s', some a, q, n, h => by
      intro b
      rw [release_eq] at h
      obtain ⟨hdr, hm, h⟩ := Option.bind_eq_some_iff.1 h
      simp only [releaseUnmapped, hm]
      split_ifs at h ⊢ with hfree
      · obtain ⟨s1, hone, h⟩ := Option.bind_eq_some_iff.1 h
        obtain ⟨⟨s2, q2, n2⟩, hrest, h⟩ := Option.map_eq_some_iff.1 h
        cases h
        rw [unmapped_release fuel hrest b, unmapped_releaseOne hone b, hone, List.mem_append,
          or_assoc]
      · cases h
        simp

theorem unmapped_freeObj {s s' : Pool} {obj : Addr × ℕ} {a : Addr} {id : ℕ}
    (h : s.freeObj obj = some (s', a, id)) (b : Addr) :
    s'.mem b = none ↔ (dropKeep s).mem b = none := by
  obtain ⟨hdr, hm, h⟩ := Option.bind_eq_some_iff.1 h
  obtain ⟨c, -, h⟩ := Option.bind_eq_some_iff.1 h
  obtain ⟨hdr', hm', h⟩ := Option.bind_eq_some_iff.1 h
  cases h
  exact (mem_update_eq_none hm' b).trans (mem_update_eq_none hm b)

/-- `PoolObj_free` unmaps the chunks in the list and no other. -/
theorem unmapped_free {s s' : Pool} {obj : Addr × ℕ} {found : Option ℕ}
    (h : s.free obj found = some s') : ∃ unmapped, s.freeUnmapped obj = some unmapped ∧
      ∀ b, s'.mem b = none ↔ s.mem b = none ∨ b ∈ unmapped := by
  rw [free_eq_freeObj] at h
  obtain ⟨⟨s1, a, id⟩, hobj, h⟩ := Option.bind_eq_some_iff.1 h
  have hbefore (b : Addr) : s1.mem b = none ↔ s.mem b = none ∨ b ∈ dropUnmapped s :=
    (unmapped_freeObj hobj b).trans (unmapped_dropKeep s b)
  rw [Pool.freeUnmapped, hobj, Option.map_some]
  refine ⟨_, rfl, fun b => ?_⟩
  dsimp only at h ⊢
  rw [List.mem_append, ← or_assoc, ← hbefore]
  split_ifs at h ⊢ with hlast
  · cases h
    simp
  · obtain ⟨⟨s2, q, n⟩, hrel, h⟩ := Option.bind_eq_some_iff.1 h
    have hmem : s'.mem = s2.mem := by
      dsimp only at h
      split_ifs at h
      · cases h
        rfl
      · cases h
        rfl
      · obtain ⟨hdr, -, h⟩ := Option.bind_eq_some_iff.1 h
        cases h
        rfl
    rw [hmem]
    exact unmapped_release _ hrel b

/-! ## `ObjectPool_destroy` -/

structure Destroying where
  pool : Pool
  called : List (Addr × ℕ)
  unmapped : List Addr

/-- `objdestroy(p)` -/
def Destroying.objdestroy (d : Destroying) (obj : Addr × ℕ) : Option Destroying := do
  let inspected ← d.pool.freeInspected obj
  let unmapped ← d.pool.freeUnmapped obj
  let pool ← d.pool.free obj none
  if ∀ x ∈ inspected, 0 ≤ x.2 ∧ x.2 < d.pool.objsperchunk then
    some { pool := pool, called := d.called ++ [obj], unmapped := d.unmapped ++ unmapped }
  else none

/-- `while (used)`, at slot `k` of the chunk `a`, with `slots` slots left in the chunk. -/
def destroyObjs (a : Addr) : (slots : ℕ) → Destroying → (used k : ℕ) → Option Destroying
  | _, d, 0, _ => some d
  | 0, _, _ + 1, _ => none
  | slots + 1, d, used + 1, k =>
      (d.pool.mem a).bind fun hdr =>
        if (hdr.slot k).used then
          (d.objdestroy (a, k)).bind fun d => destroyObjs a slots d used (k + 1)
        else destroyObjs a slots d (used + 1) (k + 1)

/-- `munmap(hdr)` -/
def Destroying.unmap (d : Destroying) (a : Addr) : Destroying :=
  { d with
    pool := { d.pool with mem := Function.update d.pool.mem a none }
    unmapped := d.unmapped ++ [a] }

/-- The loop over the chunks; `objdestroy` says whether there is a callback. -/
def destroyChunks (objdestroy : Bool) : (fuel : ℕ) → Destroying → Option Addr → Option Destroying
  | 0, _, _ => none
  | _ + 1, d, none => some d
  | fuel + 1, d, some a =>
      (d.pool.mem a).bind fun hdr =>
        let o := d.pool.objsperchunk
        (if objdestroy then destroyObjs a o d (o - hdr.nfree) 0 else some d).bind fun d =>
          destroyChunks objdestroy fuel (d.unmap a) hdr.next

/-- `ObjectPool_destroy` -/
def Pool.destroy (s : Pool) (objdestroy : Bool) : Option Destroying :=
  destroyChunks objdestroy (s.nobj + 1) ⟨{ s with mem := unmapKeep s }, [], s.keep.toList⟩ s.first

/-- `objdestroy` is called once for every live object, every chunk that is linked or kept is unmapped
once, and no chunk is used afterwards. -/
def Destroyed (s : Pool) (live : List (Addr × ℕ)) (objdestroy : Bool) : Prop :=
  ∃ d, s.destroy objdestroy = some d ∧ d.called.Perm (if objdestroy then live else []) ∧
    d.unmapped.Nodup ∧ ∀ a, a ∈ d.unmapped ↔ Linked s a ∨ s.keep = some a

variable {s s' : Pool} {cs l : List Addr} {a : Addr} {hdr : Hdr} {k : ℕ}

/-! ## One object of the first chunk -/

/-- The pool while the objects of its first chunk `a` are destroyed; `l` are the chunks behind. -/
structure AtFirst (s : Pool) (a : Addr) (hdr : Hdr) (l : List Addr) : Prop where
  first : s.first = some a
  chunk : s.mem a = some hdr
  prev : hdr.prev = none
  nobj : 0 < s.nobj
  keep : ∀ b ∈ a :: l, s.keep ≠ some b
  behind : a ∉ l
  ids : ∀ j < s.objsperchunk, (hdr.slot j).used = true → (hdr.slot j).id = j

theorem keep_dropKeep {b : Addr} (hb : s.keep ≠ some b) : (dropKeep s).keep ≠ some b := by
  rw [dropKeep]
  split_ifs
  · exact (Option.some_ne_none b).symm
  · exact hb
  · exact hb

/-- The pool after the object was marked as free. -/
theorem AtFirst.free (h : AtFirst s a hdr l) (hk : k < s.objsperchunk) :
    AtFirst (freed (dropKeep s) a hdr k) a (hdr.give k) l where
  first := (same_dropKeep_of h.keep).first.trans h.first
  chunk := Function.update_self ..
  prev := h.prev
  nobj := (same_dropKeep_of h.keep).nobj.symm ▸ h.nobj
  keep b hb := keep_dropKeep (h.keep b hb)
  behind := h.behind
  ids j hj hu := by
    have ho : (freed (dropKeep s) a hdr k).objsperchunk = s.objsperchunk :=
      (same_dropKeep_of h.keep).objsperchunk
    by_cases hjk : j = k
    · subst hjk
      simp [Hdr.give] at hu
    · simp only [Hdr.give, Function.update_of_ne hjk] at hu ⊢
      exact h.ids j (ho ▸ hj) hu

theorem AtFirst.freed_mem (h : AtFirst s a hdr l) {b : Addr} (hb : b ∈ l) :
    (freed (dropKeep s) a hdr k).mem b = s.mem b := by
  have hba : b ≠ a := fun hba => h.behind (hba ▸ hb)
  exact (Function.update_of_ne hba ..).trans
    ((same_dropKeep_of h.keep).mem b (List.mem_cons_of_mem _ hb))

theorem freeObj_eq (hm : (dropKeep s).mem a = some hdr)
    (hw : walk (dropKeep s).mem (dropKeep s).first
      ((hdr.slot k).id / (dropKeep s).objsperchunk) = some a) :
    s.freeObj (a, k) = some (freed (dropKeep s) a hdr k, a, (hdr.slot k).id) := by
  have hwalk := walk_slot hm hw (Function.update hdr.slot k ⟨(hdr.slot k).id, false⟩)
  simp only [Pool.freeObj, Option.bind_eq_bind, hm, Option.bind_some, hwalk, Function.update_self,
    Function.update_idem, freed, Hdr.give]

/-- The number of the object leads to the first chunk. -/
theorem AtFirst.reaches (h : AtFirst s a hdr l) (hk : k < s.objsperchunk)
    (hu : (hdr.slot k).used = true) : (dropKeep s).mem a = some hdr ∧
      walk (dropKeep s).mem (dropKeep s).first
        ((hdr.slot k).id / (dropKeep s).objsperchunk) = some a := by
  have hsame := same_dropKeep_of h.keep
  refine ⟨(hsame.mem a List.mem_cons_self).trans h.chunk, ?_⟩
  rw [h.ids k hk hu, hsame.objsperchunk, Nat.div_eq_of_lt hk, hsame.first, h.first,
    walk]

/-- The object is not the one `lastused` names. -/
theorem AtFirst.objdestroy (h : AtFirst s a hdr l) (hk : k < s.objsperchunk)
    (hu : (hdr.slot k).used = true) (hlast : s.lastused ≠ some k) (called : List (Addr × ℕ))
    (unmapped : List Addr) : Destroying.objdestroy ⟨s, called, unmapped⟩ (a, k) =
      some ⟨freed (dropKeep s) a hdr k, called ++ [(a, k)],
        unmapped ++ dropUnmapped s⟩ := by
  obtain ⟨hm, hw⟩ := h.reaches hk hu
  have hne : (freed (dropKeep s) a hdr k).lastused ≠ some (hdr.slot k).id := by
    rw [h.ids k hk hu]
    exact fun hl => hlast ((same_dropKeep_of h.keep).lastused.symm.trans hl)
  simp only [Destroying.objdestroy, Option.bind_eq_bind, freeInspected_eq hm hw, Pool.freeUnmapped,
    freeObj_eq hm hw, free_eq hm hw, if_pos hne, Option.map_some, Option.bind_some,
    List.append_nil]
  exact if_pos (List.forall_mem_nil _)

theorem scannedDown_leaves (h : ∀ j ≤ k, (hdr.slot j).used = false) : -1 ∈ scannedDown hdr k := by
  induction k with
  | zero =>
    rw [scannedDown, h 0 le_rfl]
    simp
  | succ k ih =>
    rw [scannedDown, h (k + 1) le_rfl]
    exact List.mem_cons_of_mem _ (ih fun j hj => h j (Nat.le_succ_of_le hj))

/-- It is, and no object before it is left: the search for another one leaves the chunk. -/
theorem AtFirst.objdestroy_leaves (h : AtFirst s a hdr l) (hk : k < s.objsperchunk)
    (hu : (hdr.slot k).used = true) (hlast : s.lastused = some k)
    (hbefore : ∀ j < k, (hdr.slot j).used = false) (hne : hdr.nfree + 1 ≠ s.objsperchunk)
    (called : List (Addr × ℕ)) (unmapped : List Addr) :
    Destroying.objdestroy ⟨s, called, unmapped⟩ (a, k) = none := by
  obtain ⟨hm, hw⟩ := h.reaches hk hu
  have hsame := same_dropKeep_of h.keep
  have hlast' : (freed (dropKeep s) a hdr k).lastused = some (hdr.slot k).id := by
    rw [h.ids k hk hu]
    exact hsame.lastused.trans hlast
  have hfull : (hdr.give k).nfree ≠ (freed (dropKeep s) a hdr k).objsperchunk :=
    fun hfull => hne (hfull.trans hsame.objsperchunk)
  have hself : (freed (dropKeep s) a hdr k).mem a = some (hdr.give k) :=
    Function.update_self ..
  have hfree : ∀ j ≤ k, ((hdr.give k).slot j).used = false := by
    intro j hj
    rcases Nat.eq_or_lt_of_le hj with rfl | hlt
    · simp [Hdr.give]
    · simp only [Hdr.give, Function.update_of_ne hlt.ne]
      exact hbefore j hlt
  have hslots : s.freeInspected (a, k) =
      some ((scannedDown (hdr.give k) k).map fun j => (a, j)) := by
    rw [freeInspected_eq hm hw]
    dsimp only
    rw [if_neg (not_not.2 hlast'), release, hself, Option.bind_some, if_neg hfull,
      Option.bind_some]
    dsimp only
    rw [if_neg (Nat.not_lt_zero _), if_neg (Nat.lt_irrefl 0), hself, Option.bind_some]
  have hout : ¬ ∀ x ∈ (scannedDown (hdr.give k) k).map fun j => (a, j),
      0 ≤ x.2 ∧ x.2 < (s.objsperchunk : ℤ) := by
    intro hall
    have := (hall (a, -1) (List.mem_map_of_mem (scannedDown_leaves hfree))).1
    exact absurd this (Int.not_le.2 (by decide : (-1 : ℤ) < 0))
  simp only [Destroying.objdestroy, Option.bind_eq_bind, hslots, Option.bind_some, if_neg hout]
  cases s.freeUnmapped (a, k) with
  | none => rfl
  | some u =>
    cases s.free (a, k) none with
    | none => rfl
    | some s' => rfl

theorem dropUnmapped_append (s : Pool) :
    dropUnmapped s ++ (dropKeep s).keep.toList = s.keep.toList := by
  rw [dropUnmapped, dropKeep]
  split_ifs with hcount hk hk
  · exact List.append_nil _
  · rw [Option.not_isSome_iff_eq_none.1 hk]
    rfl
  · rfl
  · rfl

/-- The release of the first chunk ends there. -/
theorem AtFirst.release_first (h : AtFirst s a hdr l) (hfull : hdr.nfree = s.objsperchunk) :
    ∃ s', release (s.nobj + 1) s (some a) = some (s', none, 1) ∧
      releaseUnmapped (s.nobj + 1) s (some a) = s.keep.toList ∧ s'.first = s.first ∧
      s'.objsperchunk = s.objsperchunk ∧ ∀ b ∈ l, s'.mem b = s.mem b := by
  obtain ⟨s', hone, hlast, hfirst, ho, hmem⟩ : ∃ s', releaseOne s a hdr = some s' ∧
      s'.last = none ∧ s'.first = s.first ∧ s'.objsperchunk = s.objsperchunk ∧
      s'.mem = unmapKeep s := by
    simp only [releaseOne, h.prev]
    exact ⟨_, rfl, rfl, rfl, rfl, rfl⟩
  obtain ⟨n, hn⟩ := Nat.exists_eq_succ_of_ne_zero (Nat.ne_of_gt h.nobj)
  refine ⟨s', ?_, ?_, hfirst, ho, fun b hb => ?_⟩
  · rw [release_eq, h.chunk, Option.bind_some, if_pos hfull, hone, Option.bind_some, hlast, hn,
      release]
    rfl
  · simp only [releaseUnmapped, h.chunk, if_pos hfull, hone, hlast, hn, List.append_nil]
  · rw [hmem]
    exact mem_unmapKeep_of (h.keep b (List.mem_cons_of_mem _ hb))

/-- It is the last one of the chunk, which takes the place of the kept one. -/
theorem AtFirst.objdestroy_releases (h : AtFirst s a hdr l) (hk : k < s.objsperchunk)
    (hu : (hdr.slot k).used = true) (hlast : s.lastused = some k)
    (hfull : hdr.nfree + 1 = s.objsperchunk) (called : List (Addr × ℕ)) (unmapped : List Addr) :
    ∃ s', Destroying.objdestroy ⟨s, called, unmapped⟩ (a, k) =
        some ⟨s', called ++ [(a, k)], unmapped ++ s.keep.toList⟩ ∧
      s'.first = some a ∧ s'.objsperchunk = s.objsperchunk ∧ ∀ b ∈ l, s'.mem b = s.mem b := by
  obtain ⟨hm, hw⟩ := h.reaches hk hu
  have hsame := same_dropKeep_of h.keep
  have hid := h.ids k hk hu
  have hlast' : (freed (dropKeep s) a hdr k).lastused = some (hdr.slot k).id := by
    rw [hid]
    exact hsame.lastused.trans hlast
  have hno : (hdr.slot k).id / (dropKeep s).objsperchunk < 1 := by
    rw [hid, hsame.objsperchunk, Nat.div_eq_of_lt hk]
    exact Nat.one_pos
  obtain ⟨s', hrun, hunmapped, hfirst, ho, hmem⟩ :=
    (h.free hk).release_first (hfull.trans hsame.objsperchunk.symm)
  refine ⟨{ s' with lastused := none, firstfree := none }, ?_,
    hfirst.trans (hsame.first.trans h.first), ho.trans hsame.objsperchunk, fun b hb =>
    (hmem b hb).trans (h.freed_mem hb)⟩
  have hne : ¬ (freed (dropKeep s) a hdr k).lastused ≠ some (hdr.slot k).id :=
    not_not.2 hlast'
  have hlog : dropUnmapped s ++ (freed (dropKeep s) a hdr k).keep.toList =
    s.keep.toList := dropUnmapped_append s
  simp only [Destroying.objdestroy, Option.bind_eq_bind, freeInspected_eq hm hw, Pool.freeUnmapped,
    freeObj_eq hm hw, free_eq hm hw, if_neg hne, Option.map_some, Option.bind_some, hrun,
    hunmapped, if_pos hno, hlog]
  exact if_pos (List.forall_mem_nil _)

end PoserCore.ObjectPool
