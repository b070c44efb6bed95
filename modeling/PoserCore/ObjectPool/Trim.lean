import Mathlib.Data.Nat.Find
import Mathlib.Tactic.Ring
import PoserCore.ObjectPool.LastUsed

/-!
# Trimming a chunk

After the search for the last object in use `PoolObj_free` gives the pages behind that object back to
the system.  Rounding up to pages adds `pagesz` pages where it should add one
(`usedbytes / pagesz + !!(usedbytes % pagesz) * pagesz`), so the range given to `madvise` begins behind
the chunk unless the last object ends at the end of a page or the chunk is larger than that many pages
(`trim_free_iff`).

The positions in a chunk are relative to its address, which is the beginning of a page.
-/

namespace PoserCore.ObjectPool

open Lib (Machine)

/-- `sizeof (ObjPoolHdr)` -/
def sizeofHdr : ℕ := 24

/-- The size of a pointer to a header. -/
def sizeofPtr : ℕ := 8

/-- The numbers of a `size_t`. -/
def sizeRange : ℕ := 2 ^ 64

/-- The arguments of `ObjectPool_create` and the page size, with which no computation overflows. -/
structure Sizes where
  pagesz : ℕ
  objsz : ℕ
  objsPerChunk : ℕ
  pagesz_pow : ∃ e, pagesz = 2 ^ e
  objsz_pos : 0 < objsz
  objsPerChunk_pos : 0 < objsPerChunk
  fits : objsz * objsPerChunk + sizeofHdr + pagesz ≤ sizeRange

namespace Sizes

variable (z : Sizes)

def partialpg : ℕ := (z.objsz * z.objsPerChunk + sizeofHdr) % z.pagesz

def extra : ℕ := z.pagesz - z.partialpg

/-- The `chunksz` that `ObjectPool_create` sets. -/
def chunksz : ℕ :=
  if z.partialpg ≠ 0 then z.objsz * z.objsPerChunk + sizeofHdr + z.extra
  else z.objsz * z.objsPerChunk + sizeofHdr

/-- The `objsperchunk` that `ObjectPool_create` sets. -/
def objsperchunk : ℕ :=
  if z.partialpg ≠ 0 then z.objsPerChunk + z.extra / z.objsz else z.objsPerChunk

/-- Where slot `k` of a chunk begins. -/
def offset (k : ℕ) : ℕ := sizeofHdr + k * z.objsz

def usedpg (usedbytes : ℕ) : ℕ :=
  (usedbytes / z.pagesz + (if usedbytes % z.pagesz ≠ 0 then 1 else 0) * z.pagesz) % sizeRange

/-- `usedpg * pagesz`, where the range begins. -/
def start (usedbytes : ℕ) : ℕ := z.usedpg usedbytes * z.pagesz % sizeRange

def freebytes (usedbytes : ℕ) : ℕ := (z.chunksz + sizeRange - z.start usedbytes) % sizeRange

/-- The range that `madvise` is called for, if it is called. -/
def trim (usedbytes : ℕ) : Option (ℕ × ℕ) :=
  if z.freebytes usedbytes ≠ 0 then some (z.start usedbytes, z.freebytes usedbytes) else none

end Sizes

/-- The trimming code of `PoolObj_free`, if it is reached: the chunk and `usedbytes`.  `lastused` is
what the search ends with that leaves the chunk, or that begins outside of it. -/
def Pool.usedbytes (z : Sizes) (s : Pool) (obj : Addr × ℕ) (lastused : ℕ) :
    Option (Option (Addr × ℕ)) := do
  let s := dropKeep s
  let hdr ← s.mem obj.1
  let id := (hdr.slot obj.2).id
  let s := { s with
    mem := Function.update s.mem obj.1
      (some { hdr with slot := Function.update hdr.slot obj.2 ⟨id, false⟩ })
    firstfree := if s.firstfree.all (id < ·) then some id else s.firstfree
    nfree := s.nfree + 1 }
  let chunkno := id / s.objsperchunk
  let a ← walk s.mem s.first chunkno
  let hdr ← s.mem a
  let s := { s with mem := Function.update s.mem a (some { hdr with nfree := hdr.nfree + 1 }) }
  if s.lastused ≠ some id then some none
  else do
    let (s, p, released) ← release (s.nobj + 1) s (some a)
    if chunkno < released then some none
    else if 0 < released then
      -- the search began `sizeof hdr` bytes behind the chunk, not `sizeof *hdr`
      p.map fun b => some (b, (sizeofPtr + lastused * z.objsz + z.objsz) % sizeRange)
    else do
      let hdr ← s.mem obj.1
      let n := (scanDown hdr obj.2 id).getD lastused
      let p : ℤ := sizeofHdr + (obj.2 - (id - n)) * z.objsz
      some (some (obj.1, ((p + z.objsz) % sizeRange).toNat))

/-! ## Free memory -/

/-- The range is on page boundaries and in the chunk, behind its header and beside its objects in
use. -/
structure FreeRange (z : Sizes) (live : List (Addr × ℕ)) (a : Addr) (start len : ℕ) : Prop where
  aligned : start % z.pagesz = 0
  inside : start + len ≤ z.chunksz
  header : sizeofHdr ≤ start
  objects : ∀ k, (a, k) ∈ live → start + len ≤ z.offset k ∨ z.offset (k + 1) ≤ start

/-- What is given back is free. -/
def TrimsFree (z : Sizes) (live : List (Addr × ℕ)) (a : Addr) (usedbytes : ℕ) : Prop :=
  ∀ start len, z.trim usedbytes = some (start, len) → FreeRange z live a start len

/-- The last object in use of a chunk is in slot `k`. -/
structure LastSlot (live : List (Addr × ℕ)) (a : Addr) (k : ℕ) : Prop where
  mem : (a, k) ∈ live
  le : ∀ j, (a, j) ∈ live → j ≤ k

/-- `usedbytes`, up to the page boundary the code takes, is between the end of slot `k` and the end of
the chunk. -/
def Sizes.Between (z : Sizes) (k usedbytes : ℕ) : Prop :=
  if usedbytes % z.pagesz = 0 then z.offset (k + 1) ≤ usedbytes ∧ usedbytes ≤ z.chunksz
  else z.offset (k + 1) ≤ (usedbytes / z.pagesz + z.pagesz) * z.pagesz % sizeRange ∧
    (usedbytes / z.pagesz + z.pagesz) * z.pagesz % sizeRange ≤ z.chunksz

/-! ## The sizes -/

section Sizes

variable (z : Sizes)

theorem pagesz_pos : 0 < z.pagesz := by
  obtain ⟨e, he⟩ := z.pagesz_pow
  rw [he]
  exact Nat.two_pow_pos e

theorem objsperchunk_pos : 0 < z.objsperchunk := by
  rw [Sizes.objsperchunk]
  split_ifs
  · exact Nat.add_pos_left z.objsPerChunk_pos _
  · exact z.objsPerChunk_pos

theorem chunksz_lt : z.chunksz < sizeRange := by
  have hfits := z.fits
  have hpos := pagesz_pos z
  rw [Sizes.chunksz]
  split_ifs with hp
  · have hextra : z.extra < z.pagesz := Nat.sub_lt hpos (Nat.pos_of_ne_zero hp)
    omega
  · omega

/-- The objects fit in the chunk. -/
theorem offset_le : z.offset z.objsperchunk ≤ z.chunksz := by
  rw [Sizes.offset, Sizes.objsperchunk, Sizes.chunksz]
  split_ifs
  · have hextra := Nat.div_mul_le_self z.extra z.objsz
    rw [Nat.add_mul, Nat.mul_comm z.objsPerChunk]
    omega
  · rw [Nat.mul_comm, Nat.add_comm]

theorem offset_mono {j k : ℕ} (h : j ≤ k) : z.offset j ≤ z.offset k :=
  Nat.add_le_add_left (Nat.mul_le_mul_right _ h) _

theorem start_mod (usedbytes : ℕ) : z.start usedbytes % z.pagesz = 0 := by
  have hdvd : z.pagesz ∣ sizeRange := by
    obtain ⟨e, he⟩ := z.pagesz_pow
    have hle : z.pagesz ≤ 2 ^ 64 := Nat.le_of_add_left_le z.fits
    rw [he] at hle ⊢
    exact Nat.pow_dvd_pow 2 ((Nat.pow_le_pow_iff_right (by decide)).1 hle)
  rw [Sizes.start, Nat.mod_mod_of_dvd _ hdvd, Nat.mul_mod_left]

theorem start_eq (usedbytes : ℕ) : z.start usedbytes =
    if usedbytes % z.pagesz = 0 then usedbytes % sizeRange
    else (usedbytes / z.pagesz + z.pagesz) * z.pagesz % sizeRange := by
  rw [Sizes.start, Sizes.usedpg, Nat.mod_mul_mod]
  by_cases h : usedbytes % z.pagesz = 0
  · rw [if_pos h, if_neg (not_not.2 h), Nat.zero_mul, Nat.add_zero,
      Nat.div_mul_cancel (Nat.dvd_of_mod_eq_zero h)]
  · rw [if_neg h, if_pos h, Nat.one_mul]

theorem freebytes_eq (usedbytes : ℕ) : z.freebytes usedbytes =
    if z.start usedbytes ≤ z.chunksz then z.chunksz - z.start usedbytes
    else z.chunksz + sizeRange - z.start usedbytes := by
  have hstart : z.start usedbytes < sizeRange := Nat.mod_lt _ (by decide)
  have hchunk := chunksz_lt z
  rw [Sizes.freebytes]
  split_ifs with h
  · have hsub : z.chunksz + sizeRange - z.start usedbytes =
      z.chunksz - z.start usedbytes + sizeRange := by omega
    rw [hsub, Nat.add_mod_right, Nat.mod_eq_of_lt (by omega)]
  · exact Nat.mod_eq_of_lt (by omega)

end Sizes

/-! ## The range -/

variable {z : Sizes} {live : List (Addr × ℕ)} {a : Addr} {k : ℕ} {usedbytes : ℕ}

theorem end_le_chunksz (hk : k < z.objsperchunk) : z.offset (k + 1) ≤ z.chunksz :=
  (offset_mono z hk).trans (offset_le z)

/-- The range is free if it begins between the end of the last object and the end of the chunk. -/
theorem trimsFree_iff_start (hl : LastSlot live a k) (hk : k < z.objsperchunk) :
    TrimsFree z live a usedbytes ↔
      z.offset (k + 1) ≤ z.start usedbytes ∧ z.start usedbytes ≤ z.chunksz := by
  have hend := end_le_chunksz hk
  have hfree := freebytes_eq z usedbytes
  constructor
  · intro h
    by_cases hz : z.freebytes usedbytes = 0
    · have hchunk := chunksz_lt z
      have hstart : z.start usedbytes < sizeRange := Nat.mod_lt _ (by decide)
      split_ifs at hfree <;> omega
    · obtain ⟨-, hinside, -, hobjects⟩ := h _ _ (by rw [Sizes.trim, if_pos hz])
      have hbegin := offset_mono z (Nat.le_succ k)
      rcases hobjects k hl.mem with hbefore | hbehind
      · have hstart : z.start usedbytes < sizeRange := Nat.mod_lt _ (by decide)
        have hsize : 0 < z.objsz := z.objsz_pos
        rw [Sizes.offset, Nat.succ_mul] at hend
        rw [Sizes.offset] at hbefore
        split_ifs at hfree <;> omega
      · exact ⟨hbehind, Nat.le_of_add_right_le hinside⟩
  · rintro ⟨hbegin, hle⟩ start len htrim
    rw [Sizes.trim] at htrim
    split_ifs at htrim
    obtain ⟨rfl, rfl⟩ := Prod.mk.inj (Option.some.inj htrim)
    rw [if_pos hle] at hfree
    refine ⟨start_mod z usedbytes, by omega, ?_, fun j hj => .inr ?_⟩
    · exact (Nat.le_add_right _ _).trans hbegin
    · exact (offset_mono z (Nat.succ_le_succ (hl.le j hj))).trans hbegin

theorem trimsFree_iff_between (hl : LastSlot live a k) (hk : k < z.objsperchunk)
    (hu : usedbytes < sizeRange) : TrimsFree z live a usedbytes ↔ z.Between k usedbytes := by
  rw [trimsFree_iff_start hl hk, start_eq, Nat.mod_eq_of_lt hu, Sizes.Between]
  split_ifs <;> rfl

/-- Where the code takes the end of the last object for `usedbytes`. -/
theorem between_end_iff (hk : k < z.objsperchunk) : z.Between k (z.offset (k + 1)) ↔
    z.offset (k + 1) % z.pagesz = 0 ∨
      (z.offset (k + 1) / z.pagesz + z.pagesz) * z.pagesz ≤ z.chunksz := by
  have hend := end_le_chunksz hk
  have hchunk := chunksz_lt z
  have hpos := pagesz_pos z
  rw [Sizes.Between]
  generalize z.offset (k + 1) = e at hend ⊢
  have hdiv := Nat.div_add_mod' e z.pagesz
  split_ifs with hmod
  · exact iff_of_true ⟨le_rfl, hend⟩ (.inl hmod)
  · rw [or_iff_right hmod, Nat.add_mul]
    by_cases hlt : e / z.pagesz * z.pagesz + z.pagesz * z.pagesz < sizeRange
    · have hpage : z.pagesz ≤ z.pagesz * z.pagesz := Nat.le_mul_of_pos_left _ hpos
      have hrest := Nat.mod_lt e hpos
      rw [Nat.mod_eq_of_lt hlt]
      exact and_iff_right_of_imp fun _ => by omega
    · -- the product is taken modulo `2 ^ 64`, which is before the end of the object
      refine iff_of_false (fun h => ?_) (by omega)
      obtain ⟨b, hb⟩ := z.pagesz_pow
      by_cases hb32 : b < 32
      · have hsq : z.pagesz * z.pagesz < sizeRange := by
          rw [hb, ← Nat.pow_add]
          exact Nat.pow_lt_pow_right (by decide) (by omega)
        rw [Nat.mod_eq_sub_mod (by omega), Nat.mod_eq_of_lt (by omega)] at h
        omega
      · have hsq : z.pagesz * z.pagesz % sizeRange = 0 := by
          refine Nat.mod_eq_zero_of_dvd ?_
          rw [hb, ← Nat.pow_add]
          exact Nat.pow_dvd_pow 2 (by omega)
        rw [Nat.add_mod, hsq, Nat.add_zero, Nat.mod_mod, Nat.mod_eq_of_lt (by omega)] at h
        have hne := Nat.pos_of_ne_zero hmod
        omega

/-! ## Where the search ends -/

variable {s s' : Pool} {cs : List Addr} {hdr : Hdr} {lastused : ℕ}

theorem usedbytes_eq (hm : (dropKeep s).mem a = some hdr)
    (hw : walk (dropKeep s).mem (dropKeep s).first
      ((hdr.slot k).id / (dropKeep s).objsperchunk) = some a) :
    s.usedbytes z (a, k) lastused =
      let id := (hdr.slot k).id
      let s' := freed (dropKeep s) a hdr k
      if s'.lastused ≠ some id then some none
      else (release (s'.nobj + 1) s' (some a)).bind fun (s', p, released) =>
        if id / (dropKeep s).objsperchunk < released then some none
        else if 0 < released then
          p.map fun b => some (b, (sizeofPtr + lastused * z.objsz + z.objsz) % sizeRange)
        else (s'.mem a).bind fun hdr' =>
          some (some (a, ((sizeofHdr + (k - (id - (scanDown hdr' k id).getD lastused)) * z.objsz +
            z.objsz : ℤ) % sizeRange).toNat)) := by
  have hwalk := walk_slot hm hw (Function.update hdr.slot k ⟨(hdr.slot k).id, false⟩)
  simp only [Pool.usedbytes, Option.bind_eq_bind, hm, Option.bind_some, hwalk,
    Function.update_self, Function.update_idem, freed, Hdr.give]
  rfl

/-- The release ends at the last chunk that is left, if there is one, which has an object in use. -/
theorem release_ends {fuel n : ℕ} {p q : Option Addr} (h : release fuel s q = some (s', p, n))
    (hq : q = s.last) : p = s'.last ∧ ∀ b, p = some b →
      ∃ hdr, s'.mem b = some hdr ∧ hdr.nfree ≠ s'.objsperchunk := by
  induction fuel generalizing s q n with
  | zero => cases h
  | succ fuel ih =>
    cases q with
    | none =>
      obtain ⟨rfl, hpn⟩ := Prod.mk.inj (Option.some.inj h)
      obtain ⟨rfl, -⟩ := Prod.mk.inj hpn
      exact ⟨hq, fun b hb => by cases hb⟩
    | some b =>
      rw [release] at h
      obtain ⟨hdr, hm, h⟩ := Option.bind_eq_some_iff.1 h
      split_ifs at h with hfree
      · -- the loop goes on with the chunk before, in whatever pool
        have hrest {s₁ : Pool} (h : ((release fuel s₁ s₁.last).bind fun r =>
            some (r.1, r.2.1, r.2.2 + 1)) = some (s', p, n)) : p = s'.last ∧ ∀ b, p = some b →
              ∃ hdr, s'.mem b = some hdr ∧ hdr.nfree ≠ s'.objsperchunk := by
          obtain ⟨r, hrun, h⟩ := Option.bind_eq_some_iff.1 h
          obtain ⟨rfl, hpn⟩ := Prod.mk.inj (Option.some.inj h)
          obtain ⟨rfl, -⟩ := Prod.mk.inj hpn
          exact ih hrun rfl
        dsimp only at h
        split at h
        · exact hrest h
        · obtain ⟨s₁, -, h⟩ := Option.bind_eq_some_iff.1 h
          exact hrest h
      · obtain ⟨rfl, hpn⟩ := Prod.mk.inj (Option.some.inj h)
        obtain ⟨rfl, -⟩ := Prod.mk.inj hpn
        refine ⟨hq, fun c hc => ?_⟩
        obtain rfl := Option.some.inj hc
        exact ⟨hdr, hm, hfree⟩

theorem exists_used {o i : ℕ} (hok : ChunkOk o cs i hdr) (hne : hdr.nfree ≠ o) :
    ∃ j < o, (hdr.slot j).used = true := by
  by_contra hno
  have hall : unused o hdr = Finset.range o := by
    refine Finset.filter_true_of_mem fun j hj => ?_
    by_contra hu
    exact hno ⟨j, Finset.mem_range.1 hj, by simpa using hu⟩
  rw [hok.nfree, hall, Finset.card_range] at hne
  exact hne rfl

/-- A chunk with an object in use has a last one. -/
theorem exists_lastSlot (hc : Core s cs) (hl : LiveOk s cs live) (ha : a ∈ cs)
    (hm : s.mem a = some hdr) (hne : hdr.nfree ≠ s.objsperchunk) :
    ∃ k < s.objsperchunk, LastSlot live a k := by
  obtain ⟨i, -, hok⟩ := hc.chunkOk_of_mem ha hm
  obtain ⟨j, hj, hu⟩ := exists_used hok hne
  have hmem : (a, j) ∈ live := (hl.iff a j).2 ⟨hj, ha, hdr, hm, hu⟩
  have hspec := Nat.findGreatest_spec (P := fun k => (a, k) ∈ live) hj.le hmem
  refine ⟨_, ((hl.iff a _).1 hspec).1, hspec, fun t ht => ?_⟩
  exact Nat.le_findGreatest ((hl.iff a t).1 ht).1.le ht

theorem usedbytes_lt (n : ℤ) : (n % sizeRange).toNat < sizeRange := by
  have hpos : (0 : ℤ) < sizeRange := by decide
  have hlt := Int.emod_lt_of_pos n hpos
  have hnonneg := Int.emod_nonneg n (ne_of_gt hpos)
  omega

/-- `usedbytes` where the search ends at slot `k` of the chunk. -/
theorem toNat_end {i k₀ : ℕ} (hk : k < z.objsperchunk) :
    ((sizeofHdr + (k₀ - ((i + k₀ : ℕ) - (i + k : ℕ))) * z.objsz + z.objsz : ℤ) % sizeRange).toNat =
      z.offset (k + 1) := by
  have hcast : (sizeofHdr + (k₀ - ((i + k₀ : ℕ) - (i + k : ℕ))) * z.objsz + z.objsz : ℤ) =
      (z.offset (k + 1) : ℕ) := by
    rw [Sizes.offset]
    push_cast
    ring
  rw [hcast, ← Int.natCast_mod, Int.toNat_natCast,
    Nat.mod_eq_of_lt ((end_le_chunksz hk).trans_lt (chunksz_lt z))]

/-- A free that releases no chunk. -/
theorem trim_same (lastused : ℕ) (hc : Core s cs) (hl : LiveOk s cs live) {i k₀ : ℕ}
    (ho : s.objsperchunk = z.objsperchunk) (hi : cs[i]? = some a) (hm : s.mem a = some hdr)
    (hne : hdr.nfree ≠ s.objsperchunk) (hk₀ : k₀ < s.objsperchunk) :
    ∃ k < z.objsperchunk, LastSlot live a k ∧ ((∀ j, (a, j) ∈ live → j ≤ k₀) →
      ((sizeofHdr + (k₀ - ((i * s.objsperchunk + k₀ : ℕ) -
        (scanDown hdr k₀ (i * s.objsperchunk + k₀)).getD lastused)) * z.objsz + z.objsz : ℤ) %
          sizeRange).toNat = z.offset (k + 1)) := by
  obtain ⟨k, hk, hlast⟩ := exists_lastSlot hc hl (List.mem_of_getElem? hi) hm hne
  refine ⟨k, ho ▸ hk, hlast, fun hbehind => ?_⟩
  have hused {j : ℕ} (hj : j < s.objsperchunk) : (a, j) ∈ live ↔ (hdr.slot j).used = true := by
    rw [hl.iff]
    constructor
    · rintro ⟨-, -, hdr', hm', hu⟩
      obtain rfl := Option.some.inj (hm.symm.trans hm')
      exact hu
    · exact fun hu => ⟨hj, List.mem_of_getElem? hi, hdr, hm, hu⟩
  have hle := hbehind k hlast.mem
  obtain ⟨j, hj, hscan, hu, hbetween⟩ := @scanDown_spec hdr k₀ (i * s.objsperchunk)
    ⟨k, hle, (hused hk).1 hlast.mem⟩
  -- the search ends at the last object
  obtain rfl : j = k := by
    refine Nat.le_antisymm (hlast.le j ((hused (hj.trans_lt hk₀)).2 hu)) (Nat.not_lt.1 fun hlt => ?_)
    have hfree := hbetween k hlt hle
    rw [(hused hk).1 hlast.mem] at hfree
    cases hfree
  rw [hscan, Option.getD_some]
  exact toNat_end (ho ▸ hk)

/-- A free that releases the chunk of its object ends at another one. -/
theorem release_other (hc : Core s cs) (hf : FirstOk s cs) (hl : LiveOk s cs live)
    (hlast : s.last = some a) (hm : s.mem a = some hdr) (hfull : hdr.nfree = s.objsperchunk)
    (ho : 0 < s.objsperchunk) :
    ∃ s' p n, release (s.nobj + 1) s (some a) = some (s', p, n + 1) ∧
      ∀ b, p = some b → b ≠ a ∧ ∃ k < s.objsperchunk, LastSlot live b k := by
  obtain ⟨cs, rfl⟩ : ∃ cs', cs = cs' ++ [a] := by
    have hcs : cs.getLast? = some a := hc.last.symm.trans hlast
    exact ⟨_, (List.dropLast_append_getLast? a hcs).symm⟩
  obtain ⟨s₁, hd, hrun⟩ := dropped_release hc hm hfull s.nobj
  have hcore := hd.core hc hm hfull
  have hlen := hc.length_le_nobj ho
  rw [List.length_append, List.length_singleton] at hlen
  obtain ⟨s', p, n, cs', hrun', ho', hcore', -, -, hpre, huse⟩ :=
    release_spec s.nobj hlen hcore (hd.firstOk hc hcore hf)
  refine ⟨s', p, n, by rw [hrun, hrun']; rfl, fun b hb => ?_⟩
  obtain ⟨hp, hne⟩ := release_ends hrun' rfl
  obtain ⟨bhdr, hmb, hne⟩ := hne b hb
  have hb' : b ∈ cs' := List.mem_of_getLast? (hcore'.last.symm.trans (hp.symm.trans hb))
  have hlive : LiveOk s' cs' live := by
    refine ⟨hl.nodup, fun c j => ?_⟩
    rw [huse, hd.inUse hc hm hfull, hl.iff]
  refine ⟨?_, ho'.trans hd.objsperchunk ▸ exists_lastSlot hcore' hlive hb' hmb hne⟩
  rintro rfl
  exact (List.nodup_append.1 hc.nodup).2.2 b (hpre.subset hb') b (List.mem_singleton_self b) rfl

/-- The range given to `madvise` is free exactly when it begins between the end of the last object in
use and the end of the chunk.  If the free releases no chunk and is the one of the last object, this
means that the last object left ends at a page boundary or the chunk has `pagesz` pages more. -/
theorem trim_free_iff (z : Sizes) {s : Pool} {live : List (Addr × ℕ)}
    (hrun : (machine z.objsperchunk).Run (fun st act => act.Ok st) (.run s live)) {obj : Addr × ℕ}
    (hobj : obj ∈ live) (hok : (Action.free obj none).Ok (.run s live)) (lastused : ℕ) {a : Addr}
    {usedbytes : ℕ} (hreach : s.usedbytes z obj lastused = some (some (a, usedbytes))) :
    ∃ k, LastSlot (live.erase obj) a k ∧
      (TrimsFree z (live.erase obj) a usedbytes ↔ z.Between k usedbytes) ∧
      (a = obj.1 → (∀ j, (a, j) ∈ live → j ≤ obj.2) →
        (TrimsFree z (live.erase obj) a usedbytes ↔
          z.offset (k + 1) % z.pagesz = 0 ∨
            (z.offset (k + 1) / z.pagesz + z.pagesz) * z.pagesz ≤ z.chunksz)) ∧
      (a ≠ obj.1 → usedbytes = (sizeofPtr + lastused * z.objsz + z.objsz) % sizeRange) := by
  obtain ⟨ho, cs, hc, hf, hl⟩ := inv_run (objsperchunk_pos z) hrun
  obtain ⟨a₀, k₀⟩ := obj
  have hsame := same_dropKeep hc
  obtain ⟨hdr, i, hp, hm, hcore, huse⟩ := hc.freeing ((hl.iff a₀ k₀).1 hobj)
  have hself : (freed (dropKeep s) a₀ hdr k₀).mem a₀ = some (hdr.give k₀) := Function.update_self ..
  have ho₁ : (freed (dropKeep s) a₀ hdr k₀).objsperchunk = z.objsperchunk :=
    hsame.objsperchunk.trans ho
  have hlive : LiveOk (freed (dropKeep s) a₀ hdr k₀) cs (live.erase (a₀, k₀)) := by
    refine ⟨hl.nodup.erase _, fun b j => ?_⟩
    rw [hl.nodup.mem_erase_iff, hl.iff, huse, and_comm]
  rw [usedbytes_eq hp.mem hp.walk] at hreach
  dsimp only at hreach
  by_cases hlu : (freed (dropKeep s) a₀ hdr k₀).lastused = some (hdr.slot k₀).id
  · rw [if_neg (not_not.2 hlu)] at hreach
    by_cases hfull : (hdr.give k₀).nfree = (freed (dropKeep s) a₀ hdr k₀).objsperchunk
    · -- the chunk is released
      have hla : (freed (dropKeep s) a₀ hdr k₀).last = some a₀ :=
        hsame.last.trans (hok hdr hm (hsame.lastused.symm.trans hlu) (hfull.trans hsame.objsperchunk))
      have hfirst := firstOk_freed (core_dropKeep hc) (hsame.firstOk hf) hp.chunk hp.mem hp.slot hp.id
      obtain ⟨s', p, n, hrun, hother⟩ := release_other hcore hfirst hlive hla hself hfull
        (ho₁ ▸ objsperchunk_pos z)
      rw [hrun, Option.bind_some] at hreach
      dsimp only at hreach
      split_ifs at hreach with hnone
      · cases hreach
      · obtain ⟨b, hb, hpair⟩ := Option.map_eq_some_iff.1 hreach
        obtain ⟨rfl, rfl⟩ := Prod.mk.inj (Option.some.inj hpair)
        obtain ⟨hba, k, hk, hlast⟩ := hother b hb
        refine ⟨k, hlast, trimsFree_iff_between hlast (ho₁ ▸ hk) (Nat.mod_lt _ (by decide)),
          fun h => absurd h hba, fun _ => rfl⟩
      · exact absurd (Nat.succ_pos n) ‹_›
    · rw [release, hself, Option.bind_some, if_neg hfull, Option.bind_some] at hreach
      dsimp only at hreach
      rw [if_neg (Nat.not_lt_zero _), if_neg (Nat.not_lt_zero _), hself, Option.bind_some,
        hp.id] at hreach
      obtain ⟨rfl, hused⟩ := Prod.mk.inj (Option.some.inj (Option.some.inj hreach))
      obtain ⟨k, hk, hlast, hend⟩ := trim_same lastused hcore hlive ho₁ hp.chunk hself hfull hp.slot
      have hiff := trimsFree_iff_between hlast hk (hused ▸ usedbytes_lt _)
      refine ⟨k, hlast, hiff, fun _ hbehind => ?_, fun h => absurd rfl h⟩
      rw [hiff, hused.symm.trans (hend fun j hj => hbehind j (List.mem_of_mem_erase hj))]
      exact between_end_iff hk
  · rw [if_pos hlu] at hreach
    cases hreach

/-- Two objects that end at page boundaries. -/
def evenSizes : Sizes where
  pagesz := 4096
  objsz := 4072
  objsPerChunk := 2
  pagesz_pow := ⟨12, rfl⟩
  objsz_pos := by decide
  objsPerChunk_pos := by decide
  fits := by decide

/-- The second object of a chunk is freed, and the range is its page. -/
theorem trim_free_two : evenSizes.trim 4096 = some (4096, 4096) ∧
    ∃ s : Pool, s.usedbytes evenSizes (4096, 1) 0 = some (some (4096, 4096)) ∧
      TrimsFree evenSizes [(4096, 0)] 4096 4096 := by
  have hrun : ((machine evenSizes.objsperchunk).execOk (fun st act => act.test st)
      [.alloc 4096, .alloc 8192] (.run (.create evenSizes.objsperchunk) [])).any
      (State.running fun s live => decide (live = [(4096, 1), (4096, 0)] ∧
        s.usedbytes evenSizes (4096, 1) 0 = some (some (4096, 4096)) ∧
        (Action.free (4096, 1) none).test (.run s live) = true)) = true := by decide +kernel
  obtain ⟨s, live, hst, hlive⟩ :=
    exists_running (Machine.exists_run rfl (fun _ _ => test_sound) hrun)
  obtain ⟨rfl, hused, htest⟩ := of_decide_eq_true hlive
  obtain ⟨k, hlast, -, hiff, -⟩ :=
    trim_free_iff evenSizes hst (by decide) (test_sound htest) 0 hused
  obtain rfl : k = 0 := by
    have hmem : (4096, k) ∈ [(4096, 0)] := hlast.mem
    simpa using hmem
  exact ⟨by decide +kernel, s, hused, (hiff rfl (by simp)).2 (.inl (by decide +kernel))⟩

/-- Small objects, in chunks of one page. -/
def smallSizes : Sizes where
  pagesz := 4096
  objsz := 64
  objsPerChunk := 2
  pagesz_pow := ⟨12, rfl⟩
  objsz_pos := by decide
  objsPerChunk_pos := by decide
  fits := by decide

/-- Of two objects in a chunk of one page the second one is freed, and the range begins 16 MiB behind
the chunk. -/
theorem trim_behind_chunk : ¬ ∀ (z : Sizes) (s : Pool) (live : List (Addr × ℕ)),
    (machine z.objsperchunk).Reachable (.run s live) → ∀ obj ∈ live, ∀ (lastused : ℕ) (a : Addr)
      (k : ℕ), s.usedbytes z obj lastused = some (some (a, z.offset (k + 1))) →
      LastSlot (live.erase obj) a k → TrimsFree z (live.erase obj) a (z.offset (k + 1)) := by
  intro h
  have hrun : ((machine smallSizes.objsperchunk).exec [.alloc 4096, .alloc 8192]
      (.run (.create smallSizes.objsperchunk) [])).any (State.running fun s live =>
        decide (live = [(4096, 1), (4096, 0)] ∧
          s.usedbytes smallSizes (4096, 1) 0 = some (some (4096, smallSizes.offset 1)))) = true := by
    decide +kernel
  obtain ⟨s, live, hst, hlive⟩ := exists_running (Machine.exists_reachable rfl hrun)
  obtain ⟨rfl, hused⟩ := of_decide_eq_true hlive
  have hlast : LastSlot [(4096, 0)] 4096 0 := ⟨by decide, by simp⟩
  have htrim : smallSizes.trim (smallSizes.offset 1) =
    some (16777216, 18446744073692778496) := by decide +kernel
  have hinside := (h smallSizes s _ hst (4096, 1) (by decide) 0 4096 0 hused hlast _ _ htrim).inside
  revert hinside
  decide +kernel

end PoserCore.ObjectPool
