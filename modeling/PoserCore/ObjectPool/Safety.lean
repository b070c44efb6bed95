import PoserCore.ObjectPool.Free

/-!
# The object pool hands out every object once

In runs in which only the last chunk is released and `firstfree` is never used after it went stale,
the pool keeps its list of chunks (`inv_run`), every live object is where its number says, and no
chunk with a live object goes away (`safe_of_inv`).  Both conditions are needed: a new chunk does
not change `lastused`, so that the pool may take a chunk for the last one that is not, and the
release of the last chunks leaves `firstfree` behind.

A release that leaves chunks is permitted here.  What the code then does behind the pool's back is
not part of the model: it searches outside of its chunks, and the range it gives to `madvise` may
cover live objects.
-/

namespace PoserCore.ObjectPool

open Lib (Machine)

/-- The condition on a step under which the pool keeps its list of chunks. -/
def Action.Ok : State → Action → Prop
  | .run s _, .alloc _ => ∀ n, s.firstfree = some n → n < s.nobj
  | .run s _, .free obj _ => ∀ hdr, s.mem obj.1 = some hdr →
      s.lastused = some (hdr.slot obj.2).id → hdr.nfree + 1 = s.objsperchunk → s.last = some obj.1
  | .fault, _ => True

/-- Live objects have their own places and numbers, they are where their numbers say, and their
chunks are neither unmapped nor kept for later. -/
structure Safe (s : Pool) (live : List (Addr × ℕ)) : Prop where
  nodup : live.Nodup
  place : ∀ o ∈ live, ∃ hdr, s.mem o.1 = some hdr ∧ s.keep ≠ some o.1 ∧
    o.2 = (hdr.slot o.2).id % s.objsperchunk ∧
    walk s.mem s.first ((hdr.slot o.2).id / s.objsperchunk) = some o.1
  ids : ∀ o ∈ live, ∀ o' ∈ live, ∀ hdr hdr', s.mem o.1 = some hdr → s.mem o'.1 = some hdr' →
    (hdr.slot o.2).id = (hdr'.slot o'.2).id → o = o'

/-- What every permitted step keeps. -/
def Inv (objsperchunk : ℕ) : State → Prop
  | .run s live => s.objsperchunk = objsperchunk ∧
      ∃ cs, Core s cs ∧ FirstOk s cs ∧ LiveOk s cs live
  | .fault => False

theorem inv_create (n : ℕ) : Inv n (.run (.create n) []) := by
  refine ⟨rfl, [], ⟨List.nodup_nil, fun h => absurd rfl h, rfl, by simp, ?_, rfl,
    fun a ha => by cases ha⟩, ⟨fun m hm => absurd hm (Nat.not_lt_zero m), fun n hn => by cases hn⟩,
    List.nodup_nil, fun a k => ?_⟩
  · rw [List.length_nil, Nat.zero_mul]
    rfl
  · simp [InUse]

theorem inv_step {n : ℕ} (hn : 0 < n) (st : State) (act : Action) (st' : State) (hinv : Inv n st)
    (hok : act.Ok st) (hstep : step st act = some st') : Inv n st' := by
  cases st with
  | fault => exact hinv.elim
  | run s live =>
    obtain ⟨rfl, cs, hc, hf, hl⟩ := hinv
    cases act with
    | alloc addr =>
      simp only [step] at hstep
      split_ifs at hstep with haddr
      obtain ⟨s', a, k, cs', hrun, ho, hc', hf', hnot, hiff⟩ :=
        alloc_spec hc hf hn (Option.not_isSome_iff_eq_none.1 haddr) hok
      rw [hrun] at hstep
      cases hstep
      refine ⟨ho, cs', hc', hf', List.nodup_cons.2 ⟨fun h => hnot ((hl.iff a k).1 h), hl.nodup⟩,
        fun b j => ?_⟩
      rw [List.mem_cons, hl.iff, hiff]
    | free obj found =>
      simp only [step] at hstep
      split_ifs at hstep with hlive
      obtain ⟨a, k⟩ := obj
      obtain ⟨s', cs', hrun, ho, hc', hf', hiff⟩ :=
        free_spec hc hf ((hl.iff a k).1 hlive) found hok
      rw [hrun] at hstep
      cases hstep
      refine ⟨ho, cs', hc', hf', hl.nodup.erase _, fun b j => ?_⟩
      rw [hl.nodup.mem_erase_iff, hl.iff, hiff, and_comm]

theorem safe_of_inv {s : Pool} {cs : List Addr} {live : List (Addr × ℕ)} (hc : Core s cs)
    (hl : LiveOk s cs live) : Safe s live := by
  refine ⟨hl.nodup, ?_, ?_⟩
  · rintro ⟨a, k⟩ ho
    obtain ⟨hdr, i, hp⟩ := hc.placed ((hl.iff a k).1 ho)
    refine ⟨hdr, hp.mem, fun hkeep => (hc.keep a hkeep).1 (List.mem_of_getElem? hp.chunk), ?_,
      hp.walk⟩
    rw [hp.id, (div_mod_index hp.slot).2]
  · rintro ⟨a, k⟩ ho ⟨a', k'⟩ ho' hdr hdr' hm hm' heq
    obtain ⟨hdr0, i, hp⟩ := hc.placed ((hl.iff a k).1 ho)
    obtain ⟨hdr0', i', hp'⟩ := hc.placed ((hl.iff a' k').1 ho')
    cases hm.symm.trans hp.mem
    cases hm'.symm.trans hp'.mem
    have hii : i = i' := hp.div.symm.trans ((congrArg (· / s.objsperchunk) heq).trans hp'.div)
    subst hii
    have hkk : k = k' := Nat.add_left_cancel (hp.id.symm.trans (heq.trans hp'.id))
    cases hp.chunk.symm.trans hp'.chunk
    rw [hkk]

theorem inv_run {objsperchunk : ℕ} (hn : 0 < objsperchunk) {st : State}
    (hrun : (machine objsperchunk).Run (fun st act => act.Ok st) st) : Inv objsperchunk st := by
  refine hrun.invariant ?_ fun st act st' hi hok hs => inv_step hn st act st' hi hok hs
  rintro _ rfl
  exact inv_create objsperchunk

/-- A test for `Action.Ok`. -/
def Action.test : State → Action → Bool
  | .run s _, .alloc _ => s.firstfree.all (· < s.nobj)
  | .run s _, .free obj _ => (s.mem obj.1).all fun hdr =>
      decide (s.lastused = some (hdr.slot obj.2).id → hdr.nfree + 1 = s.objsperchunk →
        s.last = some obj.1)
  | .fault, _ => true

theorem test_sound {st : State} {act : Action} (h : act.test st = true) : act.Ok st := by
  cases st with
  | fault => trivial
  | run s live =>
    cases act with
    | alloc addr => exact fun n hn => of_decide_eq_true ((Option.all_eq_true _ _).1 h n hn)
    | free obj found => exact fun hdr hm => of_decide_eq_true ((Option.all_eq_true _ _).1 h hdr hm)

/-- A test for the pool of a state. -/
def State.running (p : Pool → List (Addr × ℕ) → Bool) : State → Bool
  | .run s live => p s live
  | .fault => false

theorem exists_running {objsperchunk : ℕ} {ok : State → Action → Prop}
    {p : Pool → List (Addr × ℕ) → Bool}
    (h : ∃ st : State, (machine objsperchunk).Run ok st ∧ st.running p = true) :
    ∃ s live, (machine objsperchunk).Run ok (.run s live) ∧ p s live = true := by
  obtain ⟨st, hrun, hp⟩ := h
  cases st with
  | fault => cases hp
  | run s live => exact ⟨s, live, hrun, hp⟩

end PoserCore.ObjectPool
