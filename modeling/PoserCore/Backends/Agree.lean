import PoserCore.Backends.Tables
import Mathlib.Data.Finset.Card

/-!
# The backends agree

The bit sets of the select backend hold the registered pairs, `nread` and `nwrite` are their sizes,
and `nfds` is the least bound on the registered descriptors, which the search of `tryReduceNfds`
finds again after the largest one was removed.  Together with the tables of the other backends this
gives that all of them keep the same set over any sequence of calls.
-/

namespace PoserCore.Backends

open Lib

namespace Select

variable {fdSetsize : ℕ} {s : Select} {S : Interest} {id : ℤ} {d : Direction}

/-- One more than the largest registered descriptor, or 0. -/
def IsTop (S : Interest) (n : ℤ) : Prop :=
  (∀ x ∈ S, x.1 < n) ∧ (S = ∅ ∧ n = 0 ∨ ∃ x ∈ S, n = x.1 + 1)

/-- What the calls keep of the backend. -/
structure Good (s : Select) (S : Interest) : Prop where
  mem : ∀ id d, (id, d) ∈ S ↔ 0 ≤ id ∧ s.fds d id.toNat = true
  count : ∀ d, s.count d = (S.filter fun x => x.2 = d).card
  top : IsTop S s.nfds

theorem good_create : Good create ∅ where
  mem id d := by simp [create]
  count d := rfl
  top := ⟨fun x hx => absurd hx (Finset.notMem_empty x), Or.inl ⟨rfl, rfl⟩⟩

/-- Setting or clearing the bit of one pair. -/
theorem fds_setFd (s : Select) (d d' : Direction) (id : ℤ) (n : ℕ) (b : Bool) :
    (s.setFd d id b).fds d' n = if d' = d ∧ n = id.toNat then b else s.fds d' n := by
  unfold setFd
  by_cases hd : d' = d
  · subst hd
    simp [Function.update_apply]
  · simp [hd]

theorem count_addCount (s : Select) (d d' : Direction) (n : ℤ) :
    (s.addCount d n).count d' = if d' = d then s.count d' + n else s.count d' := by
  unfold addCount
  by_cases hd : d' = d
  · subst hd
    simp
  · simp [hd]

theorem toNat_inj {i j : ℤ} (hi : 0 ≤ i) (hj : 0 ≤ j) : i.toNat = j.toNat ↔ i = j := by
  omega

theorem Good.nonneg (hg : s.Good S) {x : ℤ × Direction} (hx : x ∈ S) : 0 ≤ x.1 :=
  ((hg.mem x.1 x.2).1 hx).1

/-- The bits after one pair was added. -/
theorem Good.mem_insert (hg : s.Good S) (hid : 0 ≤ id) (id' : ℤ) (d' : Direction) :
    (id', d') ∈ insert (id, d) S ↔ 0 ≤ id' ∧ (s.setFd d id true).fds d' id'.toNat = true := by
  rw [Finset.mem_insert, Prod.mk.injEq, hg.mem, fds_setFd]
  constructor
  · rintro (⟨rfl, rfl⟩ | ⟨h, hs⟩)
    · exact ⟨hid, if_pos ⟨rfl, rfl⟩⟩
    · exact ⟨h, by split_ifs <;> trivial⟩
  · rintro ⟨h, hs⟩
    split_ifs at hs with he
    · exact Or.inl ⟨(toNat_inj h hid).1 he.2, he.1⟩
    · exact Or.inr ⟨h, hs⟩

/-- The bits after one pair was removed. -/
theorem Good.mem_erase (hg : s.Good S) (hid : 0 ≤ id) (id' : ℤ) (d' : Direction) :
    (id', d') ∈ S.erase (id, d) ↔ 0 ≤ id' ∧ (s.setFd d id false).fds d' id'.toNat = true := by
  rw [Finset.mem_erase, ne_eq, Prod.mk.injEq, hg.mem, fds_setFd]
  constructor
  · rintro ⟨hne, h, hs⟩
    refine ⟨h, ?_⟩
    rwa [if_neg fun he => hne ⟨(toNat_inj h hid).1 he.2, he.1⟩]
  · rintro ⟨h, hs⟩
    split_ifs at hs with he
    refine ⟨?_, h, hs⟩
    rintro ⟨rfl, rfl⟩
    exact he ⟨rfl, rfl⟩

theorem card_insert (hn : (id, d) ∉ S) (d' : Direction) :
    (((insert (id, d) S).filter fun x => x.2 = d').card : ℤ) =
      if d' = d then ((S.filter fun x => x.2 = d').card : ℤ) + 1
      else (S.filter fun x => x.2 = d').card := by
  rw [Finset.filter_insert]
  by_cases hd : d = d'
  · rw [if_pos hd, if_pos hd.symm, Finset.card_insert_of_notMem]
    · omega
    · intro hm
      exact hn (Finset.mem_filter.1 hm).1
  · rw [if_neg hd, if_neg fun e => hd e.symm]

theorem card_erase (hm : (id, d) ∈ S) (d' : Direction) :
    (((S.erase (id, d)).filter fun x => x.2 = d').card : ℤ) =
      if d' = d then ((S.filter fun x => x.2 = d').card : ℤ) + -1
      else (S.filter fun x => x.2 = d').card := by
  have hcard := card_insert (S := S.erase (id, d)) (Finset.notMem_erase _ S) d'
  rw [Finset.insert_erase hm] at hcard
  split_ifs at hcard ⊢ <;> omega

theorem Good.register (hg : s.Good S) (hid : 0 ≤ id ∧ id < fdSetsize) :
    (s.register fdSetsize d id).Good (insert (id, d) S) := by
  rw [Select.register, if_neg (by simpa [isValidFd] using hid)]
  split_ifs with hset
  · rw [Finset.insert_eq_of_mem ((hg.mem id d).2 ⟨hid.1, hset⟩)]
    exact hg
  · have hn : (id, d) ∉ S := fun hm => hset ((hg.mem id d).1 hm).2
    have hcount : ∀ d', ((s.setFd d id true).addCount d 1).count d' =
        ((insert (id, d) S).filter fun x => x.2 = d').card := by
      intro d'
      rw [card_insert hn, count_addCount, ← hg.count]
      rfl
    obtain ⟨habove, htop⟩ := hg.top
    dsimp only
    split_ifs with hge
    · refine ⟨hg.mem_insert hid.1, hcount, ?_, Or.inr ⟨(id, d), Finset.mem_insert_self _ _, rfl⟩⟩
      intro x hx
      change s.nfds ≤ id at hge
      change x.1 < id + 1
      rcases Finset.mem_insert.1 hx with rfl | hx
      · exact Int.lt_succ id
      · have := habove x hx
        omega
    · change ¬ s.nfds ≤ id at hge
      refine ⟨hg.mem_insert hid.1, hcount, ?_, Or.inr ?_⟩
      · intro x hx
        change x.1 < s.nfds
        rcases Finset.mem_insert.1 hx with rfl | hx
        · exact Int.not_le.1 hge
        · exact habove x hx
      · rcases htop with ⟨-, hz⟩ | ⟨x, hx, hxn⟩
        · omega
        · exact ⟨x, Finset.mem_insert_of_mem hx, hxn⟩

/-! ### Shrinking the bound -/

/-- The search ends above every descriptor it passed that is set. -/
theorem lt_lastSet {n fd : ℕ} (hfd : fd < n) (hs : s.fds d fd = true) : fd < s.lastSet n := by
  induction n with
  | zero => omega
  | succ n ih =>
    rw [lastSet]
    split_ifs with h
    · exact hfd
    · apply ih
      rcases Nat.lt_succ_iff_lt_or_eq.1 hfd with hlt | rfl
      · exact hlt
      · cases d <;> simp [hs] at h

/-- It ends at the first descriptor that is set, if there is one. -/
theorem lastSet_spec (s : Select) (n : ℕ) :
    s.lastSet n = 0 ∨ ∃ fd d, s.lastSet n = fd + 1 ∧ s.fds d fd = true := by
  induction n with
  | zero => exact Or.inl rfl
  | succ n ih =>
    rw [lastSet]
    split_ifs with h
    · right
      rw [Bool.or_eq_true] at h
      rcases h with h | h
      · exact ⟨n, .read, rfl, h⟩
      · exact ⟨n, .write, rfl, h⟩
    · exact ih

/-- `tryReduceNfds` restores the bound when it may be too large for the sets that are left. -/
theorem isTop_tryReduceNfds (hmem : ∀ id d, (id, d) ∈ S ↔ 0 ≤ id ∧ s.fds d id.toNat = true)
    (hcount : ∀ d, s.count d = (S.filter fun x => x.2 = d).card)
    (habove : ∀ x ∈ S, x.1 < s.nfds) (hid : 0 ≤ id)
    (htop : s.nfds ≤ id + 1 ∨ ∃ x ∈ S, s.nfds = x.1 + 1) :
    IsTop S (s.tryReduceNfds id).nfds := by
  unfold tryReduceNfds
  split_ifs with hz hge
  · -- no descriptor is registered any more
    have hempty : S = ∅ := by
      apply Finset.eq_empty_of_forall_notMem
      rintro ⟨id', d'⟩ hx
      have hzero : s.count d' = 0 := by cases d' <;> [exact hz.1; exact hz.2]
      rw [hcount] at hzero
      have hcard := Finset.card_eq_zero.1 (Int.natCast_eq_zero.1 hzero)
      have hfilter : (id', d') ∈ S.filter fun x => x.2 = d' := Finset.mem_filter.2 ⟨hx, rfl⟩
      rw [hcard] at hfilter
      exact Finset.notMem_empty _ hfilter
    exact ⟨fun x hx => absurd hx (hempty ▸ Finset.notMem_empty x), Or.inl ⟨hempty, rfl⟩⟩
  · have hlt : ∀ x ∈ S, x.1 < (s.lastSet (id.toNat + 1) : ℤ) := by
      intro x hx
      obtain ⟨hx0, hxs⟩ := (hmem x.1 x.2).1 hx
      have hxn := habove x hx
      have hbelow := lt_lastSet (n := id.toNat + 1) (by omega) hxs
      omega
    refine ⟨hlt, ?_⟩
    rcases lastSet_spec s (id.toNat + 1) with h0 | ⟨fd, d, hfd, hs⟩
    · left
      refine ⟨?_, by simp [h0]⟩
      apply Finset.eq_empty_of_forall_notMem
      intro x hx
      have hx0 := ((hmem x.1 x.2).1 hx).1
      have hxn := hlt x hx
      omega
    · right
      refine ⟨((fd : ℤ), d), (hmem _ _).2 ⟨Int.natCast_nonneg fd, hs⟩, ?_⟩
      simp [hfd]
  · rcases htop with h | h
    · exact absurd h hge
    · exact ⟨habove, Or.inr h⟩

theorem fds_tryReduceNfds (s : Select) (id : ℤ) : (s.tryReduceNfds id).fds = s.fds := by
  unfold tryReduceNfds
  split_ifs <;> rfl

theorem count_tryReduceNfds (s : Select) (id : ℤ) : (s.tryReduceNfds id).count = s.count := by
  unfold tryReduceNfds
  split_ifs <;> rfl

theorem Good.unregister (hg : s.Good S) (hid : 0 ≤ id ∧ id < fdSetsize) :
    (s.unregister fdSetsize d id).Good (S.erase (id, d)) := by
  rw [Select.unregister, if_neg (by simpa [isValidFd] using hid)]
  split_ifs with hset
  · rw [Finset.erase_eq_of_notMem]
    · exact hg
    · intro hm
      simp [((hg.mem id d).1 hm).2] at hset
  · have hm : (id, d) ∈ S := (hg.mem id d).2 ⟨hid.1, by simpa using hset⟩
    have hcount : ∀ d', ((s.setFd d id false).addCount d (-1)).count d' =
        ((S.erase (id, d)).filter fun x => x.2 = d').card := by
      intro d'
      rw [card_erase hm, count_addCount, ← hg.count]
      rfl
    obtain ⟨habove, htop⟩ := hg.top
    constructor
    · rw [fds_tryReduceNfds]
      exact hg.mem_erase hid.1
    · rw [count_tryReduceNfds]
      exact hcount
    · apply isTop_tryReduceNfds (s := (s.setFd d id false).addCount d (-1))
        (hg.mem_erase hid.1) hcount
      · intro x hx
        exact habove x (Finset.mem_of_mem_erase hx)
      · exact hid.1
      · change s.nfds ≤ id + 1 ∨ ∃ x ∈ S.erase (id, d), s.nfds = x.1 + 1
        rcases htop with ⟨rfl, -⟩ | ⟨x, hx, hxn⟩
        · exact absurd hm (Finset.notMem_empty _)
        · by_cases hxi : x = (id, d)
          · left
            rw [hxn, hxi]
          · exact Or.inr ⟨x, Finset.mem_erase.2 ⟨hxi, hx⟩, hxn⟩

theorem Good.call (hg : s.Good S) (c : Call) (hid : 0 ≤ c.id ∧ c.id < fdSetsize) :
    (s.call fdSetsize c).Good (c.track S) := by
  cases c with
  | registerRead id => exact hg.register hid
  | unregisterRead id => exact hg.unregister hid
  | registerWrite id => exact hg.register hid
  | unregisterWrite id => exact hg.unregister hid

end Select

/-! ## One call and whole runs -/

variable {S : Interest}

theorem Epoll.Good.call {e : Epoll} (hg : e.Good) (h : epollFlags.Represents e.table S) (c : Call)
    (hid : 0 ≤ c.id) : (e.call c).Good ∧ epollFlags.Represents (e.call c).table (c.track S) := by
  cases c with
  | registerRead id => exact hg.registerWatch (d := .read) h hid
  | unregisterRead id => exact hg.unregisterWatch (d := .read) h hid
  | registerWrite id => exact hg.registerWatch (d := .write) h hid
  | unregisterWrite id => exact hg.unregisterWatch (d := .write) h hid

theorem Poll.Good.call {p : Poll} (hg : p.Good) (h : pollFlags.Represents p.table S) (c : Call)
    (hid : 0 ≤ c.id) : (p.call c).Good ∧ pollFlags.Represents (p.call c).table (c.track S) := by
  cases c with
  | registerRead id => exact hg.registerPoll (d := .read) h hid
  | unregisterRead id => exact hg.unregisterPoll (d := .read) h hid
  | registerWrite id => exact hg.registerPoll (d := .write) h hid
  | unregisterWrite id => exact hg.unregisterPoll (d := .write) h hid

/-- The three backends side by side, with the registered pairs. -/
structure State where
  epoll : Epoll
  poll : Poll
  select : Select
  registered : Interest

def State.create (epfd : ℕ) : State := ⟨.create epfd, .create, .create, ∅⟩

/-- One call, made in each backend. -/
def State.call (fdSetsize : ℕ) (σ : State) (c : Call) : State :=
  ⟨σ.epoll.call c, σ.poll.call c, σ.select.call fdSetsize c, c.track σ.registered⟩

/-- A descriptor that all backends accept. -/
def Call.Valid (fdSetsize : ℕ) (c : Call) : Prop := 0 ≤ c.id ∧ c.id < fdSetsize

/-- Each backend is in order and keeps the registered pairs. -/
structure State.Good (σ : State) : Prop where
  epoll : σ.epoll.Good
  watches : epollFlags.Represents σ.epoll.table σ.registered
  poll : σ.poll.Good
  fds : pollFlags.Represents σ.poll.table σ.registered
  select : σ.select.Good σ.registered

theorem State.Good.call {fdSetsize : ℕ} {σ : State} (hg : σ.Good) {c : Call}
    (hc : c.Valid fdSetsize) : (σ.call fdSetsize c).Good := by
  obtain ⟨hepoll, hwatches⟩ := hg.epoll.call hg.watches c hc.1
  obtain ⟨hpoll, hfds⟩ := hg.poll.call hg.fds c hc.1
  exact ⟨hepoll, hwatches, hpoll, hfds, hg.select.call c hc⟩

theorem State.good_run {fdSetsize : ℕ} (epfd : ℕ) {calls : List Call}
    (hcalls : ∀ c ∈ calls, c.Valid fdSetsize) :
    (calls.foldl (State.call fdSetsize) (.create epfd)).Good := by
  have hcreate : (State.create epfd).Good :=
    ⟨Epoll.good_create epfd, epollFlags.represents_empty, Poll.good_create,
      pollFlags.represents_empty, Select.good_create⟩
  generalize State.create epfd = σ at hcreate
  induction calls generalizing σ with
  | nil => exact hcreate
  | cons c calls ih =>
    apply ih fun c' hc' => hcalls c' (.tail _ hc')
    exact hcreate.call (hcalls c (.head _))

/-- After any calls on descriptors that all backends accept, the watches and the kernel's set, the
array and the bit sets hold exactly the registered pairs, every `epoll_ctl` was applicable, and the
sizes and the bound of the select backend are right. -/
theorem backends_agree (fdSetsize epfd : ℕ) (calls : List Call)
    (hcalls : ∀ c ∈ calls, c.Valid fdSetsize) :
    let S := calls.foldl Call.track ∅
    let e := calls.foldl Epoll.call (.create epfd)
    let p := calls.foldl Poll.call .create
    let s := calls.foldl (Select.call fdSetsize) .create
    (∀ id d, (∃ i, ∃ w ∈ e.watches i, w.fd = id ∧ epollFlags.Has w.events d) ↔ (id, d) ∈ S) ∧
    (∀ id d, (∃ m, e.kernel id = some m ∧ epollFlags.Has m d) ↔ (id, d) ∈ S) ∧
    e.refused = [] ∧
    (∀ id d, (∃ i < p.nfds, (p.fds i).fd = id ∧ pollFlags.Has (p.fds i).events d) ↔
      (id, d) ∈ S) ∧
    (∀ id d, (0 ≤ id ∧ s.fds d id.toNat = true) ↔ (id, d) ∈ S) ∧
    (∀ d, s.count d = (S.filter fun x => x.2 = d).card) ∧
    Select.IsTop S s.nfds := by
  have hg := State.good_run epfd hcalls
  have hrun : ∀ σ : State, calls.foldl (State.call fdSetsize) σ =
      ⟨calls.foldl Epoll.call σ.epoll, calls.foldl Poll.call σ.poll,
        calls.foldl (Select.call fdSetsize) σ.select, calls.foldl Call.track σ.registered⟩ := by
    clear hcalls hg
    induction calls with
    | nil => exact fun σ => rfl
    | cons c calls ih => exact fun σ => ih (σ.call fdSetsize c)
  rw [hrun] at hg
  refine ⟨?_, ?_, hg.epoll.refused, ?_, ?_, hg.select.count, hg.select.top⟩
  · intro id d
    exact hg.epoll.watched_iff.trans (hg.watches.mem id d).symm
  · intro id d
    have hkernel := congrFun hg.epoll.kernel id
    change (calls.foldl Epoll.call (.create epfd)).kernel id = _ at hkernel
    rw [hkernel]
    exact (hg.watches.mem id d).symm
  · intro id d
    exact hg.poll.polled_iff.trans (hg.fds.mem id d).symm
  · intro id d
    exact (hg.select.mem id d).symm

/-- Two descriptors of one slot: the first is unlinked before the second, and the larger one leaves
last. -/
theorem backends_agree_chain :
    let calls := [.registerRead 3, .registerWrite 35, .registerRead 35, .unregisterRead 3,
      .unregisterRead 35]
    (∀ c ∈ calls, Call.Valid 1024 c) ∧ calls.foldl Call.track ∅ = {(35, .write)} ∧
      (calls.foldl Epoll.call (.create 5)).refused = [] ∧
      (calls.foldl (Select.call 1024) .create).nfds = 36 := by
  have hvalid : ∀ c ∈ [Call.registerRead 3, .registerWrite 35, .registerRead 35, .unregisterRead 3,
      .unregisterRead 35], Call.Valid 1024 c := by
    unfold Call.Valid
    decide
  have h := backends_agree 1024 5 _ hvalid
  exact ⟨hvalid, by decide, h.2.2.1, by decide⟩

end PoserCore.Backends
