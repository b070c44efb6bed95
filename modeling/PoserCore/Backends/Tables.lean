import PoserCore.Backends.Model
import Mathlib.Data.List.Range

/-!
# The watch table, the kernel's set and the poll array

The chains of the epoll backend and the first `nfds` entries of the poll array are keyed lists, so
each is a table from descriptors to words of flags.  A call sets or clears one flag in that table,
and for epoll the kernel's set stays equal to it, which is why every `epoll_ctl` is applicable.
-/

namespace PoserCore.Backends

open Lib

/-- The direction a flag stands for. -/
def epollFlags : Flags Direction 32 where
  mask
    | .read => EPOLLIN
    | .write => EPOLLOUT
  ne_zero d := by cases d <;> decide
  disjoint d d' h := by
    cases d <;> cases d' <;> first | exact absurd rfl h | decide

def pollFlags : Flags Direction 16 where
  mask
    | .read => POLLIN
    | .write => POLLOUT
  ne_zero d := by cases d <;> decide
  disjoint d d' h := by
    cases d <;> cases d' <;> first | exact absurd rfl h | decide

/-! ## Chains -/

theorem findFrom_eq_none {fd : ℤ} {i : ℕ} {p : Option ℕ} {chain : List EpollWatch} :
    findFrom fd i p chain = none ↔ lookup EpollWatch.fd chain fd = none := by
  induction chain generalizing i p with
  | nil => simp [findFrom]
  | cons w next ih =>
    rw [findFrom, lookup_cons]
    split_ifs with h
    · simp
    · exact ih

/-- What the search returns: the watch, where it is, and the position just before. -/
theorem findFrom_eq_some {fd : ℤ} {i : ℕ} {chain : List EpollWatch} {f : Found}
    (h : findFrom fd i (if i = 0 then none else some (i - 1)) chain = some f) :
    ∃ j, f.index = i + j ∧ f.parent = (if f.index = 0 then none else some (f.index - 1)) ∧
      chain[j]? = some f.watch ∧ f.watch.fd = fd := by
  induction chain generalizing i with
  | nil => cases h
  | cons w next ih =>
    rw [findFrom] at h
    split_ifs at h with hw hi
    · obtain rfl := Option.some.inj h
      exact ⟨0, rfl, by simp [hi], rfl, hw⟩
    · obtain rfl := Option.some.inj h
      exact ⟨0, rfl, by simp [hi], rfl, hw⟩
    all_goals
      have hnext : some i = if i + 1 = 0 then none else some (i + 1 - 1) := by simp
      rw [hnext] at h
      obtain ⟨j, hj, hp, hget, hfd⟩ := ih h
      exact ⟨j + 1, by omega, hp, by simpa using hget, hfd⟩

/-- Unlinking through the tracked parent takes out exactly the watch that was found. -/
theorem Found.unlink_eq {f : Found} (chain : List EpollWatch)
    (hp : f.parent = if f.index = 0 then none else some (f.index - 1)) :
    f.unlink chain = chain.eraseIdx f.index := by
  unfold Found.unlink
  rw [hp, List.eraseIdx_eq_take_drop_succ]
  split_ifs with h
  · simp [h]
  · have hpos : f.index - 1 + 1 = f.index := by omega
    simp [hpos]

namespace Epoll

variable {e : Epoll} {S : Interest} {id : ℤ} {d : Direction}

/-- The words of flags the watches hold. -/
def table (e : Epoll) (fd : ℤ) : Option (BitVec 32) :=
  (lookup EpollWatch.fd (e.watches (slot fd)) fd).map EpollWatch.events

/-- What the calls keep of the backend. -/
structure Good (e : Epoll) : Prop where
  epfd : 0 ≤ e.epfd
  nodup : ∀ i, ((e.watches i).map EpollWatch.fd).Nodup
  slotted : ∀ i, ∀ w ∈ e.watches i, slot w.fd = i
  kernel : e.kernel = e.table
  refused : e.refused = []

theorem good_create (epfd : ℕ) : (create epfd).Good where
  epfd := Int.natCast_nonneg epfd
  nodup _ := List.nodup_nil
  slotted _ _ hw := nomatch hw
  kernel := rfl
  refused := rfl

theorem findWatch_eq_none (hid : 0 ≤ id) : e.findWatch id = none ↔ e.table id = none := by
  rw [findWatch, if_neg (by omega), findFrom_eq_none, table, Option.map_eq_none_iff]

theorem findWatch_eq_some (hid : 0 ≤ id) {f : Found} (h : e.findWatch id = some f) :
    (e.watches (slot id))[f.index]? = some f.watch ∧ f.watch.fd = id ∧
      f.parent = if f.index = 0 then none else some (f.index - 1) := by
  rw [findWatch, if_neg (by omega)] at h
  obtain ⟨j, hj, hp, hget, hfd⟩ := findFrom_eq_some (i := 0) h
  rw [Nat.zero_add] at hj
  subst hj
  exact ⟨hget, hfd, hp⟩

theorem Good.table_eq (hg : e.Good) {i : ℕ} {w : EpollWatch}
    (h : (e.watches (slot id))[i]? = some w) (hfd : w.fd = id) : e.table id = some w.events := by
  subst hfd
  rw [table, lookup_of_mem (hg.nodup _) (List.mem_of_getElem? h), Option.map_some]

/-- Every flag of a watch is in the table, and nothing else is. -/
theorem Good.watched_iff (hg : e.Good) :
    (∃ i, ∃ w ∈ e.watches i, w.fd = id ∧ epollFlags.Has w.events d) ↔
      ∃ m, e.table id = some m ∧ epollFlags.Has m d := by
  constructor
  · rintro ⟨i, w, hw, rfl, hd⟩
    obtain rfl := hg.slotted i w hw
    exact ⟨w.events, by rw [table, lookup_of_mem (hg.nodup _) hw, Option.map_some], hd⟩
  · rintro ⟨m, hm, hd⟩
    rw [table, Option.map_eq_some_iff] at hm
    obtain ⟨w, hw, rfl⟩ := hm
    exact ⟨slot id, w, mem_of_lookup _ hw, key_of_lookup _ hw, hd⟩

/-- Replacing a chain changes the table only at the descriptors of its slot. -/
theorem table_setChain (e : Epoll) (id : ℤ) (chain : List EpollWatch) (fd : ℤ) :
    (e.setChain id chain).table fd =
      if slot fd = slot id then (lookup EpollWatch.fd chain fd).map EpollWatch.events
      else e.table fd := by
  unfold table setChain
  simp only [Function.update_apply]
  split_ifs <;> rfl

/-- The kernel follows a change of the watch of one descriptor. -/
theorem Good.setChain (hg : e.Good) (op : Ctl) (events : BitVec 32) {chain : List EpollWatch}
    {v : Option (BitVec 32)} (hnd : (chain.map EpollWatch.fd).Nodup)
    (hslot : ∀ w ∈ chain, slot w.fd = slot id)
    (htable : ∀ fd, (e.setChain id chain).table fd = if fd = id then v else e.table fd)
    (hop : (op = .add ∧ e.table id = none ∧ v = some events) ∨
      (op = .mod ∧ (e.table id).isSome ∧ v = some events) ∨
      (op = .del ∧ (e.table id).isSome ∧ v = none)) :
    ((e.setChain id chain).epollCtl op id events).Good ∧
      ∀ fd, ((e.setChain id chain).epollCtl op id events).table fd =
        if fd = id then v else e.table fd := by
  have hkernel : (e.setChain id chain).kernel id = e.table id := congrFun hg.kernel id
  have happ : (e.setChain id chain).epollCtl op id events =
      { e.setChain id chain with kernel := Function.update e.kernel id v } := by
    unfold epollCtl
    rw [hkernel]
    rcases hop with ⟨rfl, hn, rfl⟩ | ⟨rfl, hs, rfl⟩ | ⟨rfl, hs, rfl⟩
    · rw [hn]
      rfl
    · obtain ⟨m, hm⟩ := Option.isSome_iff_exists.1 hs
      rw [hm]
      rfl
    · obtain ⟨m, hm⟩ := Option.isSome_iff_exists.1 hs
      rw [hm]
      rfl
  rw [happ]
  refine ⟨⟨hg.epfd, ?_, ?_, ?_, hg.refused⟩, htable⟩
  · intro i
    change ((Function.update e.watches (slot id) chain i).map _).Nodup
    rw [Function.update_apply]
    split_ifs
    · exact hnd
    · exact hg.nodup i
  · intro i w hw
    change w ∈ Function.update e.watches (slot id) chain i at hw
    rw [Function.update_apply] at hw
    split_ifs at hw with hi
    · rw [hi]
      exact hslot w hw
    · exact hg.slotted i w hw
  · funext fd
    change Function.update e.kernel id v fd = (e.setChain id chain).table fd
    rw [htable, Function.update_apply, hg.kernel]

/-- A changed lookup in the chain of a descriptor, seen in the table. -/
theorem table_of_lookup {chain : List EpollWatch} {v : Option EpollWatch}
    (hl : ∀ fd, lookup EpollWatch.fd chain fd =
      if fd = id then v else lookup EpollWatch.fd (e.watches (slot id)) fd) (fd : ℤ) :
    (e.setChain id chain).table fd =
      if fd = id then v.map EpollWatch.events else e.table fd := by
  rw [table_setChain, hl]
  split_ifs with hs hid hid
  · rfl
  · rw [table, hs]
  · exact absurd (congrArg slot hid) hs
  · rfl

/-- The watch gets another word of flags. -/
theorem Good.setEvents (hg : e.Good) {i : ℕ} {w : EpollWatch}
    (hget : (e.watches (slot w.fd))[i]? = some w) (m : BitVec 32) :
    ((e.setChain w.fd ((e.watches (slot w.fd)).set i ⟨w.fd, m⟩)).epollCtl .mod w.fd m).Good ∧
      ∀ fd, ((e.setChain w.fd ((e.watches (slot w.fd)).set i ⟨w.fd, m⟩)).epollCtl
        .mod w.fd m).table fd = if fd = w.fd then some m else e.table fd := by
  have hl := lookup_set (hg.nodup _) hget (y := EpollWatch.mk w.fd m) rfl
  have hnd : (((e.watches (slot w.fd)).set i ⟨w.fd, m⟩).map EpollWatch.fd).Nodup :=
    nodup_set (hg.nodup _) hget rfl
  apply hg.setChain .mod m hnd ?_ (table_of_lookup hl)
  · rw [hg.table_eq hget rfl]
    exact Or.inr (Or.inl ⟨rfl, rfl, rfl⟩)
  · intro v hv
    rcases List.mem_or_eq_of_mem_set hv with hv | rfl
    · exact hg.slotted _ v hv
    · rfl

theorem Good.registerWatch (hg : e.Good) (h : epollFlags.Represents e.table S) (hid : 0 ≤ id) :
    (e.registerWatch id (epollFlags.mask d)).Good ∧
      epollFlags.Represents (e.registerWatch id (epollFlags.mask d)).table
        (insert (id, d) S) := by
  have hfd : ¬ e.epfd < 0 := by
    have := hg.epfd
    omega
  rw [Epoll.registerWatch, if_neg hfd, if_neg (by simpa [isValidFd] using hid)]
  cases hf : e.findWatch id with
  | none =>
    have hnone : e.table id = none := (findWatch_eq_none hid).1 hf
    have hlook : lookup EpollWatch.fd (e.watches (slot id)) id = none := by
      rwa [table, Option.map_eq_none_iff] at hnone
    have hl := lookup_snoc (x := EpollWatch.mk id (epollFlags.mask d)) hlook
    have hslot : ∀ w ∈ e.watches (slot id) ++ [EpollWatch.mk id (epollFlags.mask d)],
        slot w.fd = slot id := by
      intro w hw
      rcases List.mem_append.1 hw with hw | hw
      · exact hg.slotted _ w hw
      · rw [List.mem_singleton.1 hw]
    obtain ⟨hgood, htable⟩ := hg.setChain .add (epollFlags.mask d) (nodup_snoc hlook (hg.nodup _))
      hslot (table_of_lookup hl) (Or.inl ⟨rfl, hnone, rfl⟩)
    refine ⟨hgood, ?_⟩
    apply h.set
    intro fd
    rw [htable, hnone]
    simp
  | some f =>
    obtain ⟨hget, rfl, -⟩ := findWatch_eq_some hid hf
    have hsome : e.table f.watch.fd = some f.watch.events := hg.table_eq hget rfl
    dsimp only
    split_ifs with hset
    · rw [Flags.Represents.set_of_has h hsome hset]
      exact ⟨hg, h⟩
    · obtain ⟨hgood, htable⟩ := hg.setEvents hget (f.watch.events ||| epollFlags.mask d)
      refine ⟨hgood, ?_⟩
      apply h.set
      intro fd
      rw [htable, hsome]
      rfl

theorem Good.unregisterWatch (hg : e.Good) (h : epollFlags.Represents e.table S) (hid : 0 ≤ id) :
    (e.unregisterWatch id (epollFlags.mask d)).Good ∧
      epollFlags.Represents (e.unregisterWatch id (epollFlags.mask d)).table
        (S.erase (id, d)) := by
  have hfd : ¬ e.epfd < 0 := by
    have := hg.epfd
    omega
  rw [Epoll.unregisterWatch, if_neg hfd, if_neg (by simpa [isValidFd] using hid)]
  cases hf : e.findWatch id with
  | none =>
    have hnone : e.table id = none := (findWatch_eq_none hid).1 hf
    dsimp only
    rw [h.clear_of_not fun m hm => by simp [hnone] at hm]
    exact ⟨hg, h⟩
  | some f =>
    obtain ⟨hget, rfl, hparent⟩ := findWatch_eq_some hid hf
    have hsome : e.table f.watch.fd = some f.watch.events := hg.table_eq hget rfl
    dsimp only
    split_ifs with hclr hz
    · rw [h.clear_of_not ?_]
      · exact ⟨hg, h⟩
      · intro m hm
        obtain rfl := Option.some.inj (hsome.symm.trans hm)
        exact not_not.2 hclr
    · -- the watch keeps the other direction
      obtain ⟨hgood, htable⟩ := hg.setEvents hget (f.watch.events &&& ~~~epollFlags.mask d)
      refine ⟨hgood, ?_⟩
      apply h.clear hsome
      intro fd
      rw [htable, if_neg hz]
    · -- the watch leaves its chain
      rw [not_not] at hz
      rw [f.unlink_eq _ hparent]
      have hl := lookup_eraseIdx (hg.nodup _) hget
      have hslot : ∀ w ∈ (e.watches (slot f.watch.fd)).eraseIdx f.index,
          slot w.fd = slot f.watch.fd := fun w hw => hg.slotted _ w (List.mem_of_mem_eraseIdx hw)
      obtain ⟨hgood, htable⟩ := hg.setChain .del 0 (nodup_eraseIdx (hg.nodup _) f.index) hslot
        (table_of_lookup hl) (Or.inr (Or.inr ⟨rfl, by rw [hsome]; rfl, rfl⟩))
      refine ⟨hgood, ?_⟩
      apply h.clear hsome
      intro fd
      rw [htable, if_pos hz]
      rfl

end Epoll

/-! ## The poll array -/

namespace Poll

variable {p : Poll} {S : Interest} {id : ℤ} {d : Direction} {i : ℕ}

/-- The entries in use. -/
def entries (p : Poll) : List PollFd := (List.range p.nfds).map p.fds

def table (p : Poll) (fd : ℤ) : Option (BitVec 16) :=
  (lookup PollFd.fd p.entries fd).map PollFd.events

/-- What the calls keep of the array. -/
structure Good (p : Poll) : Prop where
  nodup : (p.entries.map PollFd.fd).Nodup
  fits : p.nfds ≤ p.fdssz

theorem good_create : create.Good where
  nodup := List.nodup_nil
  fits := Nat.le_refl _

theorem entries_getElem? (p : Poll) (i : ℕ) :
    p.entries[i]? = if i < p.nfds then some (p.fds i) else none := by
  unfold entries
  rw [List.getElem?_map]
  split_ifs with h
  · rw [List.getElem?_range h, Option.map_some]
  · rw [List.getElem?_eq_none (by simpa using h), Option.map_none]

theorem findFd_eq_some (h : p.findFd id = some i) : i < p.nfds ∧ (p.fds i).fd = id := by
  have hi := List.mem_of_find?_eq_some h
  have hfd := List.find?_some h
  exact ⟨List.mem_range.1 hi, by simpa using hfd⟩

theorem findFd_eq_none (h : p.findFd id = none) : lookup PollFd.fd p.entries id = none := by
  rw [lookup_eq_none]
  intro x hx
  obtain ⟨i, hi, rfl⟩ := List.mem_map.1 hx
  have hne := List.find?_eq_none.1 h i hi
  simpa using hne

/-- Writing an entry in use. -/
theorem entries_update (hi : i < p.nfds) (x : PollFd) :
    (Poll.mk p.nfds p.fdssz (Function.update p.fds i x)).entries = p.entries.set i x := by
  apply List.ext_getElem?
  intro j
  rw [entries_getElem?, List.getElem?_set, entries_getElem?]
  simp only [Function.update_apply, entries, List.length_map, List.length_range]
  split_ifs <;> first | rfl | omega

theorem entries_push (sz : ℕ) (x : PollFd) :
    (Poll.mk (p.nfds + 1) sz (Function.update p.fds p.nfds x)).entries = p.entries ++ [x] := by
  unfold entries
  dsimp only
  rw [List.range_succ, List.map_append, List.map_singleton, Function.update_self]
  congr 1
  apply List.map_congr_left
  intro j hj
  have hlt := List.mem_range.1 hj
  exact Function.update_of_ne (by omega) _ _

/-- Compaction drops the entry: the ones after it move down by one. -/
theorem entries_moveDown (hi : i < p.nfds) (x : PollFd) :
    (Poll.mk (p.nfds - 1) p.fdssz
      (moveDown (Function.update p.fds i x) i (p.nfds - 1 - i))).entries =
        p.entries.eraseIdx i := by
  apply List.ext_getElem?
  intro j
  rw [entries_getElem?, List.getElem?_eraseIdx, entries_getElem?, entries_getElem?]
  simp only [moveDown, Function.update_apply]
  split_ifs <;> first | rfl | omega

theorem table_eq (hg : p.Good) (hi : i < p.nfds) (hfd : (p.fds i).fd = id) :
    p.entries[i]? = some (p.fds i) ∧ p.table id = some (p.fds i).events := by
  have hget : p.entries[i]? = some (p.fds i) := by rw [entries_getElem?, if_pos hi]
  subst hfd
  exact ⟨hget, by rw [table, lookup_of_mem hg.nodup (List.mem_of_getElem? hget), Option.map_some]⟩

/-- The entries in use have the flags of the table. -/
theorem Good.polled_iff (hg : p.Good) :
    (∃ i < p.nfds, (p.fds i).fd = id ∧ pollFlags.Has (p.fds i).events d) ↔
      ∃ m, p.table id = some m ∧ pollFlags.Has m d := by
  constructor
  · rintro ⟨i, hi, hfd, hd⟩
    exact ⟨_, (table_eq hg hi hfd).2, hd⟩
  · rintro ⟨m, hm, hd⟩
    rw [table, Option.map_eq_some_iff] at hm
    obtain ⟨x, hx, rfl⟩ := hm
    obtain ⟨i, hi, rfl⟩ := List.mem_map.1 (mem_of_lookup _ hx)
    exact ⟨i, List.mem_range.1 hi, key_of_lookup _ hx, hd⟩

theorem Good.registerPoll (hg : p.Good) (h : pollFlags.Represents p.table S) (hid : 0 ≤ id) :
    (p.registerPoll id (pollFlags.mask d)).Good ∧
      pollFlags.Represents (p.registerPoll id (pollFlags.mask d)).table (insert (id, d) S) := by
  have hfits := hg.fits
  rw [Poll.registerPoll, if_neg (by simpa [isValidFd] using hid)]
  cases hf : p.findFd id with
  | none =>
    have hlook := findFd_eq_none hf
    dsimp only
    refine ⟨⟨?_, ?_⟩, ?_⟩
    · rw [entries_push]
      exact nodup_snoc hlook hg.nodup
    · dsimp only
      split_ifs <;> omega
    · apply h.set
      intro fd
      unfold table
      rw [entries_push, lookup_snoc (x := PollFd.mk id _ 0) hlook, hlook]
      split_ifs with hfd
      · simp
      · rfl
  | some i =>
    obtain ⟨hi, hkey⟩ := findFd_eq_some hf
    obtain ⟨hget, hsome⟩ := table_eq hg hi hkey
    dsimp only
    split_ifs with hset
    · rw [Flags.Represents.set_of_has h hsome hset]
      exact ⟨hg, h⟩
    · refine ⟨⟨?_, hfits⟩, ?_⟩
      · rw [entries_update hi]
        exact nodup_set hg.nodup hget rfl
      · apply h.set
        intro fd
        rw [hsome]
        unfold table
        rw [entries_update hi, lookup_set hg.nodup hget (by rfl), hkey]
        split_ifs <;> rfl

theorem Good.unregisterPoll (hg : p.Good) (h : pollFlags.Represents p.table S) (hid : 0 ≤ id) :
    (p.unregisterPoll id (pollFlags.mask d)).Good ∧
      pollFlags.Represents (p.unregisterPoll id (pollFlags.mask d)).table (S.erase (id, d)) := by
  have hfits := hg.fits
  rw [Poll.unregisterPoll, if_neg (by simpa [isValidFd] using hid)]
  cases hf : p.findFd id with
  | none =>
    have hlook := findFd_eq_none hf
    dsimp only
    rw [h.clear_of_not fun m hm => by simp [table, hlook] at hm]
    exact ⟨hg, h⟩
  | some i =>
    obtain ⟨hi, hkey⟩ := findFd_eq_some hf
    obtain ⟨hget, hsome⟩ := table_eq hg hi hkey
    dsimp only
    split_ifs with hz
    · refine ⟨⟨?_, ?_⟩, ?_⟩
      · rw [entries_moveDown hi]
        exact nodup_eraseIdx hg.nodup i
      · dsimp only
        omega
      · apply h.clear hsome
        intro fd
        unfold table
        rw [entries_moveDown hi, lookup_eraseIdx hg.nodup hget, hkey, if_pos hz]
        split_ifs <;> rfl
    · refine ⟨⟨?_, hfits⟩, ?_⟩
      · rw [entries_update hi]
        exact nodup_set hg.nodup hget rfl
      · apply h.clear hsome
        intro fd
        unfold table
        rw [entries_update hi, lookup_set hg.nodup hget (by rfl), hkey, if_neg hz]
        split_ifs <;> rfl

end Poll

end PoserCore.Backends
