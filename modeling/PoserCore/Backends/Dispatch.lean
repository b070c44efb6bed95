import Mathlib.Tactic.IntervalCases
import PoserCore.Backends.Rounds

/-!
# Every event is raised at most once in a round

For the poll backend this rests on what handlers can do to the array (`Moved`): an entry only moves
down, so whatever stands at the index or above it was not visited yet.  Handlers that only register
(`Grown`) leave the entries where they are, and then nothing that is ready is missed.
-/

namespace PoserCore.Backends

open Lib

variable {handlers : Handlers} {S ready : Interest} {fdSetsize : ℕ}

/-- What may be raised in this round -/
structure Sound (rep : Ready → Prop) (raised : List Ready) : Prop where
  nodup : raised.Nodup
  rep : ∀ e ∈ raised, rep e

theorem sound_nil (rep : Ready → Prop) : Sound rep [] := ⟨List.nodup_nil, by simp⟩

theorem Sound.snoc {rep : Ready → Prop} {raised : List Ready} {e : Ready} (h : Sound rep raised)
    (he : rep e) (hn : e ∉ raised) : Sound rep (raised ++ [e]) := by
  refine ⟨?_, fun x hx => ?_⟩
  · rw [List.nodup_append_comm, List.singleton_append, List.nodup_cons]
    exact ⟨hn, h.nodup⟩
  · rcases List.mem_append.1 hx with hx | hx
    · exact h.rep x hx
    · rw [List.mem_singleton.1 hx]
      exact he

/-- Handlers that only register -/
def Handlers.Registers (handlers : Handlers) : Prop :=
  ∀ raised, ∀ c ∈ handlers raised, ∃ id, c = .registerRead id ∨ c = .registerWrite id

/-- Handlers keep what calls keep. -/
theorem calls_keep {β : Type} {call : β → Call → β} {I : β → Interest → Prop}
    (hcall : ∀ b S c, c.Valid fdSetsize → I b S → I (call b c) (c.track S)) :
    ∀ (calls : List Call) {b : β} {S : Interest}, (∀ c ∈ calls, c.Valid fdSetsize) → I b S →
      I (calls.foldl call b) (calls.foldl Call.track S)
  | [], _, _, _, h => h
  | c :: calls, b, S, hvalid, h =>
    calls_keep hcall calls (fun c' hc' => hvalid c' (.tail _ hc'))
      (hcall b S c (hvalid c (.head _)) h)

/-! ## epoll -/

namespace Epoll

variable {r : Round Epoll} {rep : Ready → Prop}

/-- The events of one entry of the answer, in the order in which they are raised -/
def eventsOf (ev : EpollEvent) : List Ready :=
  (if ev.events &&& EPOLLOUT ≠ 0 then [(ev.fd, .write)] else []) ++
    if ev.events &&& EPOLLIN ≠ 0 then [(ev.fd, .read)] else []

theorem mem_eventsOf {ev : EpollEvent} {e : Ready} :
    e ∈ eventsOf ev ↔ e.1 = ev.fd ∧ epollFlags.Has ev.events e.2 := by
  obtain ⟨fd, d⟩ := e
  unfold eventsOf
  cases d <;> split_ifs <;> simp_all [Lib.Flags.Has, epollFlags]

theorem nodup_eventsOf (ev : EpollEvent) : (eventsOf ev).Nodup := by
  unfold eventsOf
  split_ifs <;> simp

/-- Whatever the handlers do, an entry of the answer is dealt with as it stands. -/
theorem raised_dispatch (handlers : Handlers) (r : Round Epoll) (ev : EpollEvent) :
    (dispatch handlers r ev).raised = r.raised ++ eventsOf ev := by
  unfold dispatch eventsOf Round.raise
  split_ifs <;> simp

theorem raised_processEvents (handlers : Handlers) (ev : List EpollEvent) (r : Round Epoll) :
    (processEvents handlers ev r).raised = r.raised ++ ev.flatMap eventsOf := by
  induction ev generalizing r with
  | nil => simp [processEvents]
  | cons x ev ih =>
    have := ih (dispatch handlers r x)
    rw [raised_dispatch, List.append_assoc] at this
    exact this

theorem Answer.sound {e : Epoll} {ev : List EpollEvent} (h : e.Answer ready ev)
    (hkernel : ∀ id d, (∃ m, e.kernel id = some m ∧ epollFlags.Has m d) ↔ (id, d) ∈ S) :
    Sound (fun x => x ∈ S ∧ x ∈ ready) (ev.flatMap eventsOf) := by
  refine ⟨?_, fun x hx => ?_⟩
  · rw [List.nodup_flatMap]
    refine ⟨fun x _ => nodup_eventsOf x, ?_⟩
    refine (List.pairwise_map.1 h.nodup).imp fun {x y} hxy => ?_
    intro e he he'
    exact hxy ((mem_eventsOf.1 he).1.symm.trans (mem_eventsOf.1 he').1)
  · obtain ⟨y, hy, hxy⟩ := List.mem_flatMap.1 hx
    obtain ⟨hfd, hhas⟩ := mem_eventsOf.1 hxy
    obtain ⟨m, hm, hiff⟩ := h.mem y hy
    obtain ⟨hmd, hready⟩ := (hiff x.2).1 hhas
    rw [← hfd] at hm hready
    exact ⟨(hkernel x.1 x.2).1 ⟨m, hm, hmd⟩, hready⟩

theorem Answer.complete {e : Epoll} {ev : List EpollEvent} (h : e.Answer ready ev)
    (hfull : ev.length < EP_MAX_EVENTS)
    (hkernel : ∀ id d, (∃ m, e.kernel id = some m ∧ epollFlags.Has m d) ↔ (id, d) ∈ S)
    {x : Ready} (hS : x ∈ S) (hready : x ∈ ready) : x ∈ ev.flatMap eventsOf := by
  obtain ⟨m, hm, hmd⟩ := (hkernel x.1 x.2).2 hS
  obtain ⟨y, hy, hfd⟩ := h.all hfull x.1 m x.2 hm hmd hready
  obtain ⟨m', hm', hiff⟩ := h.mem y hy
  rw [hfd, hm] at hm'
  obtain rfl := Option.some.inj hm'
  refine List.mem_flatMap.2 ⟨y, hy, mem_eventsOf.2 ⟨hfd.symm, (hiff x.2).2 ⟨hmd, ?_⟩⟩⟩
  rwa [hfd]

/-- The watches and the kernel's set hold the registered pairs. -/
def Ordered (e : Epoll) (S : Interest) : Prop := e.Good ∧ epollFlags.Represents e.table S

theorem Ordered.call {e : Epoll} (h : e.Ordered S) (c : Call) (hc : c.Valid fdSetsize) :
    (e.call c).Ordered (c.track S) :=
  h.1.call h.2 c hc.1

theorem Ordered.dispatch (h : r.backend.Ordered r.registered)
    (hvalid : ∀ raised, ∀ c ∈ handlers raised, c.Valid fdSetsize) (ev : EpollEvent) :
    (dispatch handlers r ev).backend.Ordered (dispatch handlers r ev).registered := by
  have hraise (r : Round Epoll) (e : Ready) (h : r.backend.Ordered r.registered) :
      (r.raise Epoll.call handlers e).backend.Ordered (r.raise Epoll.call handlers e).registered :=
    calls_keep (I := Ordered) (fun _ _ c hc ho => ho.call c hc) _ (hvalid _) h
  unfold Epoll.dispatch
  split_ifs
  · exact hraise _ _ (hraise r _ h)
  · exact hraise r _ h
  · exact hraise r _ h
  · exact h

theorem Ordered.processEvents (hvalid : ∀ raised, ∀ c ∈ handlers raised, c.Valid fdSetsize)
    (ev : List EpollEvent) (h : r.backend.Ordered r.registered) :
    (processEvents handlers ev r).backend.Ordered (processEvents handlers ev r).registered := by
  induction ev generalizing r with
  | nil => exact h
  | cons x ev ih => exact ih (h.dispatch hvalid x)

end Epoll

/-! ## select -/

namespace Select

variable {d : Direction} {set : ℕ → Bool} {src i n : ℕ} {r : Round Select} {rep : Ready → Prop}

/-- What one of the loops raises: descriptors that are set, in their order, after what was raised
before. -/
theorem scan_spec (fdSetsize : ℕ) (handlers : Handlers) (d : Direction) (set : ℕ → Bool)
    (src i : ℕ) (r : Round Select) :
    ∃ fds : List ℕ, (scan fdSetsize handlers d set src i r).2.raised =
        r.raised ++ fds.map (fun fd : ℕ => ((fd : ℤ), d)) ∧
      fds.Pairwise (· < ·) ∧ ∀ fd ∈ fds, i ≤ fd ∧ set fd = true := by
  fun_induction scan fdSetsize handlers d set src i r with
  | case1 src i r hc hset ih =>
    obtain ⟨fds, hraised, hsorted, hmem⟩ := ih
    refine ⟨i :: fds, ?_, ?_, ?_⟩
    · rw [hraised]
      simp [Round.raise]
    · exact List.pairwise_cons.2 ⟨fun fd hfd => (hmem fd hfd).1, hsorted⟩
    · intro fd hfd
      rcases List.mem_cons.1 hfd with rfl | hfd
      · exact ⟨le_rfl, hset⟩
      · exact ⟨by have := (hmem fd hfd).1; omega, (hmem fd hfd).2⟩
  | case2 src i r hc hset ih =>
    obtain ⟨fds, hraised, hsorted, hmem⟩ := ih
    exact ⟨fds, hraised, hsorted, fun fd hfd => ⟨by have := (hmem fd hfd).1; omega, (hmem fd hfd).2⟩⟩
  | case3 src i r hc => exact ⟨[], by simp, List.Pairwise.nil, by simp⟩

theorem mem_map_cast {fds : List ℕ} {e : Ready} :
    e ∈ fds.map (fun fd : ℕ => ((fd : ℤ), d)) ↔ ∃ fd ∈ fds, e = ((fd : ℤ), d) := by
  simp [eq_comm]

theorem scanSet_spec (fdSetsize : ℕ) (handlers : Handlers) (d : Direction) (s : Select)
    (set : ℕ → Bool) (src : ℕ) (r : Round Select) :
    ∃ fds : List ℕ, (scanSet fdSetsize handlers d s set src r).2.raised =
        r.raised ++ fds.map (fun fd : ℕ => ((fd : ℤ), d)) ∧
      fds.Nodup ∧ ∀ fd ∈ fds, set fd = true := by
  unfold scanSet
  split_ifs
  · obtain ⟨fds, hraised, hsorted, hmem⟩ := scan_spec fdSetsize handlers d set src 0 r
    exact ⟨fds, hraised, hsorted.imp fun h => ne_of_lt h, fun fd hfd => (hmem fd hfd).2⟩
  · exact ⟨[], by simp, List.nodup_nil, by simp⟩

theorem nodup_map_cast {fds : List ℕ} (h : fds.Nodup) (d : Direction) :
    (fds.map (fun fd : ℕ => ((fd : ℤ), d))).Nodup :=
  h.map fun _ _ he => Int.ofNat.inj (Prod.mk.inj he).1

/-- Both loops use the counts of the state before any handler ran. -/
theorem processEvents_eq (fdSetsize : ℕ) (handlers : Handlers) (sets : Direction → ℕ → Bool)
    (src : ℕ) (r : Round Select) :
    processEvents fdSetsize handlers sets src r =
      (scanSet fdSetsize handlers .read r.backend (sets .read)
        (scanSet fdSetsize handlers .write r.backend (sets .write) src r).1
        (scanSet fdSetsize handlers .write r.backend (sets .write) src r).2).2 :=
  rfl

theorem Answer.sound {s : Select} {sets : Direction → ℕ → Bool} (h : s.Answer ready sets src)
    (hs : s.Good S) (handlers : Handlers) :
    Sound (fun x => x ∈ S ∧ x ∈ ready)
      (processEvents fdSetsize handlers sets src ⟨s, S, []⟩).raised := by
  have hrep (fd : ℕ) (d : Direction) (hset : sets d fd = true) :
      ((fd : ℤ), d) ∈ S ∧ ((fd : ℤ), d) ∈ ready := by
    obtain ⟨hfds, hready⟩ := (h.mem fd d).1 hset
    exact ⟨(hs.mem fd d).2 ⟨Int.natCast_nonneg fd, by simpa using hfds⟩, hready⟩
  obtain ⟨writes, hwrites, hnw, hmw⟩ := scanSet_spec fdSetsize handlers .write s (sets .write) src
    ⟨s, S, []⟩
  obtain ⟨reads, hreads, hnr, hmr⟩ := scanSet_spec fdSetsize handlers .read s (sets .read)
    (scanSet fdSetsize handlers .write s (sets .write) src ⟨s, S, []⟩).1
    (scanSet fdSetsize handlers .write s (sets .write) src ⟨s, S, []⟩).2
  have hraised : (processEvents fdSetsize handlers sets src ⟨s, S, []⟩).raised =
      writes.map (fun fd : ℕ => ((fd : ℤ), .write)) ++ reads.map fun fd : ℕ => ((fd : ℤ), .read) := by
    rw [processEvents_eq, hreads, hwrites, List.nil_append]
  rw [hraised]
  refine ⟨List.nodup_append.2 ⟨nodup_map_cast hnw _, nodup_map_cast hnr _, ?_⟩, fun x hx => ?_⟩
  · intro x hx y hy hxy
    obtain ⟨fd, -, rfl⟩ := mem_map_cast.1 hx
    obtain ⟨fd', -, rfl⟩ := mem_map_cast.1 hy
    cases (Prod.mk.inj hxy).2
  · rcases List.mem_append.1 hx with hx | hx
    · obtain ⟨fd, hfd, rfl⟩ := mem_map_cast.1 hx
      exact hrep fd .write (hmw fd hfd)
    · obtain ⟨fd, hfd, rfl⟩ := mem_map_cast.1 hx
      exact hrep fd .read (hmr fd hfd)

theorem Good.raise (h : r.backend.Good r.registered)
    (hvalid : ∀ raised, ∀ c ∈ handlers raised, c.Valid fdSetsize) (e : Ready) :
    (r.raise (Select.call fdSetsize) handlers e).backend.Good
      (r.raise (Select.call fdSetsize) handlers e).registered :=
  calls_keep (I := Good) (fun _ _ c hc hg => hg.call c hc) _ (hvalid _) h

theorem Good.scan (hvalid : ∀ raised, ∀ c ∈ handlers raised, c.Valid fdSetsize) :
    r.backend.Good r.registered →
      (scan fdSetsize handlers d set src i r).2.backend.Good
        (scan fdSetsize handlers d set src i r).2.registered := by
  fun_induction Select.scan fdSetsize handlers d set src i r with
  | case1 src i r hc hset ih => exact fun h => ih (h.raise hvalid _)
  | case2 src i r hc hset ih => exact ih
  | case3 src i r hc => exact id

theorem Good.processEvents (hvalid : ∀ raised, ∀ c ∈ handlers raised, c.Valid fdSetsize)
    (sets : Direction → ℕ → Bool) (h : r.backend.Good r.registered) :
    (processEvents fdSetsize handlers sets src r).backend.Good
      (processEvents fdSetsize handlers sets src r).registered := by
  have hscan (d : Direction) (s : Select) (src : ℕ) (r : Round Select)
      (h : r.backend.Good r.registered) :
      (scanSet fdSetsize handlers d s (sets d) src r).2.backend.Good
        (scanSet fdSetsize handlers d s (sets d) src r).2.registered := by
    unfold scanSet
    split_ifs
    · exact Good.scan hvalid h
    · exact h
  rw [processEvents_eq]
  exact hscan .read _ _ _ (hscan .write _ _ _ h)

/-! ### Handlers that only register -/

theorem nfds_register (s : Select) (d : Direction) (id : ℤ) :
    s.nfds ≤ (s.register fdSetsize d id).nfds := by
  unfold register
  split_ifs with hvalid hset
  · exact le_rfl
  · exact le_rfl
  · dsimp only
    split_ifs with hle
    · have hsame : ((s.setFd d id true).addCount d 1).nfds = s.nfds := rfl
      rw [hsame] at hle
      dsimp only
      omega
    · exact le_rfl

theorem nfds_raise (hreg : handlers.Registers) (r : Round Select) (e : Ready) :
    r.backend.nfds ≤ (r.raise (call fdSetsize) handlers e).backend.nfds := by
  have hcalls : ∀ (calls : List Call) (s : Select),
      (∀ c ∈ calls, ∃ id, c = .registerRead id ∨ c = .registerWrite id) →
      s.nfds ≤ (calls.foldl (call fdSetsize) s).nfds := by
    intro calls
    induction calls with
    | nil => exact fun s _ => le_rfl
    | cons c calls ih =>
      intro s hall
      refine le_trans ?_ (ih _ fun c' hc' => hall c' (.tail _ hc'))
      obtain ⟨id, rfl | rfl⟩ := hall c (.head _)
      · exact nfds_register s .read id
      · exact nfds_register s .write id
  exact hcalls _ _ (hreg _)

theorem pending_succ (hset : set i = true) (hn : i < n) :
    (pending set i n).card = (pending set (i + 1) n).card + 1 := by
  have hinsert : pending set i n = insert i (pending set (i + 1) n) := by
    ext j
    simp only [pending, Finset.mem_filter, Finset.mem_range, Finset.mem_insert]
    constructor
    · rintro ⟨hj, hij, hs⟩
      by_cases hji : j = i
      · exact .inl hji
      · exact .inr ⟨hj, by omega, hs⟩
    · rintro (rfl | ⟨hj, hij, hs⟩)
      · exact ⟨hn, le_rfl, hset⟩
      · exact ⟨hj, by omega, hs⟩
  rw [hinsert, Finset.card_insert_of_notMem (by simp [pending])]

theorem pending_skip (hset : ¬ set i = true) : pending set (i + 1) n = pending set i n := by
  ext j
  simp only [pending, Finset.mem_filter]
  constructor
  · exact fun ⟨hj, hij, hs⟩ => ⟨hj, by omega, hs⟩
  · rintro ⟨hj, hij, hs⟩
    have : j ≠ i := by
      rintro rfl
      exact hset hs
    exact ⟨hj, by omega, hs⟩

/-- If `src` counts what is set, then the loop does not stop before all of it was raised. -/
theorem scan_complete (fdSetsize : ℕ) (hreg : handlers.Registers)
    (hbound : ∀ fd, set fd = true → fd < n) :
    (n : ℤ) ≤ r.backend.nfds → (pending set i n).card ≤ src →
    (∀ fd, i ≤ fd → set fd = true →
      ((fd : ℤ), d) ∈ (scan fdSetsize handlers d set src i r).2.raised) ∧
    (scan fdSetsize handlers d set src i r).1 = src - (pending set i n).card ∧
    (n : ℤ) ≤ (scan fdSetsize handlers d set src i r).2.backend.nfds := by
  fun_induction scan fdSetsize handlers d set src i r with
  | case1 src i r hc hset ih =>
    intro hn hsrc
    have hpending := pending_succ hset (hbound i hset)
    obtain ⟨hall, hfirst, hnfds⟩ := ih (hn.trans (nfds_raise hreg r _)) (by omega)
    refine ⟨fun fd hfd hs => ?_, by omega, hnfds⟩
    rcases Nat.eq_or_lt_of_le hfd with rfl | hlt
    · obtain ⟨fds, hraised, -⟩ := scan_spec fdSetsize handlers d set (src - 1) (i + 1)
        (r.raise (call fdSetsize) handlers ((i : ℤ), d))
      rw [hraised]
      simp [Round.raise]
    · exact hall fd hlt hs
  | case2 src i r hc hset ih =>
    intro hn hsrc
    rw [← pending_skip hset] at hsrc ⊢
    obtain ⟨hall, hfirst, hnfds⟩ := ih hn hsrc
    refine ⟨fun fd hfd hs => ?_, hfirst, hnfds⟩
    have : fd ≠ i := by
      rintro rfl
      exact hset hs
    exact hall fd (by omega) hs
  | case3 src i r hc =>
    intro hn hsrc
    have hempty : pending set i n = ∅ := by
      by_cases hz : src = 0
      · exact Finset.card_eq_zero.1 (by omega)
      · ext j
        simp only [pending, Finset.mem_filter, Finset.mem_range, Finset.notMem_empty, iff_false]
        rintro ⟨hj, hij, -⟩
        exact hc ⟨by omega, by omega⟩
    refine ⟨fun fd hfd hs => ?_, by simp [hempty], hn⟩
    have hmem : fd ∈ pending set i n := by
      simp only [pending, Finset.mem_filter, Finset.mem_range]
      exact ⟨hbound fd hs, hfd, hs⟩
    rw [hempty] at hmem
    cases hmem

theorem scanSet_complete (fdSetsize src : ℕ) (r : Round Select) (hreg : handlers.Registers)
    (hbound : ∀ fd, set fd = true → fd < n) {s : Select}
    (hzero : s.count d = 0 → ∀ fd, ¬ set fd = true) (hn : (n : ℤ) ≤ r.backend.nfds)
    (hsrc : (pending set 0 n).card ≤ src) :
    (∀ fd, set fd = true →
      ((fd : ℤ), d) ∈ (scanSet fdSetsize handlers d s set src r).2.raised) ∧
    (scanSet fdSetsize handlers d s set src r).1 = src - (pending set 0 n).card ∧
    (n : ℤ) ≤ (scanSet fdSetsize handlers d s set src r).2.backend.nfds := by
  unfold scanSet
  split_ifs with hz
  · obtain ⟨hall, hfirst, hnfds⟩ := scan_complete fdSetsize (d := d) hreg hbound hn hsrc
    exact ⟨fun fd => hall fd (Nat.zero_le fd), hfirst, hnfds⟩
  · have hnone := hzero (not_not.1 hz)
    have hempty : pending set 0 n = ∅ := by
      ext j
      simp [pending, hnone j]
    exact ⟨fun fd hs => absurd hs (hnone fd), by simp [hempty], hn⟩

theorem Answer.complete {s : Select} {sets : Direction → ℕ → Bool} (h : s.Answer ready sets src)
    (hs : s.Good S) (hreg : handlers.Registers) {x : Ready} (hS : x ∈ S) (hready : x ∈ ready) :
    x ∈ (processEvents fdSetsize handlers sets src ⟨s, S, []⟩).raised := by
  have hmem (fd : ℕ) (d : Direction) (hset : sets d fd = true) : ((fd : ℤ), d) ∈ S :=
    (hs.mem fd d).2 ⟨Int.natCast_nonneg fd, by simpa using ((h.mem fd d).1 hset).1⟩
  have hbound (d : Direction) (fd : ℕ) (hset : sets d fd = true) : fd < s.nfds.toNat := by
    have := hs.top.1 _ (hmem fd d hset)
    dsimp only at this
    omega
  have hzero (d : Direction) (hz : s.count d = 0) (fd : ℕ) : ¬ sets d fd = true := by
    intro hset
    rw [hs.count d] at hz
    have hcard := Finset.card_eq_zero.1 (Int.natCast_eq_zero.1 hz)
    have hfilter : ((fd : ℤ), d) ∈ S.filter fun x => x.2 = d :=
      Finset.mem_filter.2 ⟨hmem fd d hset, rfl⟩
    rw [hcard] at hfilter
    exact Finset.notMem_empty _ hfilter
  have hnonneg : 0 ≤ s.nfds := by
    rcases hs.top.2 with ⟨-, hz⟩ | ⟨y, hy, hz⟩
    · omega
    · have := hs.nonneg hy
      omega
  obtain ⟨hwrites, hfirst, hnfds⟩ := scanSet_complete fdSetsize src ⟨s, S, []⟩ hreg (hbound .write)
    (hzero .write) (by simp [hnonneg]) (by rw [h.count]; omega)
  rw [processEvents_eq]
  obtain ⟨src', r', hw⟩ : ∃ src' r', scanSet fdSetsize handlers .write s (sets .write) src ⟨s, S, []⟩ =
      (src', r') := ⟨_, _, rfl⟩
  simp only [hw] at hwrites hfirst hnfds ⊢
  obtain ⟨hreads, -, -⟩ := scanSet_complete fdSetsize src' r' hreg (hbound .read) (hzero .read) hnfds
    (by rw [hfirst, h.count]; omega)
  obtain ⟨fd, d⟩ := x
  have h0 := hs.nonneg hS
  dsimp only at h0
  lift fd to ℕ using h0
  have hset : sets d fd = true :=
    (h.mem fd d).2 ⟨by simpa using ((hs.mem fd d).1 hS).2, hready⟩
  cases d with
  | read => exact hreads fd hset
  | write =>
    obtain ⟨fds, hraised, -⟩ := scanSet_spec fdSetsize handlers .read s (sets .read) src' r'
    rw [hraised]
    exact List.mem_append_left _ (hwrites fd hset)

end Select

/-! ## poll -/

namespace Poll

variable {p p' p'' : Poll} {r : Round Poll} {rep : Ready → Prop} {i j prc : ℕ}

/-- What handlers do to the array: what stands somewhere afterwards is new, or it moved down from an
entry, or it is left over behind the entries. -/
def Moved (p p' : Poll) : Prop :=
  ∀ j, (p'.fds j).revents = 0 ∨ ∃ k, j ≤ k ∧ (k < p.nfds ∨ k = j ∧ p'.nfds ≤ j) ∧
    (p'.fds j).fd = (p.fds k).fd ∧ (p'.fds j).revents = (p.fds k).revents

theorem Moved.refl (p : Poll) : Moved p p := by
  intro j
  by_cases hj : j < p.nfds
  · exact .inr ⟨j, le_rfl, .inl hj, rfl, rfl⟩
  · exact .inr ⟨j, le_rfl, .inr ⟨rfl, by omega⟩, rfl, rfl⟩

theorem Moved.trans (h : Moved p p') (h' : Moved p' p'') : Moved p p'' := by
  intro j
  obtain hz | ⟨k, hjk, hk, hfd, hrev⟩ := h' j
  · exact .inl hz
  · obtain hz | ⟨l, hkl, hl, hfd', hrev'⟩ := h k
    · exact .inl (hrev.trans hz)
    · exact .inr ⟨l, by omega, by omega, hfd.trans hfd', hrev.trans hrev'⟩

theorem moved_registerPoll (p : Poll) (id : ℤ) (flag : BitVec 16) :
    Moved p (p.registerPoll id flag) := by
  unfold registerPoll
  by_cases hvalid : (!isValidFd id) = true
  · rw [if_pos hvalid]
    exact .refl p
  rw [if_neg hvalid]
  cases hf : p.findFd id with
  | some k =>
    obtain ⟨hk, -⟩ := findFd_eq_some hf
    dsimp only
    split_ifs
    · exact .refl p
    · intro j
      by_cases hj : j = k
      · refine .inr ⟨j, le_rfl, .inl (by omega), ?_⟩
        simp [hj]
      · simp only [Function.update_of_ne hj]
        exact Moved.refl p j
  | none =>
    intro j
    by_cases hj : j = p.nfds
    · exact .inl (by simp [hj])
    · refine .inr ⟨j, le_rfl, ?_, ?_⟩
      · dsimp only
        omega
      · simp [Function.update_of_ne hj]

theorem moved_unregisterPoll (p : Poll) (id : ℤ) (flag : BitVec 16) :
    Moved p (p.unregisterPoll id flag) := by
  unfold unregisterPoll
  split_ifs
  · exact .refl p
  cases hf : p.findFd id with
  | some k =>
    obtain ⟨hk, -⟩ := findFd_eq_some hf
    have hsame (l : ℕ) : ∀ x : PollFd, x.fd = (p.fds k).fd → x.revents = (p.fds k).revents →
        (Function.update p.fds k x l).fd = (p.fds l).fd ∧
        (Function.update p.fds k x l).revents = (p.fds l).revents := by
      intro x hfd hrev
      by_cases hl : l = k
      · simp [hl, hfd, hrev]
      · simp [Function.update_of_ne hl]
    dsimp only
    split_ifs
    · intro j
      simp only [moveDown]
      split_ifs with hmoved
      · exact .inr ⟨j + 1, by omega, .inl (by omega), hsame (j + 1) _ rfl rfl⟩
      · exact .inr ⟨j, le_rfl, by omega, hsame j _ rfl rfl⟩
    · intro j
      by_cases hj : j < p.nfds
      · exact .inr ⟨j, le_rfl, .inl hj, hsame j _ rfl rfl⟩
      · exact .inr ⟨j, le_rfl, .inr ⟨rfl, Nat.le_of_not_lt hj⟩, hsame j _ rfl rfl⟩
  | none => exact .refl p

theorem moved_call (p : Poll) (c : Call) : Moved p (p.call c) := by
  cases c with
  | registerRead id => exact moved_registerPoll p id _
  | unregisterRead id => exact moved_unregisterPoll p id _
  | registerWrite id => exact moved_registerPoll p id _
  | unregisterWrite id => exact moved_unregisterPoll p id _

/-- The entries are keyed by their descriptors, and hold the registered pairs. -/
def Keyed (p : Poll) (S : Interest) : Prop := p.Good ∧ pollFlags.Represents p.table S

theorem Keyed.unique (h : p.Keyed S) {k : ℕ} (hj : j < p.nfds) (hk : k < p.nfds)
    (hfd : (p.fds j).fd = (p.fds k).fd) : j = k := by
  have hnd : ((List.range p.nfds).map (PollFd.fd ∘ p.fds)).Nodup := by
    rw [← List.map_map]
    exact h.1.nodup
  exact List.inj_on_of_nodup_map hnd (List.mem_range.2 hj) (List.mem_range.2 hk) hfd

theorem moved_calls (calls : List Call) (p : Poll) : Moved p (calls.foldl call p) := by
  induction calls generalizing p with
  | nil => exact .refl p
  | cons c calls ih => exact (moved_call p c).trans (ih (p.call c))

theorem Keyed.call (h : p.Keyed S) (c : Call) (hc : c.Valid fdSetsize) :
    (p.call c).Keyed (c.track S) :=
  h.1.call h.2 c hc.1

/-- What the handlers of an event leave -/
theorem Keyed.raise (h : r.backend.Keyed r.registered)
    (hvalid : ∀ raised, ∀ c ∈ handlers raised, c.Valid fdSetsize) (e : Ready) :
    (r.raise Poll.call handlers e).backend.Keyed (r.raise Poll.call handlers e).registered ∧
      Moved r.backend (r.raise Poll.call handlers e).backend :=
  ⟨calls_keep (I := Keyed) (fun _ _ c hc hk => hk.call c hc) _ (hvalid _) h, moved_calls _ _⟩

theorem ne_zero_of_has {m : BitVec 16} {d : Direction} (h : pollFlags.Has m d) : m ≠ 0 := by
  rintro rfl
  exact h (by simp)

/-- An entry from which nothing was raised yet -/
def Untouched (rep : Ready → Prop) (raised : List Ready) (x : PollFd) : Prop :=
  x.revents ≠ 0 → ∀ d, (pollFlags.Has x.revents d → rep (x.fd, d)) ∧ (x.fd, d) ∉ raised

/-- The loop at the index `i` -/
structure Scanning (rep : Ready → Prop) (i : ℕ) (r : Round Poll) : Prop where
  keyed : r.backend.Keyed r.registered
  above : ∀ j, i ≤ j → j < r.backend.nfds → Untouched rep r.raised (r.backend.fds j)
  sound : Sound rep r.raised

/-- Between the two events of the entry at `i` -/
structure Between (rep : Ready → Prop) (i : ℕ) (r : Round Poll) : Prop where
  keyed : r.backend.Keyed r.registered
  here : pollFlags.Has (r.backend.fds i).revents .read →
    rep ((r.backend.fds i).fd, .read) ∧ ((r.backend.fds i).fd, .read) ∉ r.raised
  above : ∀ j, i < j → j < r.backend.nfds → Untouched rep r.raised (r.backend.fds j)
  sound : Sound rep r.raised

theorem Untouched.snoc {raised : List Ready} {x : PollFd} {e : Ready} (h : Untouched rep raised x)
    (hfd : x.fd ≠ e.1) : Untouched rep (raised ++ [e]) x := by
  intro hx d
  refine ⟨(h hx d).1, fun hmem => ?_⟩
  rcases List.mem_append.1 hmem with hmem | hmem
  · exact (h hx d).2 hmem
  · exact hfd (congrArg Prod.fst (List.mem_singleton.1 hmem))

theorem Untouched.of_eq {raised : List Ready} {x y : PollFd} (h : Untouched rep raised x)
    (hfd : y.fd = x.fd) (hrev : y.revents = x.revents) : Untouched rep raised y := by
  intro hy d
  rw [hfd, hrev]
  exact h (by rwa [← hrev]) d

/-- The entries above the index after the handlers of an event at the index ran -/
theorem Moved.above {raised : List Ready} {e : Ready} (h : Moved p p')
    (hj : i < j) (hj' : j < p'.nfds)
    (hup : ∀ k, i < k → k < p.nfds → Untouched rep raised (p.fds k) ∧ (p.fds k).fd ≠ e.1) :
    Untouched rep (raised ++ [e]) (p'.fds j) := by
  obtain hz | ⟨k, hjk, hk, hfd, hrev⟩ := h j
  · exact fun hne => absurd hz hne
  · obtain ⟨hunt, hne⟩ := hup k (by omega) (by omega)
    exact (hunt.snoc hne).of_eq hfd hrev

theorem Scanning.write (h : Scanning rep i r) (hi : i < r.backend.nfds)
    (hvalid : ∀ raised, ∀ c ∈ handlers raised, c.Valid fdSetsize)
    (hw : pollFlags.Has (r.backend.fds i).revents .write) :
    Between rep i (r.raise call handlers ((r.backend.fds i).fd, .write)) := by
  obtain ⟨hkeyed, hmoved⟩ := h.keyed.raise hvalid ((r.backend.fds i).fd, .write)
  obtain ⟨hrep, hnot⟩ := h.above i le_rfl hi (ne_zero_of_has hw) .write
  refine ⟨hkeyed, fun hr => ?_, fun j hj hj' => ?_, h.sound.snoc (hrep hw) hnot⟩
  · obtain hz | ⟨k, hik, hk, hfd, hrev⟩ := hmoved i
    · exact absurd hz (ne_zero_of_has hr)
    · rw [hrev] at hr
      rw [hfd]
      have hk : k < r.backend.nfds := by omega
      obtain ⟨hrepk, hnotk⟩ := h.above k hik hk (ne_zero_of_has hr) .read
      refine ⟨hrepk hr, fun hmem => ?_⟩
      rcases List.mem_append.1 hmem with hmem | hmem
      · exact hnotk hmem
      · cases congrArg Prod.snd (List.mem_singleton.1 hmem)
  · refine hmoved.above hj hj' fun k hik hk => ⟨h.above k hik.le hk, fun hfd => ?_⟩
    exact absurd (h.keyed.unique hk hi hfd) (by omega)

theorem Scanning.between (h : Scanning rep i r) (hi : i < r.backend.nfds) : Between rep i r := by
  refine ⟨h.keyed, fun hr => ?_, fun j hj hj' => h.above j hj.le hj', h.sound⟩
  obtain ⟨hrep, hnot⟩ := h.above i le_rfl hi (ne_zero_of_has hr) .read
  exact ⟨hrep hr, hnot⟩

theorem Between.read (h : Between rep i r) (hvalid : ∀ raised, ∀ c ∈ handlers raised, c.Valid fdSetsize)
    (hr : pollFlags.Has (r.backend.fds i).revents .read) :
    Scanning rep (i + 1) (r.raise call handlers ((r.backend.fds i).fd, .read)) := by
  obtain ⟨hkeyed, hmoved⟩ := h.keyed.raise hvalid ((r.backend.fds i).fd, .read)
  obtain ⟨hrep, hnot⟩ := h.here hr
  refine ⟨hkeyed, fun j hj hj' => ?_, h.sound.snoc hrep hnot⟩
  refine hmoved.above (i := i) (by omega) hj' fun k hik hk => ⟨h.above k hik hk, fun hfd => ?_⟩
  exact absurd (h.keyed.unique hk (hik.trans hk) hfd) (by omega)

theorem Between.skip (h : Between rep i r) : Scanning rep (i + 1) r :=
  ⟨h.keyed, fun j hj hj' => h.above j (by omega) hj', h.sound⟩

/-- The kernel's part of the entries can change. -/
theorem Keyed.congr (h : p.Keyed S) (hn : p'.nfds = p.nfds) (hsz : p'.fdssz = p.fdssz)
    (hsame : ∀ i, (p'.fds i).fd = (p.fds i).fd ∧ (p'.fds i).events = (p.fds i).events) :
    p'.Keyed S := by
  have hfds : p'.entries.map PollFd.fd = p.entries.map PollFd.fd := by
    rw [entries, entries, List.map_map, List.map_map, hn]
    exact List.map_congr_left fun i _ => (hsame i).1
  have htable : p'.table = p.table := by
    funext fd
    have hkey : ((fun x : PollFd => decide (x.fd = fd)) ∘ p'.fds) =
        (fun x : PollFd => decide (x.fd = fd)) ∘ p.fds := by
      funext i
      simp only [Function.comp_apply, (hsame i).1]
    have hval : PollFd.events ∘ p'.fds = PollFd.events ∘ p.fds := by
      funext i
      exact (hsame i).2
    unfold table lookup entries
    rw [List.find?_map, List.find?_map, Option.map_map, Option.map_map, hkey, hval, hn]
  refine ⟨⟨hfds ▸ h.1.nodup, ?_⟩, htable ▸ h.2⟩
  rw [hn, hsz]
  exact h.1.fits

/-- The entry is marked as done. -/
theorem Scanning.clear (h : Scanning rep (i + 1) r) : Scanning rep (i + 1)
    { r with backend := { r.backend with
      fds := Function.update r.backend.fds i { r.backend.fds i with revents := 0 } } } := by
  refine ⟨h.keyed.congr rfl rfl fun j => ?_, fun j hj hj' => ?_, h.sound⟩
  · by_cases hji : j = i
    · simp [hji]
    · simp [Function.update_of_ne hji]
  · dsimp only
    rw [Function.update_of_ne (by omega)]
    exact h.above j hj hj'

theorem Scanning.dispatch (h : Scanning rep i r) (hi : i < r.backend.nfds)
    (hvalid : ∀ raised, ∀ c ∈ handlers raised, c.Valid fdSetsize) :
    Scanning rep (i + 1) (dispatch handlers i r) := by
  have hbetween : Between rep i (if (r.backend.fds i).revents &&& POLLOUT ≠ 0
      then r.raise call handlers ((r.backend.fds i).fd, .write) else r) := by
    split_ifs with hw
    · exact h.write hi hvalid hw
    · exact h.between hi
  unfold Poll.dispatch
  dsimp only
  refine Scanning.clear ?_
  generalize (if (r.backend.fds i).revents &&& POLLOUT ≠ 0
      then r.raise call handlers ((r.backend.fds i).fd, .write) else r) = r' at hbetween
  split_ifs with hr
  · exact hbetween.read hvalid hr
  · exact hbetween.skip

theorem Scanning.processEvents (hvalid : ∀ raised, ∀ c ∈ handlers raised, c.Valid fdSetsize) :
    Scanning rep i r → (processEvents handlers prc i r).backend.Keyed
        (processEvents handlers prc i r).registered ∧
      Sound rep (processEvents handlers prc i r).raised := by
  fun_induction Poll.processEvents handlers prc i r with
  | case1 prc i r hc hz ih =>
    intro h
    exact ih ⟨h.keyed, fun j hj hj' => h.above j (by omega) hj', h.sound⟩
  | case2 prc i r hc hz ih =>
    intro h
    exact ih (h.dispatch hc.2 hvalid)
  | case3 prc i r hc => exact fun h => ⟨h.keyed, h.sound⟩

/-! ### Handlers that only register -/

/-- The entries stay where they are, and new ones come after them. -/
structure Grown (p p' : Poll) : Prop where
  size : p.nfds ≤ p'.nfds
  same : ∀ j < p.nfds, (p'.fds j).fd = (p.fds j).fd ∧ (p'.fds j).revents = (p.fds j).revents
  new : ∀ j, p.nfds ≤ j → j < p'.nfds → (p'.fds j).revents = 0

theorem Grown.refl (p : Poll) : Grown p p :=
  ⟨le_rfl, fun _ _ => ⟨rfl, rfl⟩, fun _ hj hj' => absurd hj' (by omega)⟩

theorem Grown.trans (h : Grown p p') (h' : Grown p' p'') : Grown p p'' := by
  refine ⟨h.size.trans h'.size, fun j hj => ?_, fun j hj hj' => ?_⟩
  · obtain ⟨hfd, hrev⟩ := h.same j hj
    obtain ⟨hfd', hrev'⟩ := h'.same j (hj.trans_le h.size)
    exact ⟨hfd'.trans hfd, hrev'.trans hrev⟩
  · by_cases hlt : j < p'.nfds
    · exact (h'.same j hlt).2.trans (h.new j hj hlt)
    · exact h'.new j (by omega) hj'

theorem grown_registerPoll (p : Poll) (id : ℤ) (flag : BitVec 16) :
    Grown p (p.registerPoll id flag) := by
  unfold registerPoll
  by_cases hvalid : (!isValidFd id) = true
  · rw [if_pos hvalid]
    exact .refl p
  rw [if_neg hvalid]
  cases hf : p.findFd id with
  | some k =>
    dsimp only
    split_ifs
    · exact .refl p
    · refine ⟨le_rfl, fun j hj => ?_, fun j hj hj' => absurd hj' (Nat.not_lt.2 hj)⟩
      by_cases hjk : j = k
      · simp [hjk]
      · simp [Function.update_of_ne hjk]
  | none =>
    refine ⟨Nat.le_succ _, fun j hj => ?_, fun j hj hj' => ?_⟩
    · simp [Function.update_of_ne hj.ne]
    · have hj : j = p.nfds := Nat.le_antisymm (Nat.lt_succ_iff.1 hj') hj
      simp [hj]

theorem grown_raise (hreg : handlers.Registers) (r : Round Poll) (e : Ready) :
    Grown r.backend (r.raise call handlers e).backend := by
  have hcalls : ∀ (calls : List Call) (p : Poll),
      (∀ c ∈ calls, ∃ id, c = .registerRead id ∨ c = .registerWrite id) →
      Grown p (calls.foldl call p) := by
    intro calls
    induction calls with
    | nil => exact fun p _ => .refl p
    | cons c calls ih =>
      intro p hall
      have hrest := ih (p.call c) fun c' hc' => hall c' (.tail _ hc')
      obtain ⟨id, rfl | rfl⟩ := hall c (.head _)
      · exact (grown_registerPoll p id POLLIN).trans hrest
      · exact (grown_registerPoll p id POLLOUT).trans hrest
  exact hcalls _ _ (hreg _)

/-- The events of an entry, in the order in which they are raised -/
def eventsOf (x : PollFd) : List Ready :=
  (if x.revents &&& POLLOUT ≠ 0 then [(x.fd, .write)] else []) ++
    if x.revents &&& POLLIN ≠ 0 then [(x.fd, .read)] else []

theorem mem_eventsOf {x : PollFd} {e : Ready} :
    e ∈ eventsOf x ↔ e.1 = x.fd ∧ pollFlags.Has x.revents e.2 := by
  obtain ⟨fd, d⟩ := e
  unfold eventsOf
  cases d <;> split_ifs <;> simp_all [Flags.Has, pollFlags]

theorem dispatch_registers (hreg : handlers.Registers) (hi : i < r.backend.nfds) :
    (dispatch handlers i r).raised = r.raised ++ eventsOf (r.backend.fds i) ∧
      ∃ p', Grown r.backend p' ∧ (dispatch handlers i r).backend =
        { p' with fds := Function.update p'.fds i { p'.fds i with revents := 0 } } := by
  obtain ⟨r', hr'⟩ : ∃ r', (if (r.backend.fds i).revents &&& POLLOUT ≠ 0
      then r.raise call handlers ((r.backend.fds i).fd, .write) else r) = r' := ⟨_, rfl⟩
  have hgrown : Grown r.backend r'.backend := by
    rw [← hr']
    split_ifs
    · exact grown_raise hreg r _
    · exact .refl _
  have hraised : r'.raised = r.raised ++
      if (r.backend.fds i).revents &&& POLLOUT ≠ 0 then [((r.backend.fds i).fd, .write)] else [] := by
    rw [← hr']
    split_ifs <;> simp [Round.raise]
  obtain ⟨hfd, hrev⟩ := hgrown.same i hi
  unfold dispatch
  dsimp only
  rw [hr', hfd, hrev]
  refine ⟨?_, _, ?_, rfl⟩
  · unfold eventsOf
    rw [← List.append_assoc, ← hraised]
    split_ifs <;> simp [Round.raise]
  · split_ifs
    · exact hgrown.trans (grown_raise hreg r' _)
    · exact hgrown

/-- What is still to be raised stands at the index or above it, and `prc` counts it. -/
structure Owing (rep : Ready → Prop) (i prc : ℕ) (r : Round Poll) : Prop where
  owed : ∀ e, rep e → e ∈ r.raised ∨ ∃ j, i ≤ j ∧ j < r.backend.nfds ∧
    e ∈ eventsOf (r.backend.fds j)
  count : prc = (r.backend.pending i).card

theorem revents_ne_zero {x : PollFd} {e : Ready} (h : e ∈ eventsOf x) : x.revents ≠ 0 :=
  ne_zero_of_has (mem_eventsOf.1 h).2

theorem eventsOf_congr {x y : PollFd} (hfd : x.fd = y.fd) (hrev : x.revents = y.revents) :
    eventsOf x = eventsOf y := by
  rw [eventsOf, eventsOf, hfd, hrev]

theorem mem_pending : j ∈ p.pending i ↔ j < p.nfds ∧ i ≤ j ∧ (p.fds j).revents ≠ 0 := by
  rw [pending, Finset.mem_filter, Finset.mem_range]

theorem Owing.skip (h : Owing rep i prc r) (hz : (r.backend.fds i).revents = 0) :
    Owing rep (i + 1) prc r := by
  refine ⟨fun e he => (h.owed e he).imp_right ?_, ?_⟩
  · rintro ⟨j, hj, hj', hmem⟩
    have hne : j ≠ i := by
      rintro rfl
      exact revents_ne_zero hmem hz
    exact ⟨j, by omega, hj', hmem⟩
  · rw [h.count]
    congr 1
    ext j
    rw [mem_pending, mem_pending]
    constructor
    · rintro ⟨hj, hij, hrev⟩
      have hne : j ≠ i := by
        rintro rfl
        exact hrev hz
      exact ⟨hj, by omega, hrev⟩
    · exact fun ⟨hj, hij, hrev⟩ => ⟨hj, by omega, hrev⟩

theorem Owing.dispatch (h : Owing rep i prc r) (hreg : handlers.Registers)
    (hi : i < r.backend.nfds) (hne : (r.backend.fds i).revents ≠ 0) :
    Owing rep (i + 1) (prc - 1) (dispatch handlers i r) := by
  obtain ⟨hraised, p', hgrown, hbackend⟩ := dispatch_registers hreg hi
  refine ⟨fun e he => ?_, ?_⟩
  · rw [hraised, hbackend]
    obtain hmem | ⟨j, hj, hj', hmem⟩ := h.owed e he
    · exact .inl (List.mem_append_left _ hmem)
    · by_cases hji : j = i
      · rw [hji] at hmem
        exact .inl (List.mem_append_right _ hmem)
      · obtain ⟨hfd, hrev⟩ := hgrown.same j hj'
        refine .inr ⟨j, by omega, hj'.trans_le hgrown.size, ?_⟩
        dsimp only
        rwa [Function.update_of_ne hji, eventsOf_congr hfd hrev]
  · have herase : (Poll.dispatch handlers i r).backend.pending (i + 1) =
        (r.backend.pending i).erase i := by
      ext j
      rw [hbackend, mem_pending, Finset.mem_erase, mem_pending]
      dsimp only
      by_cases hji : j = i
      · simp [hji]
      rw [Function.update_of_ne hji]
      constructor
      · rintro ⟨hj, hij, hrev⟩
        have hlt : j < r.backend.nfds := by
          by_contra hge
          exact hrev (hgrown.new j (by omega) hj)
        rw [(hgrown.same j hlt).2] at hrev
        exact ⟨hji, hlt, by omega, hrev⟩
      · rintro ⟨-, hj, hij, hrev⟩
        refine ⟨hj.trans_le hgrown.size, by omega, ?_⟩
        rwa [(hgrown.same j hj).2]
    rw [herase, Finset.card_erase_of_mem (mem_pending.2 ⟨hi, le_rfl, hne⟩), h.count]

theorem Owing.processEvents (hreg : handlers.Registers) :
    Owing rep i prc r → ∀ e, rep e → e ∈ (processEvents handlers prc i r).raised := by
  fun_induction Poll.processEvents handlers prc i r with
  | case1 prc i r hc hz ih => exact fun h => ih (h.skip hz)
  | case2 prc i r hc hz ih => exact fun h => ih (h.dispatch hreg hc.2 hz)
  | case3 prc i r hc =>
    intro h e he
    obtain hmem | ⟨j, hj, hj', hmem⟩ := h.owed e he
    · exact hmem
    · -- the loop stopped because nothing was left
      have hpos : 0 < (r.backend.pending i).card :=
        Finset.card_pos.2 ⟨j, mem_pending.2 ⟨hj', hj, revents_ne_zero hmem⟩⟩
      exact absurd ⟨by rw [h.count]; exact hpos, by omega⟩ hc

/-! ### The answer of the kernel -/

/-- What the kernel reports of the entries -/
theorem Answer.has_iff (h : Answer p p' ready prc) (hk : p.Keyed S) {e : Ready} (hj : j < p.nfds)
    (hfd : (p.fds j).fd = e.1) :
    pollFlags.Has (p'.fds j).revents e.2 ↔ e ∈ S ∧ e ∈ ready := by
  obtain ⟨-, hsome⟩ := table_eq hk.1 hj hfd
  have hmem : e ∈ S ↔ pollFlags.Has (p.fds j).events e.2 := by
    rw [show e = (e.1, e.2) from rfl, hk.2.mem]
    constructor
    · rintro ⟨m, hm, hd⟩
      rw [hsome] at hm
      rwa [Option.some.inj hm]
    · exact fun hd => ⟨_, hsome, hd⟩
  rw [h.ready j hj, hfd, ← hmem]

theorem Answer.round (h : Answer p p' ready prc) (hk : p.Keyed S)
    (hvalid : ∀ raised, ∀ c ∈ handlers raised, c.Valid fdSetsize) :
    let r := Poll.processEvents handlers prc 0 ⟨p', S, []⟩
    r.backend.Keyed r.registered ∧ Sound (fun e => e ∈ S ∧ e ∈ ready) r.raised ∧
      (handlers.Registers → ∀ e, e ∈ S ∧ e ∈ ready → e ∈ r.raised) := by
  have hkeyed : p'.Keyed S := hk.congr h.size.1 h.size.2 h.same
  have hscan : Scanning (fun e => e ∈ S ∧ e ∈ ready) 0 ⟨p', S, []⟩ := by
    refine ⟨hkeyed, fun j _ hj _ d => ⟨fun hd => ?_, by simp⟩, sound_nil _⟩
    dsimp only at hj hd ⊢
    rw [h.size.1] at hj
    exact (h.has_iff hk hj (h.same j).1.symm).1 hd
  obtain ⟨hkeyed', hsound⟩ : (Poll.processEvents handlers prc 0 ⟨p', S, []⟩).backend.Keyed _ ∧
      Sound _ (Poll.processEvents handlers prc 0 ⟨p', S, []⟩).raised := hscan.processEvents hvalid
  refine ⟨hkeyed', hsound, fun hreg e he => ?_⟩
  have howing : Owing (fun e => e ∈ S ∧ e ∈ ready) 0 prc ⟨p', S, []⟩ := by
    refine ⟨fun e he => .inr ?_, h.count⟩
    obtain ⟨m, hm, hd⟩ := (hk.2.mem e.1 e.2).1 he.1
    obtain ⟨j, hj, hfd, -⟩ := hk.1.polled_iff.2 ⟨m, hm, hd⟩
    refine ⟨j, Nat.zero_le j, by rwa [h.size.1], mem_eventsOf.2 ⟨?_, ?_⟩⟩
    · rw [(h.same j).1, hfd]
    · exact (h.has_iff hk hj hfd).2 he
  exact howing.processEvents hreg e he

end Poll

/-! ## Runs of the event loop -/

variable {β A : Type} {B : Backend β A} {I : β → Interest → Prop} {fits : A → Prop}

/-- The watches and the kernel's set hold exactly the registered pairs. -/
structure Epoll.Holds (e : Epoll) (S : Interest) : Prop where
  watches : ∀ id d, (∃ i, ∃ w ∈ e.watches i, w.fd = id ∧ epollFlags.Has w.events d) ↔ (id, d) ∈ S
  kernel : ∀ id d, (∃ m, e.kernel id = some m ∧ epollFlags.Has m d) ↔ (id, d) ∈ S

/-- So does the array. -/
def Poll.Holds (p : Poll) (S : Interest) : Prop :=
  ∀ id d, (∃ i < p.nfds, (p.fds i).fd = id ∧ pollFlags.Has (p.fds i).events d) ↔ (id, d) ∈ S

/-- So do the bit sets. -/
def Select.Holds (s : Select) (S : Interest) : Prop :=
  ∀ id d, 0 ≤ id ∧ s.fds d id.toNat = true ↔ (id, d) ∈ S

theorem Epoll.Ordered.holds {e : Epoll} {S : Interest} (h : e.Ordered S) : e.Holds S where
  watches id d := h.1.watched_iff.trans (h.2.mem id d).symm
  kernel id d := by
    rw [h.1.kernel]
    exact (h.2.mem id d).symm

theorem Poll.Keyed.holds {p : Poll} {S : Interest} (h : p.Keyed S) : p.Holds S :=
  fun id d => h.1.polled_iff.trans (h.2.mem id d).symm

/-- What is right about a round: every event was registered and ready when the kernel was asked, and
raised once.  If the handlers only register and the answer fits, none is missed. -/
structure Report.Right (x : Report A) (fits : A → Prop) : Prop where
  sound : Sound (fun e => e ∈ x.registered ∧ e ∈ x.ready) x.raised
  complete : x.handlers.Registers → fits x.answer →
    ∀ e, e ∈ x.registered ∧ e ∈ x.ready → e ∈ x.raised

/-- What calls and rounds do to a backend that is in order -/
structure Backend.Lawful (B : Backend β A) (fdSetsize : ℕ) (I : β → Interest → Prop)
    (fits : A → Prop) : Prop where
  create : I B.create ∅
  call : ∀ b S c, c.Valid fdSetsize → I b S → I (B.call b c) (c.track S)
  round : ∀ b S ready answer handlers, (∀ raised, ∀ c ∈ handlers raised, c.Valid fdSetsize) →
    B.Answer b ready answer → I b S →
    let r := B.processEvents handlers answer ⟨b, S, []⟩
    I r.backend r.registered ∧ Report.Right ⟨S, ready, answer, handlers, r.raised⟩ fits

theorem Backend.Lawful.run (h : B.Lawful fdSetsize I fits) {s : Loop β A}
    (hrun : B.loop.Run (B.Permitted fdSetsize) s) :
    I s.backend s.registered ∧ ∀ x ∈ s.reports, x.Right fits := by
  refine hrun.invariant (I := fun s => I s.backend s.registered ∧ ∀ x ∈ s.reports, x.Right fits)
    ?_ ?_
  · rintro s rfl
    exact ⟨h.create, by simp⟩
  · rintro s a s' ⟨hI, hreports⟩ hok hs
    cases a with
    | call c =>
      obtain rfl := Option.some.inj hs
      exact ⟨h.call _ _ c hok hI, hreports⟩
    | round handlers ready answer =>
      obtain rfl := Option.some.inj hs
      obtain ⟨hI', hright⟩ := h.round _ _ ready answer handlers hok.1 hok.2 hI
      refine ⟨hI', fun x hx => ?_⟩
      rcases List.mem_append.1 hx with hx | hx
      · exact hreports x hx
      · rw [List.mem_singleton.1 hx]
        exact hright

theorem lawful_epoll (fdSetsize epfd : ℕ) :
    (epoll epfd).Lawful fdSetsize Epoll.Ordered fun ev => ev.length < EP_MAX_EVENTS where
  create := ⟨Epoll.good_create epfd, epollFlags.represents_empty⟩
  call _ _ c hc h := h.call c hc
  round e S ready ev handlers hvalid hanswer h := by
    have hkernel (id : ℤ) (d : Direction) :
        (∃ m, e.kernel id = some m ∧ epollFlags.Has m d) ↔ (id, d) ∈ S := by
      rw [congrFun h.1.kernel id, h.2.mem]
    have hraised : (Epoll.processEvents handlers ev ⟨e, S, []⟩).raised = ev.flatMap Epoll.eventsOf :=
      Epoll.raised_processEvents handlers ev _
    refine ⟨Epoll.Ordered.processEvents hvalid ev h, ?_, fun _ hfits x hx => ?_⟩
    · exact hraised ▸ Epoll.Answer.sound hanswer hkernel
    · exact hraised ▸ Epoll.Answer.complete hanswer hfits hkernel hx.1 hx.2

theorem lawful_poll (fdSetsize : ℕ) : poll.Lawful fdSetsize Poll.Keyed fun _ => True where
  create := ⟨Poll.good_create, pollFlags.represents_empty⟩
  call _ _ c hc h := h.call c hc
  round p S ready answer handlers hvalid hanswer h := by
    obtain ⟨hkeyed, hsound, hcomplete⟩ := Poll.Answer.round hanswer h hvalid
    exact ⟨hkeyed, hsound, fun hreg _ => hcomplete hreg⟩

theorem lawful_select (fdSetsize : ℕ) :
    (select fdSetsize).Lawful fdSetsize Select.Good fun _ => True where
  create := Select.good_create
  call _ _ c hc h := h.call c hc
  round _ _ _ _ handlers hvalid hanswer h :=
    ⟨Select.Good.processEvents hvalid _ h, Select.Answer.sound hanswer h handlers,
      fun hreg _ _ hx => Select.Answer.complete hanswer h hreg hx.1 hx.2⟩

/-- In every run of the event loop on each backend, whatever the kernel answers and whatever the
handlers of an event register and unregister while the round goes on, every event that a round raises
was registered and ready when the kernel was asked, and is raised once in that round.  If handlers
only register, everything that was registered and ready is raised, for epoll if its answer was not
full.  After every round and every call the backend holds exactly the registered pairs. -/
theorem events_raised_once (fdSetsize epfd : ℕ) :
    (∀ s, (epoll epfd).loop.Run ((epoll epfd).Permitted fdSetsize) s →
      s.backend.Holds s.registered ∧
        ∀ x ∈ s.reports, x.Right fun ev => ev.length < EP_MAX_EVENTS) ∧
    (∀ s, poll.loop.Run (poll.Permitted fdSetsize) s →
      s.backend.Holds s.registered ∧ ∀ x ∈ s.reports, x.Right fun _ => True) ∧
    (∀ s, (select fdSetsize).loop.Run ((select fdSetsize).Permitted fdSetsize) s →
      s.backend.Holds s.registered ∧ ∀ x ∈ s.reports, x.Right fun _ => True) := by
  refine ⟨fun s h => ?_, fun s h => ?_, fun s h => ?_⟩
  · obtain ⟨hordered, hright⟩ := (lawful_epoll fdSetsize epfd).run h
    exact ⟨hordered.holds, hright⟩
  · obtain ⟨hkeyed, hright⟩ := (lawful_poll fdSetsize).run h
    exact ⟨hkeyed.holds, hright⟩
  · obtain ⟨hgood, hright⟩ := (lawful_select fdSetsize).run h
    exact ⟨fun id d => (hgood.mem id d).symm, hright⟩

/-- Two descriptors that are ready for writing, and a handler that unregisters the first -/
def twoReady : Poll where
  nfds := 2
  fdssz := 16
  fds i := if i = 0 then ⟨3, POLLOUT, POLLOUT⟩ else if i = 1 then ⟨5, POLLOUT, POLLOUT⟩ else ⟨0, 0, 0⟩

def bothReady : Interest := [Call.registerWrite 3, .registerWrite 5].foldl Call.track ∅

def dropFirst : Handlers := fun raised =>
  if raised = [(3, .write)] then [.unregisterWrite 3] else []

/-- The entry of the second moves to the index that is done, so its event waits for the next round. -/
theorem events_raised_once_moved : ∃ s : Loop Poll (Poll × ℕ), ∃ x ∈ s.reports,
    x.raised.Nodup ∧ (5, Direction.write) ∈ x.ready ∧ (5, Direction.write) ∉ x.raised := by
  have hthree : (Call.registerWrite 3).Valid 1024 := ⟨by decide, by decide⟩
  have hfive : (Call.registerWrite 5).Valid 1024 := ⟨by decide, by decide⟩
  have h0 : poll.loop.Run (poll.Permitted 1024) ⟨.create, ∅, []⟩ := .init rfl
  have h1 := h0.step (a := Action.call (.registerWrite 3)) hthree rfl
  have h2 := h1.step (a := Action.call (.registerWrite 5)) hfive rfl
  have hanswer : poll.Answer ((Poll.create.call (.registerWrite 3)).call (.registerWrite 5))
      bothReady (twoReady, 2) := by
    refine ⟨by decide, fun i => ?_, fun i hi d => ?_, by decide⟩
    · by_cases h0 : i = 0
      · rw [h0]
        decide
      · by_cases h1 : i = 1
        · rw [h1]
          decide
        · have hfds : ((Poll.create.call (.registerWrite 3)).call (.registerWrite 5)).fds i =
              Poll.create.fds i :=
            (Function.update_of_ne h1 ..).trans (Function.update_of_ne h0 ..)
          rw [hfds]
          simp [twoReady, h0, h1, Poll.create]
    · have hi : i < 2 := hi
      interval_cases i <;> cases d <;> decide
  have hvalid (raised : List Ready) : ∀ c ∈ dropFirst raised, c.Valid 1024 := by
    unfold dropFirst
    split_ifs
    · simp [Call.Valid, Call.id]
    · simp
  have h3 := h2.step (a := Action.round dropFirst bothReady (twoReady, 2))
    (And.intro hvalid hanswer) rfl
  obtain ⟨s, hs, hreports⟩ : ∃ s, poll.loop.Run (poll.Permitted 1024) s ∧ s.reports =
      [⟨bothReady, bothReady, (twoReady, 2), dropFirst,
        (Poll.processEvents dropFirst 2 0 ⟨twoReady, bothReady, []⟩).raised⟩] := ⟨_, h3, rfl⟩
  obtain ⟨-, hpoll, -⟩ := events_raised_once 1024 0
  have hright := (hpoll s hs).2
  rw [hreports, List.forall_mem_singleton] at hright
  refine ⟨s, _, hreports ▸ List.mem_singleton_self _, hright.sound.nodup, by decide, ?_⟩
  dsimp only
  rw [Poll.processEvents, if_pos (by decide), if_neg (by decide), Poll.processEvents,
    if_neg (by decide)]
  decide

end PoserCore.Backends
