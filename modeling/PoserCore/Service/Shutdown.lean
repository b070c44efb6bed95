import PoserCore.Service.Model

/-!
# Nothing is left behind when a service stops

`shutdownRef` is never above the number of locks that are really held (`Counted`), and below it only
after locks were dropped on purpose, so the loop ends in the first round without one.  The pool is
freed once, when all its threads were joined, and the loop does not end in order before, but for a
call of `PSC_Service_quit` that comes too late in the last round to stop the pool.
-/

namespace PoserCore.Service

open Lib (Machine)

variable {T : Type}

/-! ## The locks -/

/-- What `shutdownRef` counts: the locks of the program, and the pool's while it stops. -/
structure Counted (ref : ℤ) (held : ℕ) (stopping dropped unbalanced : Bool) : Prop where
  early : ref < 0 → ref = -1 ∧ held = 0 ∧ stopping = false
  upper : unbalanced = false → 0 ≤ ref → ref ≤ held + stopping.toNat
  exact : unbalanced = false → dropped = false → 0 ≤ ref → ref = held + stopping.toNat

namespace Counted

variable {ref : ℤ} {held : ℕ} {stopping dropped unbalanced : Bool}

theorem reset (h : Counted ref held stopping dropped unbalanced) :
    Counted 0 held stopping (dropped || decide (0 < ref)) unbalanced := by
  refine ⟨fun hr => by omega, fun _ _ => by omega, fun hu hd _ => ?_⟩
  obtain ⟨hd, hr⟩ := Bool.or_eq_false_iff.1 hd
  have hr := of_decide_eq_false hr
  by_cases hneg : ref < 0
  · obtain ⟨-, hheld, hstop⟩ := h.early hneg
    simp [hheld, hstop]
  · have := h.exact hu hd (by omega)
    omega

theorem quit (h : Counted (-1) held stopping dropped unbalanced) :
    Counted 0 held stopping dropped unbalanced := by
  have hr := h.reset
  rwa [decide_eq_false (by decide), Bool.or_false] at hr

/-- A lock of the program -/
theorem lock (h : Counted ref held stopping dropped unbalanced) (hr : 0 ≤ ref) :
    Counted (ref + 1) (held + 1) stopping dropped unbalanced := by
  refine ⟨fun _ => by omega, fun hu _ => ?_, fun hu hd _ => ?_⟩
  · have := h.upper hu hr
    omega
  · have := h.exact hu hd hr
    omega

theorem unlock (h : Counted ref held stopping dropped unbalanced) :
    Counted (if 0 < ref then ref - 1 else ref) (held - 1) stopping dropped
      (unbalanced || decide (held = 0 ∧ 0 < ref)) := by
  refine ⟨fun hneg => ?_, fun hu hr => ?_, fun hu hd hr => ?_⟩
  · have hneg : ref < 0 := by
      split_ifs at hneg <;> omega
    obtain ⟨href, hheld, hstop⟩ := h.early hneg
    rw [if_neg (by omega)]
    exact ⟨href, by omega, hstop⟩
  all_goals
    obtain ⟨hu, hheld⟩ := Bool.or_eq_false_iff.1 hu
    have hheld := of_decide_eq_false hheld
  · have := h.upper hu (by split_ifs at hr <;> omega)
    split_ifs <;> omega
  · have := h.exact hu hd (by split_ifs at hr <;> omega)
    split_ifs <;> omega

/-- The pool takes its lock when there is no other. -/
theorem stop (h : Counted 0 held stopping dropped unbalanced) :
    Counted 1 held true dropped unbalanced := by
  refine ⟨fun hr => by omega, fun _ _ => ?_, fun hu hd _ => ?_⟩
  · simp only [Bool.toNat_true]
    omega
  · have := h.exact hu hd le_rfl
    simp only [Bool.toNat_true]
    omega

/-- The pool releases its lock. -/
theorem free (h : Counted ref held true dropped unbalanced) :
    Counted (if 0 < ref then ref - 1 else ref) held false dropped unbalanced := by
  have hr : 0 ≤ ref := by
    by_contra hneg
    cases (h.early (by omega)).2.2
  refine ⟨fun hneg => by split_ifs at hneg <;> omega, fun hu _ => ?_, fun hu hd _ => ?_⟩
  · have := h.upper hu hr
    simp only [Bool.toNat_true, Bool.toNat_false] at this ⊢
    split_ifs <;> omega
  · have := h.exact hu hd hr
    simp only [Bool.toNat_true, Bool.toNat_false] at this ⊢
    split_ifs <;> omega

end Counted

def State.counted (s : State T) : Prop :=
  Counted s.shutdownRef s.held s.stopping s.dropped s.unbalanced

/-! ## The pool -/

/-- A thread of the pool by itself -/
structure ThreadOk (x : Thread) (stopping : Bool) : Prop where
  joined : x.worker = .joined ↔ x.pthrno < 0
  stop : x.worker ≠ .joined → x.stop ≠ 0 ∨ x.worker = .leaving → stopping = true

/-- The threads that were not joined -/
def alive [Fintype T] (thread : T → Thread) : Finset T :=
  Finset.univ.filter fun t => 0 ≤ (thread t).pthrno

/-- The pool, with the commands that wait for the main thread -/
structure Pool [Fintype T] (s : State T) : Prop where
  thread : ∀ t, ThreadOk (s.thread t) s.stopping
  nodup : s.commands.Nodup
  leaving : ∀ t, t ∈ s.commands ↔ (s.thread t).worker = .leaving
  counted : s.allocated = true → s.rthreads = (alive s.thread).card
  gone : s.allocated = false → ∀ t, (s.thread t).worker = .joined
  fresh : s.allocated = true → s.frees = 0
  once : s.frees ≤ 1
  stopping : s.stopping = true → s.allocated = true

/-- How the loop is left at the end of a round -/
structure State.Leaves (s : State T) : Prop where
  ref : s.main = .left → s.shutdownRef = 0
  pool : s.main = .ending ∨ s.main = .left → s.shutdownRef = 0 → s.allocated = true →
    s.untimed = true ∨ s.late = true

structure Inv [Fintype T] (s : State T) : Prop where
  locks : s.counted
  pool : Pool s
  left : s.Leaves

section Steps

variable [DecidableEq T] [Fintype T] {s s' : State T} {t : T}

omit [Fintype T] in
theorem ThreadOk.update {thread : T → Thread} {stopping : Bool} {x : Thread}
    (h : ∀ u, ThreadOk (thread u) stopping) (hx : ThreadOk x stopping) (u : T) :
    ThreadOk (Function.update thread t x u) stopping := by
  by_cases hu : u = t
  · rw [hu, Function.update_self]
    exact hx
  · rw [Function.update_of_ne hu]
    exact h u

theorem alive_update {thread : T → Thread} {x : Thread} (hx : x.pthrno = (thread t).pthrno) :
    alive (Function.update thread t x) = alive thread := by
  ext u
  by_cases hu : u = t
  · simp [alive, hu, hx]
  · simp [alive, Function.update_of_ne hu]

theorem alive_joined {thread : T → Thread} {x : Thread} (ht : 0 ≤ (thread t).pthrno)
    (hx : x.pthrno < 0) :
    (alive (Function.update thread t x)).card = (alive thread).card - 1 := by
  have herase : alive (Function.update thread t x) = (alive thread).erase t := by
    ext u
    by_cases hu : u = t
    · simp [alive, hu, hx]
    · simp [alive, hu]
  rw [herase, Finset.card_erase_of_mem (by simp [alive, ht])]

omit [DecidableEq T] in
/-- The pool of a thread that is not joined is there. -/
theorem Pool.there (h : Pool s) (ht : (s.thread t).worker ≠ .joined) : s.allocated = true := by
  by_contra ha
  exact ht (h.gone (by simpa using ha) t)

/-- A thread of the pool moves on. -/
theorem Pool.move (h : Pool s) {worker : Worker} (hold : (s.thread t).worker ≠ .joined)
    (hleave : (s.thread t).worker ≠ .leaving) (hnew : worker ≠ .joined) (hstay : worker ≠ .leaving) :
    Pool (s.setThread t { s.thread t with worker := worker }) := by
  have hok := h.thread t
  constructor
  case thread =>
    refine ThreadOk.update h.thread ⟨iff_of_false hnew ?_, fun _ hstop => ?_⟩
    · rw [← hok.joined]
      exact hold
    · exact hok.stop hold (hstop.imp_right fun hw => absurd hw hstay)
  case nodup => exact h.nodup
  case leaving =>
    intro u
    by_cases hu : u = t
    · rw [hu]
      simp [State.setThread, hstay, h.leaving t, hleave]
    · simp only [State.setThread, Function.update_of_ne hu]
      exact h.leaving u
  case counted =>
    intro ha
    have hsame := alive_update (t := t) (x := { s.thread t with worker := worker }) rfl
    exact (h.counted ha).trans (congrArg Finset.card hsame.symm)
  case gone => exact fun ha => absurd (h.gone ha t) hold
  case fresh => exact h.fresh
  case once => exact h.once
  case stopping => exact h.stopping

/-- A thread of the pool that was told to stop leaves. -/
theorem Pool.leave (h : Pool s) (hold : (s.thread t).worker ≠ .joined)
    (hleave : (s.thread t).worker ≠ .leaving) (hstop : (s.thread t).stop ≠ 0) :
    Pool { s.setThread t { s.thread t with worker := .leaving } with
      commands := s.commands ++ [t] } := by
  have hok := h.thread t
  have hnot : t ∉ s.commands := by rwa [h.leaving]
  constructor
  case thread =>
    refine ThreadOk.update h.thread ⟨iff_of_false (by simp) ?_, fun _ _ => hok.stop hold (.inl hstop)⟩
    rw [← hok.joined]
    exact hold
  case nodup =>
    refine List.nodup_append.2 ⟨h.nodup, List.nodup_singleton t, fun u hu v hv huv => hnot ?_⟩
    rw [← List.mem_singleton.1 hv, ← huv]
    exact hu
  case leaving =>
    intro u
    by_cases hu : u = t
    · rw [hu]
      simp [State.setThread]
    · simp only [State.setThread, Function.update_of_ne hu, List.mem_append, List.mem_singleton, hu,
        or_false]
      exact h.leaving u
  case counted =>
    intro ha
    have hsame := alive_update (t := t) (x := { s.thread t with worker := .leaving }) rfl
    exact (h.counted ha).trans (congrArg Finset.card hsame.symm)
  case gone => exact fun ha => absurd (h.gone ha t) hold
  case fresh => exact h.fresh
  case once => exact h.once
  case stopping => exact h.stopping

omit [DecidableEq T] in
theorem Pool.stopThreads (h : Pool s) (ha : s.allocated = true) : Pool s.stopThreads := by
  have hsame (u : T) : (s.stopThreads.thread u).worker = (s.thread u).worker ∧
      (s.stopThreads.thread u).pthrno = (s.thread u).pthrno := by
    simp only [State.stopThreads]
    split_ifs <;> exact ⟨rfl, rfl⟩
  constructor
  case thread =>
    intro u
    refine ⟨?_, fun _ _ => rfl⟩
    rw [(hsame u).1, (hsame u).2]
    exact (h.thread u).joined
  case nodup => exact h.nodup
  case leaving =>
    intro u
    rw [(hsame u).1]
    exact h.leaving u
  case counted =>
    intro _
    rw [show s.stopThreads.rthreads = s.rthreads from rfl, h.counted ha]
    congr 1
    ext u
    simp only [alive, Finset.mem_filter, (hsame u).2]
  case gone => exact fun hg => absurd ha (by simpa [State.stopThreads] using hg)
  case fresh => exact h.fresh
  case once => exact h.once
  case stopping => exact fun _ => ha

/-- A thread that left is joined; with the last one the pool is freed. -/
theorem Pool.workerDone (h : Pool s) {commands : List T} (hc : s.commands = t :: commands) :
    s.stopping = true ∧ Pool ({ s with commands := commands }.workerDone t) := by
  have hw : (s.thread t).worker = .leaving := (h.leaving t).1 (by simp [hc])
  have hold : (s.thread t).worker ≠ .joined := by simp [hw]
  have hpthrno : 0 ≤ (s.thread t).pthrno := by
    have := mt (h.thread t).joined.2 hold
    omega
  have ha := h.there hold
  have hnd := h.nodup
  rw [hc, List.nodup_cons] at hnd
  set x : Thread := { s.thread t with pthrno := -1, worker := .joined } with hx
  have hneg : x.pthrno < 0 := by simp [hx]
  have hcard : (alive (Function.update s.thread t x)).card = s.rthreads - 1 := by
    rw [h.counted ha, alive_joined hpthrno hneg]
  have hok (u : T) : ThreadOk (Function.update s.thread t x u) s.stopping :=
    ThreadOk.update h.thread ⟨iff_of_true rfl hneg, fun hne => absurd rfl hne⟩ u
  have hleaving (u : T) : u ∈ commands ↔ (Function.update s.thread t x u).worker = .leaving := by
    by_cases hu : u = t
    · rw [hu]
      simp [hx, hnd.1]
    · rw [Function.update_of_ne hu, ← h.leaving u, hc, List.mem_cons, or_iff_right hu]
  refine ⟨(h.thread t).stop hold (.inr hw), ?_⟩
  simp only [State.workerDone, State.setThread]
  split_ifs with hlast
  · exact {
      thread := hok
      nodup := hnd.2
      leaving := hleaving
      counted := fun _ => hcard.symm
      gone := fun hg => absurd ha (by simpa using hg)
      fresh := h.fresh
      once := h.once
      stopping := h.stopping }
  · -- the last one
    have hall (u : T) : (Function.update s.thread t x u).worker = .joined := by
      refine (hok u).joined.2 ?_
      by_contra hpos
      have hmem : u ∈ alive (Function.update s.thread t x) := by
        simp only [alive, Finset.mem_filter, Finset.mem_univ, true_and]
        omega
      exact absurd (Finset.card_pos.2 ⟨u, hmem⟩) (by omega)
    have hfrees := h.fresh ha
    have hpool : Pool ({ s with
        thread := Function.update s.thread t x
        commands := commands
        rthreads := s.rthreads - 1 }.free) := {
      thread := fun u => ⟨(hok u).joined, fun hne => absurd (hall u) hne⟩
      nodup := hnd.2
      leaving := hleaving
      counted := fun hg => by cases hg
      gone := fun _ => hall
      fresh := fun hg => by cases hg
      once := by simp [State.free, hfrees]
      stopping := fun hg => by cases hg }
    unfold State.shutdownUnlock
    split_ifs
    · exact { hpool with }
    · exact hpool

/-! ## The steps -/

omit [Fintype T] in
theorem runWorker_cases {a : Action T} (hs : runWorker s t a = some s') :
    (s.thread t).worker ≠ .joined ∧ (s.thread t).worker ≠ .leaving ∧
      ((∃ worker : Worker, worker ≠ .joined ∧ worker ≠ .leaving ∧
        s' = s.setThread t { s.thread t with worker := worker }) ∨
      (s.thread t).stop ≠ 0 ∧
        s' = { s.setThread t { s.thread t with worker := .leaving } with
          commands := s.commands ++ [t] }) := by
  cases a with
  | dequeue u job =>
    simp only [runWorker] at hs
    split_ifs at hs with hw
    exact ⟨by simp [hw], by simp [hw], .inl ⟨_, by simp, by simp, (Option.some.inj hs).symm⟩⟩
  | check u =>
    simp only [runWorker] at hs
    cases hw : (s.thread t).worker with
    | woken job =>
      rw [hw] at hs
      dsimp only at hs
      split_ifs at hs with hstop hjob
      · exact ⟨by simp, by simp, .inr ⟨hstop, (Option.some.inj hs).symm⟩⟩
      · exact ⟨by simp, by simp, .inl ⟨_, by simp, by simp, (Option.some.inj hs).symm⟩⟩
      · exact ⟨by simp, by simp, .inl ⟨_, by simp, by simp, (Option.some.inj hs).symm⟩⟩
    | _ => rw [hw] at hs; cases hs
  | finish u =>
    simp only [runWorker] at hs
    split_ifs at hs with hw
    exact ⟨by simp [hw], by simp [hw], .inl ⟨_, by simp, by simp, (Option.some.inj hs).symm⟩⟩
  | _ => cases hs

theorem Inv.runWorker (h : Inv s) {a : Action T} (hs : runWorker s t a = some s') : Inv s' := by
  obtain ⟨hold, hleave, hcases⟩ := runWorker_cases hs
  rcases hcases with ⟨worker, hnew, hstay, rfl⟩ | ⟨hstop, rfl⟩
  · exact ⟨h.locks, h.pool.move hold hleave hnew hstay, { h.left with }⟩
  · exact ⟨h.locks, h.pool.leave hold hleave hstop, { h.left with }⟩

/-! ## The main thread -/

omit [DecidableEq T] [Fintype T] in
/-- What `shutdownLock` counts once the service is to stop -/
theorem counted_shutdownLock (created : Bool) {held : ℕ} {stopping : Bool} (hr : 0 ≤ s.shutdownRef)
    (hc : Counted (s.shutdownRef + 1) held stopping s.dropped s.unbalanced) :
    Counted (s.shutdownLock created).shutdownRef held stopping (s.shutdownLock created).dropped
      (s.shutdownLock created).unbalanced := by
  simp only [State.shutdownLock, if_pos hr]
  split_ifs
  · exact hc
  · exact hc.reset
  · exact hc

omit [DecidableEq T] [Fintype T] in
/-- Before that it only starts the timer, or ends the service at once. -/
theorem counted_shutdownLock_early (h : s.counted) (created : Bool) (hr : ¬ 0 ≤ s.shutdownRef) :
    Counted (s.shutdownLock created).shutdownRef s.held s.stopping (s.shutdownLock created).dropped
      (s.shutdownLock created).unbalanced := by
  simp only [State.shutdownLock, if_neg hr]
  split_ifs
  · exact h
  · exact h.reset
  · exact h

omit [DecidableEq T] [Fintype T] in
/-- It changes nothing else. -/
theorem shutdownLock_frame (s : State T) (created : Bool) : ∃ ref timer dropped untimed,
    s.shutdownLock created = { s with
      shutdownRef := ref, shutdownTimer := timer, dropped := dropped, untimed := untimed } := by
  simp only [State.shutdownLock, State.reset]
  split_ifs <;> exact ⟨_, _, _, _, rfl⟩

omit [DecidableEq T] in
theorem Pool.shutdownLock (h : Pool s) (created : Bool) : Pool (s.shutdownLock created) := by
  obtain ⟨ref, timer, dropped, untimed, heq⟩ := shutdownLock_frame s created
  rw [heq]
  exact { h with }

omit [DecidableEq T] [Fintype T] in
theorem leaves_of_running (hm : s.main = .running) : s.Leaves := by
  constructor
  · intro hl
    rw [hm] at hl
    cases hl
  · rintro (he | hl)
    · rw [hm] at he
      cases he
    · rw [hm] at hl
      cases hl

omit [DecidableEq T] in
theorem Inv.quit (h : Inv s) : Inv s.quit := by
  unfold State.quit
  split_ifs with hr
  · have hq : Counted (-1) s.held s.stopping s.dropped s.unbalanced := hr ▸ h.locks
    have hnot : s.main ≠ .left := by
      intro hl
      have := h.left.ref hl
      omega
    refine ⟨hq.quit, { h.pool with }, ⟨fun hl => absurd hl hnot, ?_⟩⟩
    rintro (he | hl) - -
    · have he : s.main = .ending := he
      exact .inr (by simp [he])
    · exact absurd hl hnot
  · exact h

omit [DecidableEq T] in
theorem Inv.reset (h : Inv s) (hm : s.main = .running) : Inv s.reset :=
  ⟨Counted.reset h.locks, { h.pool with }, leaves_of_running hm⟩

omit [DecidableEq T] in
theorem Inv.lock (h : Inv s) (hm : s.main = .running) (created : Bool) : Inv (s.lock created) := by
  refine ⟨?_, { h.pool.shutdownLock created with }, leaves_of_running ?_⟩
  · simp only [State.lock, State.counted]
    have hstop : (s.shutdownLock created).stopping = s.stopping := by
      obtain ⟨ref, timer, dropped, untimed, heq⟩ := shutdownLock_frame s created
      rw [heq]
    rw [hstop]
    split_ifs with hr
    · exact counted_shutdownLock created hr (Counted.lock h.locks hr)
    · exact counted_shutdownLock_early h.locks created hr
  · obtain ⟨ref, timer, dropped, untimed, heq⟩ := shutdownLock_frame s created
    rw [State.lock, heq]
    exact hm

omit [DecidableEq T] [Fintype T] in
theorem counted_shutdownUnlock (h : Counted (if 0 < s.shutdownRef then s.shutdownRef - 1
    else s.shutdownRef) s.held s.stopping s.dropped s.unbalanced) : s.shutdownUnlock.counted := by
  unfold State.shutdownUnlock
  split_ifs at h ⊢ <;> exact h

omit [DecidableEq T] in
theorem Inv.unlock (h : Inv s) (hm : s.main = .running) : Inv s.unlock := by
  have hc := Counted.unlock h.locks
  refine ⟨?_, ?_, leaves_of_running ?_⟩
  · simp only [State.unlock, State.shutdownUnlock, State.counted]
    split_ifs with hr
    · rwa [if_pos hr] at hc
    · rwa [if_neg hr] at hc
  · simp only [State.unlock, State.shutdownUnlock]
    split_ifs <;> exact { h.pool with }
  · simp only [State.unlock, State.shutdownUnlock]
    split_ifs <;> exact hm

theorem Inv.workerDone (h : Inv s) (hm : s.main = .running) {commands : List T}
    (hc : s.commands = t :: commands) : Inv ({ s with commands := commands }.workerDone t) := by
  obtain ⟨hstop, hpool⟩ := h.pool.workerDone hc
  have hfree : Counted s.shutdownRef s.held s.stopping s.dropped s.unbalanced := h.locks
  rw [hstop] at hfree
  replace hfree := hfree.free
  refine ⟨?_, hpool, leaves_of_running ?_⟩
  · simp only [State.workerDone]
    split_ifs
    · exact h.locks
    · exact counted_shutdownUnlock hfree
  · simp only [State.workerDone]
    split_ifs
    · exact hm
    · simp only [State.shutdownUnlock]
      split_ifs <;> exact hm

omit [DecidableEq T] [Fintype T] in
/-- The pool that is stopped keeps the loop running, unless the timer cannot be created. -/
theorem ref_shutdownLock (hr : s.shutdownRef = 0) (created : Bool) :
    (s.shutdownLock created).shutdownRef = 0 → (s.shutdownLock created).untimed = true := by
  simp only [State.shutdownLock, hr, le_refl, if_true]
  split_ifs
  · exact fun h => absurd h (by simp)
  · exact fun _ => rfl
  · exact fun h => absurd h (by simp)

omit [DecidableEq T] in
theorem Inv.poolDone (h : Inv s) (hr : s.shutdownRef = 0) (created : Bool) :
    (s.poolDone created).counted ∧ Pool (s.poolDone created) ∧
      ((s.poolDone created).shutdownRef = 0 → (s.poolDone created).allocated = true →
        (s.poolDone created).untimed = true) := by
  unfold State.poolDone
  split_ifs with ha
  · have hstop : Counted s.shutdownRef s.held s.stopping s.dropped s.unbalanced := h.locks
    rw [hr] at hstop
    have hlocked := counted_shutdownLock (s := s.stopThreads) created hr.ge
      (by rw [show s.stopThreads.shutdownRef = 0 from hr]; exact hstop.stop)
    have hpool := (h.pool.stopThreads ha).shutdownLock created
    have href := ref_shutdownLock (s := s.stopThreads) hr created
    obtain ⟨ref, timer, dropped, untimed, heq⟩ := shutdownLock_frame s.stopThreads created
    rw [heq] at hlocked hpool href ⊢
    exact ⟨hlocked, hpool, fun hz _ => href hz⟩
  · exact ⟨h.locks, h.pool, fun _ hall => absurd hall ha⟩

omit [DecidableEq T] in
/-- A round that finds no lock stops the pool. -/
theorem Inv.round (h : Inv s) (created : Bool) : Inv (s.round created) := by
  by_cases hr : s.shutdownRef = 0
  · obtain ⟨hcounted, hpool, hleft⟩ := h.poolDone hr created
    simp only [State.round, if_pos hr]
    exact ⟨hcounted, { hpool with }, ⟨fun hl => (by cases hl), fun _ hz ha => .inl (hleft hz ha)⟩⟩
  · simp only [State.round, if_neg hr]
    exact ⟨h.locks, { h.pool with }, ⟨fun hl => (by cases hl), fun _ hz => absurd hz hr⟩⟩

omit [DecidableEq T] in
/-- The loop goes on, or ends. -/
theorem Inv.loop (h : Inv s) (hm : s.main = .ending) : Inv s.loop := by
  refine ⟨h.locks, { h.pool with }, ?_⟩
  by_cases hr : s.shutdownRef = 0
  · refine ⟨fun _ => hr, fun _ hz ha => h.left.pool (.inl hm) hz ha⟩
  · exact leaves_of_running (if_pos hr)

omit [DecidableEq T] in
theorem Inv.fail (h : Inv s) : Inv { s with main := .failed } := by
  refine ⟨h.locks, { h.pool with }, ⟨fun hl => (by cases hl), ?_⟩⟩
  rintro (he | hl)
  · cases he
  · cases hl

theorem Inv.runMain (h : Inv s) (hm : s.main = .running) {a : Action T}
    (hs : runMain s a = some s') : Inv s' := by
  cases a with
  | lock created =>
    obtain rfl := Option.some.inj hs
    exact h.lock hm created
  | unlock =>
    obtain rfl := Option.some.inj hs
    exact h.unlock hm
  | signal =>
    obtain rfl := Option.some.inj hs
    exact h.reset hm
  | timeout =>
    simp only [Service.runMain] at hs
    split_ifs at hs
    obtain rfl := Option.some.inj hs
    have hreset := h.reset hm
    exact ⟨hreset.locks, { hreset.pool with }, { hreset.left with }⟩
  | workerDone =>
    simp only [Service.runMain] at hs
    cases hc : s.commands with
    | nil =>
      rw [hc] at hs
      cases hs
    | cons t commands =>
      rw [hc] at hs
      obtain rfl := Option.some.inj hs
      exact h.workerDone hm hc
  | round created =>
    obtain rfl := Option.some.inj hs
    exact h.round created
  | fail =>
    obtain rfl := Option.some.inj hs
    exact h.fail
  | _ => cases hs

theorem Inv.step (h : Inv s) {a : Action T} (hs : step s a = some s') : Inv s' := by
  cases a with
  | dequeue t job => exact h.runWorker (t := t) (a := .dequeue t job) hs
  | check t => exact h.runWorker (t := t) (a := .check t) hs
  | finish t => exact h.runWorker (t := t) (a := .finish t) hs
  | quit =>
    obtain rfl := Option.some.inj hs
    exact h.quit
  | loop =>
    simp only [Service.step] at hs
    split_ifs at hs with hm
    obtain rfl := Option.some.inj hs
    exact h.loop hm
  | _ =>
    simp only [Service.step] at hs
    split_ifs at hs with hm
    exact h.runMain hm hs

omit [DecidableEq T] in
theorem Init.inv (h : Init s) : Inv s := by
  obtain ⟨href, -, hm, hfrees, hcommands, hstop, hheld, hdropped, hunbalanced, -, -, hpool⟩ := h
  refine ⟨⟨fun _ => ⟨href, hheld, hstop⟩, fun _ hr => ?_, fun _ _ hr => ?_⟩, ?_, leaves_of_running hm⟩
  · omega
  · omega
  · split_ifs at hpool with ha
    · obtain ⟨hr, hall⟩ := hpool
      constructor
      case thread =>
        intro t
        obtain ⟨hw, hz, hp⟩ := hall t
        exact ⟨iff_of_false (by simp [hw]) (by omega), fun _ hor => by simp [hw, hz] at hor⟩
      case nodup => simp [hcommands]
      case leaving => simp [hcommands, hall]
      case counted =>
        intro _
        have hevery : alive s.thread = Finset.univ := by
          ext t
          simp [alive, (hall t).2.2]
        rw [hr, hevery, Finset.card_univ]
      case gone => exact fun hg => absurd ha (by simp [hg])
      case fresh => exact fun _ => hfrees
      case once => omega
      case stopping => exact fun _ => ha
    · constructor
      case thread =>
        intro t
        exact ⟨iff_of_true (hpool t).1 (hpool t).2, fun hne => absurd (hpool t).1 hne⟩
      case nodup => simp [hcommands]
      case leaving => simp [hcommands, hpool]
      case counted => exact fun hg => absurd hg ha
      case gone => exact fun _ t => (hpool t).1
      case fresh => exact fun _ => hfrees
      case once => omega
      case stopping => exact fun hg => by simp [hstop] at hg

theorem inv_of_reachable (h : (service T).Reachable s) : Inv s :=
  h.invariant (fun _ => Init.inv) fun _ _ _ hi _ hs => hi.step hs

end Steps

/-- A service with two threads in its pool -/
def started : State Bool where
  shutdownRef := -1
  shutdownTimer := .none
  main := .running
  allocated := true
  frees := 0
  rthreads := 2
  thread := fun t => ⟨.waiting, 0, t.toNat⟩
  commands := []
  stopping := false
  held := 0
  dropped := false
  unbalanced := false
  untimed := false
  late := false

theorem started_init : (service Bool).init started :=
  ⟨rfl, rfl, rfl, rfl, rfl, rfl, rfl, rfl, rfl, rfl, rfl, rfl,
    fun _ => ⟨rfl, rfl, Int.natCast_nonneg _⟩⟩

/-- `PSC_Service_quit` comes between the two reads, and the pool is left as it was. -/
theorem pool_left : ∃ s, (service Bool).Reachable s ∧ s.main = .left ∧ s.allocated = true ∧
    s.stopping = false := by
  have hrun : ((service Bool).exec [.round true, .quit, .loop] started).any (fun s =>
      decide (s.main = .left ∧ s.allocated = true ∧ s.stopping = false)) = true := by decide
  obtain ⟨s, hs, hp⟩ := Machine.exists_reachable started_init hrun
  exact ⟨s, hs, of_decide_eq_true hp⟩

end PoserCore.Service
