import PoserCore.Timers.Model

/-!
# When a timer expires

A timer may expire when, since it was created, it was started and not stopped after that
(`Started`).  The code does not keep to this by itself: it never stores `periodic`, so the first
expiration of a periodic timer clears `job` and a later stop does nothing, and `disableTimer` leaves
the descriptor armed, so it can expire for the next owner of the timer.  `Action.Ok` names the states
in which `PSC_Timer_stop` and `PSC_Timer_create` do what they should, and `timer_safe` says that a
run of such calls raises no event that is not due.
-/

namespace PoserCore.Timers

open Lib (Machine)

/-- Since its latest creation, `t` was started and not stopped after that. -/
def Started (t : Addr) : List Event → Prop
  | [] => False
  | .created u :: tr => u ≠ t ∧ Started t tr
  | .started u :: tr => u = t ∨ Started t tr
  | .stopped u :: tr => u ≠ t ∧ Started t tr
  | .raised _ :: tr => Started t tr

/-- Every event was raised for a timer that was started at that time. -/
def Legit : List Event → Prop
  | [] => True
  | .raised t :: tr => Started t tr ∧ Legit tr
  | _ :: tr => Legit tr

/-- Neither armed nor with expirations to read. -/
def TimerFd.Quiet (fd : TimerFd) : Prop := fd.deadline = none ∧ fd.ticks = 0

/-- `expired` has still to raise the event of `t`. -/
def Control.Due (t : Addr) : Control → Prop
  | .raising u n | .handling u n => u = t ∧ 0 < n
  | _ => False

/-- `expired` is at work for `t`. -/
def Control.Uses (t : Addr) : Control → Prop
  | .raising u _ | .handling u _ => u = t
  | _ => False

/-- A stop finds `job` set or a quiet descriptor, a timer is taken from the pool with a quiet
descriptor, neither happens to a timer for which `expired` has still to raise the event, and no
handler gives back the last timer while `expired` is at work for it or for one in the pool. -/
def Action.Ok (s : State) : Action → Prop
  | .stop t => (∀ x, s.timers t = some x → x.job = true ∨ x.fd.Quiet) ∧ ¬ s.control.Due t
  | .create _ => ∀ t, s.pooled.head? = some t →
      (∀ x, s.timers t = some x → x.fd.Quiet) ∧ ¬ s.control.Due t
  | .destroy t => (s.pool.map TimerPool.refcnt = some 1) → ∀ u, s.control.Uses u →
      u ≠ t ∧ u ∉ s.pooled
  | _ => True

/-! ## The invariant -/

structure Inv (s : State) : Prop where
  /-- A timer with an expiration to come or to read was started. -/
  fds : ∀ t x, s.timers t = some x → ¬ x.fd.Quiet → Started t s.trace
  due : ∀ t, s.control.Due t → Started t s.trace
  uses : ∀ t, s.control.Uses t → s.timers t ≠ none
  control : s.control ≠ .fault
  legit : Legit s.trace

theorem inv_initial : Inv .initial where
  fds := by intro t x h; cases h
  due := by intro t h; cases h
  uses := by intro t h; cases h
  control := by intro h; cases h
  legit := trivial

theorem quiet_settime_zero (now interval : ℕ) : (TimerFd.settime now 0 interval).Quiet :=
  ⟨rfl, rfl⟩

theorem quiet_elapse {fd : TimerFd} (h : fd.Quiet) (now : ℕ) : (fd.elapse now).Quiet := by
  unfold TimerFd.elapse
  rw [h.1]
  exact h

theorem fd_setMs (x : Timer) (now : ℕ) (ms : UInt32) : (x.setMs now ms).fd = x.fd := by
  unfold Timer.setMs Timer.start
  cases hj : x.job <;> simp

theorem quiet_stop {x : Timer} (h : x.job = true ∨ x.fd.Quiet) (now : ℕ) :
    (x.stop now).fd.Quiet := by
  unfold Timer.stop
  cases hj : x.job with
  | true => exact quiet_settime_zero now 0
  | false =>
    rcases h with h | h
    · cases hj.symm.trans h
    · exact h

/-! ## Changes to one timer -/

theorem timers_modify (s : State) (t u : Addr) (f : Timer → Timer) :
    (s.modify t f).timers u = if u = t then (s.timers t).map f else s.timers u := by
  unfold State.modify
  by_cases h : u = t
  · subst h; simp
  · simp [h]

theorem modify_ne_none {s : State} {t u : Addr} {f : Timer → Timer} :
    (s.modify t f).timers u ≠ none ↔ s.timers u ≠ none := by
  rw [timers_modify]
  by_cases h : u = t
  · subst h; simp
  · simp [h]

/-- A change to a timer that arms no descriptor keeps the invariant. -/
theorem inv_modify {s : State} (h : Inv s) (t : Addr) {f : Timer → Timer}
    (hf : ∀ x, s.timers t = some x → ¬ (f x).fd.Quiet → ¬ x.fd.Quiet) : Inv (s.modify t f) where
  fds := by
    intro u x hx hq
    rw [timers_modify] at hx
    split_ifs at hx with hu
    · subst hu
      obtain ⟨y, hy, rfl⟩ := Option.map_eq_some_iff.1 hx
      exact h.fds u y hy (hf y hy hq)
    · exact h.fds u x hx hq
  due := h.due
  uses := fun u hu => modify_ne_none.2 (h.uses u hu)
  control := h.control
  legit := h.legit

/-- After a start of `t`, whatever happens to its descriptor is due. -/
theorem inv_started {s : State} (h : Inv s) (t : Addr) (f : Timer → Timer) :
    Inv ((s.modify t f).record (.started t)) where
  fds := by
    intro u x hx hq
    by_cases hu : u = t
    · exact .inl hu.symm
    · change (s.modify t f).timers u = some x at hx
      rw [timers_modify, if_neg hu] at hx
      exact .inr (h.fds u x hx hq)
  due := fun u hu => .inr (h.due u hu)
  uses := fun u hu => modify_ne_none.2 (h.uses u hu)
  control := h.control
  legit := h.legit

/-- The owner's view of `t` may begin anew, by a stop or a creation, where its descriptor is quiet
and no event of it is due. -/
theorem inv_renewed {s : State} (h : Inv s) {t : Addr} {f : Timer → Timer} {e : Event}
    (he : e = .stopped t ∨ e = .created t) (hf : ∀ x, s.timers t = some x → (f x).fd.Quiet)
    (hd : ¬ s.control.Due t) : Inv ((s.modify t f).record e) := by
  have htr : ∀ u, u ≠ t → Started u s.trace → Started u (e :: s.trace) := by
    intro u hu hs
    rcases he with rfl | rfl <;> exact ⟨Ne.symm hu, hs⟩
  refine ⟨?_, ?_, fun u hu => modify_ne_none.2 (h.uses u hu), h.control, ?_⟩
  · intro u x hx hq
    change (s.modify t f).timers u = some x at hx
    rw [timers_modify] at hx
    split_ifs at hx with hu
    · obtain ⟨y, hy, rfl⟩ := Option.map_eq_some_iff.1 hx
      exact absurd (hf y hy) hq
    · exact htr u hu (h.fds u x hx hq)
  · intro u hu
    by_cases hut : u = t
    · subst hut; exact absurd hu hd
    · exact htr u hut (h.due u hu)
  · rcases he with rfl | rfl <;> exact h.legit

/-! ## The pool -/

/-- Timers may go that `expired` does not use. -/
theorem inv_poolDone {s : State} (h : Inv s) {p : TimerPool}
    (hp : p.refcnt = 1 → ∀ u, s.control.Uses u → u ∉ p.timers) : Inv (poolDone s p) := by
  unfold poolDone
  split_ifs with hr
  · refine ⟨?_, h.due, ?_, h.control, h.legit⟩
    · intro t x hx
      simp only at hx
      split_ifs at hx with ht
      exact h.fds t x hx
    · intro t ht
      simp only
      rw [if_neg (hp hr t ht)]
      exact h.uses t ht
  · exact ⟨h.fds, h.due, h.uses, h.control, h.legit⟩

theorem inv_pool {s : State} (h : Inv s) (pool : Option TimerPool) : Inv { s with pool := pool } :=
  ⟨h.fds, h.due, h.uses, h.control, h.legit⟩

theorem timers_poolInit (pool : Option TimerPool) :
    (poolInit pool).timers = (pool.map TimerPool.timers).getD [] := by
  cases pool <;> rfl

theorem inv_create {s s' : State} {alloc : Option Addr} (h : Inv s)
    (hok : (Action.create alloc).Ok s) (hs : create s alloc = some s') : Inv s' := by
  have hpool : (poolInit s.pool).timers = s.pooled := timers_poolInit s.pool
  unfold create at hs
  simp only at hs
  split at hs
  next t rest ht =>
    obtain rfl := Option.some.inj hs
    obtain ⟨hq, hd⟩ := hok t (by rw [← hpool, ht]; rfl)
    exact inv_renewed (inv_pool h _) (.inr rfl) hq hd
  next ht =>
    obtain rfl := Option.some.inj hs
    refine inv_poolDone h fun _ u _ => ?_
    simp [ht]
  next t ht =>
    split_ifs at hs with hnew
    obtain rfl := Option.some.inj hs
    have hfree : s.timers t = none := by simpa using hnew
    -- The new address is none that `expired` uses, for those are allocated.
    refine ⟨?_, ?_, ?_, h.control, h.legit⟩
    · intro u x hx hquiet
      by_cases hu : u = t
      · subst hu
        simp only [State.record, Function.update_self, Option.some.injEq] at hx
        subst hx
        exact absurd ⟨rfl, rfl⟩ hquiet
      · simp only [State.record, Function.update_of_ne hu] at hx
        exact ⟨Ne.symm hu, h.fds u x hx hquiet⟩
    · intro u hu
      have huses : s.control.Uses u := by
        change s.control.Due u at hu
        cases hc : s.control with
        | idle => rw [hc] at hu; cases hu
        | fault => rw [hc] at hu; cases hu
        | raising v n => rw [hc] at hu; exact hu.1
        | handling v n => rw [hc] at hu; exact hu.1
      exact ⟨fun htu => h.uses u huses (htu ▸ hfree), h.due u hu⟩
    · intro u hu
      have hne : u ≠ t := fun htu => h.uses u hu (htu ▸ hfree)
      simp only [State.record, Function.update_of_ne hne]
      exact h.uses u hu

theorem inv_destroy {s s' : State} {t : Addr} (h : Inv s) (hok : (Action.destroy t).Ok s)
    (hs : destroy s t = some s') : Inv s' := by
  obtain ⟨p, hp, rfl⟩ := Option.map_eq_some_iff.1 hs
  refine inv_poolDone h fun hr u hu => ?_
  obtain ⟨hne, hmem⟩ := hok (by rw [hp]; exact congrArg some hr) u hu
  rw [State.pooled, hp] at hmem
  simpa using ⟨hmem, hne⟩

/-! ## Expirations -/

theorem inv_elapse {s : State} (h : Inv s) (now : ℕ) :
    Inv { s with
      now := now
      timers := fun t => (s.timers t).map fun x => { x with fd := x.fd.elapse now } } where
  fds := by
    intro t x hx hq
    obtain ⟨y, hy, rfl⟩ := Option.map_eq_some_iff.1 hx
    exact h.fds t y hy fun hquiet => hq (quiet_elapse hquiet now)
  due := h.due
  uses := fun t ht => by simpa using h.uses t ht
  control := h.control
  legit := h.legit

theorem inv_expired {s s' : State} {t : Addr} (h : Inv s) (hs : step s (.expired t) = some s') :
    Inv s' := by
  simp only [step] at hs
  split at hs
  next x hc hx =>
    split_ifs at hs with hticks
    · obtain rfl := Option.some.inj hs
      exact h
    · obtain rfl := Option.some.inj hs
      have hstart : Started t s.trace := h.fds t x hx fun hq => hticks hq.2
      have hmod : Inv (s.modify t fun x => { x with fd := { x.fd with ticks := 0 } }) :=
        inv_modify h t fun y _ hq hy => hq ⟨hy.1, rfl⟩
      refine ⟨hmod.fds, ?_, ?_, by simp, hmod.legit⟩
      · rintro u ⟨rfl, -⟩
        exact hstart
      · rintro u rfl
        exact modify_ne_none.2 (by simp [hx])
  next => cases hs

theorem inv_raise {s s' : State} (h : Inv s) (hs : step s .raise = some s') : Inv s' := by
  simp only [step] at hs
  split at hs
  next t n hc =>
    have hdue : Started t s.trace := h.due t (by rw [hc]; exact ⟨rfl, by omega⟩)
    have huses : s.timers t ≠ none := h.uses t (by rw [hc]; exact rfl)
    rw [if_pos (Option.isSome_iff_ne_none.2 huses)] at hs
    obtain rfl := Option.some.inj hs
    refine ⟨h.fds, ?_, ?_, by simp [State.record], hdue, h.legit⟩
    · rintro u ⟨rfl, -⟩
      exact hdue
    · rintro u rfl
      exact huses
  next => cases hs

theorem inv_handled {s s' : State} (h : Inv s) (hs : step s .handled = some s') : Inv s' := by
  simp only [step] at hs
  split at hs
  next t n hc =>
    obtain rfl := Option.some.inj hs
    exact ⟨h.fds, fun u hu => h.due u (by rw [hc]; exact hu), fun u hu => h.uses u (by rw [hc]; exact hu),
      by simp, h.legit⟩
  next => cases hs

theorem inv_finish {s s' : State} (h : Inv s) (hs : step s .finish = some s') : Inv s' := by
  simp only [step] at hs
  split at hs
  next t hc =>
    have huses : s.timers t ≠ none := h.uses t (by rw [hc]; exact rfl)
    rw [if_pos (Option.isSome_iff_ne_none.2 huses)] at hs
    obtain rfl := Option.some.inj hs
    have hmod := inv_modify h t (f := fun x => if x.periodic then x else { x with job := false })
      (by
        intro x _ hq
        split_ifs at hq <;> exact hq)
    exact ⟨hmod.fds, fun u hu => hu.elim, fun u hu => hu.elim, by simp, hmod.legit⟩
  next => cases hs

/-! ## Runs -/

theorem inv_step {s s' : State} {a : Action} (h : Inv s) (hok : a.Ok s)
    (hs : step s a = some s') : Inv s' := by
  cases a with
  | create alloc =>
    simp only [step] at hs
    split_ifs at hs
    exact inv_create h hok hs
  | setMs t ms =>
    simp only [step] at hs
    split_ifs at hs
    obtain rfl := Option.some.inj hs
    exact inv_modify h t fun x _ hq => by rwa [fd_setMs] at hq
  | start t periodic =>
    simp only [step] at hs
    split_ifs at hs
    obtain rfl := Option.some.inj hs
    exact inv_started h t _
  | stop t =>
    simp only [step] at hs
    split_ifs at hs
    obtain rfl := Option.some.inj hs
    exact inv_renewed h (.inl rfl) (fun x hx => quiet_stop (hok.1 x hx) s.now) hok.2
  | destroy t =>
    simp only [step] at hs
    split_ifs at hs
    exact inv_destroy h hok hs
  | elapse d =>
    obtain rfl := Option.some.inj hs
    exact inv_elapse h (s.now + d)
  | expired t => exact inv_expired h hs
  | raise => exact inv_raise h hs
  | handled => exact inv_handled h hs
  | finish => exact inv_finish h hs

/-- In a run of such calls, a timer expires only if it was started and not stopped after that, and
no freed timer is used. -/
theorem timer_safe {s : State} (h : machine.Run (fun s a => a.Ok s) s) :
    Legit s.trace ∧ s.control ≠ .fault := by
  have hinv : Inv s := by
    refine h.invariant ?_ fun _ _ _ hi hok hs => inv_step hi hok hs
    rintro _ rfl
    exact inv_initial
  exact ⟨hinv.legit, hinv.control⟩

/-! ## Fixed runs -/

instance (fd : TimerFd) : Decidable fd.Quiet := inferInstanceAs (Decidable (_ ∧ _))

instance (t : Addr) : (c : Control) → Decidable (c.Due t)
  | .raising _ _ | .handling _ _ => inferInstanceAs (Decidable (_ ∧ _))
  | .idle | .fault => inferInstanceAs (Decidable False)

instance (t : Addr) : (tr : List Event) → Decidable (Started t tr)
  | [] => inferInstanceAs (Decidable False)
  | .created _ :: tr | .stopped _ :: tr =>
      have := instDecidableStarted t tr
      inferInstanceAs (Decidable (_ ∧ _))
  | .started _ :: tr =>
      have := instDecidableStarted t tr
      inferInstanceAs (Decidable (_ ∨ _))
  | .raised _ :: tr => instDecidableStarted t tr

instance : (tr : List Event) → Decidable (Legit tr)
  | [] => inferInstanceAs (Decidable True)
  | .raised _ :: tr =>
      have := instDecidableLegit tr
      inferInstanceAs (Decidable (_ ∧ _))
  | .created _ :: tr | .started _ :: tr | .stopped _ :: tr => instDecidableLegit tr

/-- A test for `Action.Ok`. -/
def Action.test (s : State) : Action → Bool
  | .stop t => (s.timers t).all (fun x => x.job || decide x.fd.Quiet) && !decide (s.control.Due t)
  | .create _ => s.pooled.head?.all fun t =>
      (s.timers t).all (fun x => decide x.fd.Quiet) && !decide (s.control.Due t)
  | .destroy t => decide (s.pool.map TimerPool.refcnt ≠ some 1) || match s.control with
      | .raising u _ | .handling u _ => decide (u ≠ t ∧ u ∉ s.pooled)
      | _ => true
  | _ => true

theorem test_sound {s : State} {a : Action} (h : a.test s = true) : a.Ok s := by
  cases a with
  | stop t =>
    simp only [Action.test, Bool.and_eq_true, Option.all_eq_true, Bool.or_eq_true,
      decide_eq_true_eq, Bool.not_eq_true', decide_eq_false_iff_not] at h
    exact h
  | create alloc =>
    simp only [Action.test, Bool.and_eq_true, Option.all_eq_true, decide_eq_true_eq,
      Bool.not_eq_true', decide_eq_false_iff_not] at h
    exact h
  | destroy t =>
    simp only [Action.test, Bool.or_eq_true, decide_eq_true_eq] at h
    intro hr u hu
    rcases h with h | h
    · exact absurd hr h
    · cases hc : s.control with
      | idle => rw [hc] at hu; exact hu.elim
      | fault => rw [hc] at hu; exact hu.elim
      | raising v n | handling v n =>
        rw [hc] at h hu
        obtain rfl : v = u := hu
        exact of_decide_eq_true h
  | _ => trivial

/-- A periodic timer is stopped by its own handler and recycled. -/
theorem timer_safe_recycled : ∃ s : State, (Legit s.trace ∧ s.control ≠ .fault) ∧
    s.trace = [.raised 7, .started 7, .created 7, .stopped 7, .raised 7, .started 7, .created 7,
      .created 8] := by
  have hrun : (machine.execOk (fun s a => a.test s)
      [.create (some 8), .create (some 7), .start 7 true, .elapse 1000000000, .expired 7, .raise,
        .stop 7, .handled, .finish, .destroy 7, .create none, .start 7 false, .elapse 1000000000,
        .expired 7, .raise] .initial).any (fun s => decide (s.trace =
      [.raised 7, .started 7, .created 7, .stopped 7, .raised 7, .started 7, .created 7,
        .created 8])) = true := by decide +kernel
  obtain ⟨s, hs, htr⟩ := Machine.exists_run rfl (fun _ _ => test_sound) hrun
  exact ⟨s, timer_safe hs, of_decide_eq_true htr⟩

/-- A periodic timer that is stopped after its first expiration expires again. -/
theorem timer_expires_stopped : ∃ s : State, machine.Reachable s ∧ ¬ Legit s.trace := by
  have hrun : (machine.exec
      [.create (some 7), .start 7 true, .elapse 1000000000, .expired 7, .raise, .handled, .finish,
        .stop 7, .elapse 1000000000, .expired 7, .raise] .initial).any
      (fun s => decide (¬ Legit s.trace)) = true := by decide +kernel
  obtain ⟨s, hs, hbad⟩ := Machine.exists_reachable rfl hrun
  exact ⟨s, hs, of_decide_eq_true hbad⟩

end PoserCore.Timers
