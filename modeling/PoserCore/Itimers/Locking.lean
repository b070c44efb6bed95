import PoserCore.Itimers.Model

/-!
# The mutex of the timers on `setitimer`

`PSC_Timer_start`, and `PSC_Timer_setMs` on a pending timer, have the main thread run a function
that locks the mutex they hold.  `start` calls `PSC_Timer_underrun` with the mutex held where the
next job is due at once, `PSC_Timer_underrun` keeps the mutex where no job is left, and it calls the
handlers of a timer of the main thread before it unlocks.  `Call.Safe` is the condition under which
a call does none of this; `lock_discipline` is the exact statement for runs.
-/

namespace PoserCore.Itimers

open Lib (Machine)

/-! ## What is promised, and when it holds -/

namespace State

/-- The first job has no time left. -/
def Due (s : State) : Prop :=
  match s.jobs with
  | [] => False
  | j :: _ => j.remaining = 0

/-- The first job is the timer's, and the second has no more time left than elapsed for it. -/
def Tied (s : State) (t : Addr) : Prop :=
  match s.jobs with
  | j :: next :: _ => j.timer = t ∧ next.remaining ≤ j.remaining - s.itimer
  | _ => False

/-- The second job is due with the first, or the first is to be repeated without a delay. -/
def Overdue (s : State) : Prop :=
  match s.jobs with
  | [] => False
  | j :: rest =>
      (∃ next ∈ rest.head?, next.remaining ≤ j.remaining) ∨
        ((s.timers j.timer).periodic = true ∧ (s.timers j.timer).ms = 0)

end State

/-- The condition for a call from the event loop, or from a handler that has the mutex held. -/
def Call.Safe (s : State) (handling : Bool) : Call → Prop
  | .setMs t _ => handling = false ∧ ¬ s.Pending t
  | .start _ _ => False
  | .stop t => (s.timers t).thrno < -1 ∨ (handling = false ∧ ¬ s.Tied t)
  | .destroy t => ¬ s.Pending t ∨ (s.timers t).thrno < -1 ∨ (handling = false ∧ ¬ s.Tied t)
  | .underrun => handling = false ∧ s.jobs ≠ [] ∧ ¬ s.Overdue

def Action.Safe (m : Main) : Action → Prop
  | .call c => c.Safe m.state (!m.stack.isEmpty)
  | _ => True

/-- The thread does not wait for its own mutex, and outside of all calls it does not hold it. -/
structure Main.Good (m : Main) : Prop where
  stuck : m.stuck = false
  free : m.stack = [] → m.state.held = false

/-! ## The helpers, with the mutex held -/

section Jobs

variable {u : State → Exec} {s : State}

theorem lock_held (h : s.held = true) : s.lock = .deadlock := by
  rw [State.lock, if_pos h]

theorem lock_free (h : s.held = false) : s.lock = .ret { s with held := true } := by
  rw [State.lock, if_neg (by simp [h])]

/-- A nested call of `PSC_Timer_underrun` never comes back. -/
theorem underrun_nested (n : ℕ) (h : s.held = true) : underrun (n + 1) s = .deadlock := by
  rw [underrun, lock_held h]
  rfl

theorem dostop_nested (t : Addr) (h : s.held = true) : dostop u t s = .deadlock := by
  rw [dostop, lock_held h]
  rfl

theorem dostart_nested (t : Addr) (h : s.held = true) : dostart u t s = .deadlock := by
  rw [dostart, lock_held h]
  rfl

variable (hu : ∀ s, s.held = true → u s = .deadlock)

include hu in
theorem start_due (h : s.held = true) (hd : s.Due) : start u s = .deadlock := by
  rw [State.Due] at hd
  cases hjobs : s.jobs with
  | nil =>
    rw [hjobs] at hd
    exact hd.elim
  | cons j rest =>
    rw [hjobs] at hd
    simp only [start, hjobs, hd, ne_eq, not_true_eq_false, if_false]
    exact hu s h

theorem start_not_due (h : s.held = true) (hd : ¬ s.Due) :
    ∃ s', start u s = .ret s' ∧ s'.held = true := by
  rw [State.Due] at hd
  cases hjobs : s.jobs with
  | nil => exact ⟨s, by simp only [start, hjobs], h⟩
  | cons j rest =>
    rw [hjobs] at hd
    refine ⟨{ s with itimer := j.remaining }, ?_, h⟩
    simp only [start, hjobs]
    exact if_pos hd

/-- The state in which `dostoplocked` starts the next job, where the first one is stopped. -/
theorem dostoplocked_head {j : Job} {rest : List Job} (hjobs : s.jobs = j :: rest) :
    dostoplocked u j.timer s = start u { s with
      jobs := rest.map fun k => { k with remaining := k.remaining - (j.remaining - s.itimer) }
      itimer := 0 } := by
  simp [dostoplocked, State.stopandadjust, State.adjust, hjobs]

theorem dostoplocked_other {j : Job} {rest : List Job} {t : Addr} (hjobs : s.jobs = j :: rest)
    (ht : j.timer ≠ t) :
    dostoplocked u t s = .ret { s with jobs := s.jobs.eraseP (·.timer = t) } := by
  rw [dostoplocked, hjobs]
  exact if_neg ht

include hu in
theorem dostoplocked_tied {t : Addr} (h : s.held = true) (ht : s.Tied t) :
    dostoplocked u t s = .deadlock := by
  unfold State.Tied at ht
  split at ht
  · rename_i j next rest hjobs
    obtain ⟨rfl, hle⟩ := ht
    rw [dostoplocked_head hjobs]
    refine start_due hu ?_ ?_
    · exact h
    change next.remaining - (j.remaining - s.itimer) = 0
    omega
  · exact ht.elim

theorem dostoplocked_not_tied {t : Addr} (h : s.held = true) (ht : ¬ s.Tied t) :
    ∃ s', dostoplocked u t s = .ret s' ∧ s'.held = true := by
  cases hjobs : s.jobs with
  | nil => exact ⟨s, by rw [dostoplocked, hjobs], h⟩
  | cons j rest =>
    by_cases hj : j.timer = t
    · subst hj
      rw [dostoplocked_head hjobs]
      refine start_not_due ?_ ?_
      · exact h
      intro hdue
      cases rest with
      | nil => exact hdue
      | cons next rest =>
        change next.remaining - (j.remaining - s.itimer) = 0 at hdue
        apply ht
        rw [State.Tied, hjobs]
        exact ⟨rfl, by omega⟩
    · exact ⟨_, dostoplocked_other hjobs hj, h⟩

include hu in
theorem dostop_tied {t : Addr} (h : s.held = false) (ht : s.Tied t) :
    dostop u t s = .deadlock := by
  have hlocked := dostoplocked_tied (s := { s with held := true }) hu rfl ht
  rw [dostop, lock_free h, Exec.bind_ret, hlocked, Exec.bind_deadlock]

theorem dostop_not_tied {t : Addr} (h : s.held = false) (ht : ¬ s.Tied t) :
    ∃ s', dostop u t s = .ret s' ∧ s'.held = false := by
  obtain ⟨s', hs', _⟩ := dostoplocked_not_tied (u := u) (s := { s with held := true }) rfl ht
  refine ⟨s'.unlock, ?_, rfl⟩
  rw [dostop, lock_free h, Exec.bind_ret, hs', Exec.bind_ret]

theorem due_orderedInsert (job : Job) (jobs : List Job) :
    State.Due { s with
        jobs := jobs.orderedInsert (fun j next => j.remaining ≤ next.remaining) job } ↔
      job.remaining = 0 ∨ ∃ next ∈ jobs.head?, next.remaining = 0 := by
  cases jobs with
  | nil => simp [State.Due]
  | cons next rest =>
    simp only [State.Due, List.orderedInsert_cons, List.head?_cons, Option.mem_def,
      Option.some.injEq, exists_eq_left']
    by_cases hle : job.remaining ≤ next.remaining
    · simp only [if_pos hle]
      omega
    · simp only [if_neg hle]
      omega

theorem expiry_eq_zero (ms : UInt32) : expiry ms = 0 ↔ ms = 0 := by
  rw [← UInt32.toNat_inj]
  change _ ↔ ms.toNat = 0
  unfold expiry
  omega

/-- What `PSC_Timer_underrun` does with the list, up to the handlers. -/
def rearm (u : State → Exec) (s : State) (j : Job) (rest : List Job) : Exec :=
  let s := { s with jobs := rest }.adjust j.remaining
  if (s.timers j.timer).periodic then enqueueandstart u j.timer s else start u s

/-- The next job is due at once exactly where it was due with the one that expired, or where that one
is repeated without a delay. -/
theorem rearm_eq (u : State → Exec) {j : Job} {rest : List Job} (hjobs : s.jobs = j :: rest) :
    ∃ s', rearm u s j rest = start u s' ∧ s'.held = s.held ∧ (s'.Due ↔ s.Overdue) := by
  have hhead : (∃ next ∈ (rest.map fun k : Job =>
      { k with remaining := k.remaining - j.remaining }).head?, next.remaining = 0) ↔
      ∃ next ∈ rest.head?, next.remaining ≤ j.remaining := by
    cases rest with
    | nil => simp
    | cons next rest => simp [Nat.sub_eq_zero_iff_le]
  by_cases hp : (s.timers j.timer).periodic = true
  · refine ⟨_, if_pos hp, rfl, ?_⟩
    rw [due_orderedInsert, State.adjust, hhead, State.Overdue, hjobs]
    simp only [expiry_eq_zero, hp, true_and]
    exact or_comm
  · refine ⟨_, if_neg hp, rfl, ?_⟩
    rw [State.Overdue, hjobs]
    simp only [hp, false_and, or_false, Bool.false_eq_true]
    rw [← hhead]
    cases rest with
    | nil => simp [State.adjust, State.Due]
    | cons next rest => simp [State.adjust, State.Due]

end Jobs

/-! ## The calls -/

section Calls

variable {n : ℕ} {s : State} {t : Addr}

theorem underrun_jobs (h : s.held = false) {j : Job} {rest : List Job} (hjobs : s.jobs = j :: rest) :
    underrun (n + 1) s = (rearm (underrun n) { s with held := true } j rest).bind fun s' =>
      (runOnThread (s.timers j.timer).thrno (doraise j.timer) s').bind fun s' => .ret s'.unlock := by
  rw [underrun, lock_free h, Exec.bind_ret]
  simp only [hjobs]
  rfl

theorem underrun_empty (h : s.held = false) (hjobs : s.jobs = []) :
    underrun (n + 1) s = .ret { s with held := true } := by
  rw [underrun, lock_free h, Exec.bind_ret]
  simp only [hjobs]

theorem underrun_overdue (h : s.held = false) (hover : s.Overdue) :
    underrun (n + 2) s = .deadlock := by
  cases hjobs : s.jobs with
  | nil =>
    rw [State.Overdue, hjobs] at hover
    exact hover.elim
  | cons j rest =>
    obtain ⟨s', hs', hheld, hdue⟩ :=
      rearm_eq (s := { s with held := true }) (underrun (n + 1)) hjobs
    have hdead := start_due (fun _ => underrun_nested n) hheld (hdue.2 hover)
    rw [underrun_jobs h hjobs, hs', hdead, Exec.bind_deadlock]

/-- Otherwise it comes back with the mutex released, or calls the handlers with the mutex held and
will release it after them. -/
theorem underrun_safe (h : s.held = false) (hjobs : s.jobs ≠ []) (hover : ¬ s.Overdue) :
    ∃ s', s'.held = true ∧ (underrun (n + 2) s = .ret s'.unlock ∨
      ∃ t, underrun (n + 2) s = .raise t s' fun s => .ret s.unlock) := by
  obtain ⟨j, rest, hjobs⟩ := List.exists_cons_of_ne_nil hjobs
  obtain ⟨s', hs', hheld, hdue⟩ :=
    rearm_eq (s := { s with held := true }) (underrun (n + 1)) hjobs
  obtain ⟨s'', hs'', hheld''⟩ :=
    start_not_due (u := underrun (n + 1)) hheld fun hd => hover (hdue.1 hd)
  refine ⟨s'', hheld'', ?_⟩
  rw [underrun_jobs h hjobs, hs', hs'', Exec.bind_ret, runOnThread]
  split_ifs with hthr
  · exact Or.inr ⟨j.timer, rfl⟩
  · exact Or.inl rfl

theorem setMs_pending (ms : UInt32) (h : s.held = false) (ht : s.Pending t) :
    setMs n t ms s = .deadlock := by
  have hstop : ∀ s : State, s.held = true →
      runOnThread (-1) (dostop (underrun n) t) s = .deadlock := fun s hs => dostop_nested t hs
  rw [setMs, lock_free h, Exec.bind_ret]
  simp only
  split_ifs with hpend
  · rw [hstop _ (by rfl), Exec.bind_deadlock, Exec.bind_deadlock]
  · exact absurd ht hpend

theorem setMs_idle (ms : UInt32) (h : s.held = false) (ht : ¬ s.Pending t) :
    ∃ s', setMs n t ms s = .ret s' ∧ s'.held = false := by
  rw [setMs, lock_free h, Exec.bind_ret]
  simp only
  split_ifs with hpend
  · exact absurd hpend ht
  · exact ⟨_, rfl, rfl⟩

/-- A start on the main thread runs `dostart` with the mutex held. -/
theorem startTimer_deadlock (periodic : Bool) : startTimer n t periodic s = .deadlock := by
  cases h : s.held with
  | true => rw [startTimer, lock_held h, Exec.bind_deadlock]
  | false =>
    have hstart : ∀ s : State, s.held = true →
        runOnThread (-1) (dostart (underrun n) t) s = .deadlock := fun s hs => dostart_nested t hs
    rw [startTimer, lock_free h, Exec.bind_ret]
    simp only
    rw [hstart _ (by rfl), Exec.bind_deadlock]

theorem stop_main (ht : ¬ (s.timers t).thrno < -1) : stop n t s = dostop (underrun n) t s := by
  rw [stop, if_neg ht]
  rfl

/-- A call from the event loop that is safe comes back with the mutex released, or is suspended by
handlers that run with the mutex held. -/
theorem Call.exec_safe {c : Call} (h : s.held = false) (hc : c.Safe s false) :
    (∃ s', c.exec (n + 2) s = .ret s' ∧ s'.held = false) ∨
      ∃ t s', c.exec (n + 2) s = .raise t s' (fun s => .ret s.unlock) ∧ s'.held = true := by
  have hstop : ∀ t, (s.timers t).thrno < -1 ∨ ¬ s.Tied t →
      ∃ s', Itimers.stop (n + 2) t s = .ret s' ∧ s'.held = false := by
    intro t ht
    by_cases hthr : (s.timers t).thrno < -1
    · exact ⟨s, if_pos hthr, h⟩
    · rw [stop_main hthr]
      exact dostop_not_tied h (ht.resolve_left hthr)
  cases c with
  | setMs t ms => exact Or.inl (setMs_idle ms h hc.2)
  | start t periodic => exact hc.elim
  | stop t => exact Or.inl (hstop t (hc.imp_right And.right))
  | destroy t =>
    left
    rw [Call.exec, Itimers.destroy]
    by_cases hpend : s.Pending t
    · rw [if_pos hpend]
      exact hstop t ((hc.resolve_left (not_not_intro hpend)).imp_right And.right)
    · exact ⟨s, if_neg hpend, h⟩
  | underrun =>
    obtain ⟨s', hheld, hs' | ⟨t, hs'⟩⟩ := underrun_safe (n := n) h hc.2.1 hc.2.2
    · exact Or.inl ⟨s'.unlock, hs', rfl⟩
    · exact Or.inr ⟨t, s', hs', hheld⟩

/-- A call from the event loop that is not safe waits for its own mutex or comes back with it. -/
theorem Call.exec_not_safe {c : Call} (h : s.held = false) (hc : ¬ c.Safe s false) :
    c.exec (n + 2) s = .deadlock ∨ ∃ s', c.exec (n + 2) s = .ret s' ∧ s'.held = true := by
  have hstop : ∀ t, ¬ (s.timers t).thrno < -1 → s.Tied t →
      Itimers.stop (n + 2) t s = .deadlock := by
    intro t hthr ht
    rw [stop_main hthr]
    exact dostop_tied (fun _ => underrun_nested (n + 1)) h ht
  cases c with
  | setMs t ms =>
    have hpend : s.Pending t := by simpa [Call.Safe] using hc
    exact Or.inl (setMs_pending ms h hpend)
  | start t periodic => exact Or.inl (startTimer_deadlock periodic)
  | stop t =>
    simp only [Call.Safe, true_and, not_or, not_not] at hc
    exact Or.inl (hstop t hc.1 hc.2)
  | destroy t =>
    simp only [Call.Safe, true_and, not_or, not_not] at hc
    left
    rw [Call.exec, Itimers.destroy, if_pos hc.1]
    exact hstop t hc.2.1 hc.2.2
  | underrun =>
    by_cases hjobs : s.jobs = []
    · exact Or.inr ⟨_, underrun_empty h hjobs, rfl⟩
    · have hover : s.Overdue := by simpa [Call.Safe, hjobs] using hc
      exact Or.inl (underrun_overdue h hover)

/-- In a handler, with the mutex held, a call that is safe does nothing. -/
theorem Call.exec_handling_safe {c : Call} (hc : c.Safe s true) : c.exec n s = .ret s := by
  cases c with
  | setMs t ms => simp [Call.Safe] at hc
  | start t periodic => exact hc.elim
  | stop t => exact if_pos (by simpa [Call.Safe] using hc)
  | destroy t =>
    rw [Call.exec, Itimers.destroy]
    by_cases hpend : s.Pending t
    · rw [if_pos hpend]
      exact if_pos (by simpa [Call.Safe, hpend] using hc)
    · exact if_neg hpend
  | underrun => simp [Call.Safe] at hc

theorem Call.exec_handling_not_safe {c : Call} (h : s.held = true) (hc : ¬ c.Safe s true) :
    c.exec (n + 1) s = .deadlock := by
  cases c with
  | setMs t ms => rw [Call.exec, Itimers.setMs, lock_held h, Exec.bind_deadlock]
  | start t periodic => exact startTimer_deadlock periodic
  | stop t =>
    have hthr : ¬ (s.timers t).thrno < -1 := by simpa [Call.Safe] using hc
    rw [Call.exec, stop_main hthr, dostop_nested t h]
  | destroy t =>
    obtain ⟨hpend, hthr⟩ : s.Pending t ∧ ¬ (s.timers t).thrno < -1 := by
      simpa [Call.Safe] using hc
    rw [Call.exec, Itimers.destroy, if_pos hpend, stop_main hthr, dostop_nested t h]
  | underrun => exact underrun_nested n h

end Calls

/-! ## Runs -/

/-- Handlers only run for a call of `PSC_Timer_underrun` from the event loop, which holds the mutex
and releases it when they return. -/
inductive Main.Shape : Main → Prop
  | idle {s : State} (h : s.held = false) : Main.Shape ⟨s, [], false⟩
  | handling {s : State} {t : Addr} (h : s.held = true) :
      Main.Shape ⟨s, [(t, fun s => .ret s.unlock)], false⟩

theorem Main.Shape.good {m : Main} (h : m.Shape) : m.Good := by
  cases h with
  | idle h => exact ⟨rfl, fun _ => h⟩
  | handling h => exact ⟨rfl, fun h0 => absurd h0 (List.cons_ne_nil _ _)⟩

variable {n : ℕ} {m m' : Main} {a : Action}

theorem Main.Shape.step (h : m.Shape) (ha : a.Safe m) (hs : (main (n + 2)).step m a = some m') :
    m'.Shape := by
  cases h with
  | idle h =>
    cases a with
    | call c =>
      obtain rfl := Option.some.inj hs
      obtain ⟨s', he, hheld⟩ | ⟨t, s', he, hheld⟩ := Call.exec_safe (n := n) h ha
      · rw [he]
        exact .idle hheld
      · rw [he]
        exact .handling hheld
    | ret => cases hs
    | elapse d =>
      obtain rfl := Option.some.inj hs
      exact .idle h
    | others jobs timers itimer =>
      obtain rfl := Option.some.inj hs
      exact .idle h
  | handling h =>
    cases a with
    | call c =>
      obtain rfl := Option.some.inj hs
      rw [Call.exec_handling_safe ha]
      exact .handling h
    | ret =>
      obtain rfl := Option.some.inj hs
      exact .idle rfl
    | elapse d =>
      obtain rfl := Option.some.inj hs
      exact .handling h
    | others jobs timers itimer => cases hs

theorem shape_of_run (h : (main (n + 2)).Run Action.Safe m) : m.Shape := by
  apply h.invariant
  · rintro ⟨s, stack, stuck⟩ ⟨hheld, hstack, hstuck⟩
    obtain rfl : stack = [] := hstack
    obtain rfl : stuck = false := hstuck
    exact .idle hheld
  · intro m a m' hm ha hs
    exact hm.step ha hs

/-- A call that is not safe breaks the promise. -/
theorem Main.Shape.not_good (h : m.Shape) (ha : ¬ a.Safe m)
    (hs : (main (n + 2)).step m a = some m') : ¬ m'.Good := by
  intro hgood
  cases a with
  | call c =>
    cases h with
    | idle h =>
      obtain rfl := Option.some.inj hs
      obtain he | ⟨s', he, hheld⟩ := Call.exec_not_safe (n := n) h ha
      · rw [he] at hgood
        cases hgood.stuck
      · rw [he] at hgood
        exact Bool.false_ne_true ((hgood.free rfl).symm.trans hheld)
    | handling h =>
      obtain rfl := Option.some.inj hs
      rw [Call.exec_handling_not_safe h ha] at hgood
      cases hgood.stuck
  | ret => exact ha trivial
  | elapse d => exact ha trivial
  | others jobs timers itimer => exact ha trivial

/-- In a run of safe calls the thread never waits for its own mutex and every call from the event
loop comes back with the mutex released, and the first call that is not safe ends this. -/
theorem lock_discipline (h : (main (n + 2)).Run Action.Safe m) :
    m.Good ∧ ∀ a m', (main (n + 2)).step m a = some m' → (m'.Good ↔ a.Safe m) := by
  have hshape := shape_of_run h
  refine ⟨hshape.good, fun a m' hs => ?_⟩
  constructor
  · intro hgood
    by_contra ha
    exact hshape.not_good ha hs hgood
  · intro ha
    exact (hshape.step ha hs).good

/-- Two timers pending, the first of them of the main thread and about to expire. -/
def pending : Main where
  state :=
    { held := false
      jobs := [⟨0, 1000⟩, ⟨1, 5000⟩]
      timers := fun t => ⟨if t = 0 then -1 else 1, 1, false⟩
      itimer := 1000 }
  stack := []
  stuck := false

theorem pending_safe : Action.Safe pending (.call .underrun) := by
  refine ⟨rfl, List.cons_ne_nil _ _, ?_⟩
  rintro (⟨next, hnext, hle⟩ | ⟨hp, -⟩)
  · obtain rfl : ⟨1, 5000⟩ = next := Option.some.inj hnext
    exact absurd hle (by decide)
  · exact Bool.false_ne_true hp

/-- The handlers of the first timer run, with the mutex held. -/
theorem lock_discipline_pending :
    ∃ m, (main 2).step pending (.call .underrun) = some m ∧ m.Good ∧
      ∀ a m', (main 2).step m a = some m' → (m'.Good ↔ a.Safe m) :=
  ⟨_, rfl, lock_discipline (n := 0) (.step (.init ⟨rfl, rfl, rfl⟩) pending_safe rfl)⟩

/-- A timer of the main thread that was just created, and nothing pending. -/
def single : Main := ⟨⟨false, [], fun _ => ⟨-1, 1000, false⟩, 0⟩, [], false⟩

/-- Its first start has the main thread wait for itself. -/
theorem start_waits : (main 2).init single ∧
    ∃ m, (main 2).step single (.call (.start 0 false)) = some m ∧ m.stuck = true ∧ ¬ m.Good :=
  ⟨⟨rfl, rfl, rfl⟩, _, rfl, rfl, fun h => Bool.false_ne_true h.stuck.symm⟩

end PoserCore.Itimers
