import PoserCore.Lib.Census
import PoserCore.Lib.Objects
import PoserCore.Lib.Ring

/-!
# The job queue of the build without atomics

`JobQueue_enqueue` and `JobQueue_dequeue` where `lock` protects the counters and the slots, for any
number of threads.  Every statement between the lock and the unlock is a step of its own; `count` is
the semaphore, on which `JobQueue_dequeue` waits before it takes the lock.  Starting the timer of a job
is no step here, for it does nothing to the queue.

The queue is linearizable: for the threads it is a first-in first-out queue with room for `sz` jobs
(`implements_fifo`).  A job is refused only while `sz` jobs wait.
-/

namespace PoserCore.JobQueue.Locked

open Lib

variable {Tid Job : Type}

inductive Call (Job : Type)
  | enqueue (job : Job)
  | dequeue
  deriving DecidableEq

inductive Result (Job : Type)
  /-- `JobQueue_enqueue` returns 0. -/
  | accepted
  /-- It returns -1. -/
  | refused
  /-- `JobQueue_dequeue` returns what was in the slot: nothing if that was never written. -/
  | job (job : Option Job)
  /-- A signal ended `sem_wait`, and it returns `NULL`. -/
  | interrupted
  deriving DecidableEq

/-- Where a thread is; each constructor is named after the statement that comes next. -/
inductive Pc (Job : Type)
  | idle
  | enqLock (job : Job)
  | enqTest (job : Job)
  | enqRefuse
  | enqTake (job : Job)
  | enqStore (job : Job)
  | enqWrap
  | enqPost
  | enqUnlock
  | deqWait
  | deqLock
  | deqLoad
  | deqWrap (job : Option Job)
  | deqGive (job : Option Job)
  | deqUnlock (job : Option Job)
  deriving DecidableEq

structure State (Tid Job : Type) where
  avail : ℕ
  enqpos : ℕ
  deqpos : ℕ
  /-- The thread that holds the lock -/
  lock : Option Tid
  count : ℕ
  jobs : ℕ → Option Job
  pc : Tid → Pc Job

/-- `JobQueue_create` -/
def create (sz : ℕ) : State Tid Job where
  avail := sz
  enqpos := 0
  deqpos := 0
  lock := none
  count := 0
  jobs := fun _ => none
  pc := fun _ => .idle

inductive Action (Tid Job : Type)
  | call (t : Tid) (c : Call Job)
  | run (t : Tid)
  | interrupt (t : Tid)
  deriving DecidableEq

variable [DecidableEq Tid]

/-- Move thread `t` to `p`. -/
def State.goto (s : State Tid Job) (t : Tid) (p : Pc Job) : State Tid Job :=
  { s with pc := Function.update s.pc t p }

/-- `pthread_mutex_lock` blocks while another thread holds the lock. -/
def State.acquire (s : State Tid Job) (t : Tid) (p : Pc Job) : Option (State Tid Job) :=
  if s.lock = none then some ({ s with lock := some t }.goto t p) else none

/-- The statement after `pos++` -/
def wrap (sz pos : ℕ) : ℕ := if pos = sz then 0 else pos

/-- The next statement of thread `t`. -/
def runThread (sz : ℕ) (s : State Tid Job) (t : Tid) : Option (State Tid Job) :=
  match s.pc t with
  | .idle => none
  | .enqLock job => s.acquire t (.enqTest job)
  | .enqTest job => some (s.goto t (if s.avail = 0 then .enqRefuse else .enqTake job))
  | .enqRefuse => some ({ s with lock := none }.goto t .idle)
  | .enqTake job => some ({ s with avail := s.avail - 1 }.goto t (.enqStore job))
  | .enqStore job =>
      some ({ s with
        jobs := Function.update s.jobs s.enqpos (some job), enqpos := s.enqpos + 1 }.goto t .enqWrap)
  | .enqWrap => some ({ s with enqpos := wrap sz s.enqpos }.goto t .enqPost)
  | .enqPost => some ({ s with count := s.count + 1 }.goto t .enqUnlock)
  | .enqUnlock => some ({ s with lock := none }.goto t .idle)
  | .deqWait => if s.count = 0 then none else some ({ s with count := s.count - 1 }.goto t .deqLock)
  | .deqLock => s.acquire t .deqLoad
  | .deqLoad => some ({ s with deqpos := s.deqpos + 1 }.goto t (.deqWrap (s.jobs s.deqpos)))
  | .deqWrap job => some ({ s with deqpos := wrap sz s.deqpos }.goto t (.deqGive job))
  | .deqGive job => some ({ s with avail := s.avail + 1 }.goto t (.deqUnlock job))
  | .deqUnlock _ => some ({ s with lock := none }.goto t .idle)

def Call.start : Call Job → Pc Job
  | .enqueue job => .enqLock job
  | .dequeue => .deqWait

def step (sz : ℕ) (s : State Tid Job) : Action Tid Job → Option (State Tid Job)
  | .call t c => if s.pc t matches .idle then some (s.goto t c.start) else none
  | .run t => runThread sz s t
  | .interrupt t => if s.pc t matches .deqWait then some (s.goto t .idle) else none

/-- The job queue of size `sz` used by the threads `Tid`. -/
def machine (Tid Job : Type) [DecidableEq Tid] (sz : ℕ) : Machine (State Tid Job) (Action Tid Job) where
  init s := s = create sz
  step := step sz

/-- The calls, and what they return. -/
def seen (s : State Tid Job) : Action Tid Job → List (Event Tid (Call Job) (Result Job))
  | .call t c => [.call t c]
  | .interrupt t => [.ret t .interrupted]
  | .run t =>
      match s.pc t with
      | .enqRefuse => [.ret t .refused]
      | .enqUnlock => [.ret t .accepted]
      | .deqUnlock job => [.ret t (.job job)]
      | _ => []

/-! ## The queue it stands for -/

/-- What a call does to the jobs that wait, the oldest first. -/
inductive Fifo (sz : ℕ) : List Job → Call Job → List Job → Call Job ⊕ Result Job → Prop
  | accept (q : List Job) (job : Job) (h : q.length < sz) :
      Fifo sz q (.enqueue job) (q ++ [job]) (.inr .accepted)
  | refuse (q : List Job) (job : Job) (h : q.length = sz) :
      Fifo sz q (.enqueue job) q (.inr .refused)
  | dequeue (q : List Job) (job : Job) : Fifo sz (job :: q) .dequeue q (.inr (.job (some job)))
  | interrupt (q : List Job) : Fifo sz q .dequeue q (.inr .interrupted)

/-- A first-in first-out queue with room for `sz` jobs. -/
def fifo (Job : Type) (sz : ℕ) : Object (List Job) (Call Job) (Result Job) where
  init q := q = []
  act := Fifo sz

/-! ## The invariant -/

/-- Between lock and unlock -/
def Pc.Holds : Pc Job → Prop
  | .idle | .enqLock _ | .deqWait | .deqLock => False
  | _ => True

/-- The semaphore was taken, and no job yet. -/
def Pc.Due (p : Pc Job) : Prop := p = .deqLock ∨ p = .deqLoad

/-- What the call of a thread still does to the queue, or its result. -/
def Pc.phase : Pc Job → Phase (Call Job) (Result Job)
  | .idle => .idle
  | .enqLock job | .enqTest job | .enqTake job | .enqStore job => .active (.enqueue job)
  | .enqRefuse => .done .refused
  | .enqWrap | .enqPost | .enqUnlock => .done .accepted
  | .deqWait | .deqLock | .deqLoad => .active .dequeue
  | .deqWrap job | .deqGive job | .deqUnlock job => .done (.job job)

/-- Slots that are counted neither as available nor as holding a job -/
def Pc.taken : Pc Job → ℕ
  | .enqStore _ | .deqWrap _ | .deqGive _ => 1
  | _ => 0

/-- Jobs that are stored and not yet counted by the semaphore -/
def Pc.unposted : Pc Job → ℕ
  | .enqWrap | .enqPost => 1
  | _ => 0

/-- The counters and slots while a thread at `p` holds the lock, where `owed` is the semaphore and the
threads that took it, and the jobs `q` wait. -/
structure Ready (sz avail enqpos deqpos owed : ℕ) (jobs : ℕ → Option Job) (p : Pc Job)
    (q : List Job) : Prop where
  room : avail + q.length + p.taken = sz
  take : ∀ job, p = .enqTake job → avail ≠ 0
  owed : owed + p.unposted = q.length
  enq_le : enqpos ≤ sz
  deq_le : deqpos ≤ sz
  enq : p ≠ .enqWrap → wrap sz enqpos = enqpos
  deq : (∀ job, p ≠ .deqWrap job) → wrap sz deqpos = deqpos
  ring : wrap sz enqpos = Ring.ahead sz (wrap sz deqpos) q.length
  slots : ∀ i (h : i < q.length), jobs (Ring.ahead sz (wrap sz deqpos) i) = some q[i]

section Ready

variable {sz avail enqpos deqpos owed : ℕ} {jobs : ℕ → Option Job} {p p' : Pc Job} {q : List Job}
variable {job : Job}

theorem wrap_le {pos : ℕ} (h : pos ≤ sz) : wrap sz pos ≤ sz := by
  unfold wrap
  split_ifs <;> omega

theorem wrap_lt {pos : ℕ} (h : pos ≤ sz) (h0 : 0 < sz) : wrap sz pos < sz := by
  unfold wrap
  split_ifs <;> omega

theorem wrap_wrap (sz pos : ℕ) : wrap sz (wrap sz pos) = wrap sz pos := by
  unfold wrap
  split_ifs <;> simp_all

theorem wrap_succ (sz pos : ℕ) : wrap sz (pos + 1) = Ring.next sz pos := rfl

/-- A step between two places that the invariant does not tell apart. -/
theorem Ready.move (h : Ready sz avail enqpos deqpos owed jobs p q) (ht : p'.taken = p.taken)
    (hu : p'.unposted = p.unposted) (hw : p ≠ .enqWrap) (hw' : ∀ job, p ≠ .deqWrap job)
    (ha : ∀ job, p' = .enqTake job → avail ≠ 0) :
    Ready sz avail enqpos deqpos owed jobs p' q where
  room := ht ▸ h.room
  take := ha
  owed := hu ▸ h.owed
  enq_le := h.enq_le
  deq_le := h.deq_le
  enq _ := h.enq hw
  deq _ := h.deq hw'
  ring := h.ring
  slots := h.slots

theorem Ready.take_slot (h : Ready sz avail enqpos deqpos owed jobs (.enqTake job) q) :
    Ready sz (avail - 1) enqpos deqpos owed jobs (.enqStore job) q where
  room := by
    have hroom := h.room
    have hpos := h.take job rfl
    simp only [Pc.taken] at hroom ⊢
    omega
  take _ he := by cases he
  owed := h.owed
  enq_le := h.enq_le
  deq_le := h.deq_le
  enq _ := h.enq (by simp)
  deq _ := h.deq (by simp)
  ring := h.ring
  slots := h.slots

theorem Ready.store (h : Ready sz avail enqpos deqpos owed jobs (.enqStore job) q) :
    Ready sz avail (enqpos + 1) deqpos owed (Function.update jobs enqpos (some job)) .enqWrap
      (q ++ [job]) := by
  have hroom : q.length < sz := by
    have := h.room
    simp only [Pc.taken] at this
    omega
  have hfront : wrap sz deqpos < sz := wrap_lt h.deq_le (by omega)
  have henq : enqpos = Ring.ahead sz (wrap sz deqpos) q.length := (h.enq (by simp)).symm.trans h.ring
  have hlt : enqpos < sz := henq ▸ Ring.ahead_lt hfront hroom.le
  constructor
  case room =>
    have := h.room
    simp only [Pc.taken, List.length_append, List.length_singleton] at this ⊢
    omega
  case take => exact fun _ he => by cases he
  case owed =>
    have := h.owed
    simp only [Pc.unposted, List.length_append, List.length_singleton] at this ⊢
    omega
  case enq_le => exact hlt
  case deq_le => exact h.deq_le
  case enq => exact fun hne => absurd rfl hne
  case deq => exact fun _ => h.deq (by simp)
  case ring =>
    rw [wrap_succ, henq, List.length_append, List.length_singleton]
    exact Ring.next_ahead hfront hroom
  case slots =>
    intro i hi
    rw [List.length_append, List.length_singleton] at hi
    rcases Nat.lt_succ_iff_lt_or_eq.1 hi with hlt | rfl
    · -- the new slot is none of those that hold a job
      rw [Function.update_of_ne (henq ▸ Ring.ahead_ne hlt hroom), h.slots i hlt,
        List.getElem_append_left hlt]
    · rw [henq, Function.update_self, List.getElem_concat_length rfl]

theorem Ready.wrap_enq (h : Ready sz avail enqpos deqpos owed jobs .enqWrap q) :
    Ready sz avail (wrap sz enqpos) deqpos owed jobs .enqPost q where
  room := h.room
  take _ he := by cases he
  owed := h.owed
  enq_le := wrap_le h.enq_le
  deq_le := h.deq_le
  enq _ := wrap_wrap ..
  deq _ := h.deq (by simp)
  ring := (wrap_wrap ..).trans h.ring
  slots := h.slots

theorem Ready.post (h : Ready sz avail enqpos deqpos owed jobs .enqPost q) :
    Ready sz avail enqpos deqpos (owed + 1) jobs .enqUnlock q where
  room := h.room
  take _ he := by cases he
  owed := h.owed
  enq_le := h.enq_le
  deq_le := h.deq_le
  enq _ := h.enq (by simp)
  deq _ := h.deq (by simp)
  ring := h.ring
  slots := h.slots

/-- A thread that took the semaphore finds the oldest job. -/
theorem Ready.load (h : Ready sz avail enqpos deqpos owed jobs .deqLoad q) (hpos : 0 < owed) :
    ∃ job q', q = job :: q' ∧ jobs deqpos = some job ∧
      Ready sz avail enqpos (deqpos + 1) (owed - 1) jobs (.deqWrap (some job)) q' := by
  have howed := h.owed
  have hroom := h.room
  simp only [Pc.unposted, Pc.taken] at howed hroom
  cases q with
  | nil =>
    rw [List.length_nil] at howed
    omega
  | cons job q' =>
    rw [List.length_cons] at howed hroom
    have hdeq : wrap sz deqpos = deqpos := h.deq (by simp)
    have hfront : deqpos < sz := hdeq ▸ wrap_lt h.deq_le (by omega)
    refine ⟨job, q', rfl, ?_, ?_⟩
    · have h0 := h.slots 0 (Nat.succ_pos _)
      rwa [hdeq, Ring.ahead_zero hfront] at h0
    · constructor
      case room =>
        simp only [Pc.taken]
        omega
      case take => exact fun _ he => by cases he
      case owed =>
        simp only [Pc.unposted]
        omega
      case enq_le => exact h.enq_le
      case deq_le => exact hfront
      case enq => exact fun _ => h.enq (by simp)
      case deq => exact fun hne => absurd rfl (hne (some job))
      case ring =>
        rw [h.ring, hdeq, wrap_succ, List.length_cons]
        exact (Ring.ahead_next (by omega)).symm
      case slots =>
        intro i hi
        have hi' : i + 1 < (job :: q').length := Nat.succ_lt_succ hi
        rw [wrap_succ, Ring.ahead_next (by omega), ← hdeq, h.slots (i + 1) hi',
          List.getElem_cons_succ]

theorem Ready.wrap_deq {o : Option Job}
    (h : Ready sz avail enqpos deqpos owed jobs (.deqWrap o) q) :
    Ready sz avail enqpos (wrap sz deqpos) owed jobs (.deqGive o) q where
  room := h.room
  take _ he := by cases he
  owed := h.owed
  enq_le := h.enq_le
  deq_le := wrap_le h.deq_le
  enq _ := h.enq (by simp)
  deq _ := wrap_wrap ..
  ring := by rw [wrap_wrap]; exact h.ring
  slots := by rw [wrap_wrap]; exact h.slots

theorem Ready.give {o : Option Job} (h : Ready sz avail enqpos deqpos owed jobs (.deqGive o) q) :
    Ready sz (avail + 1) enqpos deqpos owed jobs (.deqUnlock o) q where
  room := by
    have := h.room
    simp only [Pc.taken] at this ⊢
    omega
  take _ he := by cases he
  owed := h.owed
  enq_le := h.enq_le
  deq_le := h.deq_le
  enq _ := h.enq (by simp)
  deq _ := h.deq (by simp)
  ring := h.ring
  slots := h.slots

end Ready

/-! ## The simulation -/

/-- What the thread with the lock is about to do. -/
def State.held (s : State Tid Job) : Pc Job :=
  match s.lock with
  | none => .idle
  | some t => s.pc t

/-- The jobs `q` wait, and every thread is where its call is in the queue of jobs. -/
structure Rel (sz : ℕ) (s : State Tid Job) (q : List Job) (ph : Tid → Phase (Call Job) (Result Job)) :
    Prop where
  phase : ph = Pc.phase ∘ s.pc
  lock : ∀ t, (s.pc t).Holds ↔ s.lock = some t
  ready : ∃ n, Census Pc.Due s.pc n ∧
    Ready sz s.avail s.enqpos s.deqpos (s.count + n) s.jobs s.held q

section Rel

variable {s z : State Tid Job} {q q' : List Job} {ph : Tid → Phase (Call Job) (Result Job)}
variable {t : Tid} {p : Pc Job} {sz : ℕ}

omit [DecidableEq Tid] in
theorem Rel.phase_eq (h : Rel sz s q ph) (t : Tid) : ph t = (s.pc t).phase := congrFun h.phase t

theorem Rel.phase_update (h : Rel sz s q ph) (t : Tid) (p : Pc Job) :
    Function.update ph t p.phase = Pc.phase ∘ Function.update s.pc t p := by
  rw [Function.comp_update, h.phase]

omit [DecidableEq Tid] in
theorem held_of_holds (h : Rel sz s q ph) (ht : (s.pc t).Holds) : s.held = s.pc t := by
  rw [State.held, (h.lock t).1 ht]

omit [DecidableEq Tid] in
theorem held_of_lock_none (h : s.lock = none) : s.held = .idle := by
  rw [State.held, h]

/-- A thread that does not hold the lock does not change what the holder is about to do. -/
theorem held_goto (h : Rel sz s q ph) (ht : ¬ (s.pc t).Holds) (hpc : z.pc = s.pc)
    (hlock : z.lock = s.lock) : (z.goto t p).held = s.held := by
  unfold State.held State.goto
  rw [hlock, hpc]
  cases hl : s.lock with
  | none => rfl
  | some u =>
    have hu : u ≠ t := by
      rintro rfl
      exact ht ((h.lock u).2 hl)
    exact Function.update_of_ne hu ..

/-- A step of the thread with the lock -/
theorem Rel.inside (h : Rel sz s q ph) (ht : (s.pc t).Holds) (hp : p.Holds) (hpc : z.pc = s.pc)
    (hlock : z.lock = s.lock)
    (hr : ∀ n, Census Pc.Due s.pc n →
      Ready sz s.avail s.enqpos s.deqpos (s.count + n) s.jobs (s.pc t) q →
      ∃ m, Census Pc.Due (Function.update s.pc t p) m ∧
        Ready sz z.avail z.enqpos z.deqpos (z.count + m) z.jobs p q') :
    Rel sz (z.goto t p) q' (Function.update ph t p.phase) := by
  have hl := (h.lock t).1 ht
  obtain ⟨n, hn, hready⟩ := h.ready
  rw [held_of_holds h ht] at hready
  obtain ⟨m, hm, hready'⟩ := hr n hn hready
  have hheld : (z.goto t p).held = p := by
    simp [State.held, State.goto, hlock, hl]
  refine ⟨by rw [h.phase_update, State.goto, hpc], fun u => ?_, m, ?_, ?_⟩
  · show (Function.update z.pc t p u).Holds ↔ z.lock = some u
    rw [hpc, hlock]
    by_cases hu : u = t
    · rw [hu, Function.update_self]
      exact iff_of_true hp hl
    · rw [Function.update_of_ne hu]
      exact h.lock u
  · rw [State.goto, hpc]
    exact hm
  · rw [hheld]
    exact hready'

/-- A step of a thread without the lock -/
theorem Rel.outside (h : Rel sz s q ph) (ht : ¬ (s.pc t).Holds) (hp : ¬ p.Holds) {count : ℕ}
    (hr : ∀ n, Census Pc.Due s.pc n →
      ∃ m, Census Pc.Due (Function.update s.pc t p) m ∧ count + m = s.count + n) :
    Rel sz ({ s with count := count }.goto t p) q (Function.update ph t p.phase) := by
  obtain ⟨n, hn, hready⟩ := h.ready
  obtain ⟨m, hm, hcount⟩ := hr n hn
  refine ⟨h.phase_update t p, fun u => ?_, m, hm, ?_⟩
  · show (Function.update s.pc t p u).Holds ↔ s.lock = some u
    by_cases hu : u = t
    · rw [hu, Function.update_self, ← h.lock t]
      exact iff_of_false hp ht
    · rw [Function.update_of_ne hu]
      exact h.lock u
  · rw [held_goto h ht (z := { s with count := count }) rfl rfl]
    show Ready sz s.avail s.enqpos s.deqpos (count + m) s.jobs s.held q
    rw [hcount]
    exact hready

/-- A thread takes the lock. -/
theorem Rel.acquire (h : Rel sz s q ph) (hl : s.lock = none) (hp : p.Holds) (ht : p.taken = 0)
    (hu : p.unposted = 0) (htake : ∀ job, p ≠ .enqTake job) (hdue : p.Due ↔ (s.pc t).Due) :
    Rel sz ({ s with lock := some t }.goto t p) q (Function.update ph t p.phase) := by
  obtain ⟨n, hn, hready⟩ := h.ready
  rw [held_of_lock_none hl] at hready
  refine ⟨h.phase_update t p, fun u => ?_, n, hn.keep hdue, ?_⟩
  · show (Function.update s.pc t p u).Holds ↔ some t = some u
    by_cases hut : u = t
    · rw [hut, Function.update_self]
      exact iff_of_true hp rfl
    · rw [Function.update_of_ne hut, h.lock, hl]
      simp [Ne.symm hut]
  · have hheld : ({ s with lock := some t }.goto t p).held = p := by
      simp [State.held, State.goto]
    rw [hheld]
    exact hready.move ht hu (by simp) (by simp) fun job he => absurd he (htake job)

/-- The thread with the lock gives it back. -/
theorem Rel.release (h : Rel sz s q ph) (ht : (s.pc t).Holds) (htaken : (s.pc t).taken = 0)
    (hunposted : (s.pc t).unposted = 0) (hw : s.pc t ≠ .enqWrap) (hw' : ∀ job, s.pc t ≠ .deqWrap job)
    (hdue : ¬ (s.pc t).Due) :
    Rel sz ({ s with lock := none }.goto t .idle) q (Function.update ph t .idle) := by
  have hl := (h.lock t).1 ht
  obtain ⟨n, hn, hready⟩ := h.ready
  rw [held_of_holds h ht] at hready
  refine ⟨h.phase_update t .idle, fun u => ?_, n, ?_, ?_⟩
  · show (Function.update s.pc t .idle u).Holds ↔ none = some u
    refine iff_of_false ?_ (by simp)
    by_cases hu : u = t
    · rw [hu, Function.update_self]
      exact id
    · rw [Function.update_of_ne hu, h.lock, hl]
      simp [Ne.symm hu]
  · exact hn.keep (iff_of_false (by simp [Pc.Due]) hdue)
  · exact hready.move htaken.symm hunposted.symm hw hw' fun job he => by cases he

/-! ## Steps -/

/-- A step that the queue of jobs does not see. -/
theorem stutter (h : Rel sz s q ph) (hp : p.phase = (s.pc t).phase) :
    (fifo Job sz).Path q ph [] q (Function.update ph t p.phase) := by
  rw [hp, ← h.phase_eq, Function.update_eq_self]
  exact .refl

/-- The step at which the call of a thread happens -/
theorem happen (h : Rel sz s q ph) {c : Call Job} {r : Result Job} (hc : (s.pc t).phase = .active c)
    (ha : Fifo sz q c q' (.inr r)) :
    (fifo Job sz).Path q ph [] q' (Function.update ph t (.done r)) :=
  .single (.finish ((h.phase_eq t).trans hc) ha)

/-- A thread returns. -/
theorem return_path (h : Rel sz s q ph) {r : Result Job} (hr : (s.pc t).phase = .done r) :
    (fifo Job sz).Path q ph [.ret t r] q (Function.update ph t .idle) :=
  .single (.ret ((h.phase_eq t).trans hr))

theorem census_keep {n : ℕ} {pc : Tid → Pc Job} (h : Census Pc.Due pc n) (ht : ¬ (pc t).Due)
    (hp : ¬ p.Due) : Census Pc.Due (Function.update pc t p) n := h.keep (iff_of_false hp ht)

theorem runThread_rel {s' : State Tid Job} (h : Rel sz s q ph) (hs : runThread sz s t = some s') :
    ∃ q' ph', (fifo Job sz).Path q ph (seen s (.run t)) q' ph' ∧ Rel sz s' q' ph' := by
  have hacq : ∀ p : Pc Job, s.acquire t p = some s' →
      s.lock = none ∧ s' = { s with lock := some t }.goto t p := by
    intro p ha
    rw [State.acquire] at ha
    split_ifs at ha with hl
    exact ⟨hl, (Option.some.inj ha).symm⟩
  unfold runThread at hs
  unfold seen
  cases hpc : s.pc t with simp only [hpc] at hs ⊢
  | idle => cases hs
  | enqLock job =>
    obtain ⟨hl, rfl⟩ := hacq _ hs
    exact ⟨q, _, stutter h (by rw [hpc]; rfl),
      h.acquire hl trivial rfl rfl (by simp) (by simp [hpc, Pc.Due])⟩
  | enqTest job =>
    obtain rfl := Option.some.inj hs
    split_ifs with hz
    · -- without an available slot, `sz` jobs wait
      obtain ⟨n, -, hready⟩ := h.ready
      have hroom := hready.room
      rw [held_of_holds h (t := t) (by rw [hpc]; trivial), hpc, hz] at hroom
      simp only [Pc.taken] at hroom
      exact ⟨q, _, happen h (c := .enqueue job) (by rw [hpc]; rfl) (.refuse q job (by omega)),
        h.inside (z := s) (by rw [hpc]; trivial) trivial rfl rfl fun n hn hr =>
          ⟨n, census_keep hn (by simp [hpc, Pc.Due]) (by simp [Pc.Due]),
            hr.move (by rw [hpc]; rfl) (by rw [hpc]; rfl) (by simp [hpc]) (by simp [hpc])
              fun job he => by cases he⟩⟩
    · exact ⟨q, _, stutter h (by rw [hpc]; rfl),
        h.inside (z := s) (by rw [hpc]; trivial) trivial rfl rfl fun n hn hr =>
          ⟨n, census_keep hn (by simp [hpc, Pc.Due]) (by simp [Pc.Due]),
            hr.move (by rw [hpc]; rfl) (by rw [hpc]; rfl) (by simp [hpc]) (by simp [hpc])
              fun _ _ => hz⟩⟩
  | enqRefuse =>
    obtain rfl := Option.some.inj hs
    exact ⟨q, _, return_path h (by rw [hpc]; rfl),
      h.release (by rw [hpc]; trivial) (by rw [hpc]; rfl) (by rw [hpc]; rfl) (by simp [hpc])
        (by simp [hpc]) (by simp [hpc, Pc.Due])⟩
  | enqTake job =>
    obtain rfl := Option.some.inj hs
    refine ⟨q, _, stutter h (p := .enqStore job) (by rw [hpc]; rfl), h.inside (z := { s with avail := s.avail - 1 })
      (by rw [hpc]; trivial) trivial rfl rfl fun n hn hr => ?_⟩
    rw [hpc] at hr
    exact ⟨n, census_keep hn (by simp [hpc, Pc.Due]) (by simp [Pc.Due]), hr.take_slot⟩
  | enqStore job =>
    obtain rfl := Option.some.inj hs
    obtain ⟨n, -, hready⟩ := h.ready
    have hroom := hready.room
    rw [held_of_holds h (t := t) (by rw [hpc]; trivial), hpc] at hroom
    simp only [Pc.taken] at hroom
    refine ⟨q ++ [job], _, happen h (c := .enqueue job) (by rw [hpc]; rfl) (.accept q job (by omega)),
      h.inside (p := .enqWrap) (z := { s with
        jobs := Function.update s.jobs s.enqpos (some job), enqpos := s.enqpos + 1 })
        (by rw [hpc]; trivial) trivial rfl rfl fun n hn hr => ?_⟩
    rw [hpc] at hr
    exact ⟨n, census_keep hn (by simp [hpc, Pc.Due]) (by simp [Pc.Due]), hr.store⟩
  | enqWrap =>
    obtain rfl := Option.some.inj hs
    refine ⟨q, _, stutter h (p := .enqPost) (by rw [hpc]; rfl), h.inside (z := { s with enqpos := wrap sz s.enqpos })
      (by rw [hpc]; trivial) trivial rfl rfl fun n hn hr => ?_⟩
    rw [hpc] at hr
    exact ⟨n, census_keep hn (by simp [hpc, Pc.Due]) (by simp [Pc.Due]), hr.wrap_enq⟩
  | enqPost =>
    obtain rfl := Option.some.inj hs
    refine ⟨q, _, stutter h (p := .enqUnlock) (by rw [hpc]; rfl), h.inside (z := { s with count := s.count + 1 })
      (by rw [hpc]; trivial) trivial rfl rfl fun n hn hr => ?_⟩
    rw [hpc] at hr
    refine ⟨n, census_keep hn (by simp [hpc, Pc.Due]) (by simp [Pc.Due]), ?_⟩
    rw [Nat.add_right_comm]
    exact hr.post
  | enqUnlock =>
    obtain rfl := Option.some.inj hs
    exact ⟨q, _, return_path h (by rw [hpc]; rfl),
      h.release (by rw [hpc]; trivial) (by rw [hpc]; rfl) (by rw [hpc]; rfl) (by simp [hpc])
        (by simp [hpc]) (by simp [hpc, Pc.Due])⟩
  | deqWait =>
    split_ifs at hs with hz
    obtain rfl := Option.some.inj hs
    exact ⟨q, _, stutter h (p := .deqLock) (by rw [hpc]; rfl),
      h.outside (by rw [hpc]; exact id) id fun n hn =>
        ⟨n + 1, hn.enter (by simp [hpc, Pc.Due]) (by simp [Pc.Due]), by omega⟩⟩
  | deqLock =>
    obtain ⟨hl, rfl⟩ := hacq _ hs
    exact ⟨q, _, stutter h (by rw [hpc]; rfl),
      h.acquire hl trivial rfl rfl (by simp) (by simp [hpc, Pc.Due])⟩
  | deqLoad =>
    obtain rfl := Option.some.inj hs
    obtain ⟨n, hn, hready⟩ := h.ready
    rw [held_of_holds h (t := t) (by rw [hpc]; trivial), hpc] at hready
    have hpos : 0 < n := hn.pos (i := t) (by simp [hpc, Pc.Due])
    obtain ⟨job, q', rfl, hjob, hready'⟩ := hready.load (by omega)
    rw [hjob]
    refine ⟨q', _, happen h (c := .dequeue) (by rw [hpc]; rfl) (.dequeue q' job),
      h.inside (p := .deqWrap (some job)) (z := { s with deqpos := s.deqpos + 1 })
        (by rw [hpc]; trivial) trivial rfl rfl fun m hm hr => ?_⟩
    rw [hpc] at hr
    have hm0 : 0 < m := hm.pos (i := t) (by simp [hpc, Pc.Due])
    obtain ⟨job', q'', hq, -, hr'⟩ := hr.load (by omega)
    obtain ⟨rfl, rfl⟩ := List.cons_eq_cons.1 hq
    refine ⟨m - 1, hm.leave (by simp [hpc, Pc.Due]) (by simp [Pc.Due]), ?_⟩
    rw [← Nat.add_sub_assoc hm0]
    exact hr'
  | deqWrap job =>
    obtain rfl := Option.some.inj hs
    refine ⟨q, _, stutter h (p := .deqGive job) (by rw [hpc]; rfl), h.inside (z := { s with deqpos := wrap sz s.deqpos })
      (by rw [hpc]; trivial) trivial rfl rfl fun n hn hr => ?_⟩
    rw [hpc] at hr
    exact ⟨n, census_keep hn (by simp [hpc, Pc.Due]) (by simp [Pc.Due]), hr.wrap_deq⟩
  | deqGive job =>
    obtain rfl := Option.some.inj hs
    refine ⟨q, _, stutter h (p := .deqUnlock job) (by rw [hpc]; rfl), h.inside (z := { s with avail := s.avail + 1 })
      (by rw [hpc]; trivial) trivial rfl rfl fun n hn hr => ?_⟩
    rw [hpc] at hr
    exact ⟨n, census_keep hn (by simp [hpc, Pc.Due]) (by simp [Pc.Due]), hr.give⟩
  | deqUnlock job =>
    obtain rfl := Option.some.inj hs
    exact ⟨q, _, return_path h (by rw [hpc]; rfl),
      h.release (by rw [hpc]; trivial) (by rw [hpc]; rfl) (by rw [hpc]; rfl) (by simp [hpc])
        (by simp [hpc]) (by simp [hpc, Pc.Due])⟩

theorem step_rel {s' : State Tid Job} {a : Action Tid Job} (h : Rel sz s q ph)
    (hs : step sz s a = some s') :
    ∃ q' ph', (fifo Job sz).Path q ph (seen s a) q' ph' ∧ Rel sz s' q' ph' := by
  cases a with
  | run t => exact runThread_rel h hs
  | call t c =>
    rw [step] at hs
    split at hs
    next hpc =>
      obtain rfl := Option.some.inj hs
      refine ⟨q, Function.update ph t c.start.phase, ?_,
        h.outside (by rw [hpc]; exact id) (by cases c <;> exact id) fun n hn =>
          ⟨n, census_keep hn (by simp [hpc, Pc.Due]) (by cases c <;> simp [Call.start, Pc.Due]), rfl⟩⟩
      have hstart : c.start.phase = .active c := by cases c <;> rfl
      rw [hstart]
      exact .single (.call (by rw [h.phase_eq, hpc]; rfl))
    next => cases hs
  | interrupt t =>
    rw [step] at hs
    split at hs
    next hpc =>
      obtain rfl := Option.some.inj hs
      have hwait : ph t = .active .dequeue := by
        rw [h.phase_eq, hpc]
        rfl
      refine ⟨q, Function.update ph t .idle, ?_,
        h.outside (p := .idle) (by rw [hpc]; exact id) id fun n hn =>
          ⟨n, census_keep hn (by simp [hpc, Pc.Due]) (by simp [Pc.Due]), rfl⟩⟩
      have hpath := Object.Path.tail (.single (.finish hwait (Fifo.interrupt q)))
        (.ret (O := fifo Job sz) (i := t) (r := .interrupted) (Function.update_self ..))
      rwa [Function.update_idem] at hpath
    next => cases hs

end Rel

/-- A new queue -/
theorem rel_create (Tid Job : Type) [DecidableEq Tid] (sz : ℕ) :
    Rel sz (create sz : State Tid Job) [] fun _ => .idle where
  phase := rfl
  lock t := iff_of_false id (by simp [create])
  ready := ⟨0, .of_forall_not fun t => by simp [create, Pc.Due], {
    room := rfl
    take := fun job he => by cases he
    owed := rfl
    enq_le := Nat.zero_le _
    deq_le := Nat.zero_le _
    enq := fun _ => ite_self _
    deq := fun _ => ite_self _
    ring := by
      rcases Nat.eq_zero_or_pos sz with rfl | hsz
      · rfl
      · exact (Ring.ahead_zero (wrap_lt (Nat.zero_le _) hsz)).symm
    slots := fun i hi => absurd hi (Nat.not_lt_zero i) }⟩

/-- For the threads that use it, the job queue is a first-in first-out queue with room for `sz` jobs:
each job that `JobQueue_enqueue` accepts is returned by `JobQueue_dequeue` at most once and in its turn,
`JobQueue_dequeue` never returns what was not stored, and a job is refused only while `sz` jobs
wait. -/
theorem implements_fifo (Tid Job : Type) [DecidableEq Tid] (sz : ℕ) :
    Implements (machine Tid Job sz) seen (fifo Job sz) := by
  refine .of_simulation (Rel sz) ?_ fun s a s' q ph h hs => step_rel h hs
  rintro s rfl
  exact ⟨[], rfl, rel_create Tid Job sz⟩

end PoserCore.JobQueue.Locked
