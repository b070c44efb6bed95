import PoserCore.ThreadPool.Track

/-!
# No job is lost

An accepted job is at one place at a time (`At`), and one whose task is completed comes back to it
(`Resumes`).  This fails where a task is completed while the queue is full, where a cancelled job comes
out of the queue in the middle of an await, and where a signal ends the wait of a blocked worker
(`Clean`).
-/

namespace PoserCore.ThreadPool

open Lib (Machine)

variable {J W : Type} [DecidableEq J] [DecidableEq W]
variable {sz : ℕ} {async : J → Bool} {s s' : State J W} {i j : J}

/-! ## The claim -/

inductive Place (W : Type)
  | queued
  | running (w : W)
  | waiting
  | posted

/-- The job waits for a task that is not yet completed. -/
def Waiting (s : State J W) (j : J) : Prop :=
  ∃ task, (s.job j).task = some task ∧ task.called = true ∧ task.completed = false

def InPlace (s : State J W) (j : J) : Place W → Prop
  | .queued => j ∈ s.queue
  | .running w => s.worker w = .dequeued j ∨ s.worker w = .running j
  | .waiting => Waiting s j
  | .posted => j ∈ s.posted

/-- Every job that was accepted and is not finished is in one place, and once, and no job is finished
twice. -/
structure Conserved (s : State J W) : Prop where
  place : ∀ j, s.accepted j = true → j ∉ s.finished → ∃! p : Place W, InPlace s j p
  once : ∀ j, s.queue.count j ≤ 1 ∧ s.posted.count j ≤ 1
  finished : ∀ j, s.finished.count j ≤ 1

/-- No task is completed for an `async` job while the queue is full, no job that was cancelled while it
awaited a task comes out of the queue, and no job is cancelled while its worker is blocked. -/
def Clean (sz : ℕ) (async : J → Bool) (s : State J W) : Action J W → Prop
  | .complete j => async j = true → s.queue.length < sz
  | .run w => ∀ j, s.worker w = .dequeued j → (s.job j).task ≠ none → (s.job j).hasCompleted = true
  | .cancel j => ∀ w, s.worker w ≠ .blocked j
  | _ => True

/-! ## Completed tasks -/

/-- A job whose task is completed is on its way to go on with it. -/
def Resumes (s : State J W) : Prop :=
  ∀ j, (s.job j).task.any AsyncTask.completed = true → j ∈ s.queue ∨ ∃ w, s.worker w = .dequeued j

omit [DecidableEq W] in
theorem Resumes.setJob (h : Resumes s) {k : ThreadJob W}
    (hk : k.task.any AsyncTask.completed = true → (s.job i).task.any AsyncTask.completed = true) :
    Resumes (s.setJob i k) := by
  intro j hj
  rw [task_setJob] at hj
  split_ifs at hj with hji
  · subst hji
    exact h j (hk hj)
  · exact h j hj

/-- A worker starts its job, or is done with it for now. -/
theorem Resumes.setWorker (h : Resumes s) {w : W} {t : ThreadJob W} {k : Worker J}
    (hw : s.worker w = .dequeued i ∨ s.worker w = .running i)
    (ht : t.task.any AsyncTask.completed = false) : Resumes ((s.setJob i t).setWorker w k) := by
  intro j hj
  have htask : (if j = i then t.task else (s.job j).task).any AsyncTask.completed = true :=
    task_setJob s i j t ▸ hj
  split_ifs at htask with hji
  · rw [ht] at htask
    cases htask
  · refine (h j htask).imp id fun ⟨u, hu⟩ => ⟨u, ?_⟩
    have huw : u ≠ w := by
      rintro rfl
      rcases hw with hw | hw
      · exact hji (Worker.dequeued.inj (hu.symm.trans hw))
      · cases hu.symm.trans hw
    exact (Function.update_of_ne huw _ _).trans hu

omit [DecidableEq W] in
theorem resumes_enqueue (h : Resumes s) (thrno : ℕ) : Resumes (enqueue sz s i thrno) := by
  have hjob : Resumes (s.setJob i { s.job i with thrno := thrno }) := h.setJob id
  rw [enqueue]
  split_ifs
  · exact hjob
  · exact fun j hj => (hjob j hj).imp_left (List.mem_append_left _)

omit [DecidableEq J] in
theorem resumes_dequeue (h : Resumes s) {w : W} {queue : List J} (hw : s.worker w = .idle)
    (hq : s.queue = i :: queue) : Resumes ({ s with queue := queue }.setWorker w (.dequeued i)) := by
  intro j hj
  rcases h j hj with hmem | ⟨u, hu⟩
  · rw [hq] at hmem
    rcases List.mem_cons.1 hmem with rfl | hmem
    · exact .inr ⟨w, Function.update_self ..⟩
    · exact .inl hmem
  · refine .inr ⟨u, (Function.update_of_ne ?_ _ _).trans hu⟩
    rintro rfl
    cases hu.symm.trans hw

theorem resumes_run (hi : Tracked async s) (h : Resumes s) {w : W} (hw : s.worker w = .dequeued i)
    (hclean : (s.job i).task ≠ none → (s.job i).hasCompleted = true) :
    Resumes (run async s w i) := by
  by_cases hcompleted : (s.job i).hasCompleted = true
  · rw [run, if_pos hcompleted]
    refine h.setWorker (.inl hw) ?_
    obtain ⟨l, hl⟩ := hi i
    obtain rfl := (hl.worker w).1 (.inl hw)
    rcases hl.free (by simp) (by simp) with hasync | hnone
    · simp [hasync]
    · simp [hnone]
  · have hnone : (s.job i).task = none := by
      by_contra hne
      exact hcompleted (hclean hne)
    have hsame : s.setJob i (s.job i) = s := by
      rw [State.setJob, Function.update_eq_self]
    have hidle := h.setWorker (.inl hw) (t := s.job i) (k := .idle) (by rw [hnone]; rfl)
    rw [hsame] at hidle
    rwa [run, if_neg hcompleted]

theorem resumes_finish (hi : Tracked async s) (h : Resumes s) {w : W}
    (hw : s.worker w = .running i) : Resumes (finish s w i) := by
  obtain ⟨l, hl⟩ := hi i
  have hnone : (s.job i).task = none := hl.task (.inr (.inr ⟨w, hw⟩))
  exact h.setWorker (.inr hw) (by rw [hnone]; rfl)

theorem resumes_await (h : Resumes s) {w : W} (hw : s.worker w = .running i) :
    Resumes (await async s w i) := by
  rw [await]
  split_ifs
  · rw [finish, setJob_setJob]
    refine h.setWorker (.inr hw) ?_
    simp [State.setJob]
  · exact h.setWorker (.inr hw) rfl

omit [DecidableEq W] in
theorem resumes_threadJobDone (h : Resumes s) :
    Resumes (threadJobDone { s with posted := s.posted.erase i } i) := by
  rw [threadJobDone]
  split
  next task htask =>
    have htask : (s.job i).task = some task := htask
    exact h.setJob fun hcompleted => by rwa [htask]
  next => exact h

omit [DecidableEq W] in
theorem resumes_complete (h : Resumes s) (hroom : async i = true → s.queue.length < sz) :
    Resumes (complete sz async s i) := by
  rw [complete]
  by_cases hasync : async i = true
  · rw [if_pos hasync]
    dsimp only
    split_ifs with hfull
    · exact absurd (hroom hasync) (Nat.not_lt.2 hfull)
    intro j hj
    have hqueue : j ∈ s.queue ++ [i] ∨ ∃ w, s.worker w = .dequeued j := by
      by_cases hji : j = i
      · exact .inl (List.mem_append_right _ (List.mem_singleton.2 hji))
      · refine (h j ?_).imp_left (List.mem_append_left _)
        rwa [← (task_setJob s i j _).trans (if_neg hji)]
    exact hqueue
  · rw [if_neg hasync]
    intro j hj
    refine (h.setJob (k := { s.job i with task := none }) (fun hno => ?_) j hj).imp_right ?_
    · cases hno
    · rintro ⟨w, hw⟩
      have hw : s.worker w = .dequeued j := hw
      refine ⟨w, ?_⟩
      show (if s.worker w = .blocked i then Worker.running i else s.worker w) = _
      rw [hw, if_neg (by simp)]

/-! ## Runs -/

omit [DecidableEq J] [DecidableEq W] in
theorem Clean.unbroken {a : Action J W} (h : Clean sz async s a) : Unbroken s a := by
  cases a with
  | cancel j => exact h
  | _ => trivial

theorem resumes_step {a : Action J W} (hi : Tracked async s) (h : Resumes s)
    (hc : Clean sz async s a) (hs : step sz async s a = some s') : Resumes s' := by
  cases a with
  | enqueue i thrno =>
    rw [step] at hs
    split_ifs at hs
    obtain rfl := Option.some.inj hs
    exact resumes_enqueue h thrno
  | dequeue w =>
    rw [step] at hs
    split at hs
    next i queue hw hq =>
      obtain rfl := Option.some.inj hs
      exact resumes_dequeue h hw hq
    next => cases hs
  | run w =>
    rw [step] at hs
    split at hs
    next i hw =>
      obtain rfl := Option.some.inj hs
      exact resumes_run hi h hw (hc i hw)
    next => cases hs
  | finish w =>
    rw [step] at hs
    split at hs
    next i hw =>
      obtain rfl := Option.some.inj hs
      exact resumes_finish hi h hw
    next => cases hs
  | await w =>
    rw [step] at hs
    split at hs
    next i hw =>
      obtain rfl := Option.some.inj hs
      exact resumes_await h hw
    next => cases hs
  | threadJobDone thrno =>
    rw [step] at hs
    split at hs
    next i _ =>
      obtain rfl := Option.some.inj hs
      exact resumes_threadJobDone h
    next => cases hs
  | complete i =>
    rw [step] at hs
    split_ifs at hs
    obtain rfl := Option.some.inj hs
    exact resumes_complete h hc
  | cancel i =>
    rw [step] at hs
    split_ifs at hs
    obtain rfl := Option.some.inj hs
    rw [cancel_eq hc]
    exact h.setJob id

theorem inv_of_run (h : (machine J W sz async).Run (Clean sz async) s) :
    Tracked async s ∧ Resumes s := by
  refine h.invariant (I := fun s => Tracked async s ∧ Resumes s) ?_ fun s a s' hi hc hs =>
    ⟨tracked_step hi.1 hc.unbroken hs, resumes_step hi.1 hi.2 hc hs⟩
  rintro s rfl
  exact ⟨tracked_create, fun _ h => by cases h⟩

/-! ## Conservation -/

def Place.loc : Place W → Loc W
  | .queued => .queued
  | .running w => .on w
  | .waiting => .waiting
  | .posted => .posted

omit [DecidableEq W] in
theorem Place.loc_injective : Function.Injective (Place.loc (W := W)) := by
  intro p q h
  cases p <;> cases q <;> first | rfl | cases h <;> rfl

/-- The task of a job is completed only where the job is about to go on. -/
theorem At.resumes {l : Loc W} (hl : At async s j l) (h : Resumes s)
    (hcompleted : (s.job j).task.any AsyncTask.completed = true) : l = .queued ∨ ∃ w, l = .on w :=
  (h j hcompleted).imp (loc_eq hl.queue) fun ⟨w, hw⟩ => ⟨w, (hl.worker w).1 (.inl hw)⟩

theorem At.waiting_iff {l : Loc W} (hl : At async s j l) (h : Resumes s) :
    Waiting s j ↔ l = .waiting := by
  constructor
  · rintro ⟨task, htask, hcalled, -⟩
    exact hl.called.1 (by rw [htask]; exact hcalled)
  · rintro rfl
    obtain ⟨task, htask, hcalled⟩ := (Option.any_eq_true _ _).1 (hl.called.2 rfl)
    refine ⟨task, htask, hcalled, Bool.eq_false_iff.2 fun hcompleted => ?_⟩
    rcases hl.resumes h (by rw [htask]; exact hcompleted) with hloc | ⟨w, hloc⟩
    · cases hloc
    · cases hloc

theorem At.conserved {l : Loc W} (hl : At async s j l) (h : Resumes s) (ha : s.accepted j = true)
    (hf : j ∉ s.finished) : ∃! p : Place W, InPlace s j p := by
  have hqueue : j ∈ s.queue ↔ l = .queued := by
    rw [← List.count_pos_iff, hl.queue]
    split_ifs with h <;> simp [h]
  have hposted : j ∈ s.posted ↔ l = .posted := by
    rw [← List.count_pos_iff, hl.posted]
    split_ifs with h <;> simp [h]
  have hplace : ∀ p : Place W, InPlace s j p ↔ l = p.loc := by
    intro p
    cases p with
    | queued => exact hqueue
    | running w => exact hl.worker w
    | waiting => exact hl.waiting_iff h
    | posted => exact hposted
  have hunique : ∀ p : Place W, l = p.loc → ∃! p : Place W, InPlace s j p := by
    intro p hp
    refine ⟨p, (hplace p).2 hp, fun q hq => ?_⟩
    apply Place.loc_injective
    rw [← (hplace q).1 hq, hp]
  cases hloc : l with
  | queued => exact hunique .queued hloc
  | on w => exact hunique (.running w) hloc
  | posted => exact hunique .posted hloc
  | waiting => exact hunique .waiting hloc
  | new => exact absurd hloc (hl.accepted.1 ha)
  | lost =>
    -- its task is completed, but nothing brings the job back to it
    rcases hl.resumes h (hl.lost hloc) with hback | ⟨w, hback⟩
    · cases hloc.symm.trans hback
    · cases hloc.symm.trans hback
  | done =>
    have hone := hl.finished
    rw [if_pos hloc] at hone
    apply absurd _ hf
    rw [← List.count_pos_iff, hone]
    exact Nat.one_pos

theorem Tracked.conserved (hi : Tracked async s) (h : Resumes s) : Conserved s where
  place j ha hf := by
    obtain ⟨l, hl⟩ := hi j
    exact hl.conserved h ha hf
  once j := by
    obtain ⟨l, hl⟩ := hi j
    rw [hl.queue, hl.posted]
    split_ifs <;> decide
  finished j := by
    obtain ⟨l, hl⟩ := hi j
    rw [hl.finished]
    split_ifs <;> decide

/-- No accepted job is lost, and none is finished twice, in every run in which the queue has room when
an `async` task is completed and no job is cancelled in the middle of an await. -/
theorem jobs_conserved (h : (machine J W sz async).Run (Clean sz async) s) : Conserved s :=
  (inv_of_run h).1.conserved (inv_of_run h).2

/-- A sound test for `Clean` with two workers -/
def cleanTest (sz : ℕ) (async : J → Bool) (s : State J Bool) : Action J Bool → Bool
  | .complete j => !async j || s.queue.length < sz
  | .run w =>
    match s.worker w with
    | .dequeued j => (s.job j).task.isNone || (s.job j).hasCompleted
    | _ => true
  | .cancel _ => false
  | _ => true

omit [DecidableEq J] in
theorem clean_of_test (s : State J Bool) (a : Action J Bool) (h : cleanTest sz async s a = true) :
    Clean sz async s a := by
  cases a with
  | complete j =>
    intro hasync
    simpa [cleanTest, hasync] using h
  | run w =>
    intro j hw hne
    simp only [cleanTest, hw, Bool.or_eq_true, Option.isNone_iff_eq_none] at h
    exact h.resolve_left hne
  | cancel j => cases h
  | _ => trivial

/-- A job that awaits a task goes through the queue twice. -/
theorem jobs_conserved_await : ∃ s : State Bool Bool, Conserved s ∧ s.finished.length = 1 := by
  have hrun : ((machine Bool Bool 1 fun _ => true).execOk (cleanTest 1 fun _ => true)
      [.enqueue true 0, .dequeue false, .run false, .await false, .threadJobDone 0, .complete true,
        .dequeue true, .run true, .finish true, .threadJobDone 0] create).any
      (fun s => s.finished.length = 1) = true := by decide
  obtain ⟨s, hs, hp⟩ := Machine.exists_run rfl clean_of_test hrun
  exact ⟨s, jobs_conserved hs, of_decide_eq_true hp⟩

/-- The task of a job is completed while another job fills the queue: the job is nowhere. -/
theorem job_lost : ¬ ∀ (sz : ℕ) (async : Bool → Bool) (s : State Bool Bool),
    (machine Bool Bool sz async).Reachable s → Conserved s := by
  intro hall
  have hrun : ((machine Bool Bool 1 fun _ => true).exec
      [.enqueue true 0, .dequeue false, .run false, .await false, .threadJobDone 0, .enqueue false 0,
        .complete true] create).any
      (fun s => s.accepted true = true ∧ s.finished = [] ∧ s.queue = [false] ∧ s.posted = [] ∧
        s.worker true = .idle ∧ s.worker false = .idle ∧
        (s.job true).task = some ⟨false, true⟩) = true := by decide
  obtain ⟨s, hs, hlost⟩ := Machine.exists_reachable rfl hrun
  obtain ⟨ha, hf, hq, hp, hwt, hwf, htask⟩ := of_decide_eq_true hlost
  obtain ⟨p, hin, -⟩ := (hall _ _ s hs).place true ha (by rw [hf]; exact List.not_mem_nil)
  cases p with
  | queued =>
    have hmem : true ∈ s.queue := hin
    rw [hq] at hmem
    cases List.mem_singleton.1 hmem
  | running w =>
    have hidle : s.worker w = .idle := by
      cases w
      · exact hwf
      · exact hwt
    rcases hin with h | h <;> rw [hidle] at h <;> cases h
  | waiting =>
    obtain ⟨task, hsome, hcalled, -⟩ := hin
    rw [htask] at hsome
    rw [← Option.some.inj hsome] at hcalled
    cases hcalled
  | posted =>
    have hmem : true ∈ s.posted := hin
    rw [hp] at hmem
    cases hmem

end PoserCore.ThreadPool
