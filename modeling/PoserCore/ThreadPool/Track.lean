import Mathlib.Data.List.Count
import Mathlib.Tactic.SplitIfs
import PoserCore.ThreadPool.Model

/-!
# Where a job is

Every job is at one place at a time: in the queue, on a worker, waiting for a task, on its way to
`threadJobDone`, or destroyed there (`tracked_step`).  This also holds for a job that gets lost because
its task is completed while the queue is full, and for one that is cancelled while it waits.  It does
not hold where a cancelled job wakes its blocked worker (`Unbroken`).
-/

namespace PoserCore.ThreadPool

open Lib (Machine)

variable {J W : Type} [DecidableEq J] [DecidableEq W]
variable {sz : ℕ} {async : J → Bool} {i j : J} {s s' : State J W}

/-- No job is cancelled while its worker is blocked.  Otherwise `threadJobDone` would find that it has
no task and destroy it, while it goes on with its work. -/
def Unbroken (s : State J W) : Action J W → Prop
  | .cancel j => ∀ w, s.worker w ≠ .blocked j
  | _ => True

/-- A lost job was completed while the queue was full. -/
inductive Loc (W : Type)
  | new
  | queued
  | on (w : W)
  | posted
  | waiting
  | lost
  | done
  deriving DecidableEq

/-- The job is there, and nowhere else. -/
structure At (async : J → Bool) (s : State J W) (j : J) (l : Loc W) : Prop where
  accepted : s.accepted j = true ↔ l ≠ .new
  queue : s.queue.count j = if l = .queued then 1 else 0
  posted : s.posted.count j = if l = .posted then 1 else 0
  finished : s.finished.count j = if l = .done then 1 else 0
  worker : ∀ w, (s.worker w = .dequeued j ∨ s.worker w = .running j) ↔ l = .on w
  /-- A blocked worker waits for the task of its job. -/
  blocked : ∀ w, s.worker w = .blocked j →
    async j = false ∧ (s.job j).task ≠ none ∧ (l = .posted ∨ l = .waiting)
  held : async j = false → (s.job j).task ≠ none → ∃ w, s.worker w = .blocked j
  one : ∀ w w', s.worker w = .blocked j → s.worker w' = .blocked j → w = w'
  called : (s.job j).task.any AsyncTask.called = true ↔ l = .waiting
  task : l = .new ∨ l = .done ∨ (∃ w, s.worker w = .running j) → (s.job j).task = none
  lost : l = .lost → (s.job j).task.any AsyncTask.completed = true

def Tracked (async : J → Bool) (s : State J W) : Prop := ∀ j, ∃ l, At async s j l

/-! ## The other jobs -/

/-- The job of the worker is another one. -/
def Worker.Elsewhere (k : Worker J) (j : J) : Prop :=
  k ≠ .dequeued j ∧ k ≠ .running j ∧ k ≠ .blocked j

omit [DecidableEq J] in
theorem Worker.elsewhere_idle (j : J) : Worker.idle.Elsewhere j := by simp [Worker.Elsewhere]

omit [DecidableEq J] in
theorem Worker.elsewhere_of_ne (h : j ≠ i) :
    (Worker.dequeued i).Elsewhere j ∧ (Worker.running i).Elsewhere j ∧
      (Worker.blocked i).Elsewhere j := by
  simp [Worker.Elsewhere, h.symm]

/-- Nothing changes for a job that the step is not about. -/
theorem At.frame {l : Loc W} (h : At async s j l) (ha : s'.accepted j = s.accepted j)
    (hq : s'.queue.count j = s.queue.count j) (hp : s'.posted.count j = s.posted.count j)
    (hf : s'.finished.count j = s.finished.count j) (ht : (s'.job j).task = (s.job j).task)
    (hw : ∀ w, s'.worker w = s.worker w ∨
      (s.worker w).Elsewhere j ∧ (s'.worker w).Elsewhere j) : At async s' j l := by
  have hsame : ∀ w, (s'.worker w = .dequeued j ↔ s.worker w = .dequeued j) ∧
      (s'.worker w = .running j ↔ s.worker w = .running j) ∧
      (s'.worker w = .blocked j ↔ s.worker w = .blocked j) := by
    intro w
    rcases hw w with heq | ⟨hold, hnew⟩
    · simp [heq]
    · simp [hold.1, hold.2.1, hold.2.2, hnew.1, hnew.2.1, hnew.2.2]
  exact
    { accepted := by rw [ha]; exact h.accepted
      queue := hq.trans h.queue
      posted := hp.trans h.posted
      finished := hf.trans h.finished
      worker := fun w => by
        rw [(hsame w).1, (hsame w).2.1]
        exact h.worker w
      blocked := fun w hb => by
        rw [ht]
        exact h.blocked w ((hsame w).2.2.1 hb)
      held := fun hasync hne => by
        rw [ht] at hne
        obtain ⟨w, hb⟩ := h.held hasync hne
        exact ⟨w, (hsame w).2.2.2 hb⟩
      one := fun w w' hb hb' => h.one w w' ((hsame w).2.2.1 hb) ((hsame w').2.2.1 hb')
      called := by rw [ht]; exact h.called
      task := fun hor => by
        rw [ht]
        exact h.task (hor.imp_right (Or.imp_right fun ⟨w, hr⟩ => ⟨w, (hsame w).2.1.1 hr⟩))
      lost := by rw [ht]; exact h.lost }

/-- The same where one worker changes -/
theorem At.frame_worker {l : Loc W} (h : At async s j l) {w : W} {k : Worker J}
    (hold : (s.worker w).Elsewhere j) (hnew : k.Elsewhere j)
    (hw : s'.worker = Function.update s.worker w k) (ha : s'.accepted j = s.accepted j)
    (hq : s'.queue.count j = s.queue.count j) (hp : s'.posted.count j = s.posted.count j)
    (hf : s'.finished.count j = s.finished.count j) (ht : (s'.job j).task = (s.job j).task) :
    At async s' j l := by
  refine h.frame ha hq hp hf ht fun u => ?_
  rw [hw]
  by_cases hu : u = w
  · subst hu
    rw [Function.update_self]
    exact .inr ⟨hold, hnew⟩
  · rw [Function.update_of_ne hu]
    exact .inl rfl

/-- A step that is about one job -/
theorem Tracked.one (hi : Tracked async s) (i : J)
    (hone : ∀ l, At async s i l → ∃ l', At async s' i l')
    (hother : ∀ j ≠ i, ∀ l, At async s j l → At async s' j l) : Tracked async s' := by
  intro j
  obtain ⟨l, hl⟩ := hi j
  by_cases hji : j = i
  · subst hji
    exact hone l hl
  · exact ⟨l, hother j hji l hl⟩

theorem count_concat (l : List J) (i j : J) :
    (l ++ [i]).count j = l.count j + if j = i then 1 else 0 := by
  rw [List.count_append, List.count_singleton]
  by_cases h : j = i
  · simp [h]
  · simp [h, Ne.symm h]

omit [DecidableEq W] in
theorem task_setJob (s : State J W) (i j : J) (k : ThreadJob W) :
    ((s.setJob i k).job j).task = if j = i then k.task else (s.job j).task := by
  by_cases h : j = i
  · simp [State.setJob, h]
  · simp [State.setJob, h]

omit [DecidableEq W] in
theorem setJob_setJob (s : State J W) (i : J) (k k' : ThreadJob W) :
    (s.setJob i k).setJob i k' = s.setJob i k' := by
  simp [State.setJob]

omit [DecidableEq J] in
theorem worker_setWorker (s : State J W) (w u : W) (k : Worker J) :
    (s.setWorker w k).worker u = if u = w then k else s.worker u := by
  by_cases h : u = w
  · simp [State.setWorker, h]
  · simp [State.setWorker, h]

/-- What a job knows of itself besides its task does not matter. -/
theorem At.setJob {l : Loc W} (h : At async s j l) {k : ThreadJob W}
    (hk : j = i → k.task = (s.job j).task) : At async (s.setJob i k) j l := by
  refine h.frame rfl rfl rfl rfl ?_ fun _ => .inl rfl
  rw [task_setJob]
  split_ifs with hji
  · exact hk hji
  · rfl

theorem Tracked.setJob (hi : Tracked async s) {k : ThreadJob W} (hk : k.task = (s.job i).task) :
    Tracked async (s.setJob i k) :=
  fun j => (hi j).imp fun _ hl => hl.setJob fun hji => hji ▸ hk

/-! ## The job itself -/

omit [DecidableEq W] in
theorem loc_eq {l k : Loc W} [Decidable (l = k)] {xs : List J}
    (hcount : xs.count j = if l = k then 1 else 0) (hmem : j ∈ xs) : l = k := by
  have hpos := List.count_pos_iff.2 hmem
  by_contra hne
  rw [hcount, if_neg hne] at hpos
  cases hpos

theorem At.not_blocked {l : Loc W} (h : At async s j l) (hp : l ≠ .posted) (hw : l ≠ .waiting)
    (w : W) : s.worker w ≠ .blocked j := by
  intro hb
  obtain ⟨-, -, hl⟩ := h.blocked w hb
  exact hl.elim hp hw

/-- A worker that is not blocked has no job that is not there. -/
theorem At.elsewhere {l : Loc W} (h : At async s j l) {w : W} (hb : s.worker w ≠ .blocked j)
    (hon : l ≠ .on w) : (s.worker w).Elsewhere j :=
  ⟨fun hd => hon ((h.worker w).1 (.inl hd)), fun hr => hon ((h.worker w).1 (.inr hr)), hb⟩

/-- Another worker does not have the job of a worker. -/
theorem At.alone {w u : W} {l : Loc W} (h : At async s j l)
    (hw : s.worker w = .dequeued j ∨ s.worker w = .running j) (hu : u ≠ w) :
    (s.worker u).Elsewhere j := by
  obtain rfl := (h.worker w).1 hw
  exact h.elsewhere (h.not_blocked (by simp) (by simp) u) fun hon => hu (Loc.on.inj hon).symm

/-- A task keeps its worker waiting unless its job is `async`. -/
theorem At.free {l : Loc W} (h : At async s j l) (hp : l ≠ .posted) (hw : l ≠ .waiting) :
    async j = true ∨ (s.job j).task = none := by
  rw [or_iff_not_imp_left, Bool.not_eq_true]
  intro hasync
  by_contra hne
  obtain ⟨w, hb⟩ := h.held hasync hne
  exact h.not_blocked hp hw w hb

/-- A job on no worker -/
theorem at_away {l : Loc W} (hon : ∀ w, l ≠ .on w) (ha : s.accepted j = true ↔ l ≠ .new)
    (hq : s.queue.count j = if l = .queued then 1 else 0)
    (hp : s.posted.count j = if l = .posted then 1 else 0)
    (hf : s.finished.count j = if l = .done then 1 else 0)
    (hcalled : (s.job j).task.any AsyncTask.called = true ↔ l = .waiting)
    (ht : l = .new ∨ l = .done → (s.job j).task = none)
    (hlost : l = .lost → (s.job j).task.any AsyncTask.completed = true)
    (hfree : async j = true ∨ (s.job j).task = none)
    (hno : ∀ w, (s.worker w).Elsewhere j) : At async s j l where
  accepted := ha
  queue := hq
  posted := hp
  finished := hf
  worker w := iff_of_false (not_or.2 ⟨(hno w).1, (hno w).2.1⟩) (hon w)
  blocked w hb := absurd hb (hno w).2.2
  held hasync hne := by
    rcases hfree with h | h
    · rw [hasync] at h
      cases h
    · exact absurd h hne
  one w _ hb := absurd hb (hno w).2.2
  called := hcalled
  task := by
    rintro (h | h | ⟨w, hr⟩)
    · exact ht (.inl h)
    · exact ht (.inr h)
    · exact absurd hr (hno w).2.1
  lost := hlost

/-- A job on a worker -/
theorem at_on {w : W} (ha : s.accepted j = true) (hq : s.queue.count j = 0)
    (hp : s.posted.count j = 0) (hf : s.finished.count j = 0)
    (hw : s.worker w = .dequeued j ∨ s.worker w = .running j)
    (hcalled : (s.job j).task.any AsyncTask.called = false)
    (ht : s.worker w = .running j → (s.job j).task = none)
    (hfree : async j = true ∨ (s.job j).task = none)
    (hno : ∀ u, u ≠ w → (s.worker u).Elsewhere j) : At async s j (.on w) := by
  have hblocked : ∀ u, s.worker u ≠ .blocked j := by
    intro u hb
    by_cases hu : u = w
    · subst hu
      rcases hw with h | h
      · cases h.symm.trans hb
      · cases h.symm.trans hb
    · exact (hno u hu).2.2 hb
  exact
    { accepted := by simp [ha]
      queue := by simp [hq]
      posted := by simp [hp]
      finished := by simp [hf]
      worker := fun u => by
        by_cases hu : u = w
        · subst hu
          exact iff_of_true hw rfl
        · exact iff_of_false (not_or.2 ⟨(hno u hu).1, (hno u hu).2.1⟩)
            fun h => hu (Loc.on.inj h).symm
      blocked := fun u hb => absurd hb (hblocked u)
      held := fun hasync hne => by
        rcases hfree with h | h
        · rw [hasync] at h
          cases h
        · exact absurd h hne
      one := fun u _ hb => absurd hb (hblocked u)
      called := by simp [hcalled]
      task := by
        rintro (h | h | ⟨u, hr⟩)
        · cases h
        · cases h
        · by_cases hu : u = w
          · exact ht (hu ▸ hr)
          · exact absurd hr (hno u hu).2.1
      lost := fun h => by cases h }

/-! ## Enqueueing -/

theorem tracked_accept (hi : Tracked async s) (ha : s.accepted i = false) :
    Tracked async { s with
      queue := s.queue ++ [i]
      accepted := Function.update s.accepted i true } := by
  refine hi.one i (fun l hl => ?_) fun j hj l hl => ?_
  · obtain rfl : l = .new := by
      by_contra hne
      rw [hl.accepted.2 hne] at ha
      cases ha
    have hnone : (s.job i).task = none := hl.task (.inl rfl)
    refine ⟨.queued, at_away (by simp) (by simp) ?_ hl.posted hl.finished (by simp [hnone])
      (fun _ => hnone) (fun h => by cases h) (.inr hnone) fun w => ?_⟩
    · rw [count_concat, hl.queue]
      simp
    · exact hl.elsewhere (hl.not_blocked (by simp) (by simp) w) (by simp)
  · refine hl.frame ?_ ?_ rfl rfl rfl fun _ => .inl rfl
    · exact Function.update_of_ne hj _ _
    · rw [count_concat, if_neg hj, Nat.add_zero]

theorem tracked_enqueue (hi : Tracked async s) (ha : s.accepted i = false) (thrno : ℕ) :
    Tracked async (enqueue sz s i thrno) := by
  have hjob := hi.setJob (i := i) (k := { s.job i with thrno := thrno }) rfl
  rw [enqueue]
  split_ifs with hfull
  · exact hjob
  · exact tracked_accept hjob ha

/-! ## On a worker -/

theorem tracked_dequeue (hi : Tracked async s) {w : W} {queue : List J} (hw : s.worker w = .idle)
    (hq : s.queue = i :: queue) :
    Tracked async ({ s with queue := queue }.setWorker w (.dequeued i)) := by
  refine hi.one i (fun l hl => ?_) fun j hj l hl => ?_
  · obtain rfl := loc_eq hl.queue (hq ▸ List.mem_cons_self)
    have hcount := hl.queue
    rw [hq, List.count_cons_self] at hcount
    have hself : ({ s with queue := queue }.setWorker w (.dequeued i)).worker w = .dequeued i :=
      Function.update_self ..
    have hcalled : ¬(s.job i).task.any AsyncTask.called = true := by simp [hl.called]
    refine ⟨.on w, at_on (hl.accepted.2 (by simp)) (Nat.succ.inj hcount) hl.posted hl.finished
      (.inl hself) (Bool.eq_false_iff.2 hcalled) (fun hr => ?_)
      (hl.free (by simp) (by simp)) fun u hu => ?_⟩
    · cases hself.symm.trans hr
    · rw [worker_setWorker, if_neg hu]
      exact hl.elsewhere (hl.not_blocked (by simp) (by simp) u) (by simp)
  · refine hl.frame_worker (w := w) ?_ (Worker.elsewhere_of_ne hj).1 rfl rfl ?_ rfl rfl rfl
    · rw [hw]
      exact Worker.elsewhere_idle j
    · rw [hq, List.count_cons_of_ne (Ne.symm hj)]
      rfl

/-- A worker sends its job to `threadJobDone`, and is done with it unless it is blocked. -/
theorem tracked_post (hi : Tracked async s) {w : W}
    (hw : s.worker w = .dequeued i ∨ s.worker w = .running i) {t : ThreadJob W} {k : Worker J}
    (hk : k = .idle ∧ (async i = true ∨ t.task = none) ∨
      k = .blocked i ∧ async i = false ∧ t.task ≠ none)
    (ht : t.task.any AsyncTask.called = false) :
    Tracked async (((s.setJob i t).setWorker w k).post i) := by
  refine hi.one i (fun l hl => ?_) fun j hj l hl => ?_
  · obtain rfl := (hl.worker w).1 hw
    have hposted : (s.posted ++ [i]).count i = 1 := by
      rw [count_concat, hl.posted]
      simp
    have htask : (((s.setJob i t).setWorker w k).post i).job i = t := Function.update_self ..
    have hself : (((s.setJob i t).setWorker w k).post i).worker w = k := Function.update_self ..
    have hothers : ∀ u, u ≠ w → ((((s.setJob i t).setWorker w k).post i).worker u).Elsewhere i := by
      intro u hu
      show ((Function.update s.worker w k) u).Elsewhere i
      rw [Function.update_of_ne hu]
      exact hl.alone hw hu
    rcases hk with ⟨rfl, hfree⟩ | ⟨rfl, hasync, hne⟩
    · refine ⟨.posted, at_away (by simp) (hl.accepted.trans (by simp)) hl.queue hposted hl.finished
        ?_ (by simp) (fun h => by cases h) (by rwa [htask]) fun u => ?_⟩
      · rw [htask]
        simp [ht]
      · by_cases hu : u = w
        · rw [hu, hself]
          exact Worker.elsewhere_idle i
        · exact hothers u hu
    · have hblocked : ∀ u, (((s.setJob i t).setWorker w (.blocked i)).post i).worker u = .blocked i →
          u = w := by
        intro u hb
        by_contra hu
        exact (hothers u hu).2.2 hb
      exact
        ⟨.posted,
          { accepted := hl.accepted.trans (by simp)
            queue := hl.queue
            posted := hposted
            finished := hl.finished
            worker := fun u => by
              refine iff_of_false (fun hor => ?_) (by simp)
              by_cases hu : u = w
              · rw [hu, hself] at hor
                rcases hor with h | h
                · cases h
                · cases h
              · exact hor.elim (hothers u hu).1 (hothers u hu).2.1
            blocked := fun u _ => ⟨hasync, by rwa [htask], .inl rfl⟩
            held := fun _ _ => ⟨w, hself⟩
            one := fun u u' hb hb' => (hblocked u hb).trans (hblocked u' hb').symm
            called := by
              rw [htask]
              simp [ht]
            task := by
              rintro (h | h | ⟨u, hr⟩)
              · cases h
              · cases h
              · by_cases hu : u = w
                · rw [hu, hself] at hr
                  cases hr
                · exact absurd hr (hothers u hu).2.1
            lost := fun h => by cases h }⟩
  · have helse : (s.worker w).Elsewhere j := by
      rcases hw with h | h
      · rw [h]
        exact (Worker.elsewhere_of_ne hj).1
      · rw [h]
        exact (Worker.elsewhere_of_ne hj).2.1
    have hknew : k.Elsewhere j := by
      rcases hk with ⟨rfl, -⟩ | ⟨rfl, -, -⟩
      · exact Worker.elsewhere_idle j
      · exact (Worker.elsewhere_of_ne hj).2.2
    refine hl.frame_worker helse hknew rfl rfl rfl ?_ rfl ?_
    · refine (count_concat s.posted i j).trans ?_
      rw [if_neg hj, Nat.add_zero]
    · exact (task_setJob s i j t).trans (if_neg hj)

/-- A worker starts its job or goes on with it. -/
theorem tracked_start (hi : Tracked async s) {w : W} (hw : s.worker w = .dequeued i)
    {k : ThreadJob W} (hk : k.task = none) :
    Tracked async ((s.setJob i k).setWorker w (.running i)) := by
  refine hi.one i (fun l hl => ?_) fun j hj l hl => ?_
  · obtain rfl := (hl.worker w).1 (.inl hw)
    have hnone : (((s.setJob i k).setWorker w (.running i)).job i).task = none := by
      show ((s.setJob i k).job i).task = none
      rw [task_setJob, if_pos rfl, hk]
    have hself : ((s.setJob i k).setWorker w (.running i)).worker w = .running i :=
      Function.update_self ..
    refine ⟨.on w, at_on (hl.accepted.2 (by simp)) hl.queue hl.posted hl.finished (.inr hself)
      (by rw [hnone]; rfl) (fun _ => hnone) (.inr hnone) fun u hu => ?_⟩
    rw [worker_setWorker, if_neg hu]
    exact hl.alone (.inl hw) hu
  · refine hl.frame_worker (w := w) ?_ (Worker.elsewhere_of_ne hj).2.1 rfl rfl rfl rfl rfl ?_
    · rw [hw]
      exact (Worker.elsewhere_of_ne hj).1
    · exact (task_setJob s i j k).trans (if_neg hj)

theorem tracked_run (hi : Tracked async s) {w : W} (hw : s.worker w = .dequeued i) :
    Tracked async (run async s w i) := by
  obtain ⟨l, hl⟩ := hi i
  obtain rfl := (hl.worker w).1 (.inl hw)
  have hfree := hl.free (by simp) (by simp)
  by_cases hcompleted : (s.job i).hasCompleted = true
  · rw [run, if_pos hcompleted]
    refine tracked_start hi hw ?_
    rcases hfree with h | h
    · exact if_pos h
    · dsimp only
      rw [h, ite_self]
  · have hsame : s.setJob i (s.job i) = s := by
      rw [State.setJob, Function.update_eq_self]
    have hcalled : ¬(s.job i).task.any AsyncTask.called = true := by simp [hl.called]
    have hpost := tracked_post hi (.inl hw) (.inl ⟨rfl, hfree⟩) (Bool.eq_false_iff.2 hcalled)
    rw [hsame] at hpost
    rwa [run, if_neg hcompleted]

theorem tracked_finish (hi : Tracked async s) {w : W} (hw : s.worker w = .running i) :
    Tracked async (finish s w i) := by
  obtain ⟨l, hl⟩ := hi i
  have hnone : (s.job i).task = none := hl.task (.inr (.inr ⟨w, hw⟩))
  exact tracked_post hi (.inr hw) (.inl ⟨rfl, .inr hnone⟩) (by rw [hnone]; rfl)

theorem tracked_await (hi : Tracked async s) {w : W} (hw : s.worker w = .running i) :
    Tracked async (await async s w i) := by
  rw [await]
  split_ifs with hasync
  · rw [finish, setJob_setJob]
    refine tracked_post hi (.inr hw) (.inl ⟨rfl, .inl hasync⟩) ?_
    simp [State.setJob]
  · exact tracked_post hi (.inr hw)
      (.inr ⟨rfl, Bool.eq_false_iff.2 hasync, Option.some_ne_none _⟩) rfl

/-! ## Tasks -/

theorem tracked_threadJobDone (hi : Tracked async s) (hmem : i ∈ s.posted) :
    Tracked async (threadJobDone { s with posted := s.posted.erase i } i) := by
  have hother : ∀ j ≠ i, (s.posted.erase i).count j = s.posted.count j := fun j hj =>
    List.count_erase_of_ne hj
  have hself : ∀ l, At async s i l → l = .posted ∧ (s.posted.erase i).count i = 0 := by
    intro l hl
    obtain rfl := loc_eq hl.posted hmem
    refine ⟨rfl, ?_⟩
    rw [List.count_erase_self, hl.posted]
    rfl
  rw [threadJobDone]
  split
  next task htask =>
    have hsome : (s.job i).task ≠ none := fun h => Option.some_ne_none _ (htask.symm.trans h)
    refine hi.one i (fun l hl => ?_) fun j hj l hl => ?_
    · obtain ⟨rfl, hcount⟩ := hself l hl
      exact
        ⟨.waiting,
          { accepted := hl.accepted.trans (by simp)
            queue := hl.queue
            posted := hcount
            finished := hl.finished
            worker := fun w => (hl.worker w).trans (by simp)
            blocked := fun w hb => ⟨(hl.blocked w hb).1, by simp [State.setJob], .inr rfl⟩
            held := fun hasync _ => hl.held hasync hsome
            one := hl.one
            called := by simp [State.setJob]
            task := by
              rintro (h | h | ⟨w, hr⟩)
              · cases h
              · cases h
              · cases (hl.worker w).1 (.inr hr)
            lost := fun h => by cases h }⟩
    · exact hl.frame rfl rfl (hother j hj) rfl ((task_setJob _ i j _).trans (if_neg hj))
        fun _ => .inl rfl
  next hnone =>
    have hnone : (s.job i).task = none := hnone
    refine hi.one i (fun l hl => ?_) fun j hj l hl => ?_
    · obtain ⟨rfl, hcount⟩ := hself l hl
      refine ⟨.done, at_away (by simp) (hl.accepted.trans (by simp)) hl.queue hcount ?_
        (by simp [hnone]) (fun _ => hnone) (fun h => by cases h) (.inr hnone) fun w => ?_⟩
      · refine List.count_cons_self.trans ?_
        rw [hl.finished]
        rfl
      · exact hl.elsewhere (fun hb => (hl.blocked w hb).2.1 hnone) (by simp)
    · refine hl.frame rfl rfl (hother j hj) ?_ rfl fun _ => .inl rfl
      exact List.count_cons_of_ne (Ne.symm hj)

theorem tracked_complete (hi : Tracked async s)
    (hcalled : (s.job i).task.any AsyncTask.called = true) :
    Tracked async (complete sz async s i) := by
  obtain ⟨l, hl⟩ := hi i
  obtain rfl := hl.called.1 hcalled
  rw [complete]
  by_cases hasync : async i = true
  · rw [if_pos hasync]
    have hloc : ∀ l : Loc W, l = .queued ∨ l = .lost → ∀ queue : List J,
        queue.count i = (if l = .queued then 1 else 0) →
        (∀ j ≠ i, queue.count j = s.queue.count j) →
        Tracked async { s.setJob i { s.job i with task := some ⟨false, true⟩ } with
          queue := queue } := by
      intro l hlost queue hqueue hqueue'
      obtain ⟨hnew, hposted, hwaiting, hdone, hon⟩ :
          l ≠ .new ∧ l ≠ .posted ∧ l ≠ .waiting ∧ l ≠ .done ∧ ∀ w, l ≠ .on w := by
        rcases hlost with rfl | rfl
        · simp
        · simp
      refine hi.one i (fun _ _ => ?_) fun j hj l' hl' => ?_
      · refine ⟨l, at_away hon (hl.accepted.trans (by simp [hnew])) hqueue
          (hl.posted.trans (by simp [hposted])) (hl.finished.trans (by simp [hdone]))
          (by simp [State.setJob, hwaiting]) (fun h => absurd h (not_or.2 ⟨hnew, hdone⟩))
          (by simp [State.setJob]) (.inl hasync) fun w => ?_⟩
        refine hl.elsewhere (fun hb => ?_) (by simp)
        rw [(hl.blocked w hb).1] at hasync
        cases hasync
      · exact hl'.frame rfl (hqueue' j hj) rfl rfl ((task_setJob s i j _).trans (if_neg hj))
          fun _ => .inl rfl
    dsimp only
    split_ifs with hfull
    · exact hloc .lost (.inr rfl) s.queue hl.queue fun _ _ => rfl
    · refine hloc .queued (.inl rfl) (s.queue ++ [i]) ?_ fun j hj => ?_
      · rw [count_concat, hl.queue]
        simp
      · rw [count_concat, if_neg hj, Nat.add_zero]
  · rw [if_neg hasync]
    have hsome : (s.job i).task ≠ none := fun h => by
      rw [h] at hcalled
      cases hcalled
    obtain ⟨w, hb⟩ := hl.held (Bool.eq_false_iff.2 hasync) hsome
    have hwake : ∀ u, u ≠ w → s.worker u ≠ .blocked i := fun u hu hb' => hu (hl.one u w hb' hb)
    refine hi.one i (fun _ _ => ?_) fun j hj l' hl' => ?_
    · have hnone : ((s.setJob i { s.job i with task := none }).job i).task = none :=
        (task_setJob s i i _).trans (if_pos rfl)
      refine ⟨.on w, at_on (hl.accepted.2 (by simp)) hl.queue hl.posted hl.finished
        (.inr (if_pos hb)) (by rw [hnone]; rfl) (fun _ => hnone) (.inr hnone) fun u hu => ?_⟩
      show (if s.worker u = .blocked i then Worker.running i else s.worker u).Elsewhere i
      rw [if_neg (hwake u hu)]
      exact hl.elsewhere (hwake u hu) (by simp)
    · refine hl'.frame rfl rfl rfl rfl ((task_setJob s i j _).trans (if_neg hj)) fun u => ?_
      by_cases hu : s.worker u = .blocked i
      · refine .inr ⟨?_, ?_⟩
        · rw [hu]
          exact (Worker.elsewhere_of_ne hj).2.2
        · simp only [hu, if_true]
          exact (Worker.elsewhere_of_ne hj).2.1
      · exact .inl (if_neg hu)

/-- Without a blocked worker `PSC_ThreadPool_cancel` changes nothing but the job. -/
theorem cancel_eq (hno : ∀ w, s.worker w ≠ .blocked i) :
    cancel s i = s.setJob i { s.job i with hasCompleted := false } := by
  rw [cancel]
  split
  next => rfl
  next w _ => exact if_neg (hno w)

theorem tracked_step {a : Action J W} (hi : Tracked async s) (ha : Unbroken s a)
    (hs : step sz async s a = some s') : Tracked async s' := by
  cases a with
  | enqueue i thrno =>
    rw [step] at hs
    split_ifs at hs with ha
    obtain rfl := Option.some.inj hs
    exact tracked_enqueue hi (Bool.eq_false_iff.2 ha) thrno
  | dequeue w =>
    rw [step] at hs
    split at hs
    next i queue hw hq =>
      obtain rfl := Option.some.inj hs
      exact tracked_dequeue hi hw hq
    next => cases hs
  | run w =>
    rw [step] at hs
    split at hs
    next i hw =>
      obtain rfl := Option.some.inj hs
      exact tracked_run hi hw
    next => cases hs
  | finish w =>
    rw [step] at hs
    split at hs
    next i hw =>
      obtain rfl := Option.some.inj hs
      exact tracked_finish hi hw
    next => cases hs
  | await w =>
    rw [step] at hs
    split at hs
    next i hw =>
      obtain rfl := Option.some.inj hs
      exact tracked_await hi hw
    next => cases hs
  | threadJobDone thrno =>
    rw [step] at hs
    split at hs
    next i hfind =>
      obtain rfl := Option.some.inj hs
      exact tracked_threadJobDone hi (List.mem_of_find?_eq_some hfind)
    next => cases hs
  | complete i =>
    rw [step] at hs
    split_ifs at hs with hcalled
    obtain rfl := Option.some.inj hs
    exact tracked_complete hi hcalled
  | cancel i =>
    rw [step] at hs
    split_ifs at hs
    obtain rfl := Option.some.inj hs
    rw [cancel_eq ha]
    exact hi.setJob rfl

theorem tracked_create : Tracked async (create : State J W) := fun _ =>
  ⟨.new, at_away (by simp) (by simp [create]) rfl rfl rfl (by simp [create]) (fun _ => rfl)
    (fun h => by cases h) (.inr rfl) fun _ => Worker.elsewhere_idle _⟩

end PoserCore.ThreadPool
