import PoserCore.ThreadPool.Coroutines
import PoserCore.ThreadPool.Track

/-!
# No stack is shared

An `async` job is at one place at a time.  So each switch to a stack finds nobody on it and the
calls of its own job there, and each switch back ends in the loop of the worker that it left.

Runs end where a job is cancelled while its worker is blocked (`Unbroken`): there `threadJobDone`
destroys a job that goes on, which is not what the model does.
-/

namespace PoserCore.ThreadPool

open Lib (Machine)

variable {J W S : Type} [DecidableEq J] [DecidableEq W]
variable {sz : ℕ} {async : J → Bool} {i j : J} {s s' : Coroutines J W S} {p p' : State J W}

/-- No `async` job is started, leaves its worker or goes on with a task. -/
def Quiet (async : J → Bool) (p p' : State J W) : Prop :=
  ∀ j, async j = true → ((p'.job j).task = none ↔ (p.job j).task = none) ∧
    ∀ w, p'.worker w = .running j ↔ p.worker w = .running j

omit [DecidableEq J] [DecidableEq W] in
theorem Quiet.of_eq (hj : p'.job = p.job) (hw : p'.worker = p.worker) : Quiet async p p' := by
  intro j _
  rw [hj, hw]
  exact ⟨.rfl, fun _ => .rfl⟩

omit [DecidableEq J] [DecidableEq W] in
theorem Quiet.trans {p'' : State J W} (h : Quiet async p p') (h' : Quiet async p' p'') :
    Quiet async p p'' :=
  fun j hj => ⟨(h' j hj).1.trans (h j hj).1, fun w => ((h' j hj).2 w).trans ((h j hj).2 w)⟩

omit [DecidableEq W] in
theorem Quiet.setJob (p : State J W) {k : ThreadJob W}
    (hk : async i = true → (k.task = none ↔ (p.job i).task = none)) :
    Quiet async p (p.setJob i k) := by
  refine fun j hj => ⟨?_, fun _ => .rfl⟩
  rw [task_setJob]
  split_ifs with hji
  · subst hji
    exact hk hj
  · exact .rfl

omit [DecidableEq J] in
theorem Quiet.setWorker (p : State J W) {w : W} {k : Worker J}
    (hk : ∀ j, async j = true → p.worker w ≠ .running j ∧ k ≠ .running j) :
    Quiet async p (p.setWorker w k) := by
  refine fun j hj => ⟨.rfl, fun u => ?_⟩
  rw [worker_setWorker]
  split_ifs with hu
  · subst hu
    exact iff_of_false (hk j hj).2 (hk j hj).1
  · exact .rfl

namespace Coroutines

/-- A stack is kept for later, or it has one job: that runs on it on one worker, or awaits a task
with its calls and its context there, or has returned from `proc`. -/
structure Inv (async : J → Bool) (s : Coroutines J W S) : Prop where
  tracked : Tracked async s.pool
  suspended : ∀ j, async j = true → (s.pool.job j).task ≠ none →
    ∃ st, s.stack j = some st ∧ s.resume j = some st ∧ s.frames st = some j
  running : ∀ w j, async j = true → s.pool.worker w = .running j →
    ∃ st, s.stack j = some st ∧ s.current w = some st ∧ s.frames st = some j ∧ s.caller j = some w
  frames : ∀ st j, s.frames st = some j → async j = true ∧ s.stack j = some st ∧
    ((s.pool.job j).task ≠ none ∨ ∃ w, s.pool.worker w = .running j)
  current : ∀ w st, s.current w = some st →
    ∃ j, async j = true ∧ s.pool.worker w = .running j ∧ s.stack j = some st
  own : ∀ i j st, s.stack i = some st → s.stack j = some st → i = j
  kept : ∀ st ∈ s.freeStacks, ∀ j, s.stack j ≠ some st
  nodup : s.freeStacks.Nodup
  mapped : ∀ st, st ∈ s.mapped ↔ st ∈ s.freeStacks ∨ ∃ j, s.stack j = some st
  plain : ∀ j, async j = false → s.stack j = none
  finished : ∀ j ∈ s.pool.finished, s.stack j = none

/-- A worker that has no `async` job runs on its own stack. -/
theorem Inv.current_eq_none (hi : Inv async s) {w : W}
    (hw : ∀ j, async j = true → s.pool.worker w ≠ .running j) : s.current w = none := by
  by_contra hne
  obtain ⟨st, hst⟩ := Option.ne_none_iff_exists'.1 hne
  obtain ⟨j, hj, hr, -⟩ := hi.current w st hst
  exact hw j hj hr

/-- Nobody runs on the stack of a job that no worker runs. -/
theorem Inv.current_ne (hi : Inv async s) {st : S} (hst : s.stack j = some st)
    (hw : ∀ w, s.pool.worker w ≠ .running j) (w : W) : s.current w ≠ some st := by
  intro hcur
  obtain ⟨i, -, hr, hi'⟩ := hi.current w st hcur
  obtain rfl := hi.own i j st hi' hst
  exact hw w hr

theorem Inv.frames_eq_none (hi : Inv async s) {st : S} (hst : s.stack j = some st)
    (htask : (s.pool.job j).task = none) (hw : ∀ w, s.pool.worker w ≠ .running j) :
    s.frames st = none := by
  by_contra hne
  obtain ⟨i, hframes⟩ := Option.ne_none_iff_exists'.1 hne
  obtain ⟨-, hi', hor⟩ := hi.frames st i hframes
  obtain rfl := hi.own i j st hi' hst
  rcases hor with h | ⟨w, h⟩
  · exact h htask
  · exact hw w h

theorem Inv.quiet (hi : Inv async s) (hp : Tracked async p) (hq : Quiet async s.pool p)
    (hf : ∀ j ∈ p.finished, s.stack j = none) : Inv async { s with pool := p } where
  tracked := hp
  suspended j hj ht := hi.suspended j hj fun h => ht ((hq j hj).1.2 h)
  running w j hj hr := hi.running w j hj (((hq j hj).2 w).1 hr)
  frames st j h := by
    obtain ⟨hj, hst, hor⟩ := hi.frames st j h
    refine ⟨hj, hst, hor.imp (fun ht h => ht ((hq j hj).1.1 h)) ?_⟩
    exact fun ⟨w, hr⟩ => ⟨w, ((hq j hj).2 w).2 hr⟩
  current w st h := by
    obtain ⟨j, hj, hr, hst⟩ := hi.current w st h
    exact ⟨j, hj, ((hq j hj).2 w).2 hr, hst⟩
  own := hi.own
  kept := hi.kept
  nodup := hi.nodup
  mapped := hi.mapped
  plain := hi.plain
  finished := hf

/-- A step of the pool that is about a job and its worker -/
structure Moved (p p' : State J W) (j : J) (w : W) : Prop where
  task : ∀ i ≠ j, (p'.job i).task = (p.job i).task
  worker : ∀ u ≠ w, p'.worker u = p.worker u
  finished : p'.finished = p.finished

/-- No other worker has the job of a worker. -/
theorem Inv.alone (hi : Inv async s) {w u : W}
    (hw : s.pool.worker w = .dequeued j ∨ s.pool.worker w = .running j) (hu : u ≠ w) :
    s.pool.worker u ≠ .running j := by
  obtain ⟨l, hl⟩ := hi.tracked j
  exact (hl.alone hw hu).2.1

theorem Inv.resumed (hi : Inv async s) {w : W} (hj : async j = true)
    (hw : s.pool.worker w = .dequeued j) (ht : (s.pool.job j).task ≠ none) (hp : Tracked async p)
    (hm : Moved s.pool p j w) (hw' : p.worker w = .running j) (ht' : (p.job j).task = none) :
    Inv async { s with
      pool := p
      caller := Function.update s.caller j (some w)
      resume := Function.update s.resume j none
      current := Function.update s.current w (s.resume j) } := by
  obtain ⟨st, hstack, hresume, hframes⟩ := hi.suspended j hj ht
  exact
    { tracked := hp
      suspended := fun i hi' hti => by
        have hij : i ≠ j := fun h => hti (h ▸ ht')
        rw [hm.task i hij] at hti
        obtain ⟨x, h1, h2, h3⟩ := hi.suspended i hi' hti
        exact ⟨x, h1, (Function.update_of_ne hij _ _).trans h2, h3⟩
      running := fun u i hi' hr => by
        by_cases hu : u = w
        · subst hu
          obtain rfl : j = i := Worker.running.inj (hw'.symm.trans hr)
          exact ⟨st, hstack, (Function.update_self ..).trans hresume, hframes,
            Function.update_self ..⟩
        · have hr' : s.pool.worker u = .running i := (hm.worker u hu).symm.trans hr
          have hij : i ≠ j := fun h => hi.alone (.inl hw) hu (h ▸ hr')
          obtain ⟨x, h1, h2, h3, h4⟩ := hi.running u i hi' hr'
          exact ⟨x, h1, (Function.update_of_ne hu _ _).trans h2, h3,
            (Function.update_of_ne hij _ _).trans h4⟩
      frames := fun x i h => by
        obtain ⟨hi', hx, hor⟩ := hi.frames x i h
        refine ⟨hi', hx, ?_⟩
        by_cases hij : i = j
        · exact .inr ⟨w, hij ▸ hw'⟩
        · refine hor.imp (fun h1 => by rwa [hm.task i hij]) fun ⟨u, hr⟩ => ⟨u, ?_⟩
          have hu : u ≠ w := fun h => by
            rw [h, hw] at hr
            cases hr
          exact (hm.worker u hu).trans hr
      current := fun u x h => by
        dsimp only at h
        by_cases hu : u = w
        · subst hu
          obtain rfl : st = x := by
            rw [Function.update_self, hresume] at h
            exact Option.some.inj h
          exact ⟨j, hj, hw', hstack⟩
        · rw [Function.update_of_ne hu] at h
          obtain ⟨i, hi', hr, hx⟩ := hi.current u x h
          exact ⟨i, hi', (hm.worker u hu).trans hr, hx⟩
      own := hi.own
      kept := hi.kept
      nodup := hi.nodup
      mapped := hi.mapped
      plain := hi.plain
      finished := fun i hf => hi.finished i (hm.finished ▸ hf) }

omit [DecidableEq W] in
/-- A job gets a stack. -/
theorem stack_update {stack : J → Option S} {st : S} (i : J) (x : S) :
    Function.update stack j (some st) i = some x ↔ i = j ∧ x = st ∨ i ≠ j ∧ stack i = some x := by
  by_cases hij : i = j
  · subst hij
    rw [Function.update_self, Option.some.injEq]
    simp [eq_comm]
  · rw [Function.update_of_ne hij]
    simp [hij]

/-- Each stack still belongs to one job where a job gets one that no other job has. -/
theorem Inv.own_update (hi : Inv async s) {st : S} (hown : ∀ i, s.stack i = some st → i = j)
    {i k : J} {x : S} (hix : Function.update s.stack j (some st) i = some x)
    (hkx : Function.update s.stack j (some st) k = some x) : i = k := by
  rcases (stack_update i x).1 hix with ⟨rfl, rfl⟩ | ⟨hij, h1⟩
  · rcases (stack_update k x).1 hkx with ⟨rfl, -⟩ | ⟨hkj, h2⟩
    · rfl
    · exact absurd (hown k h2) hkj
  · rcases (stack_update k x).1 hkx with ⟨rfl, rfl⟩ | ⟨hkj, h2⟩
    · exact absurd (hown i h1) hij
    · exact hi.own i k x h1 h2

/-- A stack is taken from those that are kept, or is mapped, for a job that has no other. -/
theorem Inv.mapped_update (hi : Inv async s) {st : S} {freeStacks mapped : List S}
    (hsub : ∀ x ∈ freeStacks, x ∈ s.freeStacks) (hold : ∀ x, s.stack j = some x → x = st)
    (hmapped : ∀ x, x ∈ mapped ↔ x ∈ s.mapped ∨ x = st)
    (hstacks : ∀ x ∈ s.freeStacks, x ∈ freeStacks ∨ x = st) (x : S) :
    x ∈ mapped ↔ x ∈ freeStacks ∨ ∃ i, Function.update s.stack j (some st) i = some x := by
  rw [hmapped, hi.mapped]
  constructor
  · rintro ((h | ⟨i, h⟩) | rfl)
    · rcases hstacks x h with h | rfl
      · exact .inl h
      · exact .inr ⟨j, Function.update_self ..⟩
    · by_cases hij : i = j
      · obtain rfl := hold x (hij ▸ h)
        exact .inr ⟨j, Function.update_self ..⟩
      · exact .inr ⟨i, (stack_update i x).2 (.inr ⟨hij, h⟩)⟩
    · exact .inr ⟨j, Function.update_self ..⟩
  · rintro (h | ⟨i, h⟩)
    · exact .inl (.inl (hsub x h))
    · rcases (stack_update i x).1 h with ⟨-, rfl⟩ | ⟨-, h⟩
      · exact .inr rfl
      · exact .inl (.inr ⟨i, h⟩)

/-- The first time that a job runs, on a stack that no other job has -/
theorem Inv.started [DecidableEq S] (hi : Inv async s) {w : W} {st : S} {freeStacks mapped : List S}
    (hj : async j = true) (hw : s.pool.worker w = .dequeued j)
    (ht : (s.pool.job j).task = none) (hp : Tracked async p) (hm : Moved s.pool p j w)
    (hw' : p.worker w = .running j) (hfin : j ∉ s.pool.finished)
    (hown : ∀ i, s.stack i = some st → i = j) (hst : st ∉ freeStacks)
    (hsub : ∀ x ∈ freeStacks, x ∈ s.freeStacks) (hnodup : freeStacks.Nodup)
    (hold : ∀ x, s.stack j = some x → x = st)
    (hmapped : ∀ x, x ∈ mapped ↔ x ∈ s.mapped ∨ x = st)
    (hstacks : ∀ x ∈ s.freeStacks, x ∈ freeStacks ∨ x = st) :
    Inv async { s with
      pool := p
      freeStacks := freeStacks
      mapped := mapped
      stack := Function.update s.stack j (some st)
      caller := Function.update s.caller j (some w)
      frames := Function.update s.frames st (some j)
      current := Function.update s.current w (some st) } := by
  have hne : ∀ i x, i ≠ j → s.stack i = some x → x ≠ st := fun i x hij hx h =>
    hij (hown i (h ▸ hx))
  have hidle : ∀ u, s.pool.worker u ≠ .running j := by
    intro u hr
    by_cases hu : u = w
    · rw [hu, hw] at hr
      cases hr
    · exact hi.alone (.inl hw) hu hr
  exact
    { tracked := hp
      suspended := fun i hi' hti => by
        by_cases hij : i = j
        · subst hij
          obtain ⟨l, hl⟩ := hp i
          exact absurd (hl.task (.inr (.inr ⟨w, hw'⟩))) hti
        · rw [hm.task i hij] at hti
          obtain ⟨x, h1, h2, h3⟩ := hi.suspended i hi' hti
          exact ⟨x, (stack_update i x).2 (.inr ⟨hij, h1⟩), h2,
            (Function.update_of_ne (hne i x hij h1) _ _).trans h3⟩
      running := fun u i hi' hr => by
        by_cases hu : u = w
        · subst hu
          obtain rfl : j = i := Worker.running.inj (hw'.symm.trans hr)
          exact ⟨st, Function.update_self .., Function.update_self .., Function.update_self ..,
            Function.update_self ..⟩
        · have hr' : s.pool.worker u = .running i := (hm.worker u hu).symm.trans hr
          have hij : i ≠ j := fun h => hidle u (h ▸ hr')
          obtain ⟨x, h1, h2, h3, h4⟩ := hi.running u i hi' hr'
          exact ⟨x, (stack_update i x).2 (.inr ⟨hij, h1⟩), (Function.update_of_ne hu _ _).trans h2,
            (Function.update_of_ne (hne i x hij h1) _ _).trans h3,
            (Function.update_of_ne hij _ _).trans h4⟩
      frames := fun x i h => by
        dsimp only at h
        by_cases hx : x = st
        · subst hx
          obtain rfl : j = i := by
            rw [Function.update_self] at h
            exact Option.some.inj h
          exact ⟨hj, Function.update_self .., .inr ⟨w, hw'⟩⟩
        · rw [Function.update_of_ne hx] at h
          obtain ⟨hi', hx', hor⟩ := hi.frames x i h
          have hij : i ≠ j := fun hij => hx (hold x (hij ▸ hx'))
          refine ⟨hi', (stack_update i x).2 (.inr ⟨hij, hx'⟩), ?_⟩
          refine hor.imp (fun h1 => by rwa [hm.task i hij]) fun ⟨u, hr⟩ => ⟨u, ?_⟩
          have hu : u ≠ w := fun h => by
            rw [h, hw] at hr
            cases hr
          exact (hm.worker u hu).trans hr
      current := fun u x h => by
        dsimp only at h
        by_cases hu : u = w
        · subst hu
          obtain rfl : st = x := by
            rw [Function.update_self] at h
            exact Option.some.inj h
          exact ⟨j, hj, hw', Function.update_self ..⟩
        · rw [Function.update_of_ne hu] at h
          obtain ⟨i, hi', hr, hx⟩ := hi.current u x h
          have hij : i ≠ j := fun h => hidle u (h ▸ hr)
          exact ⟨i, hi', (hm.worker u hu).trans hr, (stack_update i x).2 (.inr ⟨hij, hx⟩)⟩
      own := fun i k x hix hkx => hi.own_update hown hix hkx
      kept := fun x hx i h => by
        rcases (stack_update i x).1 h with ⟨rfl, rfl⟩ | ⟨-, h⟩
        · exact hst hx
        · exact hi.kept x (hsub x hx) i h
      nodup := hnodup
      mapped := hi.mapped_update hsub hold hmapped hstacks
      plain := fun i h => by
        have hij : i ≠ j := fun hij => by
          rw [hij, hj] at h
          cases h
        exact (Function.update_of_ne hij _ _).trans (hi.plain i h)
      finished := fun i hf => by
        rw [hm.finished] at hf
        have hij : i ≠ j := fun hij => hfin (hij ▸ hf)
        exact (Function.update_of_ne hij _ _).trans (hi.finished i hf) }

/-- The job of the worker returned from `proc`. -/
theorem Inv.left [DecidableEq S] (hi : Inv async s) {w : W} (hj : async j = true)
    (hw : s.pool.worker w = .running j) (hp : Tracked async p) (hm : Moved s.pool p j w)
    (hw' : ∀ i, p.worker w ≠ .running i) (ht' : (p.job j).task = none) :
    Inv async { s.leave w with pool := p } := by
  obtain ⟨st, hstack, hcurrent, hframes, hcaller⟩ := hi.running w j hj hw
  have hst : ∀ i x, i ≠ j → s.stack i = some x → s.current w ≠ some x := by
    intro i x hij hx h
    rw [hcurrent] at h
    exact hij (hi.own i j st (Option.some.inj h ▸ hx) hstack)
  exact
    { tracked := hp
      suspended := fun i hi' hti => by
        have hij : i ≠ j := fun h => hti (h ▸ ht')
        rw [hm.task i hij] at hti
        obtain ⟨x, h1, h2, h3⟩ := hi.suspended i hi' hti
        exact ⟨x, h1, h2, (if_neg (hst i x hij h1)).trans h3⟩
      running := fun u i hi' hr => by
        have hu : u ≠ w := fun h => hw' i (h ▸ hr)
        have hr' : s.pool.worker u = .running i := (hm.worker u hu).symm.trans hr
        have hij : i ≠ j := fun h => hi.alone (.inr hw) hu (h ▸ hr')
        obtain ⟨x, h1, h2, h3, h4⟩ := hi.running u i hi' hr'
        exact ⟨x, h1, (Function.update_of_ne hu _ _).trans h2, (if_neg (hst i x hij h1)).trans h3,
          h4⟩
      frames := fun x i h => by
        obtain ⟨hx, h⟩ := Option.ite_none_left_eq_some.1 h
        obtain ⟨hi', hx', hor⟩ := hi.frames x i h
        have hij : i ≠ j := fun hij => by
          rw [hij, hstack] at hx'
          exact hx (hcurrent.trans hx')
        refine ⟨hi', hx', hor.imp (fun h1 => by rwa [hm.task i hij]) fun ⟨u, hr⟩ => ⟨u, ?_⟩⟩
        have hu : u ≠ w := fun hu => by
          rw [hu, hw] at hr
          exact hij (Worker.running.inj hr).symm
        exact (hm.worker u hu).trans hr
      current := fun u x h => by
        have hu : u ≠ w := fun hu => by
          rw [hu] at h
          exact Option.some_ne_none x (h.symm.trans (Function.update_self ..))
        obtain ⟨i, hi', hr, hx⟩ := hi.current u x ((Function.update_of_ne hu _ _).symm.trans h)
        exact ⟨i, hi', (hm.worker u hu).trans hr, hx⟩
      own := hi.own
      kept := hi.kept
      nodup := hi.nodup
      mapped := hi.mapped
      plain := hi.plain
      finished := fun i hf => hi.finished i (hm.finished ▸ hf) }

/-- The job of the worker awaits a task. -/
theorem Inv.suspend (hi : Inv async s) {w : W} (hj : async j = true)
    (hw : s.pool.worker w = .running j) (hp : Tracked async p) (hm : Moved s.pool p j w)
    (hw' : ∀ i, p.worker w ≠ .running i) (ht' : (p.job j).task ≠ none) :
    Inv async { s.suspend w j with pool := p } := by
  obtain ⟨st, hstack, hcurrent, hframes, hcaller⟩ := hi.running w j hj hw
  exact
    { tracked := hp
      suspended := fun i hi' hti => by
        by_cases hij : i = j
        · subst hij
          exact ⟨st, hstack, (Function.update_self ..).trans hcurrent, hframes⟩
        · rw [hm.task i hij] at hti
          obtain ⟨x, h1, h2, h3⟩ := hi.suspended i hi' hti
          exact ⟨x, h1, (Function.update_of_ne hij _ _).trans h2, h3⟩
      running := fun u i hi' hr => by
        have hu : u ≠ w := fun h => hw' i (h ▸ hr)
        have hr' : s.pool.worker u = .running i := (hm.worker u hu).symm.trans hr
        obtain ⟨x, h1, h2, h3, h4⟩ := hi.running u i hi' hr'
        exact ⟨x, h1, (Function.update_of_ne hu _ _).trans h2, h3, h4⟩
      frames := fun x i h => by
        obtain ⟨hi', hx', hor⟩ := hi.frames x i h
        refine ⟨hi', hx', ?_⟩
        by_cases hij : i = j
        · exact .inl (hij ▸ ht')
        · refine hor.imp (fun h1 => by rwa [hm.task i hij]) fun ⟨u, hr⟩ => ⟨u, ?_⟩
          have hu : u ≠ w := fun hu => by
            rw [hu, hw] at hr
            exact hij (Worker.running.inj hr).symm
          exact (hm.worker u hu).trans hr
      current := fun u x h => by
        have hu : u ≠ w := fun hu => by
          rw [hu] at h
          exact Option.some_ne_none x (h.symm.trans (Function.update_self ..))
        obtain ⟨i, hi', hr, hx⟩ := hi.current u x ((Function.update_of_ne hu _ _).symm.trans h)
        exact ⟨i, hi', (hm.worker u hu).trans hr, hx⟩
      own := hi.own
      kept := hi.kept
      nodup := hi.nodup
      mapped := hi.mapped
      plain := hi.plain
      finished := fun i hf => hi.finished i (hm.finished ▸ hf) }

/-- A job is destroyed. -/
theorem Inv.returnStack (hi : Inv async s) (hp : Tracked async p)
    (hno : async j = true → ∀ w, s.pool.worker w ≠ .running j)
    (ht : (s.pool.job j).task = none) (hjob : p.job = s.pool.job)
    (hworker : p.worker = s.pool.worker) (hfin : p.finished = j :: s.pool.finished) :
    Inv async { s.returnStack j with pool := p } := by
  have hne : ∀ i, async i = true →
      (s.pool.job i).task ≠ none ∨ (∃ w, s.pool.worker w = .running i) →
      Function.update s.stack j none i = s.stack i := by
    intro i hi' hor
    refine Function.update_of_ne (fun hij => ?_) _ _
    subst hij
    rcases hor with h | ⟨w, h⟩
    · exact h ht
    · exact hno hi' w h
  have hstack : ∀ i x, Function.update s.stack j none i = some x → i ≠ j ∧ s.stack i = some x := by
    intro i x h
    by_cases hij : i = j
    · subst hij
      rw [Function.update_self] at h
      cases h
    · rw [Function.update_of_ne hij] at h
      exact ⟨hij, h⟩
  have hmem : ∀ x, x ∈ (s.stack j).toList ++ s.freeStacks ↔
      s.stack j = some x ∨ x ∈ s.freeStacks := by
    intro x
    rw [List.mem_append, Option.mem_toList]
  exact
    { tracked := hp
      suspended := fun i hi' hti => by
        dsimp only at hti
        rw [hjob] at hti
        obtain ⟨x, h1, h2, h3⟩ := hi.suspended i hi' hti
        exact ⟨x, (hne i hi' (.inl hti)).trans h1, h2, h3⟩
      running := fun u i hi' hr => by
        dsimp only at hr
        rw [hworker] at hr
        obtain ⟨x, h1, h2, h3, h4⟩ := hi.running u i hi' hr
        exact ⟨x, (hne i hi' (.inr ⟨u, hr⟩)).trans h1, h2, h3, h4⟩
      frames := fun x i h => by
        obtain ⟨hi', hx, hor⟩ := hi.frames x i h
        refine ⟨hi', (hne i hi' hor).trans hx, ?_⟩
        rwa [hjob, hworker]
      current := fun u x h => by
        obtain ⟨i, hi', hr, hx⟩ := hi.current u x h
        refine ⟨i, hi', by rwa [hworker], (hne i hi' (.inr ⟨u, hr⟩)).trans hx⟩
      own := fun i k x hix hkx => hi.own i k x (hstack i x hix).2 (hstack k x hkx).2
      kept := fun x hx i h => by
        obtain ⟨hij, h⟩ := hstack i x h
        rcases (hmem x).1 hx with hx | hx
        · exact hij (hi.own i j x h hx)
        · exact hi.kept x hx i h
      nodup := by
        show ((s.stack j).toList ++ s.freeStacks).Nodup
        cases hst : s.stack j with
        | none => exact hi.nodup
        | some x => exact List.nodup_cons.2 ⟨fun hx => hi.kept x hx j hst, hi.nodup⟩
      mapped := fun x => by
        refine (hi.mapped x).trans ((or_congr_left (hmem x)).trans ?_).symm
        constructor
        · rintro ((h | h) | ⟨i, h⟩)
          · exact .inr ⟨j, h⟩
          · exact .inl h
          · exact .inr ⟨i, (hstack i x h).2⟩
        · rintro (h | ⟨i, h⟩)
          · exact .inl (.inr h)
          · by_cases hij : i = j
            · exact .inl (.inl (hij ▸ h))
            · exact .inr ⟨i, (Function.update_of_ne hij _ _).trans h⟩
      plain := fun i h => by
        by_cases hij : i = j
        · subst hij
          exact Function.update_self ..
        · exact (Function.update_of_ne hij _ _).trans (hi.plain i h)
      finished := fun i hf => by
        dsimp only at hf
        rw [hfin] at hf
        by_cases hij : i = j
        · subst hij
          exact Function.update_self ..
        · exact (Function.update_of_ne hij _ _).trans
            (hi.finished i ((List.mem_cons.1 hf).resolve_left hij)) }

variable [DecidableEq S]

/-- A worker switches to a job. -/
theorem Inv.switch (hi : Inv async s) {w : W} {fresh : S} (hj : async j = true)
    (hw : s.pool.worker w = .dequeued j) (hfresh : fresh ∉ s.mapped) (hp : Tracked async p)
    (hm : Moved s.pool p j w) (hw' : p.worker w = .running j) (ht' : (p.job j).task = none) :
    Inv async { s.switch w j fresh with pool := p } := by
  by_cases ht : (s.pool.job j).task = none
  · have hfin : j ∉ s.pool.finished := by
      obtain ⟨l, hl⟩ := hi.tracked j
      have hcount := hl.finished
      rw [(hl.worker w).1 (.inl hw)] at hcount
      exact List.count_eq_zero.1 hcount
    cases hst : s.stack j with
    | some st =>
      have hswitch : s.switch w j fresh =
          { s with
            stack := Function.update s.stack j (some st)
            caller := Function.update s.caller j (some w)
            frames := Function.update s.frames st (some j)
            current := Function.update s.current w (some st) } := by
        simp [Coroutines.switch, ht, hst]
      rw [hswitch]
      refine hi.started hj hw ht hp hm hw' hfin (fun i h => hi.own i j st h hst)
        (fun h => hi.kept st h j hst) (fun _ h => h) hi.nodup (fun x h => ?_) (fun x => ?_)
        fun _ h => .inl h
      · exact Option.some.inj (h.symm.trans hst)
      · refine ⟨.inl, fun h => h.elim id fun h => ?_⟩
        rw [h]
        exact (hi.mapped st).2 (.inr ⟨j, hst⟩)
    | none =>
      have hold : ∀ st x, s.stack j = some x → x = st := fun st x h => by
        rw [hst] at h
        cases h
      cases hstacks : s.freeStacks with
      | cons st freeStacks =>
        have hswitch : s.switch w j fresh =
            { s with
              freeStacks := freeStacks
              stack := Function.update s.stack j (some st)
              caller := Function.update s.caller j (some w)
              frames := Function.update s.frames st (some j)
              current := Function.update s.current w (some st) } := by
          simp [Coroutines.switch, ht, hst, getStack, hstacks]
        have hnodup := hi.nodup
        rw [hstacks, List.nodup_cons] at hnodup
        have hmem : st ∈ s.freeStacks := hstacks ▸ List.mem_cons_self
        rw [hswitch]
        refine hi.started hj hw ht hp hm hw' hfin (fun i h => absurd h (hi.kept st hmem i)) hnodup.1
          (fun x h => hstacks ▸ List.mem_cons_of_mem _ h) hnodup.2 (hold st) (fun x => ?_)
          fun x h => ?_
        · refine ⟨.inl, fun h => h.elim id fun h => ?_⟩
          rw [h]
          exact (hi.mapped st).2 (.inl hmem)
        · rw [hstacks] at h
          exact (List.mem_cons.1 h).symm
      | nil =>
        have hswitch : s.switch w j fresh =
            { s with
              mapped := fresh :: s.mapped
              stack := Function.update s.stack j (some fresh)
              caller := Function.update s.caller j (some w)
              frames := Function.update s.frames fresh (some j)
              current := Function.update s.current w (some fresh) } := by
          simp [Coroutines.switch, ht, hst, getStack, hstacks]
        rw [hswitch]
        refine hi.started hj hw ht hp hm hw' hfin (fun i h => ?_) (fun h => ?_) (fun _ h => h)
          hi.nodup (hold fresh) (fun x => List.mem_cons.trans or_comm) fun _ h => .inl h
        · exact absurd ((hi.mapped fresh).2 (.inr ⟨i, h⟩)) hfresh
        · exact hfresh ((hi.mapped fresh).2 (.inl h))
  · have hswitch : s.switch w j fresh =
        { s with
          caller := Function.update s.caller j (some w)
          resume := Function.update s.resume j none
          current := Function.update s.current w (s.resume j) } := by
      rw [Coroutines.switch, if_pos (Option.isSome_iff_ne_none.2 ht)]
    rw [hswitch]
    exact hi.resumed hj hw ht hp hm hw' ht'

omit [DecidableEq S] in
theorem moved_run {w : W} (hc : (p.job j).hasCompleted = true) :
    Moved p (run async p w j) j w := by
  rw [run, if_pos hc]
  exact
    { task := fun i hij => (task_setJob p j i _).trans (if_neg hij)
      worker := fun u hu => (worker_setWorker _ w u _).trans (if_neg hu)
      finished := rfl }

omit [DecidableEq S] in
theorem moved_finish {w : W} : Moved p (finish p w j) j w where
  task i hij := (task_setJob p j i _).trans (if_neg hij)
  worker u hu := (worker_setWorker _ w u _).trans (if_neg hu)
  finished := rfl

omit [DecidableEq S] in
theorem finish_worker (p : State J W) (w : W) (j i : J) :
    (finish p w j).worker w ≠ .running i := by
  have hidle : (finish p w j).worker w = .idle := Function.update_self ..
  rw [hidle]
  exact fun h => by cases h

/-- A step that switches no `async` job -/
theorem inv_quiet {a : Action J W} {fresh : S} (hi : Inv async s) (hp : Tracked async p)
    (hsw : s.switched async fresh a = s) (hq : Quiet async s.pool p)
    (hf : p.finished = s.pool.finished) :
    Inv async { s.switched async fresh a with pool := p } := by
  rw [hsw]
  exact hi.quiet hp hq fun j hj => hi.finished j (hf ▸ hj)

omit [DecidableEq S] [DecidableEq W] in
theorem quiet_enqueue (p : State J W) (thrno : ℕ) : Quiet async p (enqueue sz p i thrno) := by
  rw [enqueue]
  have hjob : Quiet async p (p.setJob i { p.job i with thrno := thrno }) :=
    Quiet.setJob p fun _ => .rfl
  split_ifs
  · exact hjob
  · exact hjob.trans (.of_eq rfl rfl)

omit [DecidableEq S] in
theorem quiet_run {w : W} (hw : p.worker w = .dequeued i)
    (h : ¬((p.job i).hasCompleted = true ∧ async i = true)) : Quiet async p (run async p w i) := by
  have hother : ∀ j, p.worker w ≠ .running j := fun j hr => by
    rw [hw] at hr
    cases hr
  by_cases hc : (p.job i).hasCompleted = true
  · have hasync : ¬async i = true := fun ha => h ⟨hc, ha⟩
    rw [run, if_pos hc]
    refine (Quiet.setJob p fun ha => absurd ha hasync).trans
      (Quiet.setWorker _ fun j hj => ⟨hother j, fun hr => ?_⟩)
    exact hasync (Worker.running.inj hr ▸ hj)
  · rw [run, if_neg hc]
    exact (Quiet.setWorker p fun j _ => ⟨hother j, fun hr => by cases hr⟩).trans
      (.of_eq rfl rfl)

omit [DecidableEq S] in
/-- A job that is not `async` leaves its worker. -/
theorem quiet_plain {w : W} {k : Worker J} (t : ThreadJob W) (hw : p.worker w = .running i)
    (h : ¬async i = true) (hk : ∀ j, k ≠ .running j) :
    Quiet async p (((p.setJob i t).setWorker w k).post i) := by
  refine ((Quiet.setJob p fun ha => absurd ha h).trans
    (Quiet.setWorker _ fun j hj => ⟨fun hr => ?_, hk j⟩)).trans (.of_eq rfl rfl)
  have hij : i = j := Worker.running.inj (hw.symm.trans hr)
  exact h (hij ▸ hj)

omit [DecidableEq S] [DecidableEq W] in
theorem quiet_complete (hcalled : (p.job i).task.any AsyncTask.called = true) :
    Quiet async p (complete sz async p i) := by
  have hsome : (p.job i).task ≠ none := fun h => by
    rw [h] at hcalled
    cases hcalled
  rw [complete]
  by_cases ha : async i = true
  · rw [if_pos ha]
    have hjob : Quiet async p (p.setJob i { p.job i with task := some ⟨false, true⟩ }) :=
      Quiet.setJob p fun _ => iff_of_false (Option.some_ne_none _) hsome
    dsimp only
    split_ifs
    · exact hjob
    · exact hjob.trans (.of_eq rfl rfl)
  · rw [if_neg ha]
    refine (Quiet.setJob p fun h => absurd h ha).trans fun j hj => ⟨.rfl, fun w => ?_⟩
    have hij : i ≠ j := fun h => ha (h ▸ hj)
    show (if p.worker w = .blocked i then .running i else p.worker w) = _ ↔ p.worker w = _
    split_ifs with hw
    · rw [hw]
      exact iff_of_false (fun h => hij (Worker.running.inj h)) fun h => by cases h
    · exact .rfl

theorem inv_run {w : W} {fresh : S} (hi : Inv async s) (hw : s.pool.worker w = .dequeued i)
    (hfresh : fresh ∉ s.mapped) (hp : Tracked async (run async s.pool w i)) :
    Inv async { s.switched async fresh (.run w) with pool := run async s.pool w i } := by
  by_cases h : (s.pool.job i).hasCompleted = true ∧ async i = true
  · have hsw : s.switched async fresh (.run w) = s.switch w i fresh := by
      simp only [switched, hw]
      exact if_pos h
    have hw' : (run async s.pool w i).worker w = .running i := by
      rw [run, if_pos h.1]
      exact Function.update_self ..
    rw [hsw]
    refine hi.switch h.2 hw hfresh hp (moved_run h.1) hw' ?_
    obtain ⟨l, hl⟩ := hp i
    exact hl.task (.inr (.inr ⟨w, hw'⟩))
  · have hsw : s.switched async fresh (.run w) = s := by
      simp only [switched, hw]
      exact if_neg h
    refine inv_quiet hi hp hsw (quiet_run hw h) ?_
    rw [run]
    split_ifs
    all_goals rfl

theorem inv_finish {w : W} {fresh : S} (hi : Inv async s) (hw : s.pool.worker w = .running i)
    (hp : Tracked async (finish s.pool w i)) :
    Inv async { s.switched async fresh (.finish w) with pool := finish s.pool w i } := by
  by_cases h : async i = true
  · have hsw : s.switched async fresh (.finish w) = s.leave w := by
      simp only [switched, hw]
      exact if_pos h
    rw [hsw]
    refine hi.left h hw hp moved_finish (finish_worker _ w i) ?_
    obtain ⟨l, hl⟩ := hi.tracked i
    exact (task_setJob s.pool i i _).trans ((if_pos rfl).trans (hl.task (.inr (.inr ⟨w, hw⟩))))
  · have hsw : s.switched async fresh (.finish w) = s := by
      simp only [switched, hw]
      exact if_neg h
    exact inv_quiet hi hp hsw (quiet_plain _ hw h fun j hr => by cases hr) rfl

theorem inv_await {w : W} {fresh : S} (hi : Inv async s) (hw : s.pool.worker w = .running i)
    (hp : Tracked async (await async s.pool w i)) :
    Inv async { s.switched async fresh (.await w) with pool := await async s.pool w i } := by
  by_cases h : async i = true
  · have hsw : s.switched async fresh (.await w) = s.suspend w i := by
      simp only [switched, hw]
      exact if_pos h
    have hawait : await async s.pool w i =
        finish (s.pool.setJob i { s.pool.job i with task := some ⟨false, false⟩ }) w i := by
      rw [await, if_pos h]
    rw [hsw]
    rw [hawait] at hp ⊢
    refine hi.suspend h hw hp ?_ (finish_worker _ w i) ?_
    · exact
        { task := fun j hj =>
            (moved_finish.task j hj).trans ((task_setJob _ i j _).trans (if_neg hj))
          worker := fun u hu => moved_finish.worker u hu
          finished := rfl }
    · simp [finish, State.setJob, State.setWorker, State.post]
  · have hsw : s.switched async fresh (.await w) = s := by
      simp only [switched, hw]
      exact if_neg h
    have hawait : await async s.pool w i =
        ((s.pool.setJob i { s.pool.job i with task := some ⟨false, false⟩ }).setWorker w
          (.blocked i)).post i := by
      rw [await, if_neg h]
    rw [hawait] at hp ⊢
    exact inv_quiet hi hp hsw (quiet_plain _ hw h fun j hr => by cases hr) rfl

/-- Where the job has a task it goes on, and otherwise it gives its stack back. -/
theorem inv_threadJobDone {thrno : ℕ} {fresh : S} (hi : Inv async s)
    (hfind : (s.pool.posted.find? fun j => (s.pool.job j).thrno = thrno) = some i)
    (hp : Tracked async (threadJobDone { s.pool with posted := s.pool.posted.erase i } i)) :
    Inv async { s.switched async fresh (.threadJobDone thrno) with
      pool := threadJobDone { s.pool with posted := s.pool.posted.erase i } i } := by
  cases ht : (s.pool.job i).task with
  | some task =>
    have hsw : s.switched async fresh (.threadJobDone thrno) = s := by
      simp only [switched, hfind, ht]
      exact if_pos rfl
    have hdone : threadJobDone { s.pool with posted := s.pool.posted.erase i } i =
        State.setJob { s.pool with posted := s.pool.posted.erase i } i
          { s.pool.job i with task := some { task with called := true } } := by
      simp only [threadJobDone, ht]
    rw [hdone] at hp ⊢
    refine inv_quiet hi hp hsw ?_ rfl
    refine (Quiet.of_eq rfl rfl).trans (Quiet.setJob _ fun _ => ?_)
    exact iff_of_false (Option.some_ne_none _) (ht ▸ Option.some_ne_none _)
  | none =>
    have hsw : s.switched async fresh (.threadJobDone thrno) = s.returnStack i := by
      simp only [switched, hfind, ht]
      exact if_neg Bool.false_ne_true
    have hdone : threadJobDone { s.pool with posted := s.pool.posted.erase i } i =
        { s.pool with
          posted := s.pool.posted.erase i
          finished := i :: s.pool.finished } := by
      simp only [threadJobDone, ht]
    rw [hsw]
    rw [hdone] at hp ⊢
    refine hi.returnStack hp (fun hasync w hr => ?_) ht rfl rfl rfl
    obtain ⟨l, hl⟩ := hi.tracked i
    obtain rfl := loc_eq hl.posted (List.mem_of_find?_eq_some hfind)
    cases (hl.worker w).1 (.inr hr)

theorem Inv.step {a : Action J W × S} (hi : Inv async s) (ha : Unbroken s.pool a.1)
    (hs : step sz async s a = some s') : Inv async s' := by
  obtain ⟨a, fresh⟩ := a
  rw [Coroutines.step] at hs
  split_ifs at hs with hfresh
  obtain ⟨p, hstep, rfl⟩ := Option.map_eq_some_iff.1 hs
  have hp := tracked_step hi.tracked ha hstep
  cases a with
  | enqueue i thrno =>
    rw [ThreadPool.step] at hstep
    split_ifs at hstep
    obtain rfl := Option.some.inj hstep
    refine inv_quiet hi hp rfl (quiet_enqueue _ _) ?_
    rw [enqueue]
    split_ifs
    · rfl
    · rfl
  | dequeue w =>
    rw [ThreadPool.step] at hstep
    split at hstep
    next i queue hw _ =>
      obtain rfl := Option.some.inj hstep
      refine inv_quiet hi hp rfl ?_ rfl
      refine (Quiet.of_eq rfl rfl).trans (Quiet.setWorker _ fun j _ => ⟨fun hr => ?_, fun hr => ?_⟩)
      · cases hw.symm.trans hr
      · cases hr
    next => cases hstep
  | run w =>
    rw [ThreadPool.step] at hstep
    split at hstep
    next i hw =>
      obtain rfl := Option.some.inj hstep
      exact inv_run hi hw hfresh hp
    next => cases hstep
  | finish w =>
    rw [ThreadPool.step] at hstep
    split at hstep
    next i hw =>
      obtain rfl := Option.some.inj hstep
      exact inv_finish hi hw hp
    next => cases hstep
  | await w =>
    rw [ThreadPool.step] at hstep
    split at hstep
    next i hw =>
      obtain rfl := Option.some.inj hstep
      exact inv_await hi hw hp
    next => cases hstep
  | threadJobDone thrno =>
    rw [ThreadPool.step] at hstep
    split at hstep
    next i hfind =>
      obtain rfl := Option.some.inj hstep
      exact inv_threadJobDone hi hfind hp
    next => cases hstep
  | complete i =>
    rw [ThreadPool.step] at hstep
    split_ifs at hstep with hcalled
    obtain rfl := Option.some.inj hstep
    refine inv_quiet hi hp rfl (quiet_complete hcalled) ?_
    rw [complete]
    split_ifs
    · dsimp only
      split_ifs
      · rfl
      · rfl
    · rfl
  | cancel i =>
    rw [ThreadPool.step] at hstep
    split_ifs at hstep
    obtain rfl := Option.some.inj hstep
    rw [cancel_eq ha] at hp ⊢
    exact inv_quiet hi hp rfl (Quiet.setJob _ fun _ => .rfl) rfl

theorem inv_of_run (h : (coroutines J W S sz async).Run (fun s a => Unbroken s.pool a.1) s) :
    Inv async s :=
  h.invariant
    (fun s h => by
      obtain rfl : s = init := h
      exact
        { tracked := tracked_create
          suspended := fun _ _ h => absurd rfl h
          running := fun _ _ _ h => by cases h
          frames := fun _ _ h => by cases h
          current := fun _ _ h => by cases h
          own := fun _ _ _ h => by cases h
          kept := fun _ h => absurd h List.not_mem_nil
          nodup := List.nodup_nil
          mapped := fun _ => ⟨fun h => absurd h List.not_mem_nil, fun h => by
            rcases h with h | ⟨_, h⟩
            · exact absurd h List.not_mem_nil
            · cases h⟩
          plain := fun _ _ => rfl
          finished := fun _ h => absurd h List.not_mem_nil })
    fun _ _ _ hi ha hs => hi.step ha hs

/-- The worker switches to a stack that nobody runs on: one without calls for a job that starts, the
one with its own calls for a job that goes on. -/
def Enters (s s' : Coroutines J W S) (w : W) (j : J) : Prop :=
  s.current w = none ∧ ∃ st, s'.stack j = some st ∧ s'.current w = some st ∧
    (∀ u, s.current u ≠ some st) ∧ s.frames st = if (s.pool.job j).task.isSome then some j else none

/-- The worker runs on the stack of the job, and `caller` of it is in the loop of this worker. -/
def Leaves (s s' : Coroutines J W S) (w : W) (j : J) : Prop :=
  s.caller j = some w ∧ s'.current w = none ∧
    ∃ st, s.stack j = some st ∧ s.current w = some st ∧ s.frames st = some j

/-- No switch of a step goes wrong. -/
def Sound (async : J → Bool) (s s' : Coroutines J W S) : Action J W → Prop
  | .run w => ∀ j, s.pool.worker w = .dequeued j → (s.pool.job j).hasCompleted = true →
      async j = true → Enters s s' w j
  | .finish w => ∀ j, s.pool.worker w = .running j → async j = true → Leaves s s' w j
  | .await w => ∀ j, s.pool.worker w = .running j → async j = true → Leaves s s' w j
  | _ => ∀ st ∈ s'.freeStacks, s'.frames st = none ∧ ∀ u, s'.current u ≠ some st

omit [DecidableEq S] in
/-- What is kept for other jobs is not used. -/
theorem Inv.kept_unused (hi : Inv async s) {st : S} (hst : st ∈ s.freeStacks) :
    s.frames st = none ∧ ∀ u, s.current u ≠ some st := by
  constructor
  · by_contra hne
    obtain ⟨i, hframes⟩ := Option.ne_none_iff_exists'.1 hne
    exact hi.kept st hst i (hi.frames st i hframes).2.1
  · intro u hcur
    obtain ⟨i, -, -, h⟩ := hi.current u st hcur
    exact hi.kept st hst i h

omit [DecidableEq S] in
theorem Inv.leaves (hi : Inv async s) {w : W} (hj : async j = true)
    (hw : s.pool.worker w = .running j) (hs : s'.current w = none) : Leaves s s' w j := by
  obtain ⟨st, h1, h2, h3, h4⟩ := hi.running w j hj hw
  exact ⟨h4, hs, st, h1, h2, h3⟩

theorem Inv.enters (hi : Inv async s) (hi' : Inv async s') {w : W} {fresh : S} (hj : async j = true)
    (hw : s.pool.worker w = .dequeued j) (hw' : s'.pool.worker w = .running j)
    (hfresh : fresh ∉ s.mapped)
    (hsw : s'.stack = (s.switch w j fresh).stack) : Enters s s' w j := by
  have hidle : ∀ u, s.pool.worker u ≠ .running j := by
    intro u hr
    by_cases hu : u = w
    · rw [hu, hw] at hr
      cases hr
    · exact hi.alone (.inl hw) hu hr
  have hcur : s.current w = none := hi.current_eq_none fun i _ hr => by
    rw [hw] at hr
    cases hr
  obtain ⟨st, h1, h2, -, -⟩ := hi'.running w j hj hw'
  refine ⟨hcur, st, h1, h2, ?_⟩
  cases hst : s.stack j with
  | some x =>
    obtain rfl : x = st := by
      have hx : (s.switch w j fresh).stack j = some x := by
        by_cases ht : (s.pool.job j).task.isSome
        · rw [Coroutines.switch, if_pos ht]
          exact hst
        · rw [Coroutines.switch, if_neg ht]
          simp [hst]
      rw [hsw, hx] at h1
      exact Option.some.inj h1
    refine ⟨hi.current_ne hst hidle, ?_⟩
    split_ifs with ht
    · obtain ⟨y, h3, -, h5⟩ := hi.suspended j hj (Option.isSome_iff_ne_none.1 ht)
      rw [hst] at h3
      rwa [Option.some.inj h3]
    · exact hi.frames_eq_none hst (by simpa using ht) hidle
  | none =>
    have ht : (s.pool.job j).task = none := by
      by_contra ht
      obtain ⟨y, h3, -, -⟩ := hi.suspended j hj ht
      rw [hst] at h3
      cases h3
    have hx : (s.switch w j fresh).stack j = some (s.getStack fresh).1 := by
      simp [Coroutines.switch, ht, hst]
    rw [hsw, hx] at h1
    obtain rfl := Option.some.inj h1
    rw [ht, Option.isSome_none, if_neg Bool.false_ne_true]
    rw [getStack]
    cases hstacks : s.freeStacks with
    | cons y ys =>
      have hmem : y ∈ s.freeStacks := hstacks ▸ List.mem_cons_self
      have hy := hi.kept_unused hmem
      exact ⟨hy.2, hy.1⟩
    | nil =>
      have hno : ∀ i, s.stack i ≠ some fresh := fun i h =>
        hfresh ((hi.mapped fresh).2 (.inr ⟨i, h⟩))
      constructor
      · intro u hcur
        obtain ⟨i, -, -, h⟩ := hi.current u fresh hcur
        exact hno i h
      · by_contra hne
        obtain ⟨i, hframes⟩ := Option.ne_none_iff_exists'.1 hne
        exact hno i (hi.frames fresh i hframes).2.1

theorem Inv.sound {a : Action J W × S} (hi : Inv async s) (ha : Unbroken s.pool a.1)
    (hs : Coroutines.step sz async s a = some s') :
    Sound async s s' a.1 := by
  have hi' := hi.step ha hs
  obtain ⟨a, fresh⟩ := a
  rw [Coroutines.step] at hs
  split_ifs at hs with hfresh
  obtain ⟨p, hstep, rfl⟩ := Option.map_eq_some_iff.1 hs
  cases a with
  | run w =>
    intro j hw hc hj
    have hsw : s.switched async fresh (.run w) = s.switch w j fresh := by
      simp only [switched, hw]
      exact if_pos ⟨hc, hj⟩
    rw [ThreadPool.step, hw] at hstep
    obtain rfl := Option.some.inj hstep
    have hstack : (s.switched async fresh (.run w)).stack = (s.switch w j fresh).stack :=
      congrArg Coroutines.stack hsw
    refine hi.enters hi' hj hw ?_ hfresh hstack
    show (run async s.pool w j).worker w = _
    rw [run, if_pos hc]
    exact Function.update_self ..
  | finish w =>
    intro j hw hj
    refine hi.leaves hj hw ?_
    simp only [switched, hw, hj, if_true]
    exact Function.update_self ..
  | await w =>
    intro j hw hj
    refine hi.leaves hj hw ?_
    simp only [switched, hw, hj, if_true]
    exact Function.update_self ..
  | enqueue i thrno => exact fun st hst => hi'.kept_unused hst
  | dequeue w => exact fun st hst => hi'.kept_unused hst
  | threadJobDone thrno => exact fun st hst => hi'.kept_unused hst
  | complete i => exact fun st hst => hi'.kept_unused hst
  | cancel i => exact fun st hst => hi'.kept_unused hst

/-- Nobody has the job any more, and it is destroyed once. -/
structure Destroyed (s : Coroutines J W S) (j : J) : Prop where
  stack : s.stack j = none
  once : s.pool.finished.count j = 1
  queue : j ∉ s.pool.queue
  posted : j ∉ s.pool.posted
  worker : ∀ w, (s.pool.worker w).Elsewhere j
  task : (s.pool.job j).task = none

omit [DecidableEq S] in
theorem Inv.destroyed (hi : Inv async s) (hj : j ∈ s.pool.finished) : Destroyed s j := by
  obtain ⟨l, hl⟩ := hi.tracked j
  obtain rfl := loc_eq hl.finished hj
  exact
    { stack := hi.finished j hj
      once := hl.finished
      queue := List.count_eq_zero.1 hl.queue
      posted := List.count_eq_zero.1 hl.posted
      worker := fun w => hl.elsewhere (hl.not_blocked (by simp) (by simp) w) (by simp)
      task := hl.task (.inr (.inl rfl)) }

/-- In every run in which no job is cancelled while its worker is blocked, each stack is kept for later
or belongs to one job, and never both, a destroyed job is used by nobody, and every switch between a
worker and a job is sound. -/
theorem stacks_isolated
    (h : (coroutines J W S sz async).Run (fun s a => Unbroken s.pool a.1) s) :
    s.freeStacks.Nodup ∧ (∀ st, st ∈ s.mapped ↔ st ∈ s.freeStacks ∨ ∃ j, s.stack j = some st) ∧
      (∀ i j st, s.stack i = some st → st ∉ s.freeStacks ∧ (s.stack j = some st → i = j)) ∧
      (∀ j ∈ s.pool.finished, Destroyed s j) ∧
      ∀ a s', Unbroken s.pool a.1 → step sz async s a = some s' → Sound async s s' a.1 := by
  have hi := inv_of_run h
  refine ⟨hi.nodup, hi.mapped, fun i j st h => ⟨fun hst => hi.kept st hst i h, hi.own i j st h⟩,
    fun j hj => hi.destroyed hj, fun a s' ha hs => hi.sound ha hs⟩

/-- A sound test for `Unbroken` with two workers -/
def unbrokenTest (s : State J Bool) : Action J Bool → Bool
  | .cancel j => s.worker true ≠ .blocked j && s.worker false ≠ .blocked j
  | _ => true

omit [DecidableEq S] in
theorem unbroken_of_test (s : Coroutines J Bool S) (a : Action J Bool × S)
    (h : unbrokenTest s.pool a.1 = true) : Unbroken s.pool a.1 := by
  obtain ⟨a, fresh⟩ := a
  cases a with
  | cancel j =>
    obtain ⟨htrue, hfalse⟩ := Bool.and_eq_true_iff.1 h
    intro w
    cases w with
    | true => exact of_decide_eq_true htrue
    | false => exact of_decide_eq_true hfalse
  | _ => trivial

/-- A job goes on after its task on another worker than the one it started on, after a job that was
cancelled on that worker gave its stack back. -/
theorem stacks_isolated_moved : ∃ s : Coroutines Bool Bool ℕ, Destroyed s false ∧
    s.current true = some 7 ∧ s.stack true = some 7 ∧ s.freeStacks = [8] := by
  have hrun : ((coroutines Bool Bool ℕ 4 fun _ => true).execOk
      (fun s a => unbrokenTest s.pool a.1)
      [(.enqueue true 0, 7), (.dequeue false, 7), (.run false, 7), (.await false, 8),
        (.threadJobDone 0, 8), (.enqueue false 0, 8), (.dequeue true, 8), (.run true, 8),
        (.cancel false, 9), (.finish true, 9), (.threadJobDone 0, 9), (.complete true, 9),
        (.dequeue true, 9), (.run true, 9)] init).any
      (fun s => s.pool.finished = [false] ∧ s.current true = some 7 ∧ s.stack true = some 7 ∧
        s.freeStacks = [8]) = true := by decide
  obtain ⟨s, hs, hp⟩ := Machine.exists_run rfl unbroken_of_test hrun
  obtain ⟨hfinished, hcurrent, hstack, hfree⟩ := of_decide_eq_true hp
  refine ⟨s, (stacks_isolated hs).2.2.2.1 false ?_, hcurrent, hstack, hfree⟩
  rw [hfinished]
  exact List.mem_singleton_self false

end Coroutines

end PoserCore.ThreadPool
