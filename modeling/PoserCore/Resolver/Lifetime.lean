import PoserCore.Events.Dispatch
import PoserCore.Resolver.Model

/-!
# Releasing the resolver

A resolver with a job is released by `resolveDone`, after the job is done, and one whose handlers
`resolveDone` runs when they have returned; any other one is released by `PSC_Resolver_destroy`
itself.  That is too early in a handler that the synchronous fallback of `PSC_Resolver_resolve`
runs, because the raise goes on after it: `Act.Ok` excludes just this call, `resolver_lifetime` says
that everything else is safe, and that this call never is.
-/

namespace PoserCore.Resolver

open Lib Events

/-- `PSC_Resolver_destroy` is not called without a job while the fallback raises `done`. -/
def Act.Ok (s : State) (a : Act) : Prop :=
  a = .destroy → (∃ f ∈ s.stack, f.caller = .resolve) → s.self.job.isSome

instance (s : State) (a : Act) : Decidable (a.Ok s) :=
  inferInstanceAs (Decidable (_ → _ → _))

/-- Which raises are running. -/
inductive Phase (s : State) : Prop
  | owner (h : ∀ f ∈ s.stack, f.caller = .resolve) (hh : s.self.handling = 0)
  | resolveDone (f : Frame) (job : ℕ) (h : s.stack = [f]) (hf : f.caller = .resolveDone job)
      (hjob : s.self.job = some job) (hr : s.released = 0) (hp : s.self.pool = true)
      (hh : (s.destroyed = false ∧ s.self.handling = 1) ∨
        (s.destroyed = true ∧ s.self.handling = -1))

structure Inv (s : State) : Prop where
  fault : s.fault = false
  phase : Phase s
  once : s.released = 0 ∨ (s.released = 1 ∧ s.destroyed = true ∧ s.stack = [])
  /-- A job that is not done is the resolver's, which is still there. -/
  jobs : ∀ n, (s.jobs n).isSome → s.released = 0 ∧ s.self.job = some n
  job : s.released = 0 → ∀ n, s.self.job = some n → (s.jobs n).isSome
  live : s.destroyed = false → s.released = 0 ∧ s.self.pool = true
  /-- A resolver that was destroyed and is still there waits for its handlers or its job. -/
  waits : s.destroyed = true → s.released = 0 →
    s.self.handling = -1 ∨ (s.self.pool = false ∧ s.self.job.isSome)

variable {pool : Pool} {s s' : State} {a : Act}

theorem inv_create (self : Addr) (entry : Addr → EvHandlerEntry) : Inv (create self entry) where
  fault := rfl
  phase := .owner (fun _ hf => nomatch hf) rfl
  once := Or.inl rfl
  jobs _ h := nomatch h
  job _ _ h := nomatch h
  live _ := ⟨rfl, rfl⟩
  waits h := nomatch h

/-! ## Calls of the owner -/

theorem calls_iff : s.calls = true ↔ s.fault = false ∧ s.released = 0 ∧
    ∀ f rest, s.stack = f :: rest → f.raise.calling = true := by
  unfold State.calls
  cases h : s.stack with
  | nil => simp
  | cons f rest =>
    simp only [Bool.and_eq_true, Bool.not_eq_true', decide_eq_true_eq, List.cons.injEq, and_imp]
    constructor
    · rintro ⟨⟨hf, hr⟩, hc⟩
      refine ⟨hf, hr, ?_⟩
      rintro f' rest' rfl rfl
      exact hc
    · rintro ⟨hf, hr, hc⟩
      exact ⟨⟨hf, hr⟩, hc f rest rfl rfl⟩

/-- A change of the event, or of the number of addresses. -/
theorem Inv.self (h : Inv s) {r : Resolver} (hpool : r.pool = s.self.pool)
    (hjob : r.job = s.self.job) (hhandling : r.handling = s.self.handling) :
    Inv { s with self := r } := by
  refine ⟨h.fault, ?_, h.once, ?_, ?_, ?_, ?_⟩
  · cases h.phase with
    | owner hs hh => exact .owner hs (hhandling.trans hh)
    | resolveDone f job hs hf hj hr hp hh =>
      exact .resolveDone f job hs hf (hjob.trans hj) hr (hpool.trans hp) (hhandling.symm ▸ hh)
  · intro n hn
    exact ⟨(h.jobs n hn).1, hjob.trans (h.jobs n hn).2⟩
  · intro hr n hn
    exact h.job hr n (hjob.symm.trans hn)
  · intro hd
    exact ⟨(h.live hd).1, hpool.trans (h.live hd).2⟩
  · intro hd hr
    change r.handling = -1 ∨ r.pool = false ∧ r.job.isSome
    rw [hhandling, hpool, hjob]
    exact h.waits hd hr

theorem Inv.addAddr (h : Inv s) : Inv (addAddr s) := by
  unfold Resolver.addAddr
  split_ifs
  · exact h
  · exact h.self rfl rfl rfl

theorem Inv.resolve (h : Inv s) (hr : s.released = 0) (forceAsync : Bool) (p : ThreadPool) :
    Inv (resolve s forceAsync p) := by
  unfold Resolver.resolve
  split_ifs with hj hp hf
  · exact h
  · -- the pool takes the job
    have hnone : s.self.job = none := by
      rw [← Option.not_isSome_iff_eq_none]
      exact fun hs => hj (Or.inl hs)
    have hjobs : ∀ n, s.jobs n = none := by
      intro n
      rw [← Option.not_isSome_iff_eq_none]
      intro hn
      have := (h.jobs n hn).2
      simp [hnone] at this
    refine ⟨h.fault, ?_, h.once, ?_, ?_, h.live, ?_⟩
    · cases h.phase with
      | owner hs hh => exact .owner hs hh
      | resolveDone f job hs hf hjob hr hp hh => simp [hnone] at hjob
    · intro n hn
      refine ⟨hr, ?_⟩
      change (Function.update s.jobs s.created (some true) n).isSome at hn
      rw [Function.update_apply] at hn
      split_ifs at hn with he
      · exact congrArg some he.symm
      · rw [hjobs n] at hn
        cases hn
    · intro _ n hn
      obtain rfl : s.created = n := Option.some.inj hn
      change (Function.update s.jobs s.created (some true) s.created).isSome
      rw [Function.update_self]
      rfl
    · intro hd _
      rcases h.waits hd hr with hh | ⟨hp, -⟩
      · exact Or.inl hh
      · exact Or.inr ⟨hp, rfl⟩
  · exact h
  · -- the fallback
    have hnone : s.self.job = none := by
      rw [← Option.not_isSome_iff_eq_none]
      exact fun hs => hj (Or.inl hs)
    refine ⟨h.fault, ?_, ?_, h.jobs, h.job, h.live, h.waits⟩
    · cases h.phase with
      | owner hs hh =>
        refine .owner ?_ hh
        intro f hf
        rcases List.mem_cons.1 hf with rfl | hf
        · rfl
        · exact hs f hf
      | resolveDone f job hs hf hjob hr hp hh => simp [hnone] at hjob
    · rcases h.once with h0 | ⟨h1, -⟩
      · exact Or.inl h0
      · omega

theorem jobs_cancel (s : State) (job n : ℕ) :
    ((cancel s job).jobs n).isSome = (s.jobs n).isSome := by
  unfold cancel
  simp only [Function.update_apply]
  split_ifs with h
  · subst h
    cases s.jobs n <;> rfl
  · rfl

theorem Inv.cancel (h : Inv s) (job : ℕ) : Inv (cancel s job) := by
  refine ⟨h.fault, ?_, h.once, ?_, ?_, h.live, h.waits⟩
  · cases h.phase with
    | owner hs hh => exact .owner hs hh
    | resolveDone f job hs hf hj hr hp hh => exact .resolveDone f job hs hf hj hr hp hh
  · intro n hn
    rw [jobs_cancel] at hn
    exact h.jobs n hn
  · intro hr n hn
    rw [jobs_cancel]
    exact h.job hr n hn

theorem destroyDone_job (r : Resolver) : r.destroyDone.job = r.job := by
  unfold Resolver.destroyDone
  split_ifs <;> rfl

theorem destroyDone_handling (r : Resolver) : r.destroyDone.handling = r.handling := by
  unfold Resolver.destroyDone
  split_ifs <;> rfl

theorem destroyDone_pool (r : Resolver) : r.destroyDone.pool = false := by
  unfold Resolver.destroyDone
  split_ifs with h
  · rfl
  · simpa using h

theorem Inv.destroy (h : Inv s) (hr : s.released = 0) (hd : s.destroyed = false)
    (hok : (∃ f ∈ s.stack, f.caller = .resolve) → s.self.job.isSome) :
    Inv (destroy { s with destroyed := true }) := by
  unfold Resolver.destroy
  cases h.phase with
  | resolveDone f job hs hf hj _ hp hh =>
    -- `resolveDone` sees the flag when its handlers have returned
    have hh1 : s.self.handling = 1 := by
      rcases hh with ⟨-, hh⟩ | ⟨hd', -⟩
      · exact hh
      · simp [hd] at hd'
    rw [if_pos (by simp [hh1])]
    exact ⟨h.fault, .resolveDone f job hs hf hj hr hp (Or.inr ⟨rfl, rfl⟩), Or.inl hr, h.jobs, h.job,
      (nomatch ·), fun _ _ => Or.inl rfl⟩
  | owner hs hh =>
    rw [if_neg (by simp [hh])]
    dsimp only
    rw [destroyDone_job]
    cases hj : s.self.job with
    | some job =>
      have hinv : Inv { s with self := s.self.destroyDone, destroyed := true } := by
        refine ⟨h.fault, .owner hs (by rw [destroyDone_handling]; exact hh), Or.inl hr, ?_, ?_,
          (nomatch ·), fun _ _ => Or.inr ⟨destroyDone_pool _, ?_⟩⟩
        · intro n hn
          rw [destroyDone_job]
          exact h.jobs n hn
        · intro _ n hn
          rw [destroyDone_job] at hn
          exact h.job hr n hn
        · rw [destroyDone_job, hj]
          rfl
      exact hinv.cancel job
    | none =>
      have hstack : s.stack = [] := by
        rw [List.eq_nil_iff_forall_not_mem]
        intro f hf
        have hsome := hok ⟨f, hf, hs f hf⟩
        simp [hj] at hsome
      have hjobs : ∀ n, (s.jobs n).isSome → False := by
        intro n hn
        have hn := (h.jobs n hn).2
        simp [hj] at hn
      refine ⟨h.fault, .owner hs (by rw [destroyDone_handling]; exact hh),
        Or.inr ⟨by simp [hr], rfl, hstack⟩, fun n hn => absurd hn (hjobs n), ?_, (nomatch ·), ?_⟩
      · intro h0
        simp at h0
      · intro _ h0
        simp at h0

/-! ## The end of a job -/

theorem jobs_jobEnd (s : State) (job n : ℕ) :
    (s.jobEnd job).jobs n = if n = job then none else s.jobs n := by
  unfold State.jobEnd
  exact Function.update_apply ..

/-- Only the job that ends was the resolver's. -/
theorem Inv.jobs_end (h : Inv s) {job : ℕ} (hj : s.self.job = some job) (n : ℕ) :
    ((s.jobEnd job).jobs n).isSome → False := by
  intro hn
  rw [jobs_jobEnd] at hn
  split_ifs at hn with he
  · cases hn
  · have := (h.jobs n hn).2
    rw [hj] at this
    exact he (Option.some.inj this).symm

theorem Inv.resolveDone (h : Inv s) (hs : s.stack = []) {job : ℕ} (hj : (s.jobs job).isSome) :
    Inv (resolveDone s job) := by
  obtain ⟨hr, hjob⟩ := h.jobs job hj
  have hh : s.self.handling = 0 := by
    cases h.phase with
    | owner _ hh => exact hh
    | resolveDone f job hf => simp [hs] at hf
  have hnone := h.jobs_end hjob
  unfold Resolver.resolveDone
  rw [if_neg (by simp [hr])]
  split_ifs with hp hc
  · -- the handlers are called
    have hd : s.destroyed = false := by
      rw [← Bool.not_eq_true]
      intro hd
      rcases h.waits hd hr with hw | ⟨hw, -⟩
      · omega
      · simp [hp] at hw
    refine ⟨h.fault, ?_, Or.inl hr, h.jobs, h.job, h.live, ?_⟩
    · exact .resolveDone _ job (congrArg _ hs) rfl hjob hr hp (Or.inl ⟨hd, rfl⟩)
    · intro hd'
      simp [State.raiseDone, hd] at hd'
  · -- the job was canceled, but not by the owner of the resolver
    have hd : s.destroyed = false := by
      rw [← Bool.not_eq_true]
      intro hd
      rcases h.waits hd hr with hw | ⟨hw, -⟩
      · omega
      · simp [hp] at hw
    refine ⟨h.fault, .owner ?_ hh, Or.inl hr, fun n hn => absurd hn (hnone n), ?_, h.live, ?_⟩
    · intro f hf
      change f ∈ s.stack at hf
      rw [hs] at hf
      cases hf
    · exact fun _ n hn => nomatch hn
    · intro hd'
      simp [State.jobEnd, hd] at hd'
  · -- the owner has destroyed it before
    have hd : s.destroyed = true := by
      by_contra hd
      rw [Bool.not_eq_true] at hd
      exact hp (h.live hd).2
    refine ⟨h.fault, .owner ?_ hh, Or.inr ⟨by simp [State.jobEnd, hr], hd, hs⟩,
      fun n hn => absurd hn (hnone n), ?_, ?_, ?_⟩
    · intro f hf
      change f ∈ s.stack at hf
      rw [hs] at hf
      cases hf
    · intro h0
      simp [State.jobEnd] at h0
    · intro hd'
      simp [State.jobEnd, hd] at hd'
    · intro _ h0
      simp [State.jobEnd] at h0

theorem Inv.resolveDoneEnd (h : Inv s) {f : Frame} {rest : List Frame} (hs : s.stack = f :: rest)
    {job : ℕ} (hf : f.caller = .resolveDone job) :
    Inv (resolveDoneEnd { s with stack := rest } job) := by
  cases h.phase with
  | owner ho hh =>
    have := ho f (by rw [hs]; exact .head _)
    simp [hf] at this
  | resolveDone f' job' hs' hf' hjob hr hp hh =>
    obtain ⟨rfl, rfl⟩ : f = f' ∧ rest = [] := List.cons.inj (hs.symm.trans hs')
    obtain rfl : job = job' := Caller.resolveDone.inj (hf.symm.trans hf')
    have hnone := h.jobs_end hjob
    unfold Resolver.resolveDoneEnd
    rw [if_neg (by simp [hr])]
    rcases hh with ⟨hd, hh⟩ | ⟨hd, hh⟩
    · rw [if_neg (by simp [hh])]
      refine ⟨h.fault, .owner (fun f hf => nomatch hf) rfl, Or.inl hr,
        fun n hn => absurd hn (hnone n), fun _ n hn => (nomatch hn), h.live, ?_⟩
      intro hd'
      simp [State.jobEnd, hd] at hd'
    · -- a handler has destroyed it
      rw [if_pos (by simp [hh])]
      unfold Resolver.destroy
      rw [if_neg (by simp)]
      dsimp only
      rw [destroyDone_job]
      refine ⟨h.fault, .owner (fun f hf => nomatch hf) ?_, Or.inr ⟨?_, hd, rfl⟩,
        fun n hn => absurd hn (hnone n), ?_, ?_, ?_⟩
      · exact destroyDone_handling _
      · simp [State.jobEnd, hr]
      · intro h0
        simp [State.jobEnd] at h0
      · intro hd'
        simp [State.jobEnd, hd] at hd'
      · intro _ h0
        simp [State.jobEnd] at h0

/-! ## The raises -/

/-- A raise that goes on, with a resolver that is still there. -/
theorem Inv.top (h : Inv s) (hr : s.released = 0) {f : Frame} {rest : List Frame}
    (hs : s.stack = f :: rest) (f' : Frame) (hf : f'.caller = f.caller) (done : Event) :
    Inv { s with self := { s.self with done := done }, stack := f' :: rest } := by
  refine ⟨h.fault, ?_, Or.inl hr, h.jobs, h.job, h.live, h.waits⟩
  cases h.phase with
  | owner ho hh =>
    refine .owner ?_ hh
    intro g hg
    rw [hs] at ho
    rcases List.mem_cons.1 hg with rfl | hg
    · exact hf.trans (ho f (.head _))
    · exact ho g (.tail _ hg)
  | resolveDone g job hg hc hjob hr hp hh =>
    obtain ⟨rfl, rfl⟩ : f = g ∧ rest = [] := List.cons.inj (hs.symm.trans hg)
    exact .resolveDone f' job rfl (hf.trans hc) hjob hr hp hh

/-- A resolver with a raise on the stack is there. -/
theorem Inv.released_of_stack (h : Inv s) {f : Frame} {rest : List Frame}
    (hs : s.stack = f :: rest) : s.released = 0 := by
  rcases h.once with h0 | ⟨-, -, hn⟩
  · exact h0
  · simp [hs] at hn

theorem Inv.visit (h : Inv s) {f : Frame} {rest : List Frame} (hs : s.stack = f :: rest)
    (entry : Addr) : Inv (visit s f.caller f.raise entry rest) := by
  have hr := h.released_of_stack hs
  unfold Resolver.visit
  rw [if_neg (by simp [hr])]
  have hframe : ∃ r, (Events.visit s.self.done f.raise entry).frame = some r := by
    unfold Events.visit
    dsimp only
    split_ifs <;> exact ⟨_, rfl⟩
  obtain ⟨r, hv⟩ := hframe
  dsimp only
  rw [hv]
  exact h.top hr hs ⟨f.caller, r⟩ rfl _

theorem Inv.ret (h : Inv s) {f : Frame} {rest : List Frame} (hs : s.stack = f :: rest) :
    Inv (ret s f.caller f.raise rest) := by
  have hr := h.released_of_stack hs
  unfold Resolver.ret
  rw [if_neg (by simp [hr])]
  exact h.top hr hs
    ⟨f.caller, { f.raise with entry := s.self.done.handling, calling := false }⟩ rfl s.self.done

/-! ## Runs -/

theorem Inv.step (h : Inv s) (hok : a.Ok s) (hs : step pool s a = some s') : Inv s' := by
  cases a with
  | op o =>
    simp only [Resolver.step] at hs
    split_ifs at hs with hc
    obtain rfl := Option.some.inj hs
    exact h.self rfl rfl rfl
  | addAddr =>
    simp only [Resolver.step] at hs
    split_ifs at hs with hc
    obtain rfl := Option.some.inj hs
    exact h.addAddr
  | resolve forceAsync p =>
    simp only [Resolver.step] at hs
    split_ifs at hs with hc
    obtain rfl := Option.some.inj hs
    exact h.resolve (calls_iff.1 hc).2.1 forceAsync p
  | destroy =>
    simp only [Resolver.step] at hs
    split_ifs at hs with hc
    rw [Bool.and_eq_true, Bool.not_eq_true'] at hc
    obtain rfl := Option.some.inj hs
    exact h.destroy (calls_iff.1 hc.1).2.1 hc.2 (hok rfl)
  | cancel job =>
    simp only [Resolver.step] at hs
    split_ifs at hs with hc
    obtain rfl := Option.some.inj hs
    exact h.cancel job
  | threadJobDone job =>
    simp only [Resolver.step] at hs
    split_ifs at hs with hc
    simp only [Bool.and_eq_true, List.isEmpty_iff] at hc
    obtain rfl := Option.some.inj hs
    exact h.resolveDone hc.1.2 hc.2
  | visit =>
    simp only [Resolver.step] at hs
    split at hs
    · rename_i caller id args entry rest hf hst
      obtain rfl := Option.some.inj hs
      exact h.visit (f := ⟨caller, ⟨id, args, some entry, false⟩⟩) hst entry
    · cases hs
  | ret =>
    simp only [Resolver.step] at hs
    split at hs
    · rename_i caller id args entry rest hf hst
      obtain rfl := Option.some.inj hs
      exact h.ret (f := ⟨caller, ⟨id, args, entry, true⟩⟩) hst
    · cases hs
  | done =>
    simp only [Resolver.step] at hs
    split at hs
    · rename_i caller id args rest hf hst
      cases caller with
      | resolve =>
        obtain rfl := Option.some.inj hs
        have hr := h.released_of_stack hst
        refine ⟨h.fault, ?_, Or.inl hr, h.jobs, h.job, h.live, h.waits⟩
        cases h.phase with
        | owner ho hh =>
          rw [hst] at ho
          exact .owner (fun g hg => ho g (.tail _ hg)) hh
        | resolveDone g job hg hc =>
          obtain ⟨rfl, -⟩ := List.cons.inj (hst.symm.trans hg)
          cases hc
      | resolveDone job =>
        obtain rfl := Option.some.inj hs
        exact h.resolveDoneEnd hst rfl
    · cases hs

theorem inv_of_run (h : (machine pool).Run (fun s a => a.Ok s) s) : Inv s := by
  refine h.invariant ?_ fun s a s' hi hok hs => hi.step hok hs
  rintro s ⟨self, entry, rfl⟩
  exact inv_create self entry

/-- A resolver that has no job and runs no raise is released when it has been destroyed. -/
theorem Inv.released_once (h : Inv s) (hd : s.destroyed = true) (hs : s.stack = [])
    (hj : ∀ n, s.jobs n = none) : s.released = 1 := by
  rcases h.once with h0 | ⟨h1, -⟩
  · exfalso
    have hh : s.self.handling = 0 := by
      cases h.phase with
      | owner _ hh => exact hh
      | resolveDone f job hf => simp [hs] at hf
    rcases h.waits hd h0 with hw | ⟨-, hw⟩
    · omega
    · obtain ⟨n, hn⟩ := Option.isSome_iff_exists.1 hw
      have := h.job h0 n hn
      simp [hj n] at this
  · exact h1

/-- The call that `Act.Ok` excludes releases the resolver, and the raise goes on in it. -/
theorem fault_of_excluded (h : Inv s) (hs : step pool s .destroy = some s')
    (hn : ¬ Act.Ok s .destroy) :
    s'.released = 1 ∧ ∃ s'', step pool s' .ret = some s'' ∧ s''.fault = true := by
  unfold Act.Ok at hn
  rw [Classical.not_imp, Classical.not_imp, Option.not_isSome_iff_eq_none] at hn
  obtain ⟨-, ⟨g, hg, hgc⟩, hj⟩ := hn
  simp only [Resolver.step] at hs
  split_ifs at hs with hc
  rw [Bool.and_eq_true, Bool.not_eq_true'] at hc
  obtain ⟨hfault, hr, hcalling⟩ := calls_iff.1 hc.1
  have hh : s.self.handling = 0 := by
    cases h.phase with
    | owner _ hh => exact hh
    | resolveDone f job hs hf hjob => simp [hj] at hjob
  obtain rfl := Option.some.inj hs
  have hdestroy : destroy { s with destroyed := true } =
      { s with self := s.self.destroyDone, destroyed := true, released := s.released + 1 } := by
    unfold Resolver.destroy
    rw [if_neg (by simp [hh])]
    dsimp only
    rw [destroyDone_job, hj]
  rw [hdestroy]
  obtain ⟨f, rest, hst⟩ : ∃ f rest, s.stack = f :: rest := List.exists_cons_of_ne_nil
    (List.ne_nil_of_mem hg)
  obtain ⟨caller, ⟨id, args, entry, calling⟩⟩ := f
  obtain rfl : calling = true := hcalling _ _ hst
  refine ⟨by simp [hr], ?_⟩
  simp only [Resolver.step, hfault, hst]
  unfold Resolver.ret
  exact ⟨_, rfl, by simp⟩

/-- Along runs without the call that `Act.Ok` excludes, nothing accesses a released resolver, and it
is released at most once, not before it is destroyed, and has been when no raise is running and no
job is left.  That call releases it, and the raise it was made from accesses it. -/
theorem resolver_lifetime (pool : Pool) (s : State)
    (h : (machine pool).Run (fun s a => a.Ok s) s) :
    (s.fault = false ∧ s.released ≤ 1 ∧ (s.destroyed = false → s.released = 0) ∧
      (s.destroyed = true → s.stack = [] → (∀ n, s.jobs n = none) → s.released = 1)) ∧
    ∀ s', step pool s .destroy = some s' → ¬ Act.Ok s .destroy →
      s'.released = 1 ∧ ∃ s'', step pool s' .ret = some s'' ∧ s''.fault = true := by
  have hi := inv_of_run h
  refine ⟨⟨hi.fault, ?_, fun hd => (hi.live hd).1, hi.released_once⟩, fun s' => fault_of_excluded hi⟩
  rcases hi.once with h0 | ⟨h1, -⟩ <;> omega

/-- Destroyed by a handler of `resolveDone`, and released when that returns. -/
theorem resolver_lifetime_deferred :
    ∃ s : State, s.destroyed = true ∧ s.released = 1 ∧ s.fault = false := by
  let h : EvHandler := ⟨100, 1, 0⟩
  let s : State := create 7 fun _ => ⟨none, ⟨0, h⟩⟩
  have hinit : (machine arena).Run (fun s a => a.Ok s) s := .init ⟨7, _, rfl⟩
  have hrun : ((machine arena).execOk (fun s a => decide (a.Ok s)) [.addAddr, .op (.register h),
      .resolve false .accepts, .threadJobDone 0, .visit, .destroy, .ret, .done] s).map
        (fun s => (s.destroyed, s.released)) = some (true, 1) := by
    decide +kernel
  obtain ⟨s', he, hs'⟩ := Option.map_eq_some_iff.1 hrun
  obtain ⟨hd, hr⟩ := Prod.mk.inj hs'
  have hok : (machine arena).Run (fun s a => a.Ok s) s' :=
    Machine.Run.execOk (fun s a => of_decide_eq_true) hinit he
  exact ⟨s', hd, hr, (resolver_lifetime arena s' hok).1.1⟩

/-- A handler that the fallback runs destroys the resolver, and the raise goes on. -/
theorem fallback_destroyed :
    ∃ s, (machine arena).Reachable s ∧ s.fault = true := by
  let h : EvHandler := ⟨100, 1, 0⟩
  let s : State := create 7 fun _ => ⟨none, ⟨0, h⟩⟩
  have hinit : (machine arena).Reachable s := .init ⟨7, _, rfl⟩
  have hrun : ((machine arena).exec [.addAddr, .op (.register h), .resolve false .inactive, .visit,
      .destroy, .ret] s).map State.fault = some true := by
    decide +kernel
  obtain ⟨s', he, hf⟩ := Option.map_eq_some_iff.1 hrun
  exact ⟨s', hinit.exec he, hf⟩

end PoserCore.Resolver
