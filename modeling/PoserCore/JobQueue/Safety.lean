import PoserCore.JobQueue.Invariant

/-!
# No job is overwritten, lost or delivered twice

A job is with the caller that enqueues it, in a slot, in the hand of a consumer that took it and
has not returned, or returned (`At`).  In every run that meets `InOrder` each job is in at most one
of these places, an accepted job is in one of the last three, and no store hits a full slot
(`jobQueue_safe`).  Without the condition two slots are enough to lose a job
(`jobQueue_loses_job`): the consumer of slot 1 overtakes the one of slot 0, and the slot it gives
back lets a producer claim slot 0.
-/

namespace PoserCore.JobQueue

open Lib

variable {Tid Job : Type}

/-- Where a job can be. -/
inductive Place (Tid : Type)
  | caller (t : Tid)
  | slot (x : ℕ)
  | hand (t : Tid)
  | out

/-- The job a producer has not stored yet. -/
def Pc.given : Pc Job → Option Job
  | .enqLoadAvail job | .enqCasAvail job _ | .enqLoadPos job | .enqCasPos job _
  | .enqStore job _ _ => some job
  | _ => none

/-- The job a consumer took and has not returned yet. -/
def Pc.got : Pc Job → Option Job
  | .deqRelease job => some job
  | _ => none

/-- Job `job` is at a place. -/
def At (s : State Tid Job) (job : Job) : Place Tid → Prop
  | .caller t => (s.pc t).given = some job
  | .slot x => x < s.sz ∧ s.jobs x = some job
  | .hand t => (s.pc t).got = some job
  | .out => job ∈ s.returned

theorem at_goto_of_ne [DecidableEq Tid] {s : State Tid Job} {t : Tid} {p : Pc Job} {job : Job}
    {q : Place Tid} (h : q ≠ .caller t) (h' : q ≠ .hand t) : At (s.goto t p) job q ↔ At s job q := by
  cases q with
  | caller t' | hand t' =>
    have ht : t' ≠ t := by
      rintro rfl
      contradiction
    simp [At, State.goto, Function.update_of_ne ht]
  | slot x => rfl
  | out => rfl

/-- Every accepted job is in exactly one place, which is a slot, the hand of one consumer, or the
outside, and no job was returned twice. -/
structure Accounted (s : State Tid Job) : Prop where
  one_place : ∀ job ∈ s.accepted, ∃ p, (∀ t, p ≠ .caller t) ∧ At s job p ∧ ∀ q, At s job q → q = p
  nodup : s.returned.Nodup

/-- The action stores into a slot that holds a job. -/
def Overwrites (s : State Tid Job) : Action Tid Job → Prop
  | .run t => ∃ job pos no, s.pc t = .enqStore job pos no ∧ s.jobs pos ≠ none
  | _ => False

/-- A job is in at most one place, and is in the queue or beyond once it is announced. -/
structure Places (s : State Tid Job) : Prop where
  unique : ∀ job p q, At s job p → At s job q → p = q
  passed : ∀ job p, At s job p → job ∈ s.passed
  nodup : s.returned.Nodup
  bounded : ∀ x job, s.jobs x = some job → x < s.sz
  announced : ∀ job, (job ∈ s.accepted ∨ ∃ t, s.pc t = .enqPost job) →
    ∃ p, (∀ t, p ≠ .caller t) ∧ At s job p

theorem Places.accounted {s : State Tid Job} (h : Places s) : Accounted s where
  one_place job hj := by
    obtain ⟨p, hp, hat⟩ := h.announced job (.inl hj)
    exact ⟨p, hp, hat, fun q hq => h.unique job q p hq hat⟩
  nodup := h.nodup

theorem places_create (sz : ℕ) : Places (create sz : State Tid Job) := by
  constructor <;> simp [create]
  · rintro job (t | x | t | _) q h <;> simp [At, Pc.given, Pc.got] at h
  · rintro job (t | x | t | _) h <;> simp [At, Pc.given, Pc.got] at h

namespace Places

variable {s s' : State Tid Job}

/-- A step that moves no job. -/
theorem quiet (h : Places s) (hat : ∀ job p, At s' job p ↔ At s job p)
    (hpassed : s'.passed = s.passed) (hret : s'.returned = s.returned) (hjobs : s'.jobs = s.jobs)
    (hsz : s'.sz = s.sz) (hann : ∀ job, (job ∈ s'.accepted ∨ ∃ t, s'.pc t = .enqPost job) →
      job ∈ s.accepted ∨ ∃ t, s.pc t = .enqPost job) : Places s' where
  unique job p q hp hq := h.unique job p q ((hat _ _).1 hp) ((hat _ _).1 hq)
  passed job p hp := by rw [hpassed]; exact h.passed job p ((hat _ _).1 hp)
  nodup := by rw [hret]; exact h.nodup
  bounded := by rw [hjobs, hsz]; exact h.bounded
  announced job hj := by
    obtain ⟨p, hp, hat'⟩ := h.announced job (hann job hj)
    exact ⟨p, hp, (hat _ _).2 hat'⟩

/-- A step that moves one job to `dst`. -/
theorem move (h : Places s) (job : Job) (dst : Place Tid) (hpassed : s'.passed = s.passed)
    (hjob : job ∈ s.passed) (hat : ∀ job' p, At s' job' p ↔
      (job' ≠ job ∧ At s job' p) ∨ (job' = job ∧ p = dst)) (hdst : ∀ t, dst ≠ .caller t)
    (hnodup : s'.returned.Nodup) (hbounded : ∀ x job, s'.jobs x = some job → x < s'.sz)
    (hann : ∀ job', job' ≠ job → (job' ∈ s'.accepted ∨ ∃ t, s'.pc t = .enqPost job') →
      job' ∈ s.accepted ∨ ∃ t, s.pc t = .enqPost job') : Places s' where
  unique job' p q hp hq := by
    rcases (hat _ _).1 hp with ⟨hne, hp⟩ | ⟨rfl, rfl⟩ <;>
      rcases (hat _ _).1 hq with ⟨hne', hq⟩ | ⟨he, rfl⟩
    · exact h.unique job' p q hp hq
    · exact absurd he hne
    · exact absurd rfl hne'
    · rfl
  passed job' p hp := by
    rw [hpassed]
    rcases (hat _ _).1 hp with ⟨-, hp⟩ | ⟨rfl, -⟩
    · exact h.passed job' p hp
    · exact hjob
  nodup := hnodup
  bounded := hbounded
  announced job' hj := by
    by_cases he : job' = job
    · exact ⟨dst, hdst, (hat _ _).2 (.inr ⟨he, rfl⟩)⟩
    · obtain ⟨p, hp, hat'⟩ := h.announced job' (hann job' he hj)
      exact ⟨p, hp, (hat _ _).2 (.inl ⟨he, hat'⟩)⟩

variable [DecidableEq Tid]

/-- A step of a thread that keeps the job it carries and announces none. -/
theorem still (h : Places s) (t : Tid) (p : Pc Job) (hpc : s'.pc = Function.update s.pc t p)
    (hpassed : s'.passed = s.passed) (hret : s'.returned = s.returned) (hjobs : s'.jobs = s.jobs)
    (hsz : s'.sz = s.sz) (hacc : s'.accepted = s.accepted) (hgiven : p.given = (s.pc t).given)
    (hgot : p.got = (s.pc t).got) (hpost : ∀ job, p ≠ .enqPost job) : Places s' := by
  have hg : ∀ t', (s'.pc t').given = (s.pc t').given := by
    intro t'
    rw [hpc, Function.apply_update (fun _ => Pc.given), Function.update_eq_self_iff.2 hgiven]
  have hh : ∀ t', (s'.pc t').got = (s.pc t').got := by
    intro t'
    rw [hpc, Function.apply_update (fun _ => Pc.got), Function.update_eq_self_iff.2 hgot]
  refine h.quiet (fun job q => ?_) hpassed hret hjobs hsz (fun job hj => ?_)
  · cases q <;> simp only [At, hg, hh, hsz, hjobs, hret]
  · rcases hj with hj | ⟨t', ht'⟩
    · exact .inl (hacc ▸ hj)
    · rw [hpc] at ht'
      rcases eq_or_ne t' t with rfl | hne
      · rw [Function.update_self] at ht'
        exact absurd ht' (hpost job)
      · rw [Function.update_of_ne hne] at ht'
        exact .inr ⟨t', ht'⟩

/-- The jobs announced by the others are not touched by a step of `t`. -/
theorem announced_goto {t : Tid} {p : Pc Job} {job : Job} (hp : p ≠ .enqPost job)
    (hj : job ∈ (s.goto t p).accepted ∨ ∃ t', (s.goto t p).pc t' = .enqPost job) :
    job ∈ s.accepted ∨ ∃ t', s.pc t' = .enqPost job := by
  rcases hj with hj | ⟨t', ht'⟩
  · exact .inl hj
  · by_cases ht : t' = t
    · subst ht
      simp only [State.goto, Function.update_self] at ht'
      exact absurd ht' hp
    · exact .inr ⟨t', by simpa [State.goto, Function.update_of_ne ht] using ht'⟩

/-- A job is passed to `JobQueue_enqueue` for the first time. -/
theorem enqueue (h : Places s) {t : Tid} {job : Job} (hpc : s.pc t = .idle) (hnew : job ∉ s.passed) :
    Places ({ s with passed := job :: s.passed }.goto t (.enqLoadAvail job)) := by
  have hat : ∀ job' q, At ({ s with passed := job :: s.passed }.goto t (.enqLoadAvail job)) job' q →
      At s job' q ∨ (job' = job ∧ q = .caller t) := by
    intro job' q hq
    by_cases hc : q = .caller t
    · subst hc
      simp only [At, State.goto, Function.update_self, Pc.given, Option.some.injEq] at hq
      exact .inr ⟨hq.symm, rfl⟩
    · by_cases hh : q = .hand t
      · subst hh
        simp [At, State.goto, Pc.got] at hq
      · exact .inl ((at_goto_of_ne hc hh).1 hq)
  have hfresh : ∀ q, ¬ At s job q := fun q hq => hnew (h.passed job q hq)
  constructor
  case unique =>
    intro job' p q hp hq
    rcases hat _ _ hp with hp | ⟨rfl, rfl⟩ <;> rcases hat _ _ hq with hq | ⟨he, rfl⟩
    · exact h.unique job' p q hp hq
    · exact absurd (he ▸ hp) (hfresh p)
    · exact absurd hq (hfresh q)
    · rfl
  case passed =>
    intro job' p hp
    rcases hat _ _ hp with hp | ⟨rfl, -⟩
    · exact List.mem_cons_of_mem _ (h.passed job' p hp)
    · exact List.mem_cons_self
  case nodup => exact h.nodup
  case bounded => exact h.bounded
  case announced =>
    intro job' hj
    obtain ⟨p, hp, hat'⟩ := h.announced job' (announced_goto (by simp) hj)
    refine ⟨p, hp, (at_goto_of_ne (hp t) ?_).2 hat'⟩
    rintro rfl
    simp [At, hpc, Pc.got] at hat'

/-- `JobQueue_enqueue` returns -1: the job stays with its caller. -/
theorem refuse (h : Places s) {t : Tid} (hgot : (s.pc t).got = none) : Places (s.goto t .idle) := by
  have hat : ∀ job q, At (s.goto t .idle) job q → At s job q := by
    intro job q hq
    by_cases hc : q = .caller t
    · subst hc
      simp [At, State.goto, Pc.given] at hq
    · by_cases hh : q = .hand t
      · subst hh
        simp [At, State.goto, Pc.got] at hq
      · exact (at_goto_of_ne hc hh).1 hq
  constructor
  case unique => exact fun job p q hp hq => h.unique job p q (hat _ _ hp) (hat _ _ hq)
  case passed => exact fun job p hp => h.passed job p (hat _ _ hp)
  case nodup => exact h.nodup
  case bounded => exact h.bounded
  case announced =>
    intro job hj
    obtain ⟨p, hp, hat'⟩ := h.announced job (announced_goto (by simp) hj)
    refine ⟨p, hp, (at_goto_of_ne (hp t) ?_).2 hat'⟩
    rintro rfl
    simp [At, hgot] at hat'

omit [DecidableEq Tid] in
/-- Writing to one slot leaves the other places alone. -/
theorem at_update_of_ne {o : Option Job} {pos : ℕ} {job : Job} {q : Place Tid}
    (hq : q ≠ .slot pos) :
    At { s with jobs := Function.update s.jobs pos o } job q ↔ At s job q := by
  cases q with
  | slot x => simp [At, Function.update_of_ne (show x ≠ pos from fun e => hq (e ▸ rfl))]
  | _ => rfl

omit [DecidableEq Tid] in
theorem bounded_update (h : Places s) {o : Option Job} {pos : ℕ} (ho : o.isSome → pos < s.sz)
    (x : ℕ) (job : Job) (hx : Function.update s.jobs pos o x = some job) : x < s.sz := by
  rcases eq_or_ne x pos with rfl | hne
  · rw [Function.update_self] at hx
    exact ho (hx ▸ rfl)
  · rw [Function.update_of_ne hne] at hx
    exact h.bounded x job hx

/-- A job goes from its caller into an empty slot. -/
theorem store (h : Places s) {t : Tid} {job : Job} {pos no : ℕ}
    (hpc : s.pc t = .enqStore job pos no) (hlt : pos < s.sz) (hempty : s.jobs pos = none) :
    Places ({ s with jobs := Function.update s.jobs pos (some job) }.goto t (.enqPost job)) := by
  have hcaller : At s job (.caller t) := by simp [At, hpc, Pc.given]
  refine h.move job (.slot pos) rfl (h.passed _ _ hcaller) (fun job' q => ?_) (by simp) h.nodup
    (h.bounded_update fun _ => hlt) (fun job' hne => announced_goto (by simpa using hne.symm))
  by_cases hc : q = .caller t
  · subst hc
    simp [At, State.goto, Pc.given, hpc, eq_comm]
  by_cases hh : q = .hand t
  · subst hh
    simp [At, State.goto, Pc.got, hpc]
  have hother : At s job' q → job' ≠ job := by
    rintro hq rfl
    exact hc (h.unique _ _ _ hq hcaller)
  rw [at_goto_of_ne hc hh]
  by_cases hs : q = .slot pos
  · subst hs
    simp [At, hempty, hlt, eq_comm]
  · rw [at_update_of_ne hs]
    exact ⟨fun hq => .inl ⟨hother hq, hq⟩, fun hq => hq.elim And.right fun hq => absurd hq.2 hs⟩

/-- A job goes from its slot into the hand of a consumer. -/
theorem take (h : Places s) {t : Tid} {job : Job} {pos no : ℕ}
    (hpc : s.pc t = .deqExchange pos no) (hjob : s.jobs pos = some job) :
    Places ({ s with jobs := Function.update s.jobs pos none }.goto t (.deqRelease job)) := by
  have hslot : At s job (.slot pos) := ⟨h.bounded _ _ hjob, hjob⟩
  refine h.move job (.hand t) rfl (h.passed _ _ hslot) (fun job' q => ?_) (by simp) h.nodup
    (h.bounded_update (by simp)) (fun job' hne => announced_goto (by simp))
  by_cases hc : q = .caller t
  · subst hc
    simp [At, State.goto, Pc.given, hpc]
  by_cases hh : q = .hand t
  · subst hh
    simp [At, State.goto, Pc.got, hpc, eq_comm]
  have hother : At s job' q → q ≠ .slot pos → job' ≠ job := by
    rintro hq hs rfl
    exact hs (h.unique _ _ _ hq hslot)
  rw [at_goto_of_ne hc hh]
  by_cases hs : q = .slot pos
  · subst hs
    simp only [At, Function.update_self, hjob, Option.some.injEq, reduceCtorEq, and_false, or_false,
      false_iff]
    exact fun hq => hq.1 hq.2.2.symm
  · rw [at_update_of_ne hs]
    exact ⟨fun hq => .inl ⟨hother hq hs, hq⟩, fun hq => hq.elim And.right fun hq => absurd hq.2 hh⟩

/-- A job is returned by `JobQueue_dequeue`. -/
theorem release (h : Places s) {t : Tid} {job : Job} {avail : ℕ} (hpc : s.pc t = .deqRelease job) :
    Places ({ s with avail := avail, returned := job :: s.returned }.goto t .idle) := by
  have hhand : At s job (.hand t) := by simp [At, hpc, Pc.got]
  have hout : job ∉ s.returned := fun ho => absurd (h.unique job .out _ ho hhand) (by simp)
  refine h.move job .out rfl (h.passed _ _ hhand) (fun job' q => ?_) (by simp)
    (List.nodup_cons.2 ⟨hout, h.nodup⟩) h.bounded (fun job' hne => announced_goto (by simp))
  by_cases hc : q = .caller t
  · subst hc
    simp [At, State.goto, Pc.given, hpc]
  by_cases hh : q = .hand t
  · subst hh
    simp [At, State.goto, Pc.got, hpc, eq_comm]
  have hother : At s job' q → job' ≠ job := by
    rintro hq rfl
    exact hh (h.unique _ _ _ hq hhand)
  rw [at_goto_of_ne hc hh]
  cases q with
  | out =>
    simp only [At, List.mem_cons, and_true]
    refine ⟨fun hq => hq.elim .inr fun hq => .inl ⟨hother hq, hq⟩, fun hq => hq.elim (.inr ·.2) .inl⟩
  | caller t' => exact ⟨fun hq => .inl ⟨hother hq, hq⟩, fun hq => hq.elim And.right (by simp)⟩
  | slot x => exact ⟨fun hq => .inl ⟨hother hq, hq⟩, fun hq => hq.elim And.right (by simp)⟩
  | hand t' => exact ⟨fun hq => .inl ⟨hother hq, hq⟩, fun hq => hq.elim And.right (by simp)⟩

/-- Every step keeps the places, if a store hits an empty slot of the ring. -/
theorem step [DecidableEq Job] {a : Action Tid Job} (h : Places s)
    (hstore : ∀ t job pos no, a = .run t → s.pc t = .enqStore job pos no →
      pos < s.sz ∧ s.jobs pos = none) (hs : step s a = some s') : Places s' := by
  cases a with
  | enqueue t job =>
    simp only [JobQueue.step] at hs
    split_ifs at hs with hi
    cases hs
    exact h.enqueue hi.1 hi.2
  | dequeue t | interrupt t =>
    simp only [JobQueue.step] at hs
    split_ifs at hs with hi
    cases hs
    exact h.still t _ rfl rfl rfl rfl rfl rfl (by rw [hi]; rfl) (by rw [hi]; rfl) (by simp)
  | run t =>
    simp only [JobQueue.step, runThread] at hs
    cases hpc : s.pc t with
    | idle => simp [hpc] at hs
    | enqLoadAvail job | enqLoadPos job | deqLoadPos =>
      simp only [hpc] at hs
      cases hs
      exact h.still t _ rfl rfl rfl rfl rfl rfl (by rw [hpc]; rfl) (by rw [hpc]; rfl) (by simp)
    | enqCasAvail job avail =>
      simp only [hpc] at hs
      split_ifs at hs with h0 h1
      · cases hs
        exact h.refuse (by rw [hpc]; rfl)
      all_goals
        cases hs
        exact h.still t _ rfl rfl rfl rfl rfl rfl (by rw [hpc]; rfl) (by rw [hpc]; rfl) (by simp)
    | enqCasPos job pos | deqCasPos pos =>
      simp only [hpc] at hs
      split_ifs at hs
      all_goals
        cases hs
        exact h.still t _ rfl rfl rfl rfl rfl rfl (by rw [hpc]; rfl) (by rw [hpc]; rfl) (by simp)
    | enqStore job pos no =>
      simp only [hpc] at hs
      cases hs
      obtain ⟨hlt, hempty⟩ := hstore t job pos no rfl hpc
      exact h.store hpc hlt hempty
    | enqPost job =>
      simp only [hpc] at hs
      cases hs
      refine h.quiet (fun job' q => ?_) rfl rfl rfl rfl (fun job' hj => ?_)
      · by_cases hc : q = .caller t
        · subst hc
          simp [At, State.goto, hpc, Pc.given]
        by_cases hh : q = .hand t
        · subst hh
          simp [At, State.goto, hpc, Pc.got]
        exact at_goto_of_ne hc hh
      · rcases announced_goto (by simp) hj with hj | hj
        · rcases List.mem_cons.1 hj with rfl | hj
          · exact .inr ⟨t, hpc⟩
          · exact .inl hj
        · exact .inr hj
    | deqWait =>
      simp only [hpc] at hs
      split_ifs at hs
      cases hs
      exact h.still t _ rfl rfl rfl rfl rfl rfl (by rw [hpc]; rfl) (by rw [hpc]; rfl) (by simp)
    | deqExchange pos no =>
      simp only [hpc] at hs
      cases hjob : s.jobs pos with
      | none =>
        simp only [hjob] at hs
        cases hs
        exact h
      | some job =>
        simp only [hjob] at hs
        cases hs
        exact h.take hpc hjob
    | deqRelease job =>
      simp only [hpc] at hs
      cases hs
      exact h.release hpc

end Places

/-! ## Runs -/

section Runs

variable [DecidableEq Tid] [DecidableEq Job] {s : State Tid Job} {sz : ℕ}

theorem ring_and_places (hsz : 1 ≤ sz) (h : (machine Tid Job sz).Run InOrder s) :
    (∃ S T, Ring s S T) ∧ Places s := by
  refine Machine.Run.invariant (I := fun s => (∃ S T, Ring s S T) ∧ Places s) ?_ ?_ h
  · rintro s rfl
    exact ⟨⟨∅, ∅, ring_create hsz⟩, places_create sz⟩
  · rintro s a s' ⟨⟨S, T, hr⟩, hp⟩ hok hs
    refine ⟨hr.step hok hs, hp.step (fun t job pos no ha hpc => ?_) hs⟩
    subst ha
    exact ⟨hr.enq_slot _ _ _ _ hpc ▸ Nat.mod_lt _ hr.sz_pos, hr.store_empty hpc hok⟩

/-- In every run in which producers do not store before the consumers that reserved their slot
earlier, no step overwrites a job and every accepted job is in exactly one place. -/
theorem jobQueue_safe (hsz : 1 ≤ sz) (h : (machine Tid Job sz).Run InOrder s) :
    (∀ a, InOrder s a → ¬ Overwrites s a) ∧ Accounted s := by
  obtain ⟨⟨S, T, hr⟩, hp⟩ := ring_and_places hsz h
  refine ⟨fun a hok hover => ?_, hp.accounted⟩
  cases a with
  | run t =>
    obtain ⟨job, pos, no, hpc, hfull⟩ := hover
    exact hfull (hr.store_empty hpc hok)
  | enqueue | dequeue | interrupt => exact hover

end Runs

/-- Producer 0 fills both slots, consumer 1 reserves slot 0, consumer 2 overtakes it and gives slot 1
back, and producer 0 stores a third job into slot 0. -/
def overtaking : List (Action (Fin 3) ℕ) :=
  .enqueue 0 10 :: List.replicate 6 (.run 0) ++ .enqueue 0 11 :: List.replicate 6 (.run 0) ++
  .dequeue 1 :: List.replicate 3 (.run 1) ++ .dequeue 2 :: List.replicate 5 (.run 2) ++
  .enqueue 0 12 :: List.replicate 5 (.run 0)

/-- Two slots, one producer and two consumers are enough to lose an accepted job. -/
theorem jobQueue_loses_job : ¬ ∀ sz, 1 ≤ sz → ∀ s : State (Fin 3) ℕ,
    (machine (Fin 3) ℕ sz).Reachable s → (∀ a, ¬ Overwrites s a) ∧ Accounted s := by
  intro hall
  have hrun : ((machine (Fin 3) ℕ 2).exec overtaking (create 2)).any (fun s =>
      decide (10 ∈ s.accepted ∧ (∀ t, (s.pc t).given ≠ some 10) ∧ (∀ x < s.sz, s.jobs x ≠ some 10) ∧
        (∀ t, (s.pc t).got ≠ some 10) ∧ 10 ∉ s.returned)) = true := by decide
  obtain ⟨s, hreach, hlost⟩ := Machine.exists_reachable rfl hrun
  obtain ⟨hacc, hcaller, hslot, hhand, hout⟩ := of_decide_eq_true hlost
  obtain ⟨p, -, hp, -⟩ := (hall 2 (by decide) s hreach).2.one_place 10 hacc
  cases p with
  | caller t => exact hcaller t hp
  | slot x => exact hslot x hp.1 hp.2
  | hand t => exact hhand t hp
  | out => exact hout hp

/-- Producers 0 and 1 compete for a slot and for a position, consumer 2 finds its slot still empty, and
producer 0 reuses the slot that it gave back while consumer 3 still has its job to take. -/
def competing : List (Action (Fin 4) ℕ) :=
  [.enqueue 0 10, .enqueue 1 11, .dequeue 2, .dequeue 3] ++
  [0, 1, 0, 1, 1, 0, 1, 1, 0, 0, 0, 0, 2, 2, 2, 2, 1, 1, 3, 3, 3, 2, 2].map .run ++
  .enqueue 0 12 :: List.replicate 6 (.run 0) ++ [.run 3, .run 3] ++
  .dequeue 2 :: List.replicate 5 (.run 2)

/-- The condition is met where several producers and consumers are at work and wrap around the ring. -/
theorem jobQueue_safe_competing : ∃ s : State (Fin 4) ℕ,
    s.returned = [12, 10, 11] ∧ (∀ a, InOrder s a → ¬ Overwrites s a) ∧ Accounted s := by
  have hrun : ((machine (Fin 4) ℕ 2).execOk inOrder competing (create 2)).any
      (fun s => s.returned = [12, 10, 11]) = true := by decide +kernel
  obtain ⟨s, hs, hret⟩ := Machine.exists_run rfl (fun _ _ => inOrder_sound) hrun
  exact ⟨s, of_decide_eq_true hret, jobQueue_safe (by decide) hs⟩

end PoserCore.JobQueue
