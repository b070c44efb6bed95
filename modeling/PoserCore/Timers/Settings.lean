import PoserCore.Timers.Safety

/-!
# What a timer is set to

By its documentation `PSC_Timer_start` stops and restarts a timer that is already running, and
`PSC_Timer_setMs` restarts a running one with its new value.  `expect` keeps account of what the
descriptors are to be set to by this (`Expected`).  But a start does nothing while `job` is set, and
`PSC_Timer_setMs` calls it only then, so neither ever restarts a timer.
-/

namespace PoserCore.Timers

open Lib (Machine)

/-- What a descriptor is set to: its next deadline and its interval. -/
structure Setting where
  deadline : Option ℕ
  interval : ℕ
  deriving DecidableEq

def TimerFd.setting (fd : TimerFd) : Setting := ⟨fd.deadline, fd.interval⟩

/-- The setting for `ms` milliseconds from `now` on, once or periodically. -/
def Setting.after (now : ℕ) (ms : UInt32) (periodic : Bool) : Setting :=
  ⟨some (now + itValue ms), if periodic then itValue ms else 0⟩

/-- The setting at the time `now`, with the expirations up to then. -/
def Setting.elapse (σ : Setting) (now : ℕ) : Setting :=
  (TimerFd.elapse ⟨σ.deadline, σ.interval, 0⟩ now).setting

/-- What the latest calls promise for each timer; nothing once it is stopped or given back. -/
abbrev Expected := Addr → Option Setting

/-- A start promises the configured time and the mode it is given, a new time for a running timer
this time and the mode the timer has. -/
def expect (s : State) (e : Expected) : Action → Expected
  | .start t periodic =>
      match s.timers t with
      | some x =>
          if x.ms ≠ 0 then Function.update e t (some (.after s.now x.ms periodic)) else e
      | none => e
  | .setMs t ms =>
      match s.timers t with
      | some x =>
          if ms ≠ 0 ∧ x.fd.deadline ≠ none then
            Function.update e t (some (.after s.now ms (x.fd.interval ≠ 0)))
          else e
      | none => e
  | .stop t | .destroy t => Function.update e t none
  | .elapse d => fun t => (e t).map (·.elapse (s.now + d))
  | _ => e

/-- The machine with the account of what is promised. -/
def promising : Machine (State × Expected) Action where
  init := fun s => s = (.initial, fun _ => none)
  step := fun s a => (step s.1 a).map fun s' => (s', expect s.1 s.2 a)

/-- Every descriptor is set to what was promised for it. -/
def Kept (s : State × Expected) : Prop :=
  ∀ t σ, s.2 t = some σ → ∃ x, s.1.timers t = some x ∧ x.fd.setting = σ

/-- A timer is started while `job` is not set, and a new time is set while the descriptor is not
armed; or the descriptor happens to be set already as the call is to set it. -/
def Action.Sets (s : State) : Action → Prop
  | .start t periodic => ∀ x, s.timers t = some x → x.ms ≠ 0 →
      x.job = false ∨ x.fd.setting = .after s.now x.ms periodic
  | .setMs t ms => ∀ x, s.timers t = some x → ms ≠ 0 →
      x.fd.deadline = none ∨ x.fd.setting = .after s.now ms (x.fd.interval ≠ 0)
  | _ => True

/-! ## One timer -/

theorem itValue_eq (ms : UInt32) : itValue ms = 1000000 * ms.toNat := by
  unfold itValue
  omega

theorem itValue_ne_zero {ms : UInt32} (h : ms ≠ 0) : itValue ms ≠ 0 := by
  have hms : ms.toNat ≠ 0 := fun h0 => h (UInt32.toNat_inj.1 h0)
  rw [itValue_eq]
  omega

theorem setting_start {x : Timer} (hjob : x.job = false) (hms : x.ms ≠ 0) (now : ℕ)
    (periodic : Bool) : (x.start now periodic).fd.setting = .after now x.ms periodic := by
  unfold Timer.start
  rw [if_pos (by simp [hjob, hms])]
  simp [TimerFd.setting, TimerFd.settime, Setting.after, itValue_ne_zero hms]

theorem start_running {x : Timer} (hjob : x.job = true) (now : ℕ) (periodic : Bool) :
    x.start now periodic = x := by
  unfold Timer.start
  rw [if_neg (by simp [hjob])]

theorem start_zero {x : Timer} (hms : x.ms = 0) (now : ℕ) (periodic : Bool) :
    x.start now periodic = x := by
  unfold Timer.start
  rw [if_neg (by simp [hms])]

theorem setting_elapse (fd : TimerFd) (now : ℕ) :
    (fd.elapse now).setting = fd.setting.elapse now := by
  obtain ⟨deadline, interval, ticks⟩ := fd
  cases deadline with
  | none => rfl
  | some d =>
    by_cases hlt : now < d
    · simp [Setting.elapse, TimerFd.setting, TimerFd.elapse, hlt]
    · by_cases hi : interval = 0 <;>
        simp [Setting.elapse, TimerFd.setting, TimerFd.elapse, hlt, hi]

/-! ## Steps -/

/-- What is promised is kept, for timers that their owners may use. -/
structure Tracks (s : State) (e : Expected) : Prop where
  live : ∀ t σ, e t = some σ → t ∉ s.pooled
  set : ∀ t σ, e t = some σ → ∃ x, s.timers t = some x ∧ x.fd.setting = σ

variable {s s' : State} {e : Expected} {t : Addr}

/-- Where no setting changes and no timer in use goes to the pool, promises are kept. -/
theorem Tracks.same (h : Tracks s e) (hpool : ∀ u, u ∈ s'.pooled → u ∈ s.pooled)
    (hset : ∀ u x, u ∉ s.pooled → s.timers u = some x →
      ∃ y, s'.timers u = some y ∧ y.fd.setting = x.fd.setting) : Tracks s' e where
  live t σ ht hmem := h.live t σ ht (hpool t hmem)
  set t σ ht := by
    obtain ⟨x, hx, rfl⟩ := h.set t σ ht
    exact hset t x (h.live t _ ht) hx

/-- A change to one timer, for which the promise is renewed. -/
theorem Tracks.modify (h : Tracks s e) {f : Timer → Timer} {p : Option Setting}
    (hlive : t ∉ s.pooled)
    (hp : ∀ σ, p = some σ → ∃ x, s.timers t = some x ∧ (f x).fd.setting = σ) :
    Tracks (s.modify t f) (Function.update e t p) where
  live u σ hu := by
    by_cases htu : u = t
    · rw [htu]
      exact hlive
    · rw [Function.update_of_ne htu] at hu
      exact h.live u σ hu
  set u σ hu := by
    rw [timers_modify]
    by_cases htu : u = t
    · rw [htu, Function.update_self] at hu
      obtain ⟨x, hx, hσ⟩ := hp σ hu
      exact ⟨f x, by rw [if_pos htu, hx]; rfl, hσ⟩
    · rw [Function.update_of_ne htu] at hu
      rw [if_neg htu]
      exact h.set u σ hu

theorem Tracks.modify_same (h : Tracks s e) {f : Timer → Timer}
    (hf : ∀ x, s.timers t = some x → (f x).fd.setting = x.fd.setting) :
    Tracks (s.modify t f) e := by
  refine h.same (fun u hu => hu) fun u x _ hx => ?_
  rw [timers_modify]
  split_ifs with htu
  · rw [htu] at hx
    exact ⟨f x, by rw [hx]; rfl, hf x hx⟩
  · exact ⟨x, hx, rfl⟩

theorem live_iff : s.live t = true ↔ (s.timers t).isSome ∧ t ∉ s.pooled := by
  simp [State.live]

theorem Tracks.create (h : Tracks s e) {alloc : Option Addr} (hs : create s alloc = some s') :
    Tracks s' e := by
  have hpool : (poolInit s.pool).timers = s.pooled := timers_poolInit s.pool
  unfold Timers.create at hs
  simp only at hs
  split at hs
  next u rest hrest =>
    obtain rfl := Option.some.inj hs
    rw [hpool] at hrest
    refine h.same (fun v hv => ?_) fun v x hv hx => ⟨x, ?_, rfl⟩
    · rw [hrest]
      exact .tail _ hv
    · show (State.modify _ u Timer.enable).timers v = some x
      rw [timers_modify, if_neg fun hvu => hv (by rw [hrest, hvu]; exact .head _)]
      exact hx
  next hnil =>
    obtain rfl := Option.some.inj hs
    unfold poolDone
    split_ifs
    · exact h.same (fun v hv => nomatch hv) fun v x _ hx => ⟨x, by simp [hnil, hx], rfl⟩
    · refine h.same (fun v hv => ?_) fun v x _ hx => ⟨x, hx, rfl⟩
      rw [← hpool]
      exact hv
  next u hnil =>
    split_ifs at hs with hnew
    obtain rfl := Option.some.inj hs
    refine h.same (fun v hv => ?_) fun v x _ hx => ⟨x, ?_, rfl⟩
    · rw [← hpool]
      exact hv
    · have hvu : v ≠ u := by
        rintro rfl
        exact hnew (by rw [hx]; rfl)
      exact (Function.update_of_ne hvu ..).trans hx

theorem Tracks.destroy (h : Tracks s e) (hs : destroy s t = some s') :
    Tracks s' (Function.update e t none) := by
  obtain ⟨p, hp, rfl⟩ := Option.map_eq_some_iff.1 hs
  have hpooled : s.pooled = p.timers := by
    rw [State.pooled, hp]
    rfl
  have hgiven : ∀ u σ, Function.update e t none u = some σ → u ∉ p.timers ++ [t] ∧
      e u = some σ := by
    intro u σ hu
    have hut : u ≠ t := by
      rintro rfl
      rw [Function.update_self] at hu
      cases hu
    rw [Function.update_of_ne hut] at hu
    have hmem := h.live u σ hu
    rw [hpooled] at hmem
    simp [hmem, hut, hu]
  unfold poolDone
  split_ifs
  · refine ⟨fun u σ hu hmem => absurd hmem List.not_mem_nil, fun u σ hu => ?_⟩
    obtain ⟨hmem, hu⟩ := hgiven u σ hu
    simp only
    rw [if_neg hmem]
    exact h.set u σ hu
  · exact ⟨fun u σ hu => (hgiven u σ hu).1, fun u σ hu => h.set u σ (hgiven u σ hu).2⟩

theorem Tracks.elapse (h : Tracks s e) (d : ℕ)
    (hs : step s (.elapse d) = some s') : Tracks s' (expect s e (.elapse d)) := by
  obtain rfl := Option.some.inj hs
  have hgiven : ∀ u σ, expect s e (.elapse d) u = some σ → ∃ τ, e u = some τ ∧
      τ.elapse (s.now + d) = σ := fun u σ hu => Option.map_eq_some_iff.1 hu
  refine ⟨fun u σ hu => ?_, fun u σ hu => ?_⟩
  · obtain ⟨τ, hτ, -⟩ := hgiven u σ hu
    exact h.live u τ hτ
  · obtain ⟨τ, hτ, rfl⟩ := hgiven u σ hu
    obtain ⟨x, hx, rfl⟩ := h.set u τ hτ
    exact ⟨{ x with fd := x.fd.elapse (s.now + d) }, by simp only [hx, Option.map_some],
      setting_elapse ..⟩

/-- A start keeps what is promised if and only if it meets the condition. -/
theorem Tracks.start (h : Tracks s e) {periodic : Bool}
    (hs : step s (.start t periodic) = some s') :
    (Kept (s', expect s e (.start t periodic)) → Action.Sets s (.start t periodic)) ∧
      (Action.Sets s (.start t periodic) → Tracks s' (expect s e (.start t periodic))) := by
  simp only [step] at hs
  split_ifs at hs with hlive
  obtain rfl := Option.some.inj hs
  obtain ⟨hsome, hpooled⟩ := live_iff.1 (Bool.and_eq_true_iff.1 hlive).2
  obtain ⟨x, hx⟩ := Option.isSome_iff_exists.1 hsome
  have htimers : ((s.modify t (·.start s.now periodic)).record (.started t)).timers t =
      some (x.start s.now periodic) := by
    show (s.modify t _).timers t = _
    rw [timers_modify, if_pos rfl, hx]
    rfl
  by_cases hms : x.ms = 0
  · -- nothing is promised, and nothing done
    have hexp : expect s e (.start t periodic) = e := by simp [expect, hx, hms]
    rw [hexp]
    refine ⟨fun _ y hy hne => absurd hms ?_, fun _ => ?_⟩
    · obtain rfl := Option.some.inj (hx.symm.trans hy)
      exact hne
    · have hsame := h.modify_same (t := t) (f := fun x => x.start s.now periodic) fun y hy => by
        obtain rfl := Option.some.inj (hx.symm.trans hy)
        rw [start_zero hms]
      exact ⟨hsame.live, hsame.set⟩
  · have hexp : expect s e (.start t periodic) =
        Function.update e t (some (.after s.now x.ms periodic)) := by simp [expect, hx, hms]
    rw [hexp]
    constructor
    · intro hkept y hy _
      obtain rfl := Option.some.inj (hx.symm.trans hy)
      obtain ⟨z, hz, hset⟩ := hkept t _ (Function.update_self ..)
      obtain rfl := Option.some.inj (htimers.symm.trans hz)
      cases hjob : x.job with
      | false => exact .inl rfl
      | true =>
        rw [start_running hjob] at hset
        exact .inr hset
    · intro hok
      have hset : (x.start s.now periodic).fd.setting = .after s.now x.ms periodic := by
        cases hjob : x.job with
        | false => exact setting_start hjob hms s.now periodic
        | true =>
          rw [start_running hjob]
          exact (hok x hx hms).resolve_left (by simp [hjob])
      have hnew := h.modify (f := fun x => x.start s.now periodic)
        (p := some (.after s.now x.ms periodic)) hpooled fun σ hσ =>
          ⟨x, hx, hset.trans (Option.some.inj hσ)⟩
      exact ⟨hnew.live, hnew.set⟩

/-- So does a new time. -/
theorem Tracks.setMs (h : Tracks s e) {ms : UInt32} (hs : step s (.setMs t ms) = some s') :
    (Kept (s', expect s e (.setMs t ms)) → Action.Sets s (.setMs t ms)) ∧
      (Action.Sets s (.setMs t ms) → Tracks s' (expect s e (.setMs t ms))) := by
  simp only [step] at hs
  split_ifs at hs with hlive
  obtain rfl := Option.some.inj hs
  obtain ⟨hsome, hpooled⟩ := live_iff.1 (Bool.and_eq_true_iff.1 hlive).2
  obtain ⟨x, hx⟩ := Option.isSome_iff_exists.1 hsome
  by_cases hrun : ms ≠ 0 ∧ x.fd.deadline ≠ none
  · have hexp : expect s e (.setMs t ms) =
        Function.update e t (some (.after s.now ms (x.fd.interval ≠ 0))) := by
      simp [expect, hx, hrun]
    rw [hexp]
    constructor
    · intro hkept y hy _
      obtain rfl := Option.some.inj (hx.symm.trans hy)
      obtain ⟨z, hz, hset⟩ := hkept t _ (Function.update_self ..)
      simp only at hz
      rw [timers_modify, if_pos rfl, hx] at hz
      obtain rfl := Option.some.inj hz
      rw [fd_setMs] at hset
      exact .inr hset
    · intro hok
      refine h.modify hpooled fun σ hσ => ⟨x, hx, ?_⟩
      rw [fd_setMs]
      exact ((hok x hx hrun.1).resolve_left hrun.2).trans (Option.some.inj hσ)
  · have hexp : expect s e (.setMs t ms) = e := by
      simp only [expect, hx]
      rw [if_neg hrun]
    rw [hexp]
    refine ⟨fun _ y hy hms => .inl ?_, fun _ => h.modify_same fun y _ => by rw [fd_setMs]⟩
    obtain rfl := Option.some.inj (hx.symm.trans hy)
    by_contra hne
    exact hrun ⟨hms, hne⟩

theorem Tracks.step (h : Tracks s e) {a : Action} (hs : step s a = some s') :
    (Kept (s', expect s e a) → a.Sets s) ∧ (a.Sets s → Tracks s' (expect s e a)) := by
  cases a with
  | start t periodic => exact h.start hs
  | setMs t ms => exact h.setMs hs
  | create alloc =>
    simp only [Timers.step] at hs
    split_ifs at hs
    exact ⟨fun _ => trivial, fun _ => h.create hs⟩
  | stop t =>
    simp only [Timers.step] at hs
    split_ifs at hs with hlive
    obtain rfl := Option.some.inj hs
    have hpooled := (live_iff.1 (Bool.and_eq_true_iff.1 hlive).2).2
    have hnew := h.modify (f := fun x => x.stop s.now) (p := none) hpooled fun σ hσ =>
      absurd hσ (Option.some_ne_none σ).symm
    exact ⟨fun _ => trivial, fun _ => ⟨hnew.live, hnew.set⟩⟩
  | destroy t =>
    simp only [Timers.step] at hs
    split_ifs at hs
    exact ⟨fun _ => trivial, fun _ => h.destroy hs⟩
  | elapse d => exact ⟨fun _ => trivial, fun _ => h.elapse d hs⟩
  | expired t =>
    refine ⟨fun _ => trivial, fun _ => ?_⟩
    simp only [Timers.step] at hs
    split at hs
    next x hc hx =>
      split_ifs at hs
      · obtain rfl := Option.some.inj hs
        exact h
      · obtain rfl := Option.some.inj hs
        have hnew := h.modify_same (t := t)
          (f := fun x => { x with fd := { x.fd with ticks := 0 } }) fun _ _ => rfl
        exact ⟨hnew.live, hnew.set⟩
    next => cases hs
  | raise =>
    refine ⟨fun _ => trivial, fun _ => ?_⟩
    simp only [Timers.step] at hs
    split at hs
    next t n hc =>
      split_ifs at hs
      all_goals
        obtain rfl := Option.some.inj hs
        exact ⟨h.live, h.set⟩
    next => cases hs
  | handled =>
    refine ⟨fun _ => trivial, fun _ => ?_⟩
    simp only [Timers.step] at hs
    split at hs
    next t n hc =>
      obtain rfl := Option.some.inj hs
      exact ⟨h.live, h.set⟩
    next => cases hs
  | finish =>
    refine ⟨fun _ => trivial, fun _ => ?_⟩
    simp only [Timers.step] at hs
    split at hs
    next t hc =>
      split_ifs at hs
      · obtain rfl := Option.some.inj hs
        have hnew := h.modify_same (t := t)
          (f := fun x => if x.periodic then x else { x with job := false }) fun x _ => by
            split_ifs <;> rfl
        exact ⟨hnew.live, hnew.set⟩
      · obtain rfl := Option.some.inj hs
        exact ⟨h.live, h.set⟩
    next => cases hs

/-- In a run of calls that meet the condition every descriptor is set as the calls promise, and the
first call that does not meet it leaves one that is not. -/
theorem timers_set {s : State × Expected} (h : promising.Run (fun s a => a.Sets s.1) s) :
    Kept s ∧ ∀ a s', promising.step s a = some s' → (Kept s' ↔ a.Sets s.1) := by
  have htracks : Tracks s.1 s.2 := by
    refine h.invariant (I := fun s => Tracks s.1 s.2) ?_ ?_
    · rintro _ rfl
      exact ⟨fun t σ ht => (nomatch ht), fun t σ ht => (nomatch ht)⟩
    · intro s a s' hi hok hs
      obtain ⟨r, hr, rfl⟩ := Option.map_eq_some_iff.1 hs
      exact (hi.step hr).2 hok
  refine ⟨htracks.set, fun a s' hs => ?_⟩
  obtain ⟨r, hr, rfl⟩ := Option.map_eq_some_iff.1 hs
  exact ⟨(htracks.step hr).1, fun hok => ((htracks.step hr).2 hok).set⟩

/-! ## Fixed runs -/

/-- A test for `Action.Sets`. -/
def Action.testSets (s : State) : Action → Bool
  | .start t periodic => (s.timers t).all fun x =>
      x.ms == 0 || !x.job || decide (x.fd.setting = .after s.now x.ms periodic)
  | .setMs t ms => (s.timers t).all fun x => ms == 0 || x.fd.deadline.isNone ||
      decide (x.fd.setting = .after s.now ms (x.fd.interval ≠ 0))
  | _ => true

theorem testSets_sound {s : State} {a : Action} (h : a.testSets s = true) : a.Sets s := by
  cases a with
  | start t periodic =>
    intro x hx hms
    have hx' := (Option.all_eq_true _ _).1 h x hx
    simpa [hms] using hx'
  | setMs t ms =>
    intro x hx hms
    have hx' := (Option.all_eq_true _ _).1 h x hx
    simpa [hms] using hx'
  | _ => trivial

/-- A timer that is stopped, given another time and started again. -/
theorem timers_set_stopped : ∃ s : State × Expected, Kept s ∧
    s.2 7 = some ⟨some 3000000000, 2000000000⟩ := by
  have hrun : (promising.execOk (fun s a => a.testSets s.1)
      [.create (some 7), .start 7 false, .elapse 1000000000, .stop 7, .setMs 7 2000, .start 7 true]
      (.initial, fun _ => none)).any
      (fun s => decide (s.2 7 = some ⟨some 3000000000, 2000000000⟩)) = true := by decide +kernel
  obtain ⟨s, hs, hset⟩ := Machine.exists_run rfl (fun _ _ => testSets_sound) hrun
  exact ⟨s, (timers_set hs).1, of_decide_eq_true hset⟩

/-- A running timer keeps its time when it is given another one. -/
theorem set_running : ¬ ∀ s, promising.Reachable s → Kept s := by
  intro hall
  have hrun : (promising.exec
      [.create (some 7), .start 7 false, .setMs 7 2000] (.initial, fun _ => none)).any
      (fun s => decide (s.2 7 = some ⟨some 2000000000, 0⟩ ∧
        (s.1.timers 7).map (fun x => x.fd.setting) = some ⟨some 1000000000, 0⟩)) = true := by
    decide +kernel
  obtain ⟨s, hs, hbad⟩ := Machine.exists_reachable rfl hrun
  obtain ⟨hset, hfd⟩ := of_decide_eq_true hbad
  obtain ⟨x, hx, hsame⟩ := hall s hs 7 _ hset
  rw [hx, Option.map_some, hsame] at hfd
  cases hfd

end PoserCore.Timers
