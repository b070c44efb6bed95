import PoserCore.CommandQueue.Mailbox

/-!
# Wake-ups of the locked command queue

The owner never sleeps while commands wait and nobody is about to wake it (`no_stranded_command`).  It
takes the commands and asks for a wake-up under one hold of the lock, which the other build cannot do.
-/

namespace PoserCore.CommandQueue.Locked

open Lib

variable {Tid Cmd : Type}

/-- The thread is on its way to `write`, which sets the token. -/
def Pc.Wakes (mustwake : Bool) : Pc Cmd → Prop
  | .setLast _ | .readWake => mustwake = true
  | .clearWake w | .unlock w => w = true
  | .wake => True
  | _ => False

/-- The thread linked its node and has not reset `mustwake`. -/
def Pc.Claims : Pc Cmd → Prop
  | .setLast _ | .readWake | .clearWake _ => True
  | _ => False

/-- The owner took the commands and asked for a wake-up, and has not revoked that. -/
def OwnPc.Armed : OwnPc → Prop
  | .unlock _ | .run _ | .loadNext _ | .free _ _ | .eventsDone | .poll => True
  | _ => False

structure Wakeable (first : Option Addr) (mustwake token : Bool) (pc : Tid → Pc Cmd) (opc : OwnPc) :
    Prop where
  cleared : ∀ torun, opc = .zeroLast torun ∨ opc = .setWake torun → first = none
  pending : opc.Armed → first ≠ none → mustwake = false ∨ ∃ t, (pc t).Claims
  signalled : opc.Armed → mustwake = false → token = true ∨ ∃ t, (pc t).Wakes false
  read : ∀ t w, pc t = .clearWake w → mustwake = w

section Wakeable

variable {first : Option Addr} {mustwake token : Bool} {pc : Tid → Pc Cmd} {opc : OwnPc}
variable {lock : Option (Option Tid)} {t : Tid} {p : Pc Cmd}

/-- Commands wait while the owner is armed: somebody wakes it. -/
theorem Wakeable.wakes (h : Wakeable first mustwake token pc opc) (ho : opc.Armed)
    (hf : first ≠ none) : token = true ∨ ∃ t, (pc t).Wakes mustwake := by
  cases hm : mustwake with
  | false =>
    subst hm
    exact h.signalled ho rfl
  | true =>
    subst hm
    obtain hfalse | ⟨t, ht⟩ := h.pending ho hf
    · cases hfalse
    · refine .inr ⟨t, ?_⟩
      cases hpc : pc t with
      | clearWake w => exact (h.read t w hpc).symm
      | setLast _ | readWake => rfl
      | _ =>
        rw [hpc] at ht
        exact absurd ht id

variable [DecidableEq Tid]

theorem exists_update {A : Pc Cmd → Prop} (h : ∃ u, A (pc u)) (ht : A (pc t) → A p) :
    ∃ u, A (Function.update pc t p u) := by
  obtain ⟨u, hu⟩ := h
  by_cases hut : u = t
  · subst hut
    exact ⟨u, by rw [Function.update_self]; exact ht hu⟩
  · exact ⟨u, by rwa [Function.update_of_ne hut]⟩

/-- A step of a thread that sets neither `first` nor `mustwake` -/
theorem Wakeable.move (h : Wakeable first mustwake token pc opc)
    (hclaims : (pc t).Claims → p.Claims) (hwakes : (pc t).Wakes false → p.Wakes false)
    (hread : ∀ w, p = .clearWake w → mustwake = w) :
    Wakeable first mustwake token (Function.update pc t p) opc where
  cleared := h.cleared
  pending ho hf := (h.pending ho hf).imp_right fun he => exists_update he hclaims
  signalled ho hm := (h.signalled ho hm).imp_right fun he => exists_update he hwakes
  read u w hu := by
    by_cases hut : u = t
    · rw [hut, Function.update_self] at hu
      exact hread w hu
    · rw [Function.update_of_ne hut] at hu
      exact h.read u w hu

omit [DecidableEq Tid] in
/-- The owner goes on, without another look at the queue. -/
theorem Wakeable.owner_move {opc' : OwnPc} (h : Wakeable first mustwake token pc opc)
    (ha : opc'.Armed → opc.Armed) (hc : ∀ torun, opc' ≠ .zeroLast torun ∧ opc' ≠ .setWake torun) :
    Wakeable first mustwake token pc opc' where
  cleared torun he := (he.elim (hc torun).1 (hc torun).2).elim
  pending ho := h.pending (ha ho)
  signalled ho := h.signalled (ha ho)
  read := h.read

theorem runThread_wakeable {s s' : State Tid Cmd} (hl : Locks s.lock s.pc s.opc)
    (h : Wakeable s.first s.mustwake s.token s.pc s.opc) (hs : runThread s t = some s') :
    Wakeable s'.first s'.mustwake s'.token s'.pc s'.opc := by
  cases hpc : s.pc t with
  | idle => simp [runThread, hpc] at hs
  | malloc cmd => simp [runThread, hpc] at hs
  | lock cmd node =>
    rw [runThread, hpc] at hs
    dsimp only at hs
    split_ifs at hs
    obtain rfl := Option.some.inj hs
    exact h.move (by rw [hpc]; exact id) (by rw [hpc]; exact id) (by simp)
  | link cmd node =>
    have hholds : (s.pc t).Holds := by
      rw [hpc]
      trivial
    have hset : ∀ first, Wakeable first s.mustwake s.token
        (Function.update s.pc t (.setLast node)) s.opc := by
      intro first
      refine ⟨fun torun he => ?_, fun _ _ => .inr ⟨t, by rw [Function.update_self]; trivial⟩,
        (h.move (p := .setLast node) (by rw [hpc]; exact False.elim) (by rw [hpc]; exact False.elim)
          (by simp)).signalled,
        (h.move (p := .setLast node) (by rw [hpc]; exact False.elim) (by rw [hpc]; exact False.elim)
          (by simp)).read⟩
      -- the owner does not hold the lock
      refine absurd ?_ (hl.not_owner hholds)
      rcases he with he | he <;> rw [he] <;> trivial
    rw [runThread, hpc] at hs
    dsimp only at hs
    split at hs <;> obtain rfl := Option.some.inj hs <;> exact hset _
  | setLast node =>
    rw [runThread, hpc] at hs
    obtain rfl := Option.some.inj hs
    exact h.move (fun _ => trivial) (by rw [hpc]; exact id) (by simp)
  | readWake =>
    rw [runThread, hpc] at hs
    obtain rfl := Option.some.inj hs
    refine h.move (fun _ => trivial) (by rw [hpc]; exact fun hf => by cases hf) fun w hw => ?_
    cases hw
    rfl
  | clearWake w =>
    rw [runThread, hpc] at hs
    obtain rfl := Option.some.inj hs
    have hw := h.read t w hpc
    have hholds : (s.pc t).Holds := by
      rw [hpc]
      trivial
    refine ⟨h.cleared, fun _ _ => .inl rfl, fun ho _ => ?_, fun u w' hu => ?_⟩
    · cases w with
      | true => exact .inr ⟨t, by simp [State.goto, Pc.Wakes]⟩
      | false =>
        refine (h.signalled ho hw).imp_right fun he => exists_update he fun ht => ?_
        rw [hpc] at ht
        cases ht
    · have hu' : Function.update s.pc t (.unlock w) u = .clearWake w' := hu
      have hut : u ≠ t := by
        rintro rfl
        simp at hu'
      rw [Function.update_of_ne hut] at hu'
      exact absurd (hl.unique hholds (by rw [hu']; trivial)) hut
  | unlock w =>
    rw [runThread, hpc] at hs
    obtain rfl := Option.some.inj hs
    refine h.move (by rw [hpc]; exact False.elim) (fun hw => ?_) (by cases w <;> simp)
    rw [hpc] at hw
    obtain rfl : w = true := hw
    trivial
  | wake =>
    rw [runThread, hpc] at hs
    obtain rfl := Option.some.inj hs
    refine ⟨h.cleared, fun ho hf => (h.pending ho hf).imp_right fun he =>
        exists_update he (by rw [hpc]; exact False.elim), fun _ _ => .inl rfl, fun u w hu => ?_⟩
    have hu' : Function.update s.pc t .idle u = .clearWake w := hu
    have hut : u ≠ t := by
      rintro rfl
      simp at hu'
    rw [Function.update_of_ne hut] at hu'
    exact h.read u w hu'

omit [DecidableEq Tid] in
theorem runOwner_wakeable {latched : Bool} {s s' : State Tid Cmd} (hl : Locks s.lock s.pc s.opc)
    (h : Wakeable s.first s.mustwake s.token s.pc s.opc) (hs : runOwner latched s = some s') :
    Wakeable s'.first s'.mustwake s'.token s'.pc s'.opc := by
  -- nobody is between the two statements on `mustwake` while the owner holds the lock
  have hread : s.opc.Holds → ∀ t w, s.pc t ≠ .clearWake w := by
    intro ho t w ht
    exact hl.not_thread (t := t) ho (by rw [ht]; trivial)
  have hacq : ∀ opc, s.acquire opc = some s' → s' = { s with lock := some none, opc := opc } := by
    intro opc ha
    rw [State.acquire] at ha
    split_ifs at ha
    exact (Option.some.inj ha).symm
  cases ho : s.opc with
  | poll => simp [runOwner, ho] at hs
  | clearLock reported =>
    rw [runOwner, ho] at hs
    obtain rfl := hacq _ hs
    exact h.owner_move False.elim (by simp)
  | clearStore reported =>
    rw [runOwner, ho] at hs
    obtain rfl := Option.some.inj hs
    exact ⟨by simp, False.elim, False.elim, fun t w ht => absurd ht (hread (by rw [ho]; trivial) t w)⟩
  | clearUnlock reported =>
    rw [runOwner, ho] at hs
    obtain rfl := Option.some.inj hs
    dsimp only
    split_ifs <;> exact h.owner_move False.elim (by simp)
  | drain =>
    rw [runOwner, ho] at hs
    obtain rfl := Option.some.inj hs
    exact ⟨by simp, False.elim, False.elim, h.read⟩
  | enter =>
    rw [runOwner, ho] at hs
    obtain rfl := Option.some.inj hs
    exact h.owner_move False.elim (by simp)
  | lock =>
    rw [runOwner, ho] at hs
    obtain rfl := hacq _ hs
    exact h.owner_move False.elim (by simp)
  | readFirst =>
    rw [runOwner, ho] at hs
    obtain rfl := Option.some.inj hs
    exact h.owner_move False.elim (by simp)
  | zeroFirst torun =>
    rw [runOwner, ho] at hs
    obtain rfl := Option.some.inj hs
    exact ⟨fun _ _ => rfl, False.elim, False.elim, h.read⟩
  | zeroLast torun =>
    rw [runOwner, ho] at hs
    obtain rfl := Option.some.inj hs
    exact ⟨fun _ _ => h.cleared torun (.inl ho), False.elim, False.elim, h.read⟩
  | setWake torun =>
    rw [runOwner, ho] at hs
    obtain rfl := Option.some.inj hs
    refine ⟨by simp, fun _ hf => absurd (h.cleared torun (.inr ho)) hf, fun _ hm => absurd hm (by simp),
      fun t w ht => absurd ht (hread (by rw [ho]; trivial) t w)⟩
  | unlock torun =>
    rw [runOwner, ho] at hs
    obtain rfl := Option.some.inj hs
    exact h.owner_move (fun _ => by rw [ho]; trivial) (by simp)
  | run torun =>
    cases torun with
    | none =>
      rw [runOwner, ho] at hs
      obtain rfl := Option.some.inj hs
      exact h.owner_move (fun _ => by rw [ho]; trivial) (by simp)
    | some torun =>
      rw [runOwner, ho] at hs
      dsimp only at hs
      split at hs <;> obtain rfl := Option.some.inj hs <;>
        exact h.owner_move (fun _ => by rw [ho]; trivial) (by simp)
  | loadNext torun =>
    rw [runOwner, ho] at hs
    obtain rfl := Option.some.inj hs
    exact h.owner_move (fun _ => by rw [ho]; trivial) (by simp)
  | free torun next =>
    rw [runOwner, ho] at hs
    obtain rfl := Option.some.inj hs
    exact h.owner_move (fun _ => by rw [ho]; trivial) (by simp)
  | eventsDone =>
    rw [runOwner, ho] at hs
    obtain rfl := Option.some.inj hs
    exact h.owner_move (fun _ => by rw [ho]; trivial) (by simp)

theorem step_wakeable {latched : Bool} {s s' : State Tid Cmd} {a : Action Tid Cmd}
    (hl : Locks s.lock s.pc s.opc) (h : Wakeable s.first s.mustwake s.token s.pc s.opc)
    (hs : step latched s a = some s') :
    Wakeable s'.first s'.mustwake s'.token s'.pc s'.opc := by
  cases a with
  | run t => exact runThread_wakeable hl h hs
  | owner => exact runOwner_wakeable hl h hs
  | call t cmd =>
    rw [step] at hs
    split at hs
    next hpc =>
      obtain rfl := Option.some.inj hs
      exact h.move (by rw [hpc]; exact id) (by rw [hpc]; exact id) (by simp)
    next => cases hs
  | malloc t a =>
    rw [step] at hs
    split at hs
    next cmd hpc ha =>
      obtain rfl := Option.some.inj hs
      exact h.move (by rw [hpc]; exact id) (by rw [hpc]; exact id) (by simp)
    next => cases hs
  | poll reported =>
    rw [step] at hs
    split_ifs at hs
    obtain rfl := Option.some.inj hs
    exact ⟨by simp, False.elim, False.elim, h.read⟩

/-- What the step of a thread does to the others -/
theorem runThread_other {s s' : State Tid Cmd} {u : Tid} (hs : runThread s u = some s') (hut : u ≠ t) :
    s'.pc t = s.pc t ∧ (s'.mustwake = s.mustwake ∨ ∃ w, s.pc u = .clearWake w) := by
  have hgoto : ∀ p, Function.update s.pc u p t = s.pc t :=
    fun p => Function.update_of_ne (Ne.symm hut) ..
  cases hpc : s.pc u with
  | idle => simp [runThread, hpc] at hs
  | malloc cmd => simp [runThread, hpc] at hs
  | lock cmd node =>
    rw [runThread, hpc] at hs
    dsimp only at hs
    split_ifs at hs
    obtain rfl := Option.some.inj hs
    exact ⟨hgoto _, .inl rfl⟩
  | link cmd node =>
    rw [runThread, hpc] at hs
    dsimp only at hs
    split at hs <;> obtain rfl := Option.some.inj hs <;> exact ⟨hgoto _, .inl rfl⟩
  | clearWake w =>
    rw [runThread, hpc] at hs
    obtain rfl := Option.some.inj hs
    exact ⟨hgoto _, .inr ⟨w, rfl⟩⟩
  | _ =>
    rw [runThread, hpc] at hs
    obtain rfl := Option.some.inj hs
    exact ⟨hgoto _, .inl rfl⟩

/-- A thread on its way to wake the owner is not blocked. -/
theorem wakes_enabled {s : State Tid Cmd} (hw : (s.pc t).Wakes s.mustwake) :
    (runThread s t).isSome := by
  unfold runThread
  cases hpc : s.pc t with
  | idle | malloc _ | lock _ _ | link _ _ =>
    rw [hpc] at hw
    exact absurd hw id
  | _ => rfl

/-- Its own step brings it closer to the wake-up. -/
theorem wakes_self {s s' : State Tid Cmd} (hw : (s.pc t).Wakes s.mustwake)
    (hs : runThread s t = some s') : (s'.pc t).Wakes s'.mustwake ∨ s'.token = true := by
  cases hpc : s.pc t with
  | idle | malloc _ | lock _ _ | link _ _ =>
    rw [hpc] at hw
    exact absurd hw id
  | setLast _ | readWake | clearWake _ =>
    rw [runThread, hpc] at hs
    obtain rfl := Option.some.inj hs
    rw [hpc] at hw
    exact .inl (by simpa [State.goto, Pc.Wakes] using hw)
  | unlock w =>
    rw [runThread, hpc] at hs
    obtain rfl := Option.some.inj hs
    rw [hpc] at hw
    obtain rfl : w = true := hw
    exact .inl (by simp [State.goto, Pc.Wakes])
  | wake =>
    rw [runThread, hpc] at hs
    obtain rfl := Option.some.inj hs
    exact .inr rfl

/-- While the owner sleeps, a thread on its way to wake it stays on its way until it has. -/
theorem wakes_step {latched : Bool} {s s' : State Tid Cmd} {a : Action Tid Cmd}
    (hl : Locks s.lock s.pc s.opc) (hw : (s.pc t).Wakes s.mustwake) (ho : s.opc = .poll)
    (hs : step latched s a = some s') :
    (s'.pc t).Wakes s'.mustwake ∨ s'.token = true ∨ ∃ reported, a = .poll reported := by
  have hidle : ∀ u p, ¬ (s.pc u).Wakes s.mustwake →
      (Function.update s.pc u p t).Wakes s.mustwake := by
    intro u p hu
    have htu : t ≠ u := by
      rintro rfl
      exact hu hw
    rwa [Function.update_of_ne htu]
  cases a with
  | owner =>
    rw [step, runOwner, ho] at hs
    cases hs
  | poll reported => exact .inr (.inr ⟨reported, rfl⟩)
  | call u cmd =>
    rw [step] at hs
    split at hs
    next hpc =>
      obtain rfl := Option.some.inj hs
      exact .inl (hidle u _ (by rw [hpc]; exact id))
    next => cases hs
  | malloc u a =>
    rw [step] at hs
    split at hs
    next cmd hpc ha =>
      obtain rfl := Option.some.inj hs
      exact .inl (hidle u _ (by rw [hpc]; exact id))
    next => cases hs
  | run u =>
    by_cases hut : u = t
    · subst hut
      exact (wakes_self hw hs).imp_right .inl
    · obtain ⟨hpc, hm | ⟨w, hu⟩⟩ := runThread_other hs hut
      · rw [hpc, hm]
        exact .inl hw
      · -- the other thread holds the lock, so this one has read `mustwake`
        rw [hpc]
        refine .inl ?_
        have hnot : ¬ (s.pc t).Holds :=
          fun hh => hut (hl.unique hh (by rw [hu]; trivial))
        cases ht : s.pc t with
        | wake => trivial
        | idle | malloc _ | lock _ _ | link _ _ =>
          rw [ht] at hw
          exact absurd hw id
        | _ =>
          rw [ht] at hnot
          exact absurd trivial hnot

/-- The owner sleeps until its wait ends, and a token stays. -/
theorem sleeps_step {latched : Bool} {s s' : State Tid Cmd} {a : Action Tid Cmd} (ho : s.opc = .poll)
    (ha : ∀ reported, a ≠ .poll reported) (hs : step latched s a = some s') :
    s'.opc = .poll ∧ (s.token = true → s'.token = true) := by
  cases a with
  | owner =>
    rw [step, runOwner, ho] at hs
    cases hs
  | poll reported => exact absurd rfl (ha reported)
  | call u cmd =>
    rw [step] at hs
    split at hs
    next =>
      obtain rfl := Option.some.inj hs
      exact ⟨ho, id⟩
    next => cases hs
  | malloc u a =>
    rw [step] at hs
    split at hs
    next =>
      obtain rfl := Option.some.inj hs
      exact ⟨ho, id⟩
    next => cases hs
  | run u =>
    rw [step] at hs
    cases hpc : s.pc u with
    | idle | malloc _ =>
      rw [runThread, hpc] at hs
      cases hs
    | lock cmd node =>
      rw [runThread, hpc] at hs
      dsimp only at hs
      split_ifs at hs
      obtain rfl := Option.some.inj hs
      exact ⟨ho, id⟩
    | link cmd node =>
      rw [runThread, hpc] at hs
      dsimp only at hs
      split at hs
      all_goals
        obtain rfl := Option.some.inj hs
        exact ⟨ho, id⟩
    | wake =>
      rw [runThread, hpc] at hs
      obtain rfl := Option.some.inj hs
      exact ⟨ho, fun _ => rfl⟩
    | _ =>
      rw [runThread, hpc] at hs
      obtain rfl := Option.some.inj hs
      exact ⟨ho, id⟩

/-- As long as the owner sleeps, a thread on its way to wake it stays on its way until it has, whatever
the others do. -/
theorem wakes_exec {latched : Bool} {as : List (Action Tid Cmd)} {s s' : State Tid Cmd}
    (hrel : ∃ q ph, Rel s q ph) (ho : s.opc = .poll)
    (hw : s.token = true ∨ (s.pc t).Wakes s.mustwake) (has : ∀ reported, .poll reported ∉ as)
    (hs : (machine Tid Cmd latched).exec as s = some s') :
    s'.token = true ∨ (s'.pc t).Wakes s'.mustwake := by
  induction as generalizing s with
  | nil =>
    obtain rfl := Option.some.inj hs
    exact hw
  | cons a as ih =>
    obtain ⟨u, hu, hs⟩ := Option.bind_eq_some_iff.1 hs
    have ha : ∀ reported, a ≠ .poll reported := fun reported h =>
      has reported (h ▸ List.mem_cons_self)
    obtain ⟨ho', htoken⟩ := sleeps_step ho ha hu
    obtain ⟨q, ph, hrel⟩ := hrel
    obtain ⟨q', ph', -, hrel'⟩ := step_rel hrel hu
    refine ih ⟨q', ph', hrel'⟩ ho' ?_ (fun reported h => has reported (List.mem_cons_of_mem _ h)) hs
    rcases hw with htrue | hw
    · exact .inl (htoken htrue)
    · rcases wakes_step hrel.locks hw ho hu with h | h | ⟨reported, h⟩
      · exact .inr h
      · exact .inl h
      · exact absurd h (ha reported)

end Wakeable

/-- While commands wait, a sleeping owner is woken: the token is there, or some thread is on its way to
set it, and until its wait ends that thread stays on its way and is not blocked, or the token is there,
whatever the others do. -/
theorem no_stranded_command (Tid Cmd : Type) [DecidableEq Tid] (latched : Bool) {s : State Tid Cmd}
    (h : (machine Tid Cmd latched).Reachable s) (ho : s.opc = .poll) (hf : s.first ≠ none) :
    s.token = true ∨ ∃ t, (s.pc t).Wakes s.mustwake ∧
      ∀ as s', (machine Tid Cmd latched).exec as s = some s' → (∀ reported, .poll reported ∉ as) →
        s'.token = true ∨ (s'.pc t).Wakes s'.mustwake ∧ (runThread s' t).isSome := by
  have hinv : (∃ q ph, Rel s q ph) ∧ Wakeable s.first s.mustwake s.token s.pc s.opc := by
    refine Machine.Run.invariant (I := fun s => (∃ q ph, Rel s q ph) ∧
      Wakeable s.first s.mustwake s.token s.pc s.opc) ?_ ?_ h
    · rintro s rfl
      exact ⟨⟨[], _, rel_init⟩, by simp [init], fun _ hf => absurd rfl hf,
        fun _ hm => absurd hm (by simp [init]), fun t w ht => absurd ht (by simp [init])⟩
    · rintro s a s' ⟨⟨q, ph, hrel⟩, hw⟩ - hs
      obtain ⟨q', ph', -, hrel'⟩ := step_rel hrel hs
      exact ⟨⟨q', ph', hrel'⟩, step_wakeable hrel.locks hw hs⟩
  obtain ⟨⟨q, ph, hrel⟩, hw⟩ := hinv
  refine (hw.wakes (by rw [ho]; trivial) hf).imp_right ?_
  rintro ⟨t, ht⟩
  refine ⟨t, ht, fun as s' hs has => ?_⟩
  exact (wakes_exec ⟨q, ph, hrel⟩ ho (.inr ht) has hs).imp_right fun hw' => ⟨hw', wakes_enabled hw'⟩

/-- A command is linked, and the thread that linked it wakes the owner. -/
theorem no_stranded_command_one : ∃ s : State Unit Bool, s.token = false ∧ (s.pc ()).Wakes s.mustwake := by
  have hrun : ((machine Unit Bool false).exec
      [.call () true, .malloc () 7, .run (), .run ()] init).any
      (fun s => decide (s.opc = .poll ∧ s.first ≠ none ∧ s.token = false)) = true := by decide +kernel
  obtain ⟨s, hs, hp⟩ := Machine.exists_reachable rfl hrun
  obtain ⟨ho, hf, htoken⟩ := of_decide_eq_true hp
  refine ⟨s, htoken, ?_⟩
  obtain htrue | ⟨t, hw, -⟩ := no_stranded_command Unit Bool false hs ho hf
  · rw [htoken] at htrue
    cases htrue
  · exact hw

end PoserCore.CommandQueue.Locked
