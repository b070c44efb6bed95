import PoserCore.Connection.Lifecycle

/-!
# The registration of a closed descriptor

`rdreg` and `wrreg` say what the service watches (`Synced`), and both are off where a descriptor is
closed, with one exception: what `deleteConnection` registers to wait for the peer's end of TLS is not
unregistered when the wait is over (`closed_unwatched`).
-/

namespace PoserCore.Connection.Life

open Lib (Machine)

variable {s s' : State} {o : Outcome} {f : Frame}

/-! ## The claim -/

/-- A closed descriptor was registered neither for reading nor for writing. -/
def Unwatched (s : State) : Prop := ∀ w, s.closed = some w → w = ⟨false, false⟩

/-- The deletion does not close a descriptor that is still registered for its wait. -/
def Clean (s : State) (a : Action) : Prop :=
  ∀ o rest, a = .run o → s.frames = .destroyRest :: rest → 1 < s.conn.deleteScheduled →
    s.waits = false

/-! ## The invariant -/

structure Synced (s : State) : Prop where
  watch : s.watch = ⟨s.conn.rdreg, s.conn.wrreg⟩
  /-- After `deleteLater`, only the wait of `deleteConnection` registers for reading. -/
  waits : s.conn.deleteScheduled ≠ 0 → s.conn.rdreg = s.waits
  shutdown : s.conn.tlsShutdownSt ≠ .nothing → s.conn.deleteScheduled ≠ 0

structure Inv (s : State) : Prop where
  synced : s.closed = none → Synced s
  scheduled : .deleteConnection ∈ s.frames → s.conn.deleteScheduled ≠ 0

/-- Nothing changes that the registration depends on. -/
structure Same (s s' : State) : Prop where
  watch : s'.watch = s.watch
  waits : s'.waits = s.waits
  closed : s'.closed = s.closed
  rdreg : s'.conn.rdreg = s.conn.rdreg
  wrreg : s'.conn.wrreg = s.conn.wrreg
  deleteScheduled : s'.conn.deleteScheduled = s.conn.deleteScheduled
  tlsShutdownSt : s'.conn.tlsShutdownSt = s.conn.tlsShutdownSt

theorem Synced.same (h : Synced s) (hs : Same s s') : Synced s' := by
  refine ⟨?_, ?_, ?_⟩
  · rw [hs.watch, hs.rdreg, hs.wrreg]
    exact h.watch
  · rw [hs.deleteScheduled, hs.rdreg, hs.waits]
    exact h.waits
  · rw [hs.deleteScheduled, hs.tlsShutdownSt]
    exact h.shutdown

/-! ## Registering -/

theorem Synced.watchWrite (h : Synced s) : Synced s.watchWrite := by
  refine ⟨?_, h.waits, h.shutdown⟩
  show (if s.conn.wrreg then s.watch else _) = (⟨s.conn.rdreg, true⟩ : Watch)
  rw [h.watch]
  split_ifs with hreg
  · rw [hreg]
  · rfl

theorem Synced.unwatchWrite (h : Synced s) : Synced s.unwatchWrite := by
  refine ⟨?_, h.waits, h.shutdown⟩
  show (if s.conn.wrreg then _ else s.watch) = (⟨s.conn.rdreg, false⟩ : Watch)
  rw [h.watch]
  split_ifs with hreg
  · rfl
  · rw [Bool.eq_false_iff.2 hreg]

theorem watch_watchRead (h : Synced s) : s.watchRead.watch = ⟨true, s.conn.wrreg⟩ := by
  show (if s.conn.rdreg then s.watch else _) = _
  rw [h.watch]
  split_ifs with hreg
  · rw [hreg]
  · rfl

theorem Synced.unwatchRead (h : Synced s) : Synced s.unwatchRead := by
  refine ⟨?_, fun _ => rfl, h.shutdown⟩
  show (if s.conn.rdreg then _ else s.watch) = (⟨false, s.conn.wrreg⟩ : Watch)
  rw [h.watch]
  split_ifs with hreg
  · rfl
  · rw [Bool.eq_false_iff.2 hreg]

theorem Conn.wantRead_scheduled {self : Conn} (h : self.wantRead = true) : self.deleteScheduled = 0 := by
  unfold Conn.wantRead at h
  rw [Bool.and_eq_true] at h
  exact of_decide_eq_true h.1

theorem Synced.wantreadwrite (h : Synced s) : Synced (wantreadwrite s) ∧
    (wantreadwrite s).conn.deleteScheduled = s.conn.deleteScheduled ∧
    (wantreadwrite s).closed = s.closed := by
  have hread : ∀ s₁ : State, Synced s₁ →
      Synced (if s₁.conn.wantRead then s₁.watchRead else s₁.unwatchRead) := by
    intro s₁ h₁
    split_ifs with hwant
    · have hzero := Conn.wantRead_scheduled hwant
      exact ⟨watch_watchRead h₁, fun hne => absurd hzero hne, h₁.shutdown⟩
    · exact h₁.unwatchRead
  unfold Life.wantreadwrite
  simp only
  refine ⟨hread _ ?_, ?_, ?_⟩
  · split_ifs
    · exact h.watchWrite
    · exact h.unwatchWrite
  · split_ifs <;> rfl
  · split_ifs <;> rfl

theorem Synced.deleteLater (h : Synced s) : Synced (deleteLater s) ∧
    (deleteLater s).conn.deleteScheduled ≠ 0 ∧ (deleteLater s).closed = s.closed := by
  unfold Life.deleteLater
  split_ifs with hzero
  · exact ⟨⟨h.unwatchRead.watch, fun _ => rfl, fun _ => Nat.one_ne_zero⟩, Nat.one_ne_zero, rfl⟩
  · exact ⟨h, hzero, rfl⟩

/-! ## The functions -/

/-- What one function does that closes no descriptor -/
structure Kept (s s' : State) : Prop where
  synced : Synced s'
  closed : s'.closed = s.closed
  scheduled : s.conn.deleteScheduled ≠ 0 → s'.conn.deleteScheduled ≠ 0

theorem Same.kept (hs : Same s s') (h : Synced s) : Kept s s' :=
  ⟨h.same hs, hs.closed, fun hne => by rw [hs.deleteScheduled]; exact hne⟩

theorem same_setConn {conn : Conn} (h₁ : conn.rdreg = s.conn.rdreg) (h₂ : conn.wrreg = s.conn.wrreg)
    (h₃ : conn.deleteScheduled = s.conn.deleteScheduled)
    (h₄ : conn.tlsShutdownSt = s.conn.tlsShutdownSt) : Same s (s.setConn conn) :=
  ⟨rfl, rfl, rfl, h₁, h₂, h₃, h₄⟩

theorem same_self (s : State) : Same s s := ⟨rfl, rfl, rfl, rfl, rfl, rfl, rfl⟩

theorem same_dohandshake (o : Outcome) (s : State) : Same s (dohandshake o s).1 := by
  unfold dohandshake
  simp only
  split
  · split_ifs <;> exact same_setConn rfl rfl rfl rfl
  · exact same_setConn rfl rfl rfl rfl
  · exact same_setConn rfl rfl rfl rfl

theorem same_dowrite (o : Outcome) (s : State) : Same s (dowrite o s).1 := by
  unfold dowrite
  simp only
  split
  all_goals split_ifs <;> exact same_setConn rfl rfl rfl rfl

theorem same_wrote (s : State) : Same s (wrote s).1 := by
  unfold wrote
  split_ifs
  · exact same_self s
  · exact same_self s
  · exact same_setConn rfl rfl rfl rfl

theorem same_doread (o : Outcome) (s : State) : Same s (doread o s).1 := by
  unfold doread
  by_cases htls : s.conn.tls = true
  · rw [if_pos htls]
    simp only
    split <;> exact same_setConn rfl rfl rfl rfl
  rw [if_neg htls]
  by_cases hpipe : s.conn.type = .pipewr
  · rw [if_pos hpipe]
    exact same_setConn rfl rfl rfl rfl
  rw [if_neg hpipe]
  split
  · exact same_self s
  · exact same_setConn rfl rfl rfl rfl
  · exact same_self s

theorem same_readConnection (s : State) : Same s (readConnection s).1 := by
  unfold readConnection
  split_ifs
  · exact same_self s
  · exact same_self s
  · exact same_self s
  · exact same_setConn rfl rfl rfl rfl
  · exact same_self s

theorem same_writeConnection (o : Outcome) (s : State) : Same s (writeConnection o s).1 := by
  unfold writeConnection
  split_ifs
  · exact same_self s
  · exact same_setConn rfl rfl rfl rfl
  · exact same_setConn rfl rfl rfl rfl
  · exact same_self s
  · exact same_self s
  · exact same_setConn rfl rfl rfl rfl
  · exact same_self s

/-- The deletion goes on, or waits. -/
theorem kept_deleteConnection (h : Synced s) (hdel : s.conn.deleteScheduled ≠ 0) :
    Kept s (deleteConnection o s).1 := by
  have hgo : ∀ st, Kept s (s.setConn { s.conn with tlsShutdownSt := st, deleteScheduled := 2 }) :=
    fun st => ⟨⟨h.watch, fun _ => h.waits hdel, fun _ => Nat.succ_ne_zero 1⟩, rfl,
      fun _ => Nat.succ_ne_zero 1⟩
  unfold deleteConnection
  by_cases hpending : s.conn.pending = true
  · rw [if_pos hpending]
    exact (same_self s).kept h
  rw [if_neg hpending]
  by_cases htls : (s.conn.tls && !s.conn.connectTimer && decide (s.conn.tlsConnectSt = .nothing)) = true
  · rw [if_pos htls]
    simp only
    by_cases hwait : (!o.shutsdown && decide (o.rc = .wantRead)) = true
    · rw [if_pos hwait]
      refine ⟨⟨?_, fun _ => rfl, fun _ => hdel⟩, rfl, fun _ => hdel⟩
      exact watch_watchRead (s := s.setConn { s.conn with tlsShutdownSt := .read })
        ⟨h.watch, h.waits, fun _ => hdel⟩
    · rw [if_neg hwait]
      exact hgo _
  · rw [if_neg htls]
    exact hgo s.conn.tlsShutdownSt

/-- What is not the end of `PSC_Connection_destroy` closes no descriptor. -/
theorem kept_run (h : Synced s) (hdel : f = .deleteConnection → s.conn.deleteScheduled ≠ 0)
    (hrest : f ≠ .destroyRest) (hend : f ≠ .destroyEnd) : Kept s (run o s f).1 := by
  have hset : ∀ conn : Conn, conn.rdreg = s.conn.rdreg → conn.wrreg = s.conn.wrreg →
      conn.deleteScheduled = s.conn.deleteScheduled → conn.tlsShutdownSt = s.conn.tlsShutdownSt →
      Kept s (s.setConn conn) := fun conn h₁ h₂ h₃ h₄ => (same_setConn h₁ h₂ h₃ h₄).kept h
  cases f with
  | destroyRest => exact absurd rfl hrest
  | destroyEnd => exact absurd rfl hend
  | deleteLater =>
    obtain ⟨hsynced, hne, hclosed⟩ := h.deleteLater
    exact ⟨hsynced, hclosed, fun _ => hne⟩
  | wantreadwrite =>
    obtain ⟨hsynced, heq, hclosed⟩ := h.wantreadwrite
    exact ⟨hsynced, hclosed, fun hne => heq ▸ hne⟩
  | deleteConnection => exact kept_deleteConnection h (hdel rfl)
  | dohandshake => exact (same_dohandshake o s).kept h
  | dowrite => exact (same_dowrite o s).kept h
  | wrote => exact (same_wrote s).kept h
  | doread => exact (same_doread o s).kept h
  | readConnection => exact (same_readConnection s).kept h
  | writeConnection => exact (same_writeConnection o s).kept h
  | sendAsync =>
    apply Same.kept _ h
    show Same s (if _ then (s, _) else (s.setConn _, _) : State × List Frame).1
    split_ifs
    · exact same_self s
    · exact same_setConn rfl rfl rfl rfl
  | handlers => exact (same_self s).kept h
  | close => exact (same_self s).kept h
  | receive => exact (same_self s).kept h
  | readMore => exact (same_self s).kept h
  | tryWrite => exact (same_self s).kept h
  | destroy => exact (same_self s).kept h
  | confirmed => exact (same_self s).kept h
  | received full => exact hset _ rfl rfl rfl rfl
  | pause => exact hset _ rfl rfl rfl rfl
  | resume => exact hset _ rfl rfl rfl rfl
  | markHandling => exact hset _ rfl rfl rfl rfl
  | confirmDataReceived => exact hset _ rfl rfl rfl rfl

/-- The end of `PSC_Connection_destroy` closes the descriptor, or is not reached yet. -/
theorem run_destroyRest (h : Synced s) :
    (1 < s.conn.deleteScheduled ∧ (run o s .destroyRest).1.closed = some ⟨s.waits, false⟩) ∨
      (¬ 1 < s.conn.deleteScheduled ∧ (run o s .destroyRest).1 = s) := by
  show (_ ∧ (destroyRest s).1.closed = _) ∨ (_ ∧ (destroyRest s).1 = s)
  unfold destroyRest
  by_cases hzero : s.conn.deleteScheduled = 0
  · rw [if_pos hzero]
    exact .inr ⟨by omega, rfl⟩
  rw [if_neg hzero]
  by_cases hone : s.conn.deleteScheduled = 1
  · rw [if_pos hone]
    exact .inr ⟨by omega, rfl⟩
  · rw [if_neg hone]
    refine .inl ⟨by omega, ?_⟩
    show some s.unwatchWrite.watch = _
    rw [h.unwatchWrite.watch, ← h.waits hzero]
    rfl

theorem run_destroyEnd (h : Synced s) : (run o s .destroyEnd).1.closed = some ⟨false, false⟩ := by
  show some s.unwatchRead.unwatchWrite.watch = _
  rw [h.unwatchRead.unwatchWrite.watch]
  rfl

theorem not_mem_dohandshake (o : Outcome) (s : State) : .deleteConnection ∉ (dohandshake o s).2 := by
  unfold dohandshake
  simp only
  split
  · split_ifs <;> simp
  · simp
  · simp

theorem not_mem_dowrite (o : Outcome) (s : State) : .deleteConnection ∉ (dowrite o s).2 := by
  unfold dowrite
  simp only
  split
  · simp [List.mem_replicate]
  · split_ifs <;> simp
  · simp

theorem not_mem_doread (o : Outcome) (s : State) : .deleteConnection ∉ (doread o s).2 := by
  unfold doread
  split_ifs
  · simp only
    split <;> simp
  · simp
  · split <;> simp

/-- The deletion goes on only where it waited. -/
theorem deleteConnection_mem_run (h : .deleteConnection ∈ (run o s f).2) :
    s.conn.tlsShutdownSt ≠ .nothing := by
  cases f with
  | readConnection =>
    have h' : .deleteConnection ∈ (readConnection s).2 := h
    unfold readConnection at h'
    by_cases hst : s.conn.tlsShutdownSt = .read
    · rw [hst]
      exact Receive.TlsWant.noConfusion
    · rw [if_neg hst] at h'
      split_ifs at h' <;> simp at h'
  | dohandshake => exact absurd h (not_mem_dohandshake o s)
  | dowrite => exact absurd h (not_mem_dowrite o s)
  | doread => exact absurd h (not_mem_doread o s)
  | wrote =>
    have h' : .deleteConnection ∈ (wrote s).2 := h
    unfold wrote at h'
    split_ifs at h' <;> simp at h'
  | writeConnection =>
    have h' : .deleteConnection ∈ (writeConnection o s).2 := h
    unfold writeConnection at h'
    split_ifs at h' <;> simp at h'
  | deleteConnection =>
    have h' : .deleteConnection ∈ (deleteConnection o s).2 := h
    unfold deleteConnection at h'
    simp only at h'
    split_ifs at h' <;> simp at h'
  | destroyRest =>
    have h' : .deleteConnection ∈ (destroyRest s).2 := h
    unfold destroyRest at h'
    split_ifs at h' <;> simp at h'
  | destroy => simp [run, List.mem_replicate] at h
  | sendAsync =>
    simp only [run] at h
    split_ifs at h <;> simp at h
  | readMore =>
    simp only [run] at h
    split_ifs at h <;> simp at h
  | _ => simp [run] at h

/-! ## Runs -/

theorem deleteScheduled_run (h : Synced s) (hdel : f = .deleteConnection → s.conn.deleteScheduled ≠ 0)
    (hne : s.conn.deleteScheduled ≠ 0) : (run o s f).1.conn.deleteScheduled ≠ 0 := by
  by_cases hend : f = .destroyEnd
  · subst hend
    exact hne
  by_cases hrest : f = .destroyRest
  · subst hrest
    show (destroyRest s).1.conn.deleteScheduled ≠ 0
    unfold destroyRest
    split_ifs <;> exact hne
  · exact (kept_run h hdel hrest hend).scheduled hne

theorem inv_run {rest : List Frame} (hi : Inv s) (hc : s.closed = none) (hf : s.frames = f :: rest) :
    Inv { (run o s f).1 with frames := (run o s f).2 ++ rest } := by
  have h := hi.synced hc
  have hdel : ∀ g ∈ f :: rest, g = .deleteConnection → s.conn.deleteScheduled ≠ 0 := by
    rintro g hg rfl
    apply hi.scheduled
    rw [hf]
    exact hg
  have hfirst := hdel f List.mem_cons_self
  refine ⟨fun hopen => ?_, fun hm => ?_⟩
  · have hopen' : (run o s f).1.closed = none := hopen
    have hsynced : Synced (run o s f).1 := by
      by_cases hend : f = .destroyEnd
      · rw [hend, run_destroyEnd h] at hopen'
        cases hopen'
      by_cases hrest : f = .destroyRest
      · rw [hrest] at hopen' ⊢
        rcases run_destroyRest (o := o) h with ⟨-, hclosed⟩ | ⟨-, heq⟩
        · rw [hclosed] at hopen'
          cases hopen'
        · rw [heq]
          exact h
      · exact (kept_run h hfirst hrest hend).synced
    exact hsynced.same ⟨rfl, rfl, rfl, rfl, rfl, rfl, rfl⟩
  · apply deleteScheduled_run h hfirst
    rcases List.mem_append.1 hm with hm | hm
    · exact h.shutdown (deleteConnection_mem_run hm)
    · exact hdel _ (List.mem_cons_of_mem _ hm) rfl

/-- A step runs the function on top, or only changes what is to be run. -/
theorem step_cases {a : Action} (h : step s a = some s') :
    (∃ o f rest, a = .run o ∧ s.closed = none ∧ s.frames = f :: rest ∧
      s' = { (run o s f).1 with frames := (run o s f).2 ++ rest }) ∨
    (∃ frames, s' = { s with frames := frames } ∧ (∀ o, a ≠ .run o) ∧
      (.deleteConnection ∈ frames → .deleteConnection ∈ s.frames ∨ s.conn.deleteScheduled = 1)) := by
  cases a with
  | call f =>
    right
    rw [step] at h
    by_cases hc : s.closed.isSome = true
    · rw [if_pos hc] at h
      cases h
    rw [if_neg hc] at h
    split at h
    next hf =>
      split at h
      next hcall =>
        refine ⟨[f], (Option.some.inj h).symm, fun _ => Action.noConfusion, fun hm => .inr ?_⟩
        obtain rfl := List.mem_singleton.1 hm
        exact of_decide_eq_true hcall
      next => cases h
    next rest hf =>
      split at h
      next huser =>
        refine ⟨f :: s.frames, (Option.some.inj h).symm, fun _ => Action.noConfusion, fun hm => ?_⟩
        rcases List.mem_cons.1 hm with rfl | hm
        · cases huser
        · exact .inl hm
      next => cases h
    next => cases h
  | run o =>
    left
    rw [step] at h
    split_ifs at h with hc
    split at h
    next => cases h
    next => cases h
    next f rest _ hf =>
      exact ⟨o, f, rest, rfl, Option.not_isSome_iff_eq_none.1 hc, hf, (Option.some.inj h).symm⟩
  | handlersReturn =>
    right
    rw [step] at h
    split at h
    next rest hf =>
      refine ⟨rest, (Option.some.inj h).symm, fun _ => Action.noConfusion, fun hm => .inl ?_⟩
      rw [hf]
      exact List.mem_cons_of_mem _ hm
    next => cases h

theorem inv_step {a : Action} (hi : Inv s) (h : step s a = some s') : Inv s' := by
  rcases step_cases h with ⟨o, f, rest, -, hc, hf, rfl⟩ | ⟨frames, rfl, -, hm⟩
  · exact inv_run hi hc hf
  · refine ⟨fun hc => (hi.synced hc).same ⟨rfl, rfl, rfl, rfl, rfl, rfl, rfl⟩, fun hdel => ?_⟩
    rcases hm hdel with hold | hone
    · exact hi.scheduled hold
    · show s.conn.deleteScheduled ≠ 0
      rw [hone]
      exact Nat.one_ne_zero

theorem inv_create (opts : ConnOpts) : Inv (create opts) := by
  have hstart : ∀ self : Conn, self.rdreg = false → self.wrreg = false → self.deleteScheduled = 0 →
      self.tlsShutdownSt = .nothing → Synced ⟨self, ⟨false, false⟩, false, none, []⟩ :=
    fun self hr hw hd hs => ⟨by rw [hr, hw], fun hne => absurd hd hne, fun hne => absurd hs hne⟩
  have hread : ∀ s : State, Synced s → s.conn.deleteScheduled = 0 → Synced s.watchRead :=
    fun s h hzero => ⟨watch_watchRead h, fun hne => absurd hzero hne, h.shutdown⟩
  unfold create
  simp only
  split_ifs
  · exact ⟨fun _ => Synced.watchWrite (hstart _ rfl rfl rfl rfl), fun hm => by cases hm⟩
  · refine ⟨fun _ => ?_, fun hm => ?_⟩
    · exact (hstart (Conn.create opts) rfl rfl rfl rfl).same ⟨rfl, rfl, rfl, rfl, rfl, rfl, rfl⟩
    · cases List.mem_singleton.1 hm
  · exact ⟨fun _ => hread _ (hstart _ rfl rfl rfl rfl) rfl, fun hm => by cases hm⟩
  · refine ⟨fun _ => ?_, fun hm => ?_⟩
    · exact (hstart (Conn.create opts) rfl rfl rfl rfl).same ⟨rfl, rfl, rfl, rfl, rfl, rfl, rfl⟩
    · cases List.mem_singleton.1 hm
  · exact ⟨fun _ => hread _ (hstart _ rfl rfl rfl rfl) rfl, fun hm => by cases hm⟩

theorem inv_of_reachable (h : machine.Reachable s) : Inv s := by
  apply h.invariant
  · rintro s ⟨opts, rfl⟩
    exact inv_create opts
  · intro s a s' hi _ hs
    exact inv_step hi hs

/-- A descriptor is closed by one of two frames, and only `destroyRest` can leave it registered. -/
theorem unwatched_step {a : Action} (hi : Inv s) (hu : Unwatched s) (h : step s a = some s') :
    Unwatched s' ↔ Clean s a := by
  rcases step_cases h with ⟨o, f, rest, rfl, hc, hf, rfl⟩ | ⟨frames, rfl, hno, -⟩
  · have hsynced := hi.synced hc
    have hfirst : f = .deleteConnection → s.conn.deleteScheduled ≠ 0 := by
      rintro rfl
      apply hi.scheduled
      rw [hf]
      exact List.mem_cons_self
    have hclean : f ≠ .destroyRest → Clean s (.run o) := by
      intro hne o' rest' _ hf'
      rw [hf] at hf'
      exact absurd (List.cons.inj hf').1 hne
    by_cases hend : f = .destroyEnd
    · refine ⟨fun _ => hclean (by rw [hend]; exact Frame.noConfusion), fun _ w hw => ?_⟩
      have hw' : (run o s f).1.closed = some w := hw
      rw [hend, run_destroyEnd hsynced] at hw'
      exact (Option.some.inj hw').symm
    by_cases hrest : f = .destroyRest
    · subst hrest
      rcases run_destroyRest (o := o) hsynced with ⟨hlt, hclosed⟩ | ⟨hge, heq⟩
      · constructor
        · intro hun o' rest' _ _ _
          have hwatch := hun _ hclosed
          exact congrArg Watch.pollin hwatch
        · intro hcl w hw
          have hw' : (run o s .destroyRest).1.closed = some w := hw
          rw [hclosed, hcl o rest rfl hf hlt] at hw'
          exact (Option.some.inj hw').symm
      · refine ⟨fun _ o' rest' _ _ hlt => absurd hlt hge, fun _ w hw => hu w ?_⟩
        have hw' : (run o s .destroyRest).1.closed = some w := hw
        rwa [heq] at hw'
    · refine ⟨fun _ => hclean hrest, fun _ w hw => hu w ?_⟩
      have hw' : (run o s f).1.closed = some w := hw
      rwa [(kept_run hsynced hfirst hrest hend).closed] at hw'
  · exact ⟨fun _ o rest ha => absurd ha (hno o), fun _ w hw => hu w hw⟩

/-- In every run in which no deletion closes a descriptor that is registered for its wait, no closed
descriptor is registered; and the next step keeps it so if and only if it is one of these. -/
theorem closed_unwatched (h : machine.Run Clean s) :
    Unwatched s ∧ ∀ a s', step s a = some s' → (Unwatched s' ↔ Clean s a) := by
  have hun : Unwatched s := by
    induction h with
    | init h =>
      obtain ⟨opts, rfl⟩ := h
      intro w hw
      have hnone : (create opts).closed = none := by
        unfold create
        simp only
        split_ifs <;> rfl
      rw [hnone] at hw
      cases hw
    | step hrun hclean hs ih => exact (unwatched_step (inv_of_reachable hrun.reachable) ih hs).2 hclean
  exact ⟨hun, fun a s' => unwatched_step (inv_of_reachable h.reachable) hun⟩

/-- A sound test for `Clean` -/
def cleanTest (s : State) (_ : Action) : Bool := s.conn.deleteScheduled ≤ 1 || !s.waits

theorem clean_of_test (s : State) (a : Action) (h : cleanTest s a = true) : Clean s a := by
  intro o rest _ _ hlt
  simp only [cleanTest, Bool.or_eq_true, decide_eq_true_eq, Bool.not_eq_true'] at h
  exact h.resolve_left (Nat.not_le.2 hlt)

/-- A TLS connection of a server -/
def tlsServer : ConnOpts := ⟨.socket, true, false, false, false, true⟩

/-- The peer is not waited for when the service shuts down. -/
theorem closed_unwatched_shutdown : ∃ s, machine.Run Clean s ∧ s.closed = some ⟨false, false⟩ ∧
    Unwatched s := by
  have hrun : (machine.execOk cleanTest
      [.call .readConnection, .run {}, .run {}, .run {}, .call .close, .run {}, .handlersReturn, .run {},
        .call .deleteConnection, .run { shutsdown := true }, .run {}, .run {}] (create tlsServer)).any
      (fun s => s.closed = some ⟨false, false⟩) = true := by decide
  obtain ⟨s, hs, hp⟩ := Machine.exists_run (M := machine) ⟨tlsServer, rfl⟩ clean_of_test hrun
  exact ⟨s, hs, of_decide_eq_true hp, (closed_unwatched hs).1⟩

/-- The peer's end of TLS arrives while the deletion waits for it. -/
theorem closed_watched : ¬ ∀ s, machine.Reachable s → Unwatched s := by
  intro hall
  have hrun : (machine.exec
      [.call .readConnection, .run {}, .run {}, .run {}, .call .close, .run {}, .handlersReturn, .run {},
        .call .deleteConnection, .run { rc := .wantRead }, .call .readConnection, .run {}, .run {},
        .run {}, .run {}] (create tlsServer)).any
      (fun s => s.closed = some ⟨true, false⟩) = true := by decide
  obtain ⟨s, hs, hp⟩ := Machine.exists_reachable (M := machine) ⟨tlsServer, rfl⟩ hrun
  have hwatch := hall s hs _ (of_decide_eq_true hp)
  cases hwatch

end PoserCore.Connection.Life
