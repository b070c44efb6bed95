import PoserCore.Connection.Registered

/-!
# Pending output and the registration for writing

Most ways out of `dowrite` lead through `wantreadwrite`, which registers a connection that still has
something to send.  Without TLS, a write that takes only a part of the buffer does not: if the
connection was not registered before, because `tryWrite` called, it only is afterwards where a
handler of `dataSent` paused and resumed it or confirmed what it had received (`registered_iff`).
-/

namespace PoserCore.Connection.Life

open Lib (Machine)

/-! ## A call of `dowrite` -/

/-- Unsent data on a connection that may send -/
structure Conn.Unsent (c : Conn) : Prop where
  pending : c.pending = true
  paused : c.paused = 0
  tlsConnectTimer : c.tlsConnectTimer = false
  tlsShutdownSt : c.tlsShutdownSt = .nothing

/-- The calls of the user that have the registration reconsidered -/
def Frame.registers (self : Conn) : Frame → Bool
  | .pause => self.paused = 0
  | .resume => self.paused = 1
  | .confirmDataReceived => self.handling = 1
  | _ => false

def Action.registers (s : State) : Action → Bool
  | .call f => f.registers s.conn
  | _ => false

/-- Steps on top of the frames `rest`, and whether a handler had the registration reconsidered -/
inductive Within (rest : List Frame) : State → Bool → State → Prop
  | refl (s : State) : Within rest s false s
  | step {s s' s'' : State} {reg : Bool} {a : Action} {f : Frame} {top : List Frame}
      (h : Within rest s reg s') (hf : s'.frames = f :: top ++ rest) (hs : step s' a = some s'') :
      Within rest s (reg || a.registers s') s''

/-- A call of `dowrite`, up to its return -/
def Dowrite (o : Outcome) (s : State) (reg : Bool) (s' : State) : Prop :=
  ∃ rest s₁, s.frames = .dowrite :: rest ∧ step s (.run o) = some s₁ ∧ Within rest s₁ reg s' ∧
    s'.frames = rest

/-- The connection when `dowrite` has filled its buffer -/
def Conn.fill (self : Conn) (o : Outcome) : Conn :=
  if self.nrecs ≠ 0 && self.wrbuflen = 0 then
    { self with nrecs := o.nrecs, wrbuflen := o.wrbuflen } else self

/-- Without TLS, the write takes a part of the buffer, while the connection may send but is not
registered, and no handler has that reconsidered. -/
structure Stalls (o : Outcome) (s : State) (reg : Bool) : Prop where
  tls : s.conn.tls = false
  done : o.rc = .done
  part : (s.conn.fill o).wrbufpos + o.written < (s.conn.fill o).wrbuflen
  wrreg : s.conn.wrreg = false
  paused : s.conn.paused = 0
  tlsConnectTimer : s.conn.tlsConnectTimer = false
  tlsShutdownSt : s.conn.tlsShutdownSt = .nothing
  reg : reg = false

variable {s s' : State} {o : Outcome} {a : Action} {f : Frame} {rest nest : List Frame} {reg : Bool}

/-- A step takes the frame on top: it runs the function, or handlers call or return. -/
theorem step_head (hf : s.frames = f :: rest) (h : step s a = some s') :
    (∃ o, a = .run o ∧ f ≠ .handlers ∧
      s' = { (run o s f).1 with frames := (run o s f).2 ++ rest }) ∨
    (f = .handlers ∧ ∃ g, a = .call g ∧ g.isUser = true ∧
      s' = { s with frames := g :: f :: rest }) ∨
    (f = .handlers ∧ a = .handlersReturn ∧ s' = { s with frames := rest }) := by
  cases a with
  | call g =>
    rw [step] at h
    by_cases hc : s.closed.isSome = true
    · rw [if_pos hc] at h
      cases h
    rw [if_neg hc] at h
    split at h
    next hnil => rw [hnil] at hf; cases hf
    next rest' hcons =>
      obtain ⟨rfl, rfl⟩ := List.cons.inj (hf.symm.trans hcons)
      split_ifs at h with huser
      exact .inr (.inl ⟨rfl, g, rfl, huser, by rw [← hf]; exact (Option.some.inj h).symm⟩)
    next => cases h
  | run o =>
    rw [step] at h
    split_ifs at h with hc
    split at h
    next => cases h
    next => cases h
    next g rest' hne hcons =>
      obtain ⟨rfl, rfl⟩ := List.cons.inj (hf.symm.trans hcons)
      exact .inl ⟨o, rfl, hne, (Option.some.inj h).symm⟩
  | handlersReturn =>
    rw [step, hf] at h
    split at h
    next rest' hcons =>
      obtain ⟨rfl, rfl⟩ := List.cons.inj hcons
      exact .inr (.inr ⟨rfl, rfl, (Option.some.inj h).symm⟩)
    next => cases h

/-! ## Registering -/

theorem conn_wantreadwrite (s : State) : (wantreadwrite s).conn =
    { s.conn with wrreg := s.conn.wantWrite, rdreg := s.conn.wantRead } := by
  have hread : ∀ s : State, (if s.conn.wantRead then s.watchRead else s.unwatchRead).conn =
      { s.conn with rdreg := s.conn.wantRead } := by
    intro s
    split_ifs with h
    · rw [h]
      rfl
    · rw [Bool.eq_false_iff.2 h]
      rfl
  unfold wantreadwrite
  simp only
  rw [hread]
  split_ifs with h
  · rw [h]
    rfl
  · rw [Bool.eq_false_iff.2 h]
    rfl

theorem Conn.Unsent.wantWrite {c : Conn} (h : c.Unsent) : c.wantWrite = true := by
  unfold Conn.wantWrite
  simp [h.pending, h.paused, h.tlsConnectTimer, h.tlsShutdownSt]

/-- After `wantreadwrite`, what has data to send is registered. -/
theorem registered_wantreadwrite (h : (wantreadwrite s).conn.Unsent) :
    (wantreadwrite s).conn.wrreg = true := by
  have hw : (wantreadwrite s).conn.wrreg = s.conn.wantWrite := by rw [conn_wantreadwrite]
  rw [conn_wantreadwrite] at h
  rw [hw]
  exact Conn.Unsent.wantWrite (c := s.conn)
    ⟨h.pending, h.paused, h.tlsConnectTimer, h.tlsShutdownSt⟩

/-! ## What handlers do -/

/-- What runs while the handlers of `dataSent` do -/
def Frame.isNested : Frame → Bool
  | .handlers | .close | .deleteLater | .wantreadwrite | .doread | .receive | .received _
  | .readMore | .pause | .resume | .sendAsync | .markHandling | .confirmDataReceived
  | .confirmed => true
  | _ => false

theorem isNested_of_isUser (h : f.isUser = true) : f.isNested = true := by
  cases f with
  | close | pause | resume | sendAsync | markHandling | confirmDataReceived => rfl
  | _ => cases h

theorem nested_doread {g : Frame} (h : g ∈ (doread o s).2) : g.isNested = true := by
  unfold doread at h
  split_ifs at h
  · simp only at h
    split at h <;> simp at h
    · rcases h with rfl | rfl <;> rfl
    · rw [h]; rfl
    · rw [h]; rfl
  · rw [List.mem_singleton.1 h]; rfl
  · split at h <;> simp at h
    · rcases h with rfl | rfl <;> rfl
    · rw [h]; rfl

theorem nested_run (hf : f.isNested = true) {g : Frame} (h : g ∈ (run o s f).2) :
    g.isNested = true := by
  cases f with
  | doread => exact nested_doread h
  | handlers | deleteLater | wantreadwrite | markHandling => cases h
  | received full => rw [List.mem_singleton.1 h]; rfl
  | close | receive | readMore | pause | resume | sendAsync | confirmDataReceived | confirmed =>
    simp only [run] at h
    split_ifs at h <;> simp at h
    all_goals first
      | (rw [h]; rfl)
      | (rcases h with rfl | rfl <;> rfl)
      | (rcases h with rfl | rfl | rfl <;> rfl)
  | _ => cases hf

/-- Without TLS, a part of the buffer is left to a connection that may send and is not registered. -/
structure Conn.Stuck (c : Conn) : Prop where
  tls : c.tls = false
  wrreg : c.wrreg = false
  paused : c.paused = 0
  tlsConnectTimer : c.tlsConnectTimer = false
  tlsShutdownSt : c.tlsShutdownSt = .nothing
  part : c.wrbufpos < c.wrbuflen

theorem Conn.Stuck.same {c c' : Conn} (h : c.Stuck) (h₀ : c'.tls = c.tls) (h₁ : c'.wrreg = c.wrreg)
    (h₂ : c'.paused = c.paused) (h₃ : c'.tlsConnectTimer = c.tlsConnectTimer)
    (h₄ : c'.tlsShutdownSt = c.tlsShutdownSt) (h₅ : c'.wrbuflen = c.wrbuflen)
    (h₆ : c'.wrbufpos = c.wrbufpos) : c'.Stuck :=
  ⟨h₀.trans h.tls, h₁.trans h.wrreg, h₂.trans h.paused, h₃.trans h.tlsConnectTimer,
    h₄.trans h.tlsShutdownSt, by rw [h₅, h₆]; exact h.part⟩

theorem Conn.Stuck.unsent {c : Conn} (h : c.Stuck) : c.Unsent := by
  refine ⟨?_, h.paused, h.tlsConnectTimer, h.tlsShutdownSt⟩
  have hne : c.wrbuflen ≠ 0 := Nat.ne_of_gt (Nat.zero_lt_of_lt h.part)
  simp [Conn.pending, hne]

theorem stuck_wantreadwrite (s : State) : ¬ (wantreadwrite s).conn.Stuck := fun h =>
  Bool.false_ne_true (h.wrreg.symm.trans (registered_wantreadwrite h.unsent))

theorem stuck_dropWrites (c : Conn) : ¬ c.dropWrites.Stuck := fun h => Nat.not_lt_zero _ h.part

theorem stuck_doread (h : (doread o s).1.conn.Stuck) : s.conn.Stuck := by
  unfold doread at h
  by_cases htls : s.conn.tls = true
  · rw [if_pos htls] at h
    simp only at h
    split at h
    · exact h.same rfl rfl rfl rfl rfl rfl rfl
    · exact absurd h (stuck_dropWrites _)
    · exact h.same rfl rfl rfl rfl rfl rfl rfl
  rw [if_neg htls] at h
  by_cases hpipe : s.conn.type = .pipewr
  · rw [if_pos hpipe] at h
    exact absurd h (stuck_dropWrites _)
  rw [if_neg hpipe] at h
  split at h
  · exact h
  · exact absurd h (stuck_dropWrites _)
  · exact h

/-- What gets a connection stuck is the resumption, and it has the registration reconsidered. -/
theorem stuck_run (hf : f.isNested = true) (h : (run o s f).1.conn.Stuck) :
    s.conn.Stuck ∨ .wantreadwrite ∈ (run o s f).2 := by
  cases f with
  | handlers | close | receive | readMore | confirmed => exact .inl h
  | wantreadwrite => exact absurd h (stuck_wantreadwrite s)
  | doread => exact .inl (stuck_doread h)
  | received full => exact .inl (h.same rfl rfl rfl rfl rfl rfl rfl)
  | markHandling => exact .inl (h.same rfl rfl rfl rfl rfl rfl rfl)
  | confirmDataReceived => exact .inl (h.same rfl rfl rfl rfl rfl rfl rfl)
  | pause => exact absurd h.paused (Nat.succ_ne_zero _)
  | deleteLater =>
    left
    change (deleteLater s).conn.Stuck at h
    unfold deleteLater at h
    split_ifs at h
    · exact h.same rfl rfl rfl rfl rfl rfl rfl
    · exact h
  | sendAsync =>
    left
    change (if _ then (s, _) else (s.setConn _, _) : State × List Frame).1.conn.Stuck at h
    split_ifs at h
    · exact h
    · exact h.same rfl rfl rfl rfl rfl rfl rfl
  | resume =>
    by_cases hone : s.conn.paused = 1
    · right
      simp [run, hone]
    · left
      have hpaused : s.conn.paused - 1 = 0 := h.paused
      refine h.same rfl rfl ?_ rfl rfl rfl rfl
      change s.conn.paused = s.conn.paused - 1
      omega
  | _ => cases hf

theorem wantreadwrite_mem_run (h : f.registers s.conn = true) : .wantreadwrite ∈ (run o s f).2 := by
  cases f with
  | pause => simp [run, of_decide_eq_true h]
  | resume => simp [run, of_decide_eq_true h]
  | confirmDataReceived => simp [run, of_decide_eq_true h]
  | _ => cases h

/-- The connection is not stuck, or will not be when the frames `nest` are done. -/
def Settling (c : Conn) (nest : List Frame) : Prop :=
  c.Stuck → .wantreadwrite ∈ nest ∨ ∃ f ∈ nest.head?, f.registers c = true

theorem settling_run (hf : f.isNested = true) (h : Settling s.conn (f :: nest)) :
    Settling (run o s f).1.conn ((run o s f).2 ++ nest) := by
  intro hstuck
  left
  by_cases hw : f = .wantreadwrite
  · subst hw
    exact absurd hstuck (stuck_wantreadwrite s)
  rcases stuck_run hf hstuck with hold | hmem
  · rcases h hold with hmem | ⟨g, hg, hreg⟩
    · exact List.mem_append_right _ ((List.mem_cons.1 hmem).resolve_left (Ne.symm hw))
    · obtain rfl : f = g := Option.some.inj hg
      exact List.mem_append_left _ (wantreadwrite_mem_run hreg)
  · exact List.mem_append_left _ hmem

/-- Handlers call. -/
theorem settling_call {c : Conn} (h : Settling c (.handlers :: nest)) (g : Frame) :
    Settling c (g :: .handlers :: nest) := by
  intro hstuck
  rcases h hstuck with hmem | ⟨g', hg', hreg⟩
  · exact .inl (List.mem_cons_of_mem g hmem)
  · obtain rfl : .handlers = g' := Option.some.inj hg'
    cases hreg

/-- Handlers return. -/
theorem settling_return {c : Conn} (h : Settling c (.handlers :: nest)) : Settling c nest := by
  intro hstuck
  rcases h hstuck with hmem | ⟨g', hg', hreg⟩
  · exact .inl ((List.mem_cons.1 hmem).resolve_left Frame.noConfusion)
  · obtain rfl : .handlers = g' := Option.some.inj hg'
    cases hreg

/-! ## The rest of the call -/

/-- Where a call of `dowrite` is that did not fail, in the frames `nest` above the rest of it, before
its `wantreadwrite`, or at its end; if `good` holds, it leaves no unsent data unregistered. -/
inductive Going (rest : List Frame) (good : Prop) (s : State) : Prop
  | raising (nest : List Frame) (hf : s.frames = nest ++ .wrote :: rest)
      (hnest : ∀ f ∈ nest, f.isNested = true) (hset : good → Settling s.conn nest)
  | last (hf : s.frames = .wantreadwrite :: rest)
  | done (hf : s.frames = rest) (hreg : good → s.conn.Unsent → s.conn.wrreg = true)

/-- The end of the loop over the notifications -/
theorem run_wrote (s : State) : (wrote s).2 = [.wantreadwrite] ∨
    ((wrote s).2 = [] ∧ (wrote s).1 = s ∧ (s.conn.Unsent → s.conn.wrreg = false → s.conn.Stuck)) := by
  unfold wrote
  by_cases hpart : s.conn.wrbufpos < s.conn.wrbuflen
  · rw [if_pos hpart]
    cases htls : s.conn.tls with
    | true => exact .inl rfl
    | false =>
      refine .inr ⟨rfl, rfl, fun hun hreg => ?_⟩
      exact ⟨htls, hreg, hun.paused, hun.tlsConnectTimer, hun.tlsShutdownSt, hpart⟩
  · rw [if_neg hpart]
    exact .inl rfl

/-- One step of a call of `dowrite` -/
theorem going_step {good good' : Prop} (h : Going rest good s) (hne : s.frames ≠ rest)
    (hs : step s a = some s')
    (hgood : good' → good ∨ a.registers s = true) : Going rest good' s' := by
  cases h with
  | raising nest hf hnest hset =>
    cases nest with
    | nil =>
      obtain ⟨o, rfl, -, rfl⟩ | ⟨hw, -⟩ | ⟨hw, -⟩ := step_head hf hs
      · have hgood : good' → good := fun hg => (hgood hg).resolve_right Bool.false_ne_true
        obtain hlast | ⟨hnone, hsame, hstuck⟩ := run_wrote s
        · refine .last ?_
          change (wrote s).2 ++ rest = _
          rw [hlast]
          rfl
        · refine .done ?_ fun hg => ?_
          · change (wrote s).2 ++ rest = rest
            rw [hnone]
            rfl
          · change (wrote s).1.conn.Unsent → (wrote s).1.conn.wrreg = true
            rw [hsame]
            intro hun
            by_contra hreg
            obtain hmem | ⟨f, hf, -⟩ := hset (hgood hg) (hstuck hun (Bool.eq_false_iff.2 hreg))
            · cases hmem
            · cases hf
      · cases hw
      · cases hw
    | cons f nest =>
      have hcons : s.frames = f :: (nest ++ .wrote :: rest) := hf
      have hnested := hnest f List.mem_cons_self
      have hrest : ∀ g ∈ nest, g.isNested = true := fun g hg => hnest g (List.mem_cons_of_mem f hg)
      obtain ⟨o, rfl, -, rfl⟩ | ⟨rfl, g, rfl, huser, rfl⟩ | ⟨rfl, rfl, rfl⟩ := step_head hcons hs
      · have hgood : good' → good := fun hg => (hgood hg).resolve_right Bool.false_ne_true
        refine .raising ((run o s f).2 ++ nest) (List.append_assoc ..).symm (fun g hg => ?_)
          fun hg => ?_
        · exact (List.mem_append.1 hg).elim (nested_run hnested) (hrest g)
        · exact settling_run hnested (hset (hgood hg))
      · refine .raising (g :: .handlers :: nest) rfl (fun g' hg' => ?_) fun hg => ?_
        · rcases List.mem_cons.1 hg' with rfl | hg'
          · exact isNested_of_isUser huser
          · exact hnest g' hg'
        · rcases hgood hg with hg | hreg
          · exact settling_call (hset hg) g
          · exact fun _ => .inr ⟨g, rfl, hreg⟩
      · have hgood : good' → good := fun hg => (hgood hg).resolve_right Bool.false_ne_true
        exact .raising nest rfl hrest fun hg => settling_return (hset (hgood hg))
  | last hf =>
    obtain ⟨o, rfl, -, rfl⟩ | ⟨hw, -⟩ | ⟨hw, -⟩ := step_head hf hs
    · exact .done rfl fun _ => registered_wantreadwrite
    · cases hw
    · cases hw
  | done hf => exact absurd hf hne

theorem frames_ne {top : List Frame} (hf : s.frames = f :: top ++ rest) : s.frames ≠ rest := by
  intro h
  have hlen := congrArg List.length (hf.symm.trans h)
  simp at hlen
  omega

theorem going_within {s₁ : State} {good : Prop} (h : Within rest s₁ reg s')
    (h₁ : Going rest good s₁) : Going rest (good ∨ reg = true) s' := by
  induction h with
  | refl =>
    cases h₁ with
    | raising nest hf hnest hset =>
      exact .raising nest hf hnest fun hg => hset (hg.resolve_right Bool.false_ne_true)
    | last hf => exact .last hf
    | done hf hreg => exact .done hf fun hg => hreg (hg.resolve_right Bool.false_ne_true)
  | step h hf hs ih =>
    refine going_step ih (frames_ne hf) hs fun hg => ?_
    rw [Bool.or_eq_true] at hg
    exact or_assoc.2 hg

/-- `dowrite` up to its loop over the notifications, where it does not fail -/
theorem going_dowrite {s₁ : State} (hf : s.frames = .dowrite :: rest) (hrc : o.rc ≠ .error)
    (hs : step s (.run o) = some s₁) :
    Going rest (¬ (o.rc = .done ∧ (dowrite o s).1.conn.Stuck)) s₁ := by
  obtain ⟨o', ho, -, rfl⟩ | ⟨hw, -⟩ | ⟨hw, -⟩ := step_head hf hs
  · obtain rfl : o = o' := Action.run.inj ho
    cases hcase : o.rc with
    | done =>
      refine .raising (List.replicate o.events .handlers) ?_ (fun g hg => ?_) fun hg hstuck => ?_
      · change (dowrite o s).2 ++ rest = _
        simp [dowrite, hcase]
      · rw [List.eq_of_mem_replicate hg]
        rfl
      · exact absurd ⟨rfl, hstuck⟩ hg
    | error => exact absurd hcase hrc
    | wantRead =>
      refine .last ?_
      change (dowrite o s).2 ++ rest = _
      simp [dowrite, hcase]
    | wantWrite =>
      refine .last ?_
      change (dowrite o s).2 ++ rest = _
      simp [dowrite, hcase]
  · cases hw
  · cases hw

/-! ## A call that stalls -/

/-- Frames that wait for the end of a handler's call -/
def Frame.Waits (f : Frame) : Prop := f = .handlers ∨ f = .deleteLater

/-- The connection is stuck, and no handler has its registration reconsidered. -/
inductive Stalled (rest : List Frame) (s : State) : Prop
  | raising (nest : List Frame) (hf : s.frames = nest ++ .wrote :: rest)
      (hnest : ∀ f ∈ nest, f.Waits) (hstuck : s.conn.Stuck)
  | calling (g : Frame) (nest : List Frame) (hf : s.frames = g :: nest ++ .wrote :: rest)
      (hg : g.isUser = true) (hreg : g.registers s.conn = false) (hnest : ∀ f ∈ nest, f.Waits)
      (hstuck : s.conn.Stuck)
  | done (hf : s.frames = rest) (hstuck : s.conn.Stuck)

theorem stuck_deleteLater (h : s.conn.Stuck) : (deleteLater s).conn.Stuck := by
  unfold deleteLater
  split_ifs
  · exact h.same rfl rfl rfl rfl rfl rfl rfl
  · exact h

/-- A call that does not have the registration reconsidered -/
theorem stuck_call (h : s.conn.Stuck) (hf : f.isUser = true) (hreg : f.registers s.conn = false) :
    (run o s f).1.conn.Stuck ∧ ∀ g ∈ (run o s f).2, g.Waits := by
  cases f with
  | close =>
    refine ⟨h, fun g hg => ?_⟩
    simp only [run] at hg
    split_ifs at hg
    · simpa [Frame.Waits] using hg
    · cases hg
  | pause =>
    simp [Frame.registers, h.paused] at hreg
  | resume =>
    have hzero := h.paused
    refine ⟨h.same rfl rfl ?_ rfl rfl rfl rfl, ?_⟩
    · change s.conn.paused - 1 = s.conn.paused
      omega
    · simp [run, hzero]
  | sendAsync =>
    simp only [run]
    split_ifs
    · exact ⟨h, by simp⟩
    · exact ⟨h.same rfl rfl rfl rfl rfl rfl rfl, by simp⟩
  | markHandling => exact ⟨h.same rfl rfl rfl rfl rfl rfl rfl, by simp [run]⟩
  | confirmDataReceived =>
    have hne : s.conn.handling ≠ 1 := of_decide_eq_false hreg
    exact ⟨h.same rfl rfl rfl rfl rfl rfl rfl, by simp [run, hne]⟩
  | _ => cases hf

theorem stalled_step (h : Stalled rest s) (hne : s.frames ≠ rest) (hs : step s a = some s')
    (hreg : a.registers s = false) : Stalled rest s' := by
  cases h with
  | raising nest hf hnest hstuck =>
    cases nest with
    | nil =>
      obtain ⟨o, rfl, -, rfl⟩ | ⟨hw, -⟩ | ⟨hw, -⟩ := step_head hf hs
      · have hwrote : wrote s = (s, []) := by
          unfold wrote
          rw [if_pos hstuck.part, hstuck.tls]
          rfl
        refine .done ?_ ?_
        · change (wrote s).2 ++ rest = rest
          rw [hwrote]
          rfl
        · change (wrote s).1.conn.Stuck
          rw [hwrote]
          exact hstuck
      · cases hw
      · cases hw
    | cons f nest =>
      have hcons : s.frames = f :: (nest ++ .wrote :: rest) := hf
      have hrest : ∀ g ∈ nest, g.Waits := fun g hg => hnest g (List.mem_cons_of_mem f hg)
      obtain ⟨o, rfl, hne', rfl⟩ | ⟨rfl, g, rfl, huser, rfl⟩ | ⟨rfl, rfl, rfl⟩ := step_head hcons hs
      · obtain rfl := (hnest f List.mem_cons_self).resolve_left hne'
        exact .raising nest rfl hrest (stuck_deleteLater hstuck)
      · exact .calling g (.handlers :: nest) rfl huser hreg hnest hstuck
      · exact .raising nest rfl hrest hstuck
  | calling g nest hf hg hno hnest hstuck =>
    have hcons : s.frames = g :: (nest ++ .wrote :: rest) := hf
    obtain ⟨o, rfl, -, rfl⟩ | ⟨rfl, -⟩ | ⟨rfl, -⟩ := step_head hcons hs
    · obtain ⟨hstuck', hnew⟩ := stuck_call (o := o) hstuck hg hno
      refine .raising ((run o s g).2 ++ nest) (List.append_assoc ..).symm (fun f hf => ?_) hstuck'
      exact (List.mem_append.1 hf).elim (hnew f) (hnest f)
    · cases hg
    · cases hg
  | done hf => exact absurd hf hne

theorem stalled_within {s₁ : State} (h : Within rest s₁ reg s') (h₁ : Stalled rest s₁)
    (hreg : reg = false) : Stalled rest s' := by
  induction h with
  | refl => exact h₁
  | step h hf hs ih =>
    rw [Bool.or_eq_false_iff] at hreg
    exact stalled_step (ih hreg.1) (frames_ne hf) hs hreg.2

/-- What filling the buffer leaves alone -/
theorem fill_same (c : Conn) (o : Outcome) : (c.fill o).tls = c.tls ∧ (c.fill o).wrreg = c.wrreg ∧
    (c.fill o).paused = c.paused ∧ (c.fill o).tlsConnectTimer = c.tlsConnectTimer ∧
    (c.fill o).tlsShutdownSt = c.tlsShutdownSt := by
  unfold Conn.fill
  split_ifs <;> exact ⟨rfl, rfl, rfl, rfl, rfl⟩

theorem conn_dowrite (hrc : o.rc = .done) : ∃ st, (dowrite o s).1.conn =
    { s.conn.fill o with
      tlsWriteSt := st
      wrbufpos := (s.conn.fill o).wrbufpos + o.written } := by
  have hdone : (dowrite o s).1.conn =
      let self := if (s.conn.fill o).tls then { s.conn.fill o with tlsWriteSt := .nothing }
        else s.conn.fill o
      { self with wrbufpos := self.wrbufpos + o.written } := by
    unfold dowrite
    rw [hrc]
    rfl
  rw [hdone]
  by_cases ht : (s.conn.fill o).tls = true
  · exact ⟨.nothing, by simp only [if_pos ht]⟩
  · exact ⟨(s.conn.fill o).tlsWriteSt, by simp only [if_neg ht]⟩

theorem stuck_dowrite (hrc : o.rc = .done) : (dowrite o s).1.conn.Stuck ↔ Stalls o s false := by
  obtain ⟨htls, hreg, hpaused, htimer, hshut⟩ := fill_same s.conn o
  obtain ⟨st, hconn⟩ := conn_dowrite (s := s) hrc
  rw [hconn]
  constructor
  · intro h
    exact ⟨htls.symm.trans h.tls, hrc, h.part, hreg.symm.trans h.wrreg, hpaused.symm.trans h.paused,
      htimer.symm.trans h.tlsConnectTimer, hshut.symm.trans h.tlsShutdownSt, rfl⟩
  · intro h
    exact ⟨htls.trans h.tls, hreg.trans h.wrreg, hpaused.trans h.paused,
      htimer.trans h.tlsConnectTimer, hshut.trans h.tlsShutdownSt, h.part⟩

theorem stalled_dowrite {s₁ : State} (hf : s.frames = .dowrite :: rest) (h : Stalls o s false)
    (hs : step s (.run o) = some s₁) : Stalled rest s₁ := by
  obtain ⟨o', ho, -, rfl⟩ | ⟨hw, -⟩ | ⟨hw, -⟩ := step_head hf hs
  · obtain rfl : o = o' := Action.run.inj ho
    refine .raising (List.replicate o.events .handlers) ?_ (fun g hg => ?_)
      ((stuck_dowrite h.done).2 h)
    · change (dowrite o s).2 ++ rest = _
      simp [dowrite, h.done]
    · exact .inl (List.eq_of_mem_replicate hg)
  · cases hw
  · cases hw

/-- A call of `dowrite` that does not fail leaves no unsent data unregistered on a connection that may
send, if and only if it does not stall. -/
theorem registered_iff (h : Dowrite o s reg s') (hrc : o.rc ≠ .error) :
    (s'.conn.Unsent → s'.conn.wrreg = true) ↔ ¬ Stalls o s reg := by
  obtain ⟨rest, s₁, hf, hs, hwithin, hend⟩ := h
  constructor
  · intro hall hstalls
    obtain rfl := hstalls.reg
    have hstalled := stalled_within hwithin (stalled_dowrite hf hstalls hs) rfl
    have hstuck : s'.conn.Stuck := by
      cases hstalled with
      | raising nest hf' hnest hstuck => exact hstuck
      | calling g nest hf' hg hreg hnest hstuck => exact hstuck
      | done hf' hstuck => exact hstuck
    exact Bool.false_ne_true (hstuck.wrreg.symm.trans (hall hstuck.unsent))
  · intro hno
    have hgood : ¬ (o.rc = .done ∧ (dowrite o s).1.conn.Stuck) ∨ reg = true := by
      by_contra hbad
      simp only [not_or, not_not, Bool.not_eq_true] at hbad
      obtain ⟨⟨hdone, hstuck⟩, rfl⟩ := hbad
      exact hno ((stuck_dowrite hdone).1 hstuck)
    have hlong : ∀ top : List Frame, top ≠ [] → s'.frames ≠ top ++ rest := by
      intro top htop h
      exact htop (List.append_left_eq_self.1 (h.symm.trans hend))
    cases going_within hwithin (going_dowrite hf hrc hs) with
    | raising nest hf' =>
      rw [← List.singleton_append, ← List.append_assoc] at hf'
      exact absurd hf' (hlong (nest ++ [.wrote]) (List.append_ne_nil_of_right_ne_nil _ (by simp)))
    | last hf' => exact absurd hf' (hlong [.wantreadwrite] (List.cons_ne_nil _ _))
    | done hf' hreg => exact hreg hgood

/-- A connection without TLS to a client -/
def plainSocket : ConnOpts := ⟨.socket, false, false, false, false, true⟩

/-- It has something to send, and `tryWrite` calls `dowrite`. -/
def writing : State :=
  { create plainSocket with
    conn := { (create plainSocket).conn with nrecs := 1 }
    frames := [.dowrite] }

theorem reachable_writing : machine.Reachable writing :=
  Machine.Reachable.exec (M := machine) (.init ⟨plainSocket, rfl⟩)
    (show machine.exec [.call .sendAsync, .run {}, .call .tryWrite, .run {}] (create plainSocket) =
      some writing from rfl)

/-- The write would block, with two bytes in the buffer. -/
theorem registered_iff_blocked : ∃ s' : State,
    Dowrite { rc := .wantWrite, wrbuflen := 2 } writing false s' ∧
      s'.conn.Unsent ∧ s'.conn.wrreg = true := by
  have hcall : ∃ s', Dowrite { rc := .wantWrite, wrbuflen := 2 } writing false s' ∧
      s'.conn.Unsent :=
    ⟨_, ⟨[], _, rfl, rfl, .step (a := .run {}) (.refl _) rfl rfl, rfl⟩, rfl, rfl, rfl, rfl⟩
  obtain ⟨s', h, hunsent⟩ := hcall
  refine ⟨s', h, hunsent, (registered_iff h (by decide)).2 (fun hstalls => ?_) hunsent⟩
  cases hstalls.done

/-- The write takes one of two bytes. -/
theorem unregistered_writing : ¬ ∀ s o reg s', machine.Reachable s → Dowrite o s reg s' →
    o.rc ≠ .error → s'.conn.Unsent → s'.conn.wrreg = true := by
  intro hall
  have hcall : Dowrite { wrbuflen := 2, written := 1 } writing false
      { writing with
        conn := { writing.conn with nrecs := 0, wrbuflen := 2, wrbufpos := 1 }
        frames := [] } :=
    ⟨[], _, rfl, rfl, .step (a := .run {}) (.refl _) rfl rfl, rfl⟩
  have hreg := hall _ _ _ _ reachable_writing hcall (by decide) ⟨rfl, rfl, rfl, rfl⟩
  cases hreg

end PoserCore.Connection.Life
