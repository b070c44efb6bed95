import PoserCore.Connection.Lifecycle

/-!
# How often a connection is closed

`PSC_Connection_close` raises `closed` before it schedules the deletion, and `PSC_Connection_destroy`
does not schedule one at all.  So a handler of `closed` that calls `PSC_Connection_close` gets past its
check again: the event is raised another time, or without end (`closed_once_iff`).

The handlers are given by what they do, in any state of the connection and of the application: whatever
it is, but for the calls of `PSC_Connection_close` it leaves `deleteScheduled` alone.  A function gets
how deep such calls may be nested.
-/

namespace PoserCore.Connection.Closing

open Lib (Machine)
open Life (ConnOpts Outcome)

inductive Event
  | connected
  | closed
  | dataReceived
  | dataSent
  deriving DecidableEq

/-- What the handlers of an event do: they change the connection and the application `A`, call
`PSC_Connection_close`, and go on from what they find then. -/
inductive Handler (A : Type)
  | done (life : Life.State) (app : A)
  | close (life : Life.State) (app : A) (next : Life.State → A → Handler A)

def Handlers (A : Type) := Event → Life.State → A → Handler A

structure State (A : Type) where
  life : Life.State
  app : A
  /-- How often `closed` was raised -/
  raised : ℕ

variable {A : Type}

def State.deleteScheduled (s : State A) : ℕ := s.life.conn.deleteScheduled

def State.freed (s : State A) : Prop := s.life.closed ≠ none

/-- Anything else than closing the connection -/
def State.other (s : State A) (life : Life.State) (app : A) : State A :=
  { s with
    life := { life with
      closed := s.life.closed
      conn := { life.conn with deleteScheduled := s.life.conn.deleteScheduled } }
    app := app }

def State.setLife (s : State A) (life : Life.State) : State A := { s with life := life }

def State.count (s : State A) : State A := { s with raised := s.raised + 1 }

def Handler.run (close : State A → Option (State A)) : Handler A → State A → Option (State A)
  | .done life app, s => some (s.other life app)
  | .close life app next, s =>
      (close (s.other life app)).bind fun s => (next s.life s.app).run close s

/-- `PSC_Connection_close` -/
def close (h : Handlers A) : ℕ → State A → Option (State A)
  | 0, _ => none
  | n + 1, s =>
      if s.deleteScheduled ≠ 0 then some s
      else
        ((h .closed s.life s.app).run (close h n) s.count).map fun s =>
          s.setLife (Life.deleteLater s.life)

/-- `PSC_Event_raise` -/
def raise (h : Handlers A) (n : ℕ) (e : Event) (s : State A) : Option (State A) :=
  (h e s.life s.app).run (close h n) s

/-- What was not sent is reported. -/
def raiseSent (h : Handlers A) (n : ℕ) : ℕ → State A → Option (State A)
  | 0, s => some s
  | k + 1, s => (raise h n .dataSent s).bind (raiseSent h n k)

/-- `PSC_Connection_destroy` after its `dataSent` events -/
def destroyRest (h : Handlers A) (n : ℕ) (s : State A) : Option (State A) :=
  if s.deleteScheduled = 0 then
    (raise h n .closed s.count).map fun s => s.setLife s.life.unwatchRead.unwatchWrite.closeFd
  else some (s.setLife (Life.destroyRest s.life).1)

/-- `PSC_Connection_destroy` -/
def destroy (h : Handlers A) (n k : ℕ) (s : State A) : Option (State A) :=
  (raiseSent h n k s).bind (destroyRest h n)

/-- `deleteConnection` -/
def deleteConnection (h : Handlers A) (n k : ℕ) (o : Outcome) (s : State A) : Option (State A) :=
  let s' := s.setLife (Life.deleteConnection o s.life).1
  if (Life.deleteConnection o s.life).2 = [] then some s' else destroy h n k s'

/-! ## The machine -/

inductive Action (A : Type)
  /-- The user, a timeout, or a failed handshake -/
  | close (n : ℕ)
  /-- Reading or writing fails, or the peer closed the connection. -/
  | fail (n : ℕ)
  | raise (e : Event) (n : ℕ)
  | deleteConnection (n k : ℕ) (o : Outcome)
  | destroy (n k : ℕ)
  | other (life : Life.State) (app : A)

def step (h : Handlers A) (s : State A) (a : Action A) : Option (State A) :=
  if s.life.closed.isSome then none
  else
    match a with
    | .close n => close h n s
    | .fail n => close h n (s.setLife (s.life.setConn s.life.conn.dropWrites))
    | .raise e n => if e = .closed then none else raise h n e s
    | .deleteConnection n k o =>
        if s.deleteScheduled = 1 then deleteConnection h n k o s else none
    | .destroy n k => destroy h n k s
    | .other life app => some (s.other life app)

def machine (h : Handlers A) : Machine (State A) (Action A) where
  init s := ∃ opts app, s = ⟨{ Life.create opts with frames := [] }, app, 0⟩
  step := step h

/-! ## The claim -/

/-- `closed` is raised at most once, and exactly once by the time the connection is freed; and
`PSC_Connection_close` returns. -/
structure Once (h : Handlers A) (s : State A) : Prop where
  once : s.raised ≤ 1
  freed : s.freed → s.raised = 1
  returns : ¬ s.freed → ∃ n s', close h n s = some s'

/-- No handler of `closed` calls `PSC_Connection_close` before the deletion is scheduled. -/
def NoClose (h : Handlers A) : Prop :=
  ∀ life app, life.conn.deleteScheduled = 0 → life.closed = none →
    ∃ life' app', h .closed life app = .done life' app'

variable {h : Handlers A} {s s' : State A} {n : ℕ}

/-! ## More than once -/

theorem raised_le_run {f : State A → Option (State A)}
    (hf : ∀ s s', f s = some s' → s.raised ≤ s'.raised) {handler : Handler A}
    (hrun : handler.run f s = some s') : s.raised ≤ s'.raised := by
  induction handler generalizing s with
  | done life app =>
    obtain rfl := Option.some.inj hrun
    exact Nat.le_refl _
  | close life app next ih =>
    obtain ⟨s₁, hclose, hnext⟩ := Option.bind_eq_some_iff.1 hrun
    have hle : s.raised ≤ s₁.raised := hf (s.other life app) s₁ hclose
    exact Nat.le_trans hle (ih _ _ hnext)

theorem raised_lt_close (hclose : close h n s = some s') (hopen : s.deleteScheduled = 0)
    (hle : ∀ s s', close h (n - 1) s = some s' → s.raised ≤ s'.raised) : s.raised < s'.raised := by
  cases n with
  | zero => cases hclose
  | succ n =>
    rw [close, if_neg (fun hne => hne hopen)] at hclose
    obtain ⟨s₁, hrun, rfl⟩ := Option.map_eq_some_iff.1 hclose
    exact raised_le_run hle hrun

theorem raised_le_close (hclose : close h n s = some s') : s.raised ≤ s'.raised := by
  induction n generalizing s s' with
  | zero => cases hclose
  | succ n ih =>
    by_cases hopen : s.deleteScheduled = 0
    · exact Nat.le_of_lt (raised_lt_close hclose hopen fun _ _ => ih)
    · rw [close, if_pos hopen] at hclose
      obtain rfl := Option.some.inj hclose
      exact Nat.le_refl _

/-- A call from a handler of `closed` that returns raises the event again. -/
theorem raised_twice {life : Life.State} {app : A} {next : Life.State → A → Handler A}
    (hopen : s.deleteScheduled = 0) (hcalls : h .closed s.life s.app = .close life app next)
    (hclose : close h n s = some s') : s.raised + 2 ≤ s'.raised := by
  cases n with
  | zero => cases hclose
  | succ n =>
    rw [close, if_neg (fun hne => hne hopen), hcalls] at hclose
    obtain ⟨s₁, hrun, rfl⟩ := Option.map_eq_some_iff.1 hclose
    obtain ⟨s₂, hinner, hnext⟩ := Option.bind_eq_some_iff.1 hrun
    have hlt : s.raised + 1 < s₂.raised :=
      raised_lt_close hinner hopen fun _ _ => raised_le_close
    have hle : s₂.raised ≤ s₁.raised := raised_le_run (fun _ _ h => raised_le_close h) hnext
    exact Nat.le_trans hlt hle

/-! ## Once -/

/-- The connection is open, or it was closed once. -/
def Inv (s : State A) : Prop :=
  (s.raised = 0 ∧ s.deleteScheduled = 0 ∧ ¬ s.freed) ∨ (s.raised = 1 ∧ (s.deleteScheduled ≠ 0 ∨ s.freed))

/-- What every function keeps up to the end of the connection -/
def Alive (s : State A) : Prop := Inv s ∧ ¬ s.freed

theorem Alive.raised_zero (ha : Alive s) (hopen : s.deleteScheduled = 0) : s.raised = 0 := by
  rcases ha.1 with h | ⟨-, h | h⟩
  · exact h.1
  · exact absurd hopen h
  · exact absurd h ha.2

theorem Alive.raised_one (ha : Alive s) (hne : s.deleteScheduled ≠ 0) : s.raised = 1 := by
  rcases ha.1 with ⟨-, h, -⟩ | h
  · exact absurd h hne
  · exact h.1

theorem Alive.setLife (ha : Alive s) {life : Life.State}
    (hds : s.deleteScheduled = 0 ↔ life.conn.deleteScheduled = 0) (hc : life.closed = s.life.closed) :
    Alive (s.setLife life) := by
  have hfreed : ¬ (s.setLife life).freed := by
    show ¬ life.closed ≠ none
    rw [hc]
    exact ha.2
  refine ⟨?_, hfreed⟩
  by_cases hopen : s.deleteScheduled = 0
  · exact .inl ⟨ha.raised_zero hopen, hds.1 hopen, hfreed⟩
  · exact .inr ⟨ha.raised_one hopen, .inl fun h => hopen (hds.2 h)⟩

theorem Alive.other (ha : Alive s) (life : Life.State) (app : A) : Alive (s.other life app) := ha

theorem deleteLater_open (life : Life.State) (hopen : life.conn.deleteScheduled = 0) :
    (Life.deleteLater life).conn.deleteScheduled = 1 ∧
      (Life.deleteLater life).closed = life.closed := by
  unfold Life.deleteLater
  rw [if_pos hopen]
  exact ⟨rfl, rfl⟩

theorem not_freed_iff : ¬ s.freed ↔ s.life.closed = none := not_not

theorem close_open (hno : NoClose h) (hopen : s.deleteScheduled = 0) (hfreed : ¬ s.freed) :
    ∃ life app, close h (n + 1) s =
      some ((s.count.other life app).setLife (Life.deleteLater (s.count.other life app).life)) := by
  obtain ⟨life, app, hdone⟩ := hno s.life s.app hopen (not_freed_iff.1 hfreed)
  refine ⟨life, app, ?_⟩
  rw [close, if_neg (fun hne => hne hopen), hdone]
  rfl

theorem alive_close (hno : NoClose h) (ha : Alive s) (hclose : close h n s = some s') : Alive s' := by
  cases n with
  | zero => cases hclose
  | succ n =>
    by_cases hopen : s.deleteScheduled = 0
    · obtain ⟨life, app, heq⟩ := close_open (n := n) hno hopen ha.2
      rw [hclose] at heq
      obtain rfl := Option.some.inj heq
      obtain ⟨hone, hc⟩ := deleteLater_open (s.count.other life app).life hopen
      refine ⟨.inr ⟨?_, .inl ?_⟩, ?_⟩
      · show s.raised + 1 = 1
        rw [ha.raised_zero hopen]
      · show (Life.deleteLater (s.count.other life app).life).conn.deleteScheduled ≠ 0
        rw [hone]
        exact Nat.one_ne_zero
      · show ¬ (Life.deleteLater (s.count.other life app).life).closed ≠ none
        rw [hc]
        exact ha.2
    · rw [close, if_pos hopen] at hclose
      rw [← Option.some.inj hclose]
      exact ha

theorem alive_run (hno : NoClose h) {handler : Handler A} (ha : Alive s)
    (hrun : handler.run (close h n) s = some s') : Alive s' := by
  induction handler generalizing s with
  | done life app =>
    rw [← Option.some.inj hrun]
    exact ha.other life app
  | close life app next ih =>
    obtain ⟨s₁, hclose, hnext⟩ := Option.bind_eq_some_iff.1 hrun
    exact ih _ _ (alive_close hno (ha.other life app) hclose) hnext

theorem alive_raiseSent (hno : NoClose h) {k : ℕ} (ha : Alive s)
    (hsent : raiseSent h n k s = some s') : Alive s' := by
  induction k generalizing s with
  | zero =>
    rw [← Option.some.inj hsent]
    exact ha
  | succ k ih =>
    obtain ⟨s₁, hraise, hrest⟩ := Option.bind_eq_some_iff.1 hsent
    exact ih (alive_run hno ha hraise) hrest

theorem inv_destroyRest (hno : NoClose h) (ha : Alive s) (hdest : destroyRest h n s = some s') :
    Inv s' := by
  unfold destroyRest at hdest
  by_cases hopen : s.deleteScheduled = 0
  · rw [if_pos hopen] at hdest
    obtain ⟨s₁, hraise, rfl⟩ := Option.map_eq_some_iff.1 hdest
    obtain ⟨life, app, hdone⟩ := hno s.life s.app hopen (not_freed_iff.1 ha.2)
    unfold raise at hraise
    rw [show h .closed s.count.life s.count.app = _ from hdone] at hraise
    obtain rfl := Option.some.inj hraise
    refine .inr ⟨?_, .inr (Option.some_ne_none _)⟩
    show s.raised + 1 = 1
    rw [ha.raised_zero hopen]
  · rw [if_neg hopen] at hdest
    obtain rfl := Option.some.inj hdest
    refine .inr ⟨ha.raised_one hopen, .inl ?_⟩
    show (Life.destroyRest s.life).1.conn.deleteScheduled ≠ 0
    unfold Life.destroyRest
    split_ifs <;> exact hopen

theorem inv_destroy (hno : NoClose h) {k : ℕ} (ha : Alive s) (hdest : destroy h n k s = some s') :
    Inv s' := by
  obtain ⟨s₁, hsent, hrest⟩ := Option.bind_eq_some_iff.1 hdest
  exact inv_destroyRest hno (alive_raiseSent hno ha hsent) hrest

/-- The deletion never takes the connection back. -/
theorem deleteConnection_life (o : Outcome) {life : Life.State} (hne : life.conn.deleteScheduled ≠ 0) :
    (Life.deleteConnection o life).1.conn.deleteScheduled ≠ 0 ∧
      (Life.deleteConnection o life).1.closed = life.closed := by
  unfold Life.deleteConnection
  simp only
  split_ifs
  · exact ⟨hne, rfl⟩
  · exact ⟨hne, rfl⟩
  · exact ⟨Nat.succ_ne_zero 1, rfl⟩
  · exact ⟨Nat.succ_ne_zero 1, rfl⟩

theorem inv_step {a : Action A} (hno : NoClose h) (hi : Inv s) (hs : step h s a = some s') :
    Inv s' := by
  unfold step at hs
  by_cases hc : s.life.closed.isSome = true
  · rw [if_pos hc] at hs
    cases hs
  rw [if_neg hc] at hs
  have ha : Alive s := ⟨hi, fun hfreed => hfreed (Option.not_isSome_iff_eq_none.1 hc)⟩
  cases a with
  | close n => exact (alive_close hno ha hs).1
  | fail n =>
    have ha' : Alive (s.setLife (s.life.setConn s.life.conn.dropWrites)) := ha.setLife Iff.rfl rfl
    exact (alive_close hno ha' hs).1
  | raise e n =>
    simp only at hs
    split_ifs at hs
    exact (alive_run hno ha hs).1
  | deleteConnection n k o =>
    have hone : s.deleteScheduled = 1 := by
      by_contra hne
      simp only [if_neg hne] at hs
      cases hs
    simp only [if_pos hone] at hs
    have hne : s.deleteScheduled ≠ 0 := by
      rw [hone]
      exact Nat.one_ne_zero
    obtain ⟨hne', hclosed⟩ := deleteConnection_life o hne
    have ha' := ha.setLife ⟨fun h0 => absurd h0 hne, fun h0 => absurd h0 hne'⟩ hclosed
    unfold deleteConnection at hs
    simp only at hs
    split_ifs at hs
    · rw [← Option.some.inj hs]
      exact ha'.1
    · exact inv_destroy hno ha' hs
  | destroy n k => exact inv_destroy hno ha hs
  | other life app =>
    rw [← Option.some.inj hs]
    exact (ha.other life app).1

theorem create_open (opts : ConnOpts) :
    (Life.create opts).conn.deleteScheduled = 0 ∧ (Life.create opts).closed = none := by
  unfold Life.create
  simp only
  split_ifs <;> exact ⟨rfl, rfl⟩

theorem inv_of_reachable (hno : NoClose h) (hs : (machine h).Reachable s) : Inv s := by
  apply hs.invariant
  · rintro s ⟨opts, app, rfl⟩
    obtain ⟨hopen, hc⟩ := create_open opts
    exact .inl ⟨rfl, hopen, fun hfreed => hfreed hc⟩
  · intro s a s' hi _ hs
    exact inv_step hno hi hs

theorem once_of_noClose (hno : NoClose h) (hs : (machine h).Reachable s) : Once h s := by
  have hi := inv_of_reachable hno hs
  refine ⟨?_, fun hfreed => ?_, fun hfreed => ?_⟩
  · rcases hi with ⟨h0, -⟩ | ⟨h1, -⟩ <;> omega
  · rcases hi with ⟨-, -, hno⟩ | ⟨h1, -⟩
    · exact absurd hfreed hno
    · exact h1
  · by_cases hopen : s.deleteScheduled = 0
    · obtain ⟨life, app, heq⟩ := close_open (n := 0) hno hopen hfreed
      exact ⟨1, _, heq⟩
    · exact ⟨1, s, by rw [close, if_pos hopen]⟩

/-! ## Exactly when -/

/-- A new connection, with the application in any state, and in any state itself that does not concern
its deletion -/
theorem reachable_open (h : Handlers A) (life : Life.State) (hopen : life.conn.deleteScheduled = 0)
    (hc : life.closed = none) (app : A) : (machine h).Reachable ⟨life, app, 0⟩ := by
  have opts : ConnOpts := ⟨.socket, false, false, false, false, true⟩
  obtain ⟨hopen', hc'⟩ := create_open opts
  have hinit : (machine h).Reachable ⟨{ Life.create opts with frames := [] }, app, 0⟩ :=
    .init ⟨opts, app, rfl⟩
  have hother : (⟨{ Life.create opts with frames := [] }, app, 0⟩ : State A).other life app =
      ⟨life, app, 0⟩ := by
    have hconn : { life.conn with deleteScheduled := 0 } = life.conn := by rw [← hopen]
    show (⟨⟨{ life.conn with deleteScheduled := (Life.create opts).conn.deleteScheduled }, life.watch,
      life.waits, (Life.create opts).closed, life.frames⟩, app, 0⟩ : State A) = _
    rw [hopen', hc', hconn, ← hc]
  have hstep : step h ⟨{ Life.create opts with frames := [] }, app, 0⟩ (.other life app) =
      some ⟨life, app, 0⟩ := by
    unfold step
    rw [if_neg (by simp [hc']), ← hother]
  exact Machine.Run.step hinit trivial (a := .other life app) hstep

/-- In every run `closed` is raised at most once, and once until the connection is freed, and
`PSC_Connection_close` returns, if and only if no handler of `closed` calls it. -/
theorem closed_once_iff (h : Handlers A) :
    (∀ s, (machine h).Reachable s → Once h s) ↔ NoClose h := by
  refine ⟨fun hall life app hopen hc => ?_, fun hno s hs => once_of_noClose hno hs⟩
  have hs := reachable_open h life hopen hc app
  cases hcalls : h .closed life app with
  | done life' app' => exact ⟨life', app', rfl⟩
  | close life' app' next =>
    obtain ⟨n, s', hclose⟩ := (hall _ hs).returns fun hfreed => hfreed hc
    have htwice : 2 ≤ s'.raised := by
      have hle := raised_twice (s := ⟨life, app, 0⟩) hopen hcalls hclose
      rwa [Nat.zero_add] at hle
    have hstep : step h ⟨life, app, 0⟩ (.close n) = some s' := by
      unfold step
      rw [if_neg (by simp [hc])]
      exact hclose
    have hs' : (machine h).Reachable s' :=
      Machine.Run.step hs trivial (a := .close n) hstep
    exact absurd (hall _ hs').once (Nat.not_le.2 htwice)

/-- A handler of `closed` that closes the connection the first time it is called -/
def closeOnce : Handlers Bool
  | .closed, life, false => .close life true fun life app => .done life app
  | _, life, app => .done life app

/-- A handler of `closed` that closes the connection -/
def closeAgain : Handlers Unit
  | .closed, life, app => .close life app fun life app => .done life app
  | _, life, app => .done life app

theorem closeAgain_none {s : State Unit} (hopen : s.deleteScheduled = 0) :
    close closeAgain n s = none := by
  induction n generalizing s with
  | zero => rfl
  | succ n ih =>
    rw [close, if_neg (fun hne => hne hopen)]
    show (((close closeAgain n (s.count.other s.life s.app)).bind _).map _) = none
    rw [ih (s := s.count.other s.life s.app) hopen]
    rfl

/-- `closed` is raised twice, or `PSC_Connection_close` never returns. -/
theorem closed_again :
    (¬ ∀ s : State Bool, (machine closeOnce).Reachable s → s.raised ≤ 1) ∧
      ¬ ∀ s : State Unit, (machine closeAgain).Reachable s → ¬ s.freed →
        ∃ n s', close closeAgain n s = some s' := by
  constructor
  · intro hall
    have hrun : ((machine closeOnce).exec [.close 2]
        ⟨{ Life.create ⟨.socket, false, false, false, false, true⟩ with frames := [] }, false, 0⟩).any
        (fun s => s.raised = 2) = true := by decide
    obtain ⟨s, hs, hp⟩ := Machine.exists_reachable (M := machine closeOnce) ⟨_, _, rfl⟩ hrun
    have hle := hall s hs
    rw [of_decide_eq_true hp] at hle
    exact absurd hle (by decide)
  · intro hall
    have hs := reachable_open closeAgain (Life.create ⟨.socket, false, false, false, false, true⟩)
      rfl rfl ()
    obtain ⟨n, s', hclose⟩ := hall _ hs fun hfreed => hfreed rfl
    rw [closeAgain_none rfl] at hclose
    cases hclose

end PoserCore.Connection.Closing
