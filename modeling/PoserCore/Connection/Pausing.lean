import PoserCore.Connection.Unread

/-!
# Pausing

`PSC_Connection_pause` takes `readConnection` off the service's event and `PSC_Connection_resume`
puts it back, and nothing else stops: the loop of `raisereceivedevents` does not look at `paused`.
So a pause keeps what is in the read buffer only when that loop finds nothing to take while it
lasts (`Conn.waits`), which `pausing_keeps` says in both directions.

A pause also destroys `dataReceived`, whose event then has no handlers; a raise of it is one whose
handlers do nothing.  `taken` records what is taken from the buffer during a pause.
-/

namespace PoserCore.Connection.Receive

open Lib (Machine)

/-- Data is being handled, the buffer is empty, or what is left of it begins with no NUL to skip and
no complete message. -/
def Conn.waits (self : Conn) : Bool :=
  self.args.handling ≠ 0 || self.rdbufused = 0 ||
    let self := self.restoreText
    match self.rdlocator with
    | some locator =>
      self.nuls = 0 && (self.rdbufpos = self.rdbufused || (self.textLength locator).isNone)
    | none => self.binaryLength.isNone

/-! ## The machine -/

structure Paused where
  conn : Conn
  paused : ℕ
  taken : List Item

/-- What a pass of the loop took, but for skipping nothing. -/
def Conn.newItems (self self' : Conn) : List Item :=
  (self'.log.drop self.log.length).filter fun i => i ≠ .skipped 0

/-- `PSC_Connection_pause` -/
def Paused.pause (self : Paused) : Paused := { self with paused := self.paused + 1 }

/-- `PSC_Connection_resume` -/
def Paused.resume (self : Paused) : Paused :=
  if self.paused = 0 then self else { self with paused := self.paused - 1 }

inductive PauseAct
  | conn (a : Act)
  | pause
  | resume

def Paused.step (self : Paused) : PauseAct → Option Paused
  | .conn .readyRead =>
    if self.paused = 0 then
      (self.conn.step .readyRead).map fun conn => { self with conn := conn }
    else none
  | .conn .loop =>
    (self.conn.step .loop).map fun conn =>
      { self with
        conn := conn
        taken := self.taken ++ if self.paused = 0 then [] else self.conn.newItems conn }
  | .conn a => (self.conn.step a).map fun conn => { self with conn := conn }
  | .pause => if self.conn.atUser then some self.pause else none
  | .resume => if self.conn.atUser then some self.resume else none

def pauseMachine (tls : Bool) (rdbufsz : ℕ) : Machine Paused PauseAct where
  init s := ∃ mem, s = ⟨Conn.create tls rdbufsz mem, 0, []⟩
  step := Paused.step

/-- During a pause the loop comes to its head only when it has to wait. -/
def PauseAct.Ok (s : Paused) : PauseAct → Prop
  | .conn .loop => s.paused ≠ 0 → s.conn.waits = true
  | _ => True

/-! ## A pass of the loop -/

variable {s : Conn}

theorem newItems_eq {s' : Conn} (items : List Item) (h : s'.log = s.log ++ items) :
    s.newItems s' = items.filter fun i => i ≠ .skipped 0 := by
  unfold Conn.newItems
  rw [h, List.drop_left]

/-- The end of the loop takes nothing more. -/
theorem newItems_leave {s' : Conn} (items : List Item) (h : s'.log = s.log ++ items) :
    s.newItems s'.leave = items.filter fun i => i ≠ .skipped 0 :=
  newItems_eq items ((leave_log s').trans h)

/-- With no NULs to skip the loop sees the same text. -/
theorem skipNuls_eq (h : s.nuls = 0) :
    s.skipNuls = { s with log := s.log ++ [.skipped 0] } := by
  unfold Conn.skipNuls
  rw [h]
  rfl

theorem newItems_binary (s : Conn) :
    s.newItems (match s.binaryLength with
      | some len => s.raiseBinary len
      | none => s.leave) = [] ↔ s.binaryLength.isNone = true := by
  cases s.binaryLength with
  | none =>
    dsimp only
    rw [newItems_leave [] (List.append_nil _).symm]
    simp
  | some len =>
    have hlog : (s.raiseBinary len).log = s.log ++
        [.binary s.rdexpect (Lib.Buffer.slice s.rdbuf s.rdbufpos len)] := rfl
    dsimp only
    rw [newItems_eq _ hlog]
    simp

theorem newItems_text (s : Conn) (locator : Locator) :
    s.newItems (if s.skipNuls.rdbufpos = s.skipNuls.rdbufused then
      ({ s.skipNuls with rdbufused := 0, rdbufpos := 0 } : Conn).leave
    else
      match s.skipNuls.textLength locator with
      | some len => s.skipNuls.raiseText len
      | none => s.skipNuls.leave) = [] ↔
    (s.nuls = 0 ∧ (s.rdbufpos = s.rdbufused ∨ s.textLength locator = none)) := by
  have hlog : s.skipNuls.log = s.log ++ [.skipped s.nuls] := rfl
  have htext : ∀ len, (s.skipNuls.raiseText len).log = s.log ++ [.skipped s.nuls,
      .text ((s.skipNuls.cutText len).str s.skipNuls.rdbufpos)] := by
    intro len
    exact List.append_assoc ..
  by_cases hnuls : s.nuls = 0
  · have hpos : s.skipNuls.rdbufpos = s.rdbufpos := by rw [skipNuls_eq hnuls]
    have hlen : s.skipNuls.textLength locator = s.textLength locator := by
      rw [skipNuls_eq hnuls]
      rfl
    have hused : s.skipNuls.rdbufused = s.rdbufused := rfl
    rw [hpos, hused, hlen]
    split_ifs with h
    · rw [newItems_leave [.skipped s.nuls] (by exact hlog)]
      simp [hnuls, h]
    · cases hnext : s.textLength locator with
      | none =>
        dsimp only
        rw [newItems_leave [.skipped s.nuls] hlog]
        simp [hnuls]
      | some len =>
        dsimp only
        rw [newItems_eq _ (htext len)]
        simp [h]
  · -- the NULs are gone
    refine iff_of_false ?_ fun h => hnuls h.1
    split_ifs
    · rw [newItems_leave [.skipped s.nuls] (by exact hlog)]
      simp [hnuls]
    · cases s.skipNuls.textLength locator with
      | none =>
        dsimp only
        rw [newItems_leave [.skipped s.nuls] hlog]
        simp [hnuls]
      | some len =>
        dsimp only
        rw [newItems_eq _ (htext len)]
        simp [hnuls]

/-- A pass takes nothing exactly when it has to wait. -/
theorem newItems_pass (s : Conn) : s.newItems s.pass = [] ↔ s.waits = true := by
  unfold Conn.pass Conn.waits
  by_cases hcond : s.args.handling ≠ 0 ∨ s.rdbufused = 0
  · have hwait : (decide (s.args.handling ≠ 0) || decide (s.rdbufused = 0)) = true := by
      simpa using hcond
    rw [if_pos hcond, hwait, newItems_leave [] (List.append_nil _).symm]
    simp
  · have hgo : (decide (s.args.handling ≠ 0) || decide (s.rdbufused = 0)) = false := by
      simpa using hcond
    have hlog : s.restoreText.log = s.log := by
      unfold Conn.restoreText
      split_ifs <;> rfl
    have hnew : ∀ s', s.newItems s' = s.restoreText.newItems s' := by
      intro s'
      unfold Conn.newItems
      rw [hlog]
    rw [if_neg hcond, hgo, Bool.false_or, hnew]
    dsimp only
    cases hmode : s.restoreText.rdlocator with
    | none => exact newItems_binary s.restoreText
    | some locator =>
      refine (newItems_text s.restoreText locator).trans ?_
      simp

/-! ## Runs -/

theorem newItems_step {s s' : Conn} (hs : s.step .loop = some s') :
    s.newItems s' = [] ↔ s.waits = true := by
  have hpass : s' = s.pass := by
    simp only [Conn.step] at hs
    split at hs
    · split_ifs at hs
      exact (Option.some.inj hs).symm
    · cases hs
  rw [hpass]
  exact newItems_pass s

/-- What was taken during pauses is still nothing after a step that `PauseAct.Ok` allows, and only
then. -/
theorem taken_step {s s' : Paused} {a : PauseAct} (h : s.taken = []) (hs : s.step a = some s') :
    s'.taken = [] ↔ a.Ok s := by
  cases a with
  | pause =>
    simp only [Paused.step] at hs
    split_ifs at hs
    obtain rfl := Option.some.inj hs
    exact iff_of_true h trivial
  | resume =>
    simp only [Paused.step] at hs
    split_ifs at hs
    obtain rfl := Option.some.inj hs
    refine iff_of_true ?_ trivial
    unfold Paused.resume
    split_ifs <;> exact h
  | conn a =>
    cases a with
    | loop =>
      obtain ⟨conn, hconn, rfl⟩ := Option.map_eq_some_iff.1 hs
      change s.taken ++ (if s.paused = 0 then [] else s.conn.newItems conn) = [] ↔
        (s.paused ≠ 0 → s.conn.waits = true)
      rw [h, List.nil_append]
      split_ifs with hp
      · simp [hp]
      · rw [newItems_step hconn]
        simp [hp]
    | readyRead =>
      simp only [Paused.step] at hs
      split_ifs at hs
      obtain ⟨conn, hconn, rfl⟩ := Option.map_eq_some_iff.1 hs
      exact iff_of_true h trivial
    | _ =>
      obtain ⟨conn, hconn, rfl⟩ := Option.map_eq_some_iff.1 hs
      exact iff_of_true h trivial

/-- Nothing is taken from the read buffer during a pause in any run in which the loop, whenever it
comes to its head during a pause, has to wait; and the first time it has not, something is. -/
theorem pausing_keeps {tls : Bool} {rdbufsz : ℕ} {s : Paused}
    (h : (pauseMachine tls rdbufsz).Run (fun s a => a.Ok s) s) :
    s.taken = [] ∧ ∀ a s', s.step a = some s' → ¬ a.Ok s → s'.taken ≠ [] := by
  have htaken : s.taken = [] := by
    refine h.invariant (I := fun s => s.taken = []) ?_ ?_
    · rintro s ⟨mem, rfl⟩
      rfl
    · intro s a s' h hok hs
      exact (taken_step h hs).2 hok
  exact ⟨htaken, fun a s' hs hn => mt (taken_step htaken hs).1 hn⟩

/-- A test for `PauseAct.Ok`. -/
def PauseAct.ok (s : Paused) : PauseAct → Bool
  | .conn .loop => s.paused = 0 || s.conn.waits
  | _ => true

theorem PauseAct.ok_sound (s : Paused) (a : PauseAct) (h : a.ok s = true) : a.Ok s := by
  cases a with
  | conn a =>
    cases a with
    | loop =>
      intro hp
      have h : (decide (s.paused = 0) || s.conn.waits) = true := h
      simpa [hp] using h
    | _ => trivial
  | _ => trivial

/-- A handler marks the first of two lines and pauses: the second line is delivered when the line is
confirmed after the resume. -/
theorem pausing_keeps_marked : ∃ s : Paused, s.taken = [] ∧ s.paused = 0 ∧
    s.conn.log = [.skipped 0, .text [97, 10], .skipped 0, .text [98, 10]] := by
  have hrun : ((pauseMachine false 8).execOk (fun s a => a.ok s)
      [.conn .receiveLine, .conn .readyRead, .conn (.readData [97, 10, 98, 10]), .conn .loop,
        .conn .markHandling, .pause, .conn .handlersReturn, .conn .loop, .resume,
        .conn .confirmDataReceived, .conn .loop] ⟨.create false 8 fun _ => 0, 0, []⟩).any (fun s =>
          decide (s.paused = 0 ∧
            s.conn.log = [.skipped 0, .text [97, 10], .skipped 0, .text [98, 10]])) = true := by
    decide +kernel
  obtain ⟨s, hs, hend⟩ := Machine.exists_run (M := pauseMachine false 8) ⟨_, rfl⟩
    PauseAct.ok_sound hrun
  exact ⟨s, (pausing_keeps hs).1, of_decide_eq_true hend⟩

/-- A handler of the first of two lines pauses, and the loop takes the second line. -/
theorem paused_takes : ∃ s : Paused, (pauseMachine false 8).Reachable s ∧ s.paused = 1 ∧
    s.taken = [.text [98, 10]] := by
  have hrun : ((pauseMachine false 8).execOk (fun _ _ => true)
      [.conn .receiveLine, .conn .readyRead, .conn (.readData [97, 10, 98, 10]), .conn .loop,
        .pause, .conn .handlersReturn, .conn .loop] ⟨.create false 8 fun _ => 0, 0, []⟩).any
          (fun s => decide (s.paused = 1 ∧ s.taken = [.text [98, 10]])) = true := by
    decide +kernel
  obtain ⟨s, hs, hend⟩ := Machine.exists_run (M := pauseMachine false 8) ⟨_, rfl⟩
    (fun _ _ _ => trivial) hrun
  exact ⟨s, hs, of_decide_eq_true hend⟩

end PoserCore.Connection.Receive
