import Mathlib.Data.List.Count
import Mathlib.Tactic.SplitIfs
import PoserCore.Processes.Model

/-!
# The stages of a process

What a process is and which commands wait for it go together (`Stage`, `Life`): those to create its
connections come before the one that reports its end, and after that one there is none.  Each command
takes the process with the rest of its commands to a stage again.
-/

namespace PoserCore.Processes

/-- What `done` should report for the end of a child -/
def EAChildExited.outcome (ea : EAChildExited) : EAProcessDone :=
  if ea.signaled then ⟨ea.val, .signaled⟩ else ⟨ea.val, .exited⟩

def endProcArgs (ea : EAChildExited) : EndProcArgs := ⟨ea.pid, ea.signal, ea.status⟩

/-- There is no end of a child among the commands. -/
def NoEnd (mail : List Command) : Prop := ∀ epa, .endprocess epa ∉ mail

structure Alive (e : Entry) : Prop where
  freed : e.freed = false
  done : e.done = []

inductive Stage (e : Entry) (mail : List Command) : Prop
  | new (alive : Alive e) (hpid : e.process.pid = 0) (hstatus : e.process.doneArgs.status = .none)
      (hended : e.ended = none) (hmail : mail = [])
  | failed (alive : Alive e) (hpid : e.process.pid = 0)
      (hargs : e.process.doneArgs = ⟨e.process.execError, .exited⟩) (hended : e.ended = none)
      (hmail : mail = [.tryDestroy])
  | running (alive : Alive e) (hpid : e.process.pid ≠ 0)
      (hstatus : e.process.doneArgs.status = .running) (hended : e.ended = none) (hmail : NoEnd mail)
  /-- The child ended, and the process does not know of it. -/
  | reaped (alive : Alive e) (ea : EAChildExited) (l : List Command) (hpid : e.process.pid ≠ 0)
      (hea : ea.pid = e.process.pid ∧ ¬ (ea.signaled = true ∧ ea.val = 0))
      (hstatus : e.process.doneArgs.status = .running) (hended : e.ended = some ea)
      (hmail : mail = l ++ [.endprocess (endProcArgs ea)]) (hl : NoEnd l)
  /-- A connection is open. -/
  | waiting (alive : Alive e) (ea : EAChildExited) (hpid : e.process.pid ≠ 0)
      (hargs : e.process.doneArgs = ea.outcome) (hended : e.ended = some ea) (hmail : mail = [])
      (hopen : ∃ type, e.process.streams type = true)
  | gone (hfreed : e.freed = true) (hdone : e.done = [e.process.doneArgs]) (hmail : mail = [])
      (hwhy : (e.process.pid = 0 ∧ e.process.doneArgs = ⟨e.process.execError, .exited⟩ ∧ e.ended = none) ∨
        (e.process.pid ≠ 0 ∧ ∃ ea, e.ended = some ea ∧ e.process.doneArgs = ea.outcome))
      (hclosed : ∀ type, e.process.streams type = false)

structure Life (e : Entry) (mail : List Command) : Prop where
  stage : Stage e mail
  late : e.late = false
  conn : ∀ type, e.process.streams type = true ↔ e.conn type = .opened
  /-- The connections that are still to be created -/
  pending : ∀ type, mail.count (.createpipeconn type) =
    if e.process.pid ≠ 0 ∧ e.process.actions type = .pipe ∧ e.conn type = .absent then 1 else 0
  unpiped : ∀ type, ¬ (e.process.pid ≠ 0 ∧ e.process.actions type = .pipe) → e.conn type = .absent

variable {e : Entry} {mail : List Command} {type : StreamType}

/-! ## `tryDestroy` -/

theorem Entry.tryDestroy_running (halive : e.freed = false)
    (h : e.process.doneArgs.status = .running) : e.tryDestroy = e := by
  unfold Entry.tryDestroy
  rw [if_neg (by rw [halive]; exact Bool.false_ne_true), if_pos h]

theorem Entry.tryDestroy_open (halive : e.freed = false) (h : e.process.streams type = true) :
    e.tryDestroy = e := by
  unfold Entry.tryDestroy
  rw [if_neg (by rw [halive]; exact Bool.false_ne_true)]
  cases type <;> simp [h]

theorem Entry.tryDestroy_last (halive : e.freed = false) (h : e.process.doneArgs.status ≠ .running)
    (hclosed : ∀ type, e.process.streams type = false) :
    e.tryDestroy = { e with done := e.done ++ [e.process.doneArgs], freed := true } := by
  unfold Entry.tryDestroy
  simp [halive, h, hclosed]

theorem EAChildExited.outcome_ne_running (ea : EAChildExited) : ea.outcome.status ≠ .running := by
  unfold EAChildExited.outcome
  split_ifs <;> exact ChildStatus.noConfusion

/-- After the end of the child the process goes as soon as no connection is open. -/
theorem Stage.tryDestroy (halive : Alive e) {ea : EAChildExited} (hpid : e.process.pid ≠ 0)
    (hargs : e.process.doneArgs = ea.outcome) (hended : e.ended = some ea) : Stage e.tryDestroy [] := by
  by_cases hopen : ∃ type, e.process.streams type = true
  · obtain ⟨type, htype⟩ := hopen
    rw [Entry.tryDestroy_open halive.freed htype]
    exact .waiting halive ea hpid hargs hended rfl ⟨type, htype⟩
  · have hclosed : ∀ type, e.process.streams type = false := fun type =>
      Bool.eq_false_iff.2 fun h => hopen ⟨type, h⟩
    rw [Entry.tryDestroy_last halive.freed (by rw [hargs]; exact ea.outcome_ne_running) hclosed]
    refine .gone rfl ?_ rfl (.inr ⟨hpid, ea, hended, hargs⟩) hclosed
    show e.done ++ _ = _
    rw [halive.done]
    rfl

/-- `tryDestroy` leaves the connections as they are. -/
theorem Entry.tryDestroy_process (e : Entry) :
    e.tryDestroy.process = e.process ∧ e.tryDestroy.conn = e.conn ∧
      (e.freed = false → e.tryDestroy.late = e.late) := by
  unfold Entry.tryDestroy
  split_ifs with hf
  · exact ⟨rfl, rfl, fun h => by rw [hf] at h; cases h⟩
  all_goals exact ⟨rfl, rfl, fun _ => rfl⟩

theorem Life.frame {e' : Entry} {mail' : List Command} (h : Life e mail) (hstage : Stage e' mail')
    (hlate : e'.late = false) (hproc : e'.process.streams = e.process.streams)
    (hpid : e'.process.pid = e.process.pid) (hact : e'.process.actions = e.process.actions)
    (hconn : e'.conn = e.conn)
    (hmail : ∀ type, mail'.count (.createpipeconn type) = mail.count (.createpipeconn type)) :
    Life e' mail' := by
  refine ⟨hstage, hlate, ?_, ?_, ?_⟩
  · intro type
    rw [hproc, hconn]
    exact h.conn type
  · intro type
    rw [hmail, hpid, hact, hconn]
    exact h.pending type
  · intro type hno
    rw [hpid, hact] at hno
    rw [hconn]
    exact h.unpiped type hno

theorem Life.closed_of_new (h : Life e mail) (hpid : e.process.pid = 0) (type : StreamType) :
    e.process.streams type = false := by
  have habsent := h.unpiped type fun hp => hp.1 hpid
  rw [Bool.eq_false_iff]
  intro hopen
  rw [(h.conn type).1 hopen] at habsent
  cases habsent

theorem NoEnd.tail {c : Command} (h : NoEnd (c :: mail)) : NoEnd mail := fun epa hm =>
  h epa (List.mem_cons_of_mem c hm)

/-- A command that is not the end of the child comes before it. -/
theorem split_mail {c c' : Command} {l : List Command} (h : c :: mail = l ++ [c']) (hne : c ≠ c') :
    ∃ l', l = c :: l' ∧ mail = l' ++ [c'] := by
  cases l with
  | nil => exact absurd (List.cons.inj h).1 hne
  | cons d l' =>
    obtain ⟨rfl, hmail⟩ := List.cons.inj h
    exact ⟨l', rfl, hmail⟩

theorem Life.tryDestroy (h : Life e (.tryDestroy :: mail)) : Life e.tryDestroy mail := by
  obtain ⟨hproc, hconn, hlate⟩ := e.tryDestroy_process
  have hframe : ∀ hstage : Stage e.tryDestroy mail, e.freed = false → Life e.tryDestroy mail := by
    intro hstage hf
    refine h.frame hstage ((hlate hf).trans h.late) (by rw [hproc]) (by rw [hproc]) (by rw [hproc])
      hconn fun type => ?_
    rw [List.count_cons_of_ne]
    exact Command.noConfusion
  cases h.stage with
  | new _ _ _ _ hmail => cases hmail
  | waiting _ _ _ _ _ hmail => cases hmail
  | gone _ _ hmail => cases hmail
  | failed halive hpid hargs hended hmail =>
    obtain ⟨-, rfl⟩ := List.cons.inj hmail
    have hclosed := h.closed_of_new hpid
    apply hframe _ halive.freed
    rw [Entry.tryDestroy_last halive.freed (by rw [hargs]; exact ChildStatus.noConfusion) hclosed]
    refine .gone rfl ?_ rfl (.inl ⟨hpid, hargs, hended⟩) hclosed
    show e.done ++ _ = _
    rw [halive.done]
    rfl
  | running halive hpid hstatus hended hmail =>
    apply hframe _ halive.freed
    rw [Entry.tryDestroy_running halive.freed hstatus]
    exact .running halive hpid hstatus hended hmail.tail
  | reaped halive ea l hpid hea hstatus hended hmail hl =>
    obtain ⟨l', rfl, hmail'⟩ := split_mail hmail Command.noConfusion
    apply hframe _ halive.freed
    rw [Entry.tryDestroy_running halive.freed hstatus]
    exact .reaped halive ea l' hpid hea hstatus hended hmail' hl.tail

/-! ## Connections -/

theorem Entry.createpipeconn_alive (halive : e.freed = false) (type : StreamType) :
    e.createpipeconn type = { e with
      process := { e.process with streams := Function.update e.process.streams type true }
      conn := Function.update e.conn type .opened } := by
  unfold Entry.createpipeconn
  rw [if_neg (by rw [halive]; exact Bool.false_ne_true)]

theorem Life.createpipeconn (h : Life e (.createpipeconn type :: mail)) :
    Life (e.createpipeconn type) mail := by
  have hpending := h.pending type
  rw [List.count_cons_self] at hpending
  have hwhen : e.process.pid ≠ 0 ∧ e.process.actions type = .pipe ∧ e.conn type = .absent := by
    by_contra hno
    rw [if_neg hno] at hpending
    cases hpending
  have hlife : ∀ hstage : Stage (e.createpipeconn type) mail, e.freed = false →
      Life (e.createpipeconn type) mail := by
    intro hstage hf
    rw [Entry.createpipeconn_alive hf] at hstage ⊢
    refine ⟨hstage, h.late, fun i => ?_, fun i => ?_, fun i hno => ?_⟩
    · show Function.update e.process.streams type true i = true ↔
        Function.update e.conn type .opened i = .opened
      by_cases hi : i = type
      · subst hi
        simp
      · rw [Function.update_of_ne hi, Function.update_of_ne hi]
        exact h.conn i
    · show _ = if e.process.pid ≠ 0 ∧ e.process.actions i = .pipe ∧
        Function.update e.conn type .opened i = .absent then 1 else 0
      by_cases hi : i = type
      · subst hi
        rw [if_pos hwhen] at hpending
        rw [Function.update_self, if_neg fun hp => by cases hp.2.2]
        exact Nat.succ.inj hpending
      · have hp := h.pending i
        rw [List.count_cons_of_ne fun hc => hi (Command.createpipeconn.inj hc).symm] at hp
        rw [Function.update_of_ne hi]
        exact hp
    · show Function.update e.conn type .opened i = .absent
      by_cases hi : i = type
      · subst hi
        exact absurd ⟨hwhen.1, hwhen.2.1⟩ hno
      · rw [Function.update_of_ne hi]
        exact h.unpiped i hno
  cases h.stage with
  | new _ _ _ _ hmail => cases hmail
  | failed _ hpid => exact absurd hpid hwhen.1
  | waiting _ _ _ _ _ hmail => cases hmail
  | gone _ _ hmail => cases hmail
  | running halive hpid hstatus hended hmail =>
    apply hlife _ halive.freed
    rw [Entry.createpipeconn_alive halive.freed]
    exact .running ⟨halive.freed, halive.done⟩ hpid hstatus hended hmail.tail
  | reaped halive ea l hpid hea hstatus hended hmail hl =>
    obtain ⟨l', rfl, hmail'⟩ := split_mail hmail Command.noConfusion
    apply hlife _ halive.freed
    rw [Entry.createpipeconn_alive halive.freed]
    exact .reaped ⟨halive.freed, halive.done⟩ ea l' hpid hea hstatus hended hmail' hl.tail

/-- The connection, without what follows from its end -/
def Entry.disconnect (e : Entry) (type : StreamType) : Entry :=
  { e with
    conn := Function.update e.conn type .closed
    process := { e.process with streams := Function.update e.process.streams type false } }

theorem Entry.close_alive (halive : e.freed = false) (type : StreamType) :
    e.close type = (e.disconnect type).tryDestroy := by
  unfold Entry.close Entry.streamClosed
  rw [if_neg (by rw [halive]; exact Bool.false_ne_true)]
  rfl

/-- All of `Life` but the stage -/
theorem Life.disconnect (h : Life e mail) (hopen : e.conn type = .opened) {e' : Entry}
    (hproc : e'.process = (e.disconnect type).process) (hconn : e'.conn = (e.disconnect type).conn)
    (hlate : e'.late = e.late) (hstage : Stage e' mail) : Life e' mail := by
  refine ⟨hstage, hlate.trans h.late, fun i => ?_, fun i => ?_, fun i hno => ?_⟩
  · rw [hproc, hconn]
    show Function.update e.process.streams type false i = true ↔
      Function.update e.conn type .closed i = .opened
    by_cases hi : i = type
    · subst hi
      simp
    · rw [Function.update_of_ne hi, Function.update_of_ne hi]
      exact h.conn i
  · rw [hproc, hconn]
    show _ = if e.process.pid ≠ 0 ∧ e.process.actions i = .pipe ∧
      Function.update e.conn type .closed i = .absent then 1 else 0
    rw [h.pending i]
    by_cases hi : i = type
    · subst hi
      rw [Function.update_self, hopen]
      simp
    · rw [Function.update_of_ne hi]
  · rw [hproc] at hno
    rw [hconn]
    show Function.update e.conn type .closed i = .absent
    by_cases hi : i = type
    · subst hi
      have habsent := h.unpiped i hno
      rw [hopen] at habsent
      cases habsent
    · rw [Function.update_of_ne hi]
      exact h.unpiped i hno

theorem Life.close (h : Life e mail) (hopen : e.conn type = .opened) : Life (e.close type) mail := by
  have hstream : e.process.streams type = true := (h.conn type).2 hopen
  obtain ⟨hproc, hconn, hlate⟩ := (e.disconnect type).tryDestroy_process
  have hlife : ∀ hstage : Stage (e.disconnect type).tryDestroy mail, e.freed = false →
      Life (e.close type) mail := by
    intro hstage hf
    rw [Entry.close_alive hf]
    exact h.disconnect hopen hproc hconn (hlate hf) hstage
  cases h.stage with
  | new _ hpid =>
    rw [h.closed_of_new hpid] at hstream
    cases hstream
  | failed _ hpid =>
    rw [h.closed_of_new hpid] at hstream
    cases hstream
  | gone _ _ _ _ hclosed =>
    rw [hclosed] at hstream
    cases hstream
  | running halive hpid hstatus hended hmail =>
    apply hlife _ halive.freed
    rw [Entry.tryDestroy_running (e := e.disconnect type) halive.freed hstatus]
    exact .running ⟨halive.freed, halive.done⟩ hpid hstatus hended hmail
  | reaped halive ea l hpid hea hstatus hended hmail hl =>
    apply hlife _ halive.freed
    rw [Entry.tryDestroy_running (e := e.disconnect type) halive.freed hstatus]
    exact .reaped ⟨halive.freed, halive.done⟩ ea l hpid hea hstatus hended hmail hl
  | waiting halive ea hpid hargs hended hmail =>
    apply hlife _ halive.freed
    rw [hmail]
    exact Stage.tryDestroy (e := e.disconnect type) ⟨halive.freed, halive.done⟩ hpid hargs hended

/-! ## The end of the child -/

/-- What `childExited` passes on gives the outcome again. -/
theorem setDoneArgs_outcome {ea : EAChildExited} (hea : ¬ (ea.signaled = true ∧ ea.val = 0)) :
    (if (endProcArgs ea).signo ≠ 0 then (e.setDoneArgs ⟨(endProcArgs ea).signo, .signaled⟩).tryDestroy
      else (e.setDoneArgs ⟨(endProcArgs ea).status, .exited⟩).tryDestroy) =
      (e.setDoneArgs ea.outcome).tryDestroy := by
  unfold endProcArgs EAChildExited.signal EAChildExited.status EAChildExited.outcome
  by_cases hs : ea.signaled = true
  · have hval : ea.val ≠ 0 := fun h => hea ⟨hs, h⟩
    simp [hs, hval]
  · simp [hs]

/-- `endprocess` closes the standard input while the process still counts as running. -/
theorem Life.close_stdin (h : Life e mail) (halive : Alive e)
    (hstatus : e.process.doneArgs.status = .running) {e₁ : Entry}
    (he : e₁ = if e.process.streams .stdin then e.close .stdin else e) :
    Life e₁ mail ∧ Alive e₁ ∧ e₁.process.pid = e.process.pid ∧ e₁.ended = e.ended := by
  by_cases hopen : e.process.streams .stdin = true
  · rw [if_pos hopen] at he
    have hlife := h.close ((h.conn _).1 hopen)
    rw [← he] at hlife
    rw [Entry.close_alive halive.freed,
      Entry.tryDestroy_running (e := e.disconnect .stdin) halive.freed hstatus] at he
    rw [he] at hlife ⊢
    exact ⟨hlife, ⟨halive.freed, halive.done⟩, rfl, rfl⟩
  · rw [if_neg hopen] at he
    rw [he]
    exact ⟨h, halive, rfl, rfl⟩

theorem Life.endprocess {epa : EndProcArgs} (h : Life e (.endprocess epa :: mail)) :
    Life (e.endprocess epa) mail := by
  cases h.stage with
  | new _ _ _ _ hmail => cases hmail
  | failed _ _ _ _ hmail => cases hmail
  | waiting _ _ _ _ _ hmail => cases hmail
  | gone _ _ hmail => cases hmail
  | running _ _ _ _ hmail => exact absurd List.mem_cons_self (hmail epa)
  | reaped halive ea l hpid hea hstatus hended hmail hl =>
    cases l with
    | cons c l =>
      obtain ⟨rfl, -⟩ := List.cons.inj hmail
      exact absurd List.mem_cons_self (hl epa)
    | nil =>
      obtain ⟨hepa, rfl⟩ := List.cons.inj hmail
      obtain rfl := Command.endprocess.inj hepa
      obtain ⟨e₁, he⟩ : ∃ e₁, e₁ = if e.process.streams .stdin then e.close .stdin else e := ⟨_, rfl⟩
      obtain ⟨hlife, halive₁, hpid₁, hended₁⟩ := h.close_stdin halive hstatus he
      have heq : e.endprocess (endProcArgs ea) = (e₁.setDoneArgs ea.outcome).tryDestroy := by
        unfold Entry.endprocess
        rw [if_neg (by rw [halive.freed]; exact Bool.false_ne_true), if_neg (fun hne => hne hea.1)]
        simp only
        rw [← he]
        exact setDoneArgs_outcome hea.2
      have hstage : Stage (e₁.setDoneArgs ea.outcome).tryDestroy [] :=
        Stage.tryDestroy (e := e₁.setDoneArgs ea.outcome) ⟨halive₁.freed, halive₁.done⟩
          (by rw [← hpid₁] at hpid; exact hpid) rfl (hended₁.trans hended)
      obtain ⟨hproc, hconn, hlate⟩ := (e₁.setDoneArgs ea.outcome).tryDestroy_process
      rw [heq]
      refine hlife.frame hstage ((hlate halive₁.freed).trans hlife.late) (by rw [hproc]; rfl)
        (by rw [hproc]; rfl) (by rw [hproc]; rfl) hconn fun type => ?_
      rw [List.count_cons_of_ne]
      exact Command.noConfusion

theorem Life.handle {c : Command} (h : Life e (c :: mail)) : Life (e.handle c) mail := by
  cases c with
  | tryDestroy => exact h.tryDestroy
  | createpipeconn type => exact h.createpipeconn
  | endprocess epa => exact h.endprocess

/-! ## Starting, and reaping -/

theorem Stage.new_or_failed (h : Stage e mail) (hfreed : e.freed = false) (hpid : e.process.pid = 0) :
    Alive e ∧ e.ended = none ∧ (mail = [] ∨
      e.process.doneArgs.status = .exited ∧ mail = [.tryDestroy]) := by
  cases h with
  | new halive _ _ hended hmail => exact ⟨halive, hended, .inl hmail⟩
  | failed halive _ hargs hended hmail => exact ⟨halive, hended, .inr ⟨by rw [hargs], hmail⟩⟩
  | running _ hne => exact absurd hpid hne
  | reaped _ _ _ hne => exact absurd hpid hne
  | waiting _ _ hne => exact absurd hpid hne
  | gone hf =>
    rw [hfreed] at hf
    cases hf

theorem count_pipes (self : Process) (type : StreamType) :
    (self.pipes.map Command.createpipeconn).count (.createpipeconn type) =
      if self.actions type = .pipe then 1 else 0 := by
  have hinj : Function.Injective Command.createpipeconn := fun _ _ => Command.createpipeconn.inj
  rw [List.count_map_of_injective _ _ hinj]
  unfold Process.pipes
  by_cases h : self.actions type = .pipe
  · rw [if_pos h, List.count_filter (p := fun i => decide (self.actions i = .pipe)) (decide_eq_true h)]
    cases type <;> decide
  · rw [if_neg h, List.count_eq_zero]
    intro hm
    exact h (of_decide_eq_true (List.mem_filter.1 hm).2)

theorem Life.start (h : Life e mail) (hfreed : e.freed = false) (hpid : e.process.pid = 0) {pid : ℕ}
    (hne : pid ≠ 0) :
    Life (e.start pid) (mail ++ e.process.pipes.map Command.createpipeconn) := by
  obtain ⟨halive, hended, hmail⟩ := h.stage.new_or_failed hfreed hpid
  have habsent : ∀ type, e.conn type = .absent := fun type => h.unpiped type fun hp => hp.1 hpid
  have hnone : ∀ c ∈ e.process.pipes.map Command.createpipeconn, ∀ epa, c ≠ .endprocess epa := by
    intro c hc epa
    obtain ⟨type, -, rfl⟩ := List.mem_map.1 hc
    exact Command.noConfusion
  refine ⟨.running ⟨halive.freed, halive.done⟩ hne rfl hended fun epa hm => ?_, h.late, h.conn,
    fun type => ?_, fun type _ => habsent type⟩
  · rcases List.mem_append.1 hm with hm | hm
    · rcases hmail with rfl | ⟨-, rfl⟩
      · cases hm
      · cases List.mem_singleton.1 hm
    · exact hnone _ hm epa rfl
  · have hzero : mail.count (.createpipeconn type) = 0 := by
      rw [h.pending type, if_neg fun hp => hp.1 hpid]
    rw [List.count_append, hzero, Nat.zero_add, count_pipes]
    show _ = if pid ≠ 0 ∧ e.process.actions type = .pipe ∧ e.conn type = .absent then 1 else 0
    by_cases hact : e.process.actions type = .pipe
    · rw [if_pos hact, if_pos ⟨hne, hact, habsent type⟩]
    · rw [if_neg hact, if_neg fun hp => hact hp.2.1]

theorem Life.startFailed (h : Life e mail) (hfreed : e.freed = false) (hpid : e.process.pid = 0)
    (hfirst : e.process.doneArgs.status ≠ .exited) :
    mail = [] ∧ Life (e.setDoneArgs ⟨e.process.execError, .exited⟩) [.tryDestroy] := by
  obtain ⟨halive, hended, hmail⟩ := h.stage.new_or_failed hfreed hpid
  rcases hmail with rfl | ⟨hstatus, -⟩
  · refine ⟨rfl, h.frame (.failed ⟨halive.freed, halive.done⟩ hpid rfl hended rfl) h.late rfl rfl rfl rfl
      fun type => ?_⟩
    rw [List.count_cons_of_ne]
    exact Command.noConfusion
  · exact absurd hstatus hfirst

theorem Life.reap (h : Life e mail) (hpid : e.process.pid ≠ 0) (hended : e.ended = none)
    {ea : EAChildExited} (hea : ea.pid = e.process.pid ∧ ¬ (ea.signaled = true ∧ ea.val = 0)) :
    e.freed = false ∧
      Life { e with ended := some ea } (mail ++ [.endprocess (endProcArgs ea)]) := by
  cases h.stage with
  | new _ hp => exact absurd hp hpid
  | failed _ hp => exact absurd hp hpid
  | reaped _ _ _ _ _ _ h' =>
    rw [hended] at h'
    cases h'
  | waiting _ _ _ _ h' =>
    rw [hended] at h'
    cases h'
  | gone _ _ _ hwhy =>
    rcases hwhy with ⟨hp, -⟩ | ⟨-, ea', h', -⟩
    · exact absurd hp hpid
    · rw [hended] at h'
      cases h'
  | running halive _ hstatus _ hmail =>
    refine ⟨halive.freed, h.frame (.reaped ⟨halive.freed, halive.done⟩ ea mail hpid hea hstatus rfl rfl hmail)
      h.late rfl rfl rfl rfl fun type => ?_⟩
    rw [List.count_append, List.count_singleton]
    rfl

end PoserCore.Processes
