import PoserCore.Processes.Stages

/-!
# From the start of a process to `done`

`done` is raised once, when it should be, and with the outcome of the right child, as long as no child
has the pid of one that an earlier process still listens for (`Clean`).  The handler on
`PSC_Service_childExited` is never unregistered, so every process that had a child leaves it behind
(`process_lifecycle`).
-/

namespace PoserCore.Processes

open Lib (Machine)

variable {P : Type} {s s' : State P} {p : P}

/-! ## The claim -/

def NoCommands (s : State P) (p : P) : Prop := ∀ t c, (p, c) ∉ s.queue t

/-- The start failed, and the thread of the process got to know. -/
def Failed (s : State P) (p : P) : Prop :=
  (s.entry p).process.pid = 0 ∧ (s.entry p).process.doneArgs.status = .exited ∧ NoCommands s p

def PipesClosed (e : Entry) : Prop := ∀ type, e.process.actions type = .pipe → e.conn type = .closed

/-- The child ended, which the thread of the process got to know, and so did all its connections. -/
def Ended (s : State P) (p : P) : Prop :=
  (s.entry p).process.pid ≠ 0 ∧ (s.entry p).ended ≠ none ∧ PipesClosed (s.entry p) ∧ NoCommands s p

structure DoneOnce (s : State P) (p : P) : Prop where
  once : (s.entry p).done.length ≤ 1
  raised : Failed s p ∨ Ended s p → (s.entry p).done.length = 1
  right : ∀ args ∈ (s.entry p).done,
    ((s.entry p).process.pid = 0 ∧ args = ⟨(s.entry p).process.execError, .exited⟩) ∨
      ∃ ea, (s.entry p).ended = some ea ∧ args = ea.outcome ∧ PipesClosed (s.entry p)

/-- No handler on `PSC_Service_childExited` has a freed process as its receiver. -/
def Unregistered (s : State P) : Prop :=
  ∀ p, (s.entry p).freed = true → ∀ id, (p, id) ∉ s.handlers

variable [DecidableEq P]

/-- The end of a child is only reported to its own process, and no start fails while another one that
failed is still unknown to the thread of the process. -/
def Clean (s : State P) : Action P → Prop
  | .start p cb pipe fork =>
      (s.entry p).process.pid = 0 → (s.entry p).process.doneArgs.status = .exited →
        (s.entry p).process.canPipe cb pipe = true ∧ fork ≠ none
  | .reap ea => ∀ c, (s.children.find? fun c => c.1 == ea.pid) = some c →
      ∀ h ∈ s.handlers, h.2 = ea.pid → h.1 = c.2
  | _ => True

/-! ## The invariant -/

/-- The commands that wait for the process, in the order in which they are run -/
def mail (s : State P) (p : P) : List Command :=
  match (s.entry p).process.thrno with
  | none => []
  | some t => (s.queue t).filterMap fun m => if m.1 = p then some m.2 else none

/-- Everything about handlers and children -/
structure Regs (s : State P) : Prop where
  nodup : s.handlers.Nodup
  handlers : ∀ p n, (p, n) ∈ s.handlers ↔ n = (s.entry p).process.pid ∧ (s.entry p).process.pid ≠ 0
  children : ∀ n p, (n, p) ∈ s.children ↔
    n = (s.entry p).process.pid ∧ (s.entry p).process.pid ≠ 0 ∧ (s.entry p).ended = none

/-- Commands are on the thread of their process. -/
def Delivered (s : State P) : Prop := ∀ t m, m ∈ s.queue t → (s.entry m.1).process.thrno = some t

structure Inv (s : State P) : Prop where
  regs : Regs s
  delivered : Delivered s
  life : ∀ p, Life (s.entry p) (mail s p)

/-- Some commands for a process are still to be sent. -/
structure Owes (s : State P) (p : P) (l : List Command) : Prop where
  regs : Regs s
  delivered : Delivered s
  life : ∀ q ≠ p, Life (s.entry q) (mail s q)
  own : Life (s.entry p) (mail s p ++ l)

theorem Owes.inv (h : Owes s p []) : Inv s := by
  refine ⟨h.regs, h.delivered, fun q => ?_⟩
  by_cases hq : q = p
  · subst hq
    have hown := h.own
    rwa [List.append_nil] at hown
  · exact h.life q hq

/-! ## Frames -/

/-- What no command changes -/
structure Entry.Same (e e' : Entry) : Prop where
  thrno : e'.process.thrno = e.process.thrno
  pid : e'.process.pid = e.process.pid
  ended : e'.ended = e.ended

theorem Entry.Same.trans {e e' e'' : Entry} (h : e.Same e') (h' : e'.Same e'') : e.Same e'' :=
  ⟨h'.thrno.trans h.thrno, h'.pid.trans h.pid, h'.ended.trans h.ended⟩

theorem Entry.same_tryDestroy (e : Entry) : e.Same e.tryDestroy := by
  unfold Entry.tryDestroy
  split_ifs <;> exact ⟨rfl, rfl, rfl⟩

theorem Entry.same_close (e : Entry) (type : StreamType) : e.Same (e.close type) := by
  unfold Entry.close Entry.streamClosed
  split_ifs
  · exact ⟨rfl, rfl, rfl⟩
  · refine Entry.Same.trans ?_ (Entry.same_tryDestroy _)
    exact ⟨rfl, rfl, rfl⟩

theorem Entry.same_endprocess (e : Entry) (epa : EndProcArgs) : e.Same (e.endprocess epa) := by
  have hset : ∀ (e : Entry) (args : EAProcessDone), e.Same (e.setDoneArgs args).tryDestroy := by
    intro e args
    have hargs : e.Same (e.setDoneArgs args) := ⟨rfl, rfl, rfl⟩
    exact hargs.trans (Entry.same_tryDestroy _)
  unfold Entry.endprocess
  simp only
  split_ifs
  · exact ⟨rfl, rfl, rfl⟩
  · exact ⟨rfl, rfl, rfl⟩
  · exact (e.same_close _).trans (hset _ _)
  · exact hset _ _
  · exact (e.same_close _).trans (hset _ _)
  · exact hset _ _

theorem Entry.same_handle (e : Entry) (c : Command) : e.Same (e.handle c) := by
  cases c with
  | tryDestroy => exact e.same_tryDestroy
  | createpipeconn type =>
    show e.Same (e.createpipeconn type)
    unfold Entry.createpipeconn
    split_ifs <;> exact ⟨rfl, rfl, rfl⟩
  | endprocess epa => exact e.same_endprocess epa

theorem setEntry_self (s : State P) (p : P) (e : Entry) : (s.setEntry p e).entry p = e :=
  Function.update_self ..

theorem setEntry_of_ne {q : P} (hq : q ≠ p) (e : Entry) : (s.setEntry p e).entry q = s.entry q :=
  Function.update_of_ne hq _ _

/-- Any field that the new entry shares with the old one is the same for all processes. -/
theorem setEntry_field {α : Type} (f : Entry → α) {e : Entry} (h : f e = f (s.entry p)) (q : P) :
    f ((s.setEntry p e).entry q) = f (s.entry q) := by
  by_cases hq : q = p
  · subst hq
    rw [setEntry_self, h]
  · rw [setEntry_of_ne hq]

theorem mail_setEntry {e : Entry} (h : e.process.thrno = (s.entry p).process.thrno) (q : P) :
    mail (s.setEntry p e) q = mail s q := by
  unfold mail
  rw [setEntry_field (fun e => e.process.thrno) h]
  rfl

theorem Delivered.setEntry (hd : Delivered s) {e : Entry}
    (h : e.process.thrno = (s.entry p).process.thrno) : Delivered (s.setEntry p e) := by
  intro t m hm
  rw [setEntry_field (fun e => e.process.thrno) h]
  exact hd t m hm

theorem Regs.setEntry (hr : Regs s) {e : Entry} (h : (s.entry p).Same e) : Regs (s.setEntry p e) := by
  refine ⟨hr.nodup, fun q n => ?_, fun n q => ?_⟩
  · rw [setEntry_field (fun e => e.process.pid) h.pid]
    exact hr.handlers q n
  · rw [setEntry_field (fun e => e.process.pid) h.pid, setEntry_field (fun e => e.ended) h.ended]
    exact hr.children n q

/-! ## Commands -/

theorem mail_main (h : (s.entry p).process.thrno = none) : mail s p = [] := by
  unfold mail
  rw [h]

theorem mail_thread {t : ℕ} (h : (s.entry p).process.thrno = some t) :
    mail s p = (s.queue t).filterMap fun m => if m.1 = p then some m.2 else none := by
  unfold mail
  rw [h]

theorem mem_mail (hd : Delivered s) {c : Command} : c ∈ mail s p ↔ ∃ t, (p, c) ∈ s.queue t := by
  constructor
  · intro hc
    cases hthr : (s.entry p).process.thrno with
    | none =>
      rw [mail_main hthr] at hc
      cases hc
    | some t =>
      rw [mail_thread hthr, List.mem_filterMap] at hc
      obtain ⟨m, hm, hc⟩ := hc
      split_ifs at hc with hp
      obtain rfl := Option.some.inj hc
      refine ⟨t, ?_⟩
      rw [← hp]
      exact hm
  · rintro ⟨t, hm⟩
    rw [mail_thread (hd t _ hm), List.mem_filterMap]
    exact ⟨_, hm, if_pos rfl⟩

theorem noCommands_iff (hd : Delivered s) : NoCommands s p ↔ mail s p = [] := by
  rw [List.eq_nil_iff_forall_not_mem]
  refine ⟨fun h c hc => ?_, fun h t c hc => h c ((mem_mail hd).2 ⟨t, hc⟩)⟩
  obtain ⟨t, hm⟩ := (mem_mail hd).1 hc
  exact h t c hm

/-- `queue` becomes what a thread still has to run. -/
def State.setQueue (s : State P) (t : ℕ) (queue : List (P × Command)) : State P :=
  { s with queue := Function.update s.queue t queue }

theorem mail_setQueue_self {t : ℕ} (hthr : (s.entry p).process.thrno = some t)
    (queue : List (P × Command)) :
    mail (s.setQueue t queue) p = queue.filterMap fun m => if m.1 = p then some m.2 else none := by
  have hmail := mail_thread (s := s.setQueue t queue) hthr
  rw [hmail]
  show (Function.update s.queue t queue t).filterMap _ = _
  rw [Function.update_self]

/-- A process has the same commands as long as the changed queue has the same ones for it. -/
theorem mail_setQueue {t : ℕ} {queue : List (P × Command)} {q : P}
    (hsame : (queue.filterMap fun m => if m.1 = q then some m.2 else none) =
      (s.queue t).filterMap fun m => if m.1 = q then some m.2 else none) :
    mail (s.setQueue t queue) q = mail s q := by
  cases hthr : (s.entry q).process.thrno with
  | none =>
    have hmail := mail_main (s := s.setQueue t queue) hthr
    rw [hmail, mail_main hthr]
  | some u =>
    by_cases hu : u = t
    · subst hu
      rw [mail_setQueue_self hthr, mail_thread hthr, hsame]
    · have hmail := mail_thread (s := s.setQueue t queue) hthr
      rw [hmail, mail_thread hthr]
      show (Function.update s.queue t queue u).filterMap _ = _
      rw [Function.update_of_ne hu]

omit [DecidableEq P] in
theorem Delivered.setQueue (hd : Delivered s) {t : ℕ} {queue : List (P × Command)}
    (hqueue : ∀ m ∈ queue, (s.entry m.1).process.thrno = some t) :
    Delivered (s.setQueue t queue) := by
  intro u m hm
  have hm' : m ∈ Function.update s.queue t queue u := hm
  by_cases hu : u = t
  · subst hu
    rw [Function.update_self] at hm'
    exact hqueue m hm'
  · rw [Function.update_of_ne hu] at hm'
    exact hd u m hm'

omit [DecidableEq P] in
theorem Regs.setQueue (hr : Regs s) (t : ℕ) (queue : List (P × Command)) :
    Regs (s.setQueue t queue) :=
  ⟨hr.nodup, hr.handlers, hr.children⟩

/-- A command is sent, or run at once. -/
theorem owes_runOnThread {c : Command} {l : List Command} (h : Owes s p (c :: l)) :
    Owes (runOnThread s p c) p l := by
  unfold runOnThread
  split
  next hthr =>
    have hsame := (s.entry p).same_handle c
    refine ⟨h.regs.setEntry hsame, h.delivered.setEntry hsame.thrno, fun q hq => ?_, ?_⟩
    · rw [setEntry_of_ne hq, mail_setEntry hsame.thrno]
      exact h.life q hq
    · have hown := h.own
      rw [mail_main hthr, List.nil_append] at hown
      rw [setEntry_self, mail_setEntry hsame.thrno, mail_main hthr]
      exact hown.handle
  next t hthr =>
    show Owes (s.setQueue t (s.queue t ++ [(p, c)])) p l
    refine ⟨h.regs.setQueue t _, h.delivered.setQueue fun m hm => ?_, fun q hq => ?_, ?_⟩
    · rw [List.mem_append, List.mem_singleton] at hm
      rcases hm with hm | rfl
      · exact h.delivered t m hm
      · exact hthr
    · rw [mail_setQueue]
      · exact h.life q hq
      · rw [List.filterMap_append]
        simp [Ne.symm hq]
    · have hmail : mail (s.setQueue t (s.queue t ++ [(p, c)])) p = mail s p ++ [c] := by
        rw [mail_setQueue_self hthr, mail_thread hthr, List.filterMap_append]
        simp
      rw [hmail, List.append_assoc]
      exact h.own

theorem owes_all {l : List Command} (h : Owes s p l) :
    Inv (l.foldl (fun s c => runOnThread s p c) s) := by
  induction l generalizing s with
  | nil => exact h.inv
  | cons c l ih => exact ih (owes_runOnThread h)

theorem inv_work (hi : Inv s) {t : ℕ} {c : Command} {queue : List (P × Command)}
    (hq : s.queue t = (p, c) :: queue) :
    Inv ((s.setQueue t queue).setEntry p ((s.entry p).handle c)) := by
  have hsame := (s.entry p).same_handle c
  have hthr : (s.entry p).process.thrno = some t := by
    apply hi.delivered t (p, c)
    rw [hq]
    exact List.mem_cons_self
  have hdel : Delivered (s.setQueue t queue) := by
    refine hi.delivered.setQueue fun m hm => ?_
    apply hi.delivered t m
    rw [hq]
    exact List.mem_cons_of_mem _ hm
  refine ⟨(hi.regs.setQueue t queue).setEntry hsame, hdel.setEntry hsame.thrno, fun q => ?_⟩
  rw [mail_setEntry (s := s.setQueue t queue) hsame.thrno]
  have hlife := hi.life q
  by_cases hqp : q = p
  · subst hqp
    rw [mail_thread hthr, hq, List.filterMap_cons] at hlife
    simp only [if_true] at hlife
    rw [setEntry_self, mail_setQueue_self hthr]
    exact hlife.handle
  · rw [setEntry_of_ne hqp, mail_setQueue]
    · exact hlife
    · rw [hq, List.filterMap_cons]
      simp only [if_neg (Ne.symm hqp)]

/-! ## Steps -/

theorem inv_close (hi : Inv s) {type : StreamType} (hopen : (s.entry p).conn type = .opened) :
    Inv (s.setEntry p ((s.entry p).close type)) := by
  have hsame := (s.entry p).same_close type
  refine ⟨hi.regs.setEntry hsame, hi.delivered.setEntry hsame.thrno, fun q => ?_⟩
  rw [mail_setEntry hsame.thrno]
  by_cases hq : q = p
  · subst hq
    rw [setEntry_self]
    exact (hi.life q).close hopen
  · rw [setEntry_of_ne hq]
    exact hi.life q

theorem inv_startFailed (hi : Inv s) (hfreed : (s.entry p).freed = false)
    (hpid : (s.entry p).process.pid = 0) (hfirst : (s.entry p).process.doneArgs.status ≠ .exited) :
    Inv (startFailed s p) := by
  obtain ⟨hempty, hlife⟩ := (hi.life p).startFailed hfreed hpid hfirst
  have hmail : ∀ q, mail (s.setEntry p ((s.entry p).setDoneArgs
      ⟨(s.entry p).process.execError, .exited⟩)) q = mail s q := mail_setEntry rfl
  apply Owes.inv
  apply owes_runOnThread
  refine ⟨hi.regs.setEntry ⟨rfl, rfl, rfl⟩, hi.delivered.setEntry rfl, fun q hq => ?_, ?_⟩
  · rw [setEntry_of_ne hq, hmail]
    exact hi.life q
  · rw [setEntry_self, hmail, hempty]
    exact hlife

theorem register_new (hr : Regs s) {pid : ℕ} (hpid : (s.entry p).process.pid = 0) (s' : State P)
    (hs : s'.handlers = s.handlers) :
    register s' p pid = { s' with handlers := s'.handlers ++ [(p, pid)] } := by
  apply if_neg
  rw [List.contains_iff_mem, hs, hr.handlers]
  exact fun h => h.2 hpid

/-- A child was forked, and no pipe was set up yet. -/
def State.forked (s : State P) (p : P) (pid : ℕ) : State P :=
  { s.setEntry p ((s.entry p).start pid) with
    handlers := s.handlers ++ [(p, pid)]
    children := s.children ++ [(pid, p)] }

theorem forked_self (s : State P) (p : P) (pid : ℕ) :
    (s.forked p pid).entry p = (s.entry p).start pid := setEntry_self ..

theorem forked_of_ne {q : P} (hq : q ≠ p) (pid : ℕ) : (s.forked p pid).entry q = s.entry q :=
  setEntry_of_ne hq _

theorem mail_forked (pid : ℕ) (q : P) : mail (s.forked p pid) q = mail s q := by
  show mail (s.setEntry p ((s.entry p).start pid)) q = mail s q
  apply mail_setEntry
  rfl

theorem Regs.forked (hr : Regs s) (hpid : (s.entry p).process.pid = 0)
    (hended : (s.entry p).ended = none) {pid : ℕ} (hne : pid ≠ 0) : Regs (s.forked p pid) := by
  -- nothing of the process was registered before
  have hold : ∀ n, (p, n) ∉ s.handlers := fun n hn => ((hr.handlers p n).1 hn).2 hpid
  have holdc : ∀ n, (n, p) ∉ s.children := fun n hn => ((hr.children n p).1 hn).2.1 hpid
  refine ⟨?_, fun q n => ?_, fun n q => ?_⟩
  · show (s.handlers ++ [(p, pid)]).Nodup
    rw [List.nodup_append]
    refine ⟨hr.nodup, List.pairwise_singleton _ _, fun h hm h' hm' heq => ?_⟩
    rw [List.mem_singleton.1 hm'] at heq
    exact hold pid (heq ▸ hm)
  · show (q, n) ∈ s.handlers ++ [(p, pid)] ↔ _
    rw [List.mem_append, List.mem_singleton, Prod.mk.injEq]
    by_cases hq : q = p
    · subst hq
      rw [forked_self]
      exact ⟨fun h => ⟨(h.resolve_left (hold n)).2, hne⟩, fun h => .inr ⟨rfl, h.1⟩⟩
    · rw [forked_of_ne hq, ← hr.handlers q n]
      exact ⟨fun h => h.resolve_right fun h' => hq h'.1, .inl⟩
  · show (n, q) ∈ s.children ++ [(pid, p)] ↔ _
    rw [List.mem_append, List.mem_singleton, Prod.mk.injEq]
    by_cases hq : q = p
    · subst hq
      rw [forked_self]
      exact ⟨fun h => ⟨(h.resolve_left (holdc n)).1, hne, hended⟩, fun h => .inr ⟨h.1, rfl⟩⟩
    · rw [forked_of_ne hq, ← hr.children n q]
      exact ⟨fun h => h.resolve_right fun h' => hq h'.2, .inl⟩

theorem owes_forked (hi : Inv s) (hfreed : (s.entry p).freed = false)
    (hpid : (s.entry p).process.pid = 0) {pid : ℕ} (hne : pid ≠ 0) :
    Owes (s.forked p pid) p ((s.entry p).process.pipes.map .createpipeconn) := by
  obtain ⟨-, hended, -⟩ := (hi.life p).stage.new_or_failed hfreed hpid
  have hdel : Delivered (s.setEntry p ((s.entry p).start pid)) := hi.delivered.setEntry rfl
  refine ⟨hi.regs.forked hpid hended hne, hdel, fun q hq => ?_, ?_⟩
  · rw [forked_of_ne hq, mail_forked]
    exact hi.life q
  · rw [forked_self, mail_forked]
    exact (hi.life p).start hfreed hpid hne

theorem inv_runprocess (hi : Inv s) (hfreed : (s.entry p).freed = false) {cb : Bool}
    {pipe : StreamType → Bool} {fork : Option ℕ} (hfork : ∀ pid, fork = some pid → pid ≠ 0)
    (hclean : Clean s (.start p cb pipe fork)) : Inv (runprocess s p cb pipe fork) := by
  unfold runprocess
  simp only
  by_cases hpid : (s.entry p).process.pid = 0
  · rw [if_neg (fun hne => hne hpid)]
    have hfirst : ¬ ((s.entry p).process.canPipe cb pipe = true ∧ fork ≠ none) →
        (s.entry p).process.doneArgs.status ≠ .exited := fun hno hex => hno (hclean hpid hex)
    by_cases hpipe : (s.entry p).process.canPipe cb pipe = true
    · rw [if_neg (by rw [hpipe]; exact Bool.false_ne_true)]
      cases fork with
      | none => exact inv_startFailed hi hfreed hpid (hfirst fun h => h.2 rfl)
      | some pid =>
        have howes := owes_forked hi hfreed hpid (hfork pid rfl)
        simp only
        rw [register_new hi.regs hpid (s.setEntry p ((s.entry p).start pid)) rfl]
        have hinv := owes_all howes
        rw [List.foldl_map] at hinv
        exact hinv
    · rw [if_pos (by rw [Bool.eq_false_iff.2 hpipe]; rfl)]
      exact inv_startFailed hi hfreed hpid (hfirst fun h => hpipe h.1)
  · rw [if_pos hpid]
    exact hi

/-- Where all elements of a list without duplicates are the same -/
theorem eq_singleton {α : Type} {a : α} {l : List α} (hnodup : l.Nodup) (hmem : a ∈ l)
    (hall : ∀ b ∈ l, b = a) : l = [a] := by
  cases l with
  | nil => cases hmem
  | cons b l =>
    obtain rfl := hall b List.mem_cons_self
    cases l with
    | nil => rfl
    | cons c l =>
      obtain rfl := hall c (List.mem_cons_of_mem _ List.mem_cons_self)
      exact absurd List.mem_cons_self (List.nodup_cons.1 hnodup).1

theorem inv_reapChild (hi : Inv s) {ea : EAChildExited} (hchild : (ea.pid, p) ∈ s.children)
    (hea : ¬ (ea.signaled = true ∧ ea.val = 0))
    (hclean : ∀ h ∈ s.handlers, h.2 = ea.pid → h.1 = p) : Inv (reapChild s p ea) := by
  obtain ⟨hpid, hne, hended⟩ := (hi.regs.children _ _).1 hchild
  obtain ⟨hfreed, hlife⟩ := (hi.life p).reap hne hended ⟨hpid, hea⟩
  obtain ⟨s₁, hs₁⟩ : ∃ s₁, s₁ = { s with children := s.children.filter fun c => c != (ea.pid, p) } :=
    ⟨_, rfl⟩
  have hentry : s₁.entry = s.entry := by rw [hs₁]
  have hpids : ∀ q, ((s₁.setEntry p { s.entry p with ended := some ea }).entry q).process.pid =
      (s.entry q).process.pid := by
    intro q
    rw [setEntry_field (fun e => e.process.pid) (by rw [hentry]), hentry]
  have hmail : ∀ q, mail (s₁.setEntry p { s.entry p with ended := some ea }) q = mail s q := by
    intro q
    rw [mail_setEntry (by rw [hentry]), hs₁]
    rfl
  have howes : Owes (s₁.setEntry p { s.entry p with ended := some ea }) p
      [.endprocess (endProcArgs ea)] := by
    refine ⟨⟨?_, fun q n => ?_, fun n q => ?_⟩, ?_, fun q hq => ?_, ?_⟩
    · rw [hs₁]
      exact hi.regs.nodup
    · rw [hpids, hs₁]
      exact hi.regs.handlers q n
    · have hchildren : (s₁.setEntry p { s.entry p with ended := some ea }).children =
          s.children.filter fun c => c != (ea.pid, p) := by rw [hs₁]; rfl
      rw [hpids, hchildren, List.mem_filter, hi.regs.children, bne_iff_ne]
      by_cases hq : q = p
      · subst hq
        rw [setEntry_self]
        refine ⟨fun h => absurd ?_ h.2, fun h => by cases h.2.2⟩
        rw [hpid, h.1.1]
      · rw [setEntry_of_ne hq, hentry]
        exact ⟨fun h => h.1, fun h => ⟨h, fun heq => hq (Prod.mk.inj heq).2⟩⟩
    · apply Delivered.setEntry
      · rw [hs₁]
        exact hi.delivered
      · rw [hentry]
    · rw [setEntry_of_ne hq, hentry, hmail]
      exact hi.life q
    · rw [setEntry_self, hmail]
      exact hlife
  unfold reapChild raise
  rw [← hs₁]
  have hone : s.handlers.filter (fun h => h.2 = ea.pid) = [(p, ea.pid)] := by
    apply eq_singleton (hi.regs.nodup.filter _)
    · rw [List.mem_filter]
      exact ⟨(hi.regs.handlers p _).2 ⟨hpid, hne⟩, decide_eq_true rfl⟩
    · intro h hm
      obtain ⟨hm, heq⟩ := List.mem_filter.1 hm
      have heq := of_decide_eq_true heq
      rw [← hclean h hm heq, ← heq]
  have hhandlers : (s₁.setEntry p { s.entry p with ended := some ea }).handlers = s.handlers := by
    rw [hs₁]
    rfl
  rw [hhandlers, hone]
  show Inv (childExited _ p ea)
  unfold childExited
  rw [setEntry_self, if_neg (by rw [hfreed]; exact Bool.false_ne_true)]
  exact (owes_runOnThread howes).inv

theorem inv_step {a : Action P} (hi : Inv s) (hc : Clean s a) (h : step s a = some s') : Inv s' := by
  cases a with
  | start p cb pipe fork =>
    rw [step] at h
    split_ifs at h with hfreed hfork
    obtain rfl := Option.some.inj h
    refine inv_runprocess hi (Bool.eq_false_iff.2 hfreed) (fun pid hsome hzero => hfork ?_) hc
    rw [hsome, hzero]
    rfl
  | reap ea =>
    rw [step] at h
    split_ifs at h with hea
    obtain ⟨c, hfind, rfl⟩ := Option.map_eq_some_iff.1 h
    have hpid : c.1 = ea.pid := by
      have heq := List.find?_some hfind
      exact beq_iff_eq.1 heq
    refine inv_reapChild hi ?_ (fun hno => hea ?_) (hc c hfind)
    · rw [← hpid]
      exact List.mem_of_find?_eq_some hfind
    · rw [hno.1, hno.2]
      rfl
  | work t =>
    rw [step] at h
    split at h
    · cases h
    next p c queue hq =>
      obtain rfl := Option.some.inj h
      exact inv_work hi hq
  | close p type =>
    rw [step] at h
    split_ifs at h with hopen
    obtain rfl := Option.some.inj h
    exact inv_close hi hopen

theorem inv_create (opts : P → ProcessOpts) : Inv (create opts) := by
  have hmail : ∀ p, mail (create opts) p = [] := by
    intro p
    unfold mail
    split <;> rfl
  refine ⟨⟨List.nodup_nil, fun p n => ?_, fun n p => ?_⟩, (fun t m hm => by cases hm), fun p => ?_⟩
  · exact ⟨(fun h => by cases h), fun h => absurd rfl h.2⟩
  · exact ⟨(fun h => by cases h), fun h => absurd rfl h.2.1⟩
  · rw [hmail]
    refine ⟨.new ⟨rfl, rfl⟩ rfl rfl rfl rfl, rfl, fun type => ⟨(fun h => by cases h), fun h => by cases h⟩,
      fun type => ?_, fun _ _ => rfl⟩
    rw [if_neg fun h => h.1 rfl]
    rfl

theorem inv_of_run {opts : P → ProcessOpts} (h : (machine opts).Run Clean s) : Inv s := by
  apply h.invariant
  · rintro s rfl
    exact inv_create opts
  · intro s a s' hi hc hs
    exact inv_step hi hc hs

/-! ## What follows for `done` -/

theorem Life.gone_of_done {e : Entry} {mail : List Command} (h : Life e mail)
    (hdone : e.done ≠ [] ∨ e.freed = true) :
    e.freed = true ∧ e.done = [e.process.doneArgs] ∧ mail = [] ∧
      ((e.process.pid = 0 ∧ e.process.doneArgs = ⟨e.process.execError, .exited⟩) ∨
        (e.process.pid ≠ 0 ∧ ∃ ea, e.ended = some ea ∧ e.process.doneArgs = ea.outcome) ∧
          PipesClosed e) := by
  have hno : Alive e → False := by
    rintro ⟨hf, hd⟩
    rcases hdone with h | h
    · exact h hd
    · rw [hf] at h
      cases h
  cases h.stage with
  | new halive => exact (hno halive).elim
  | failed halive => exact (hno halive).elim
  | running halive => exact (hno halive).elim
  | reaped halive => exact (hno halive).elim
  | waiting halive => exact (hno halive).elim
  | gone hfreed hdone' hmail hwhy hclosed =>
    refine ⟨hfreed, hdone', hmail, ?_⟩
    rcases hwhy with ⟨hpid, hargs, -⟩ | ⟨hpid, hargs⟩
    · exact .inl ⟨hpid, hargs⟩
    · refine .inr ⟨⟨hpid, hargs⟩, fun type hpipe => ?_⟩
      have hpending := h.pending type
      have hopen := h.conn type
      rw [hmail, List.count_nil] at hpending
      cases hconn : e.conn type with
      | closed => rfl
      | absent =>
        rw [if_pos ⟨hpid, hpipe, hconn⟩] at hpending
        cases hpending
      | opened =>
        have hstream := hopen.2 hconn
        rw [hclosed] at hstream
        cases hstream

/-- A process is gone as soon as its start failed, or its child ended and the connections did. -/
theorem Inv.freed (hi : Inv s) (h : Failed s p ∨ Ended s p) : (s.entry p).freed = true := by
  have hlife := hi.life p
  have hempty : mail s p = [] := by
    apply (noCommands_iff hi.delivered).1
    rcases h with h | h
    · exact h.2.2
    · exact h.2.2.2
  rw [hempty] at hlife
  cases hlife.stage with
  | gone hfreed => exact hfreed
  | new _ hpid hstatus =>
    rcases h with h | h
    · rw [h.2.1] at hstatus
      cases hstatus
    · exact absurd hpid h.1
  | failed _ _ _ _ hmail => cases hmail
  | running _ hpid _ hended =>
    rcases h with h | h
    · exact absurd h.1 hpid
    · exact absurd hended h.2.1
  | reaped _ _ l _ _ _ _ hmail =>
    have hlen := congrArg List.length hmail
    rw [List.length_append] at hlen
    cases hlen
  | waiting _ _ hpid _ _ _ hopen =>
    rcases h with h | h
    · exact absurd h.1 hpid
    · obtain ⟨type, hstream⟩ := hopen
      have hconn := (hlife.conn type).1 hstream
      by_cases hpipe : (s.entry p).process.actions type = .pipe
      · rw [h.2.2.1 type hpipe] at hconn
        cases hconn
      · rw [hlife.unpiped type fun hp => hpipe hp.2] at hconn
        cases hconn

theorem Inv.doneOnce (hi : Inv s) (p : P) : DoneOnce s p where
  once := by
    by_cases hdone : (s.entry p).done = []
    · rw [hdone]
      exact Nat.zero_le 1
    · obtain ⟨-, heq, -⟩ := (hi.life p).gone_of_done (.inl hdone)
      rw [heq]
      exact Nat.le_refl 1
  raised h := by
    obtain ⟨-, heq, -⟩ := (hi.life p).gone_of_done (.inr (hi.freed h))
    rw [heq]
    rfl
  right args hargs := by
    obtain ⟨-, heq, -, hwhy⟩ := (hi.life p).gone_of_done (.inl (List.ne_nil_of_mem hargs))
    rw [heq] at hargs
    obtain rfl := List.mem_singleton.1 hargs
    rcases hwhy with h | ⟨⟨-, ea, hended, hout⟩, hclosed⟩
    · exact .inl h
    · exact .inr ⟨ea, hended, hout, hclosed⟩

/-- Exactly the processes that had a child are left on the event. -/
theorem Inv.unregistered_iff (hi : Inv s) : Unregistered s ↔ ∀ p, ¬ Ended s p := by
  constructor
  · intro h p hended
    apply h p (hi.freed (.inr hended)) (s.entry p).process.pid
    exact (hi.regs.handlers p _).2 ⟨rfl, hended.1⟩
  · intro h p hfreed id hm
    obtain ⟨-, hpid⟩ := (hi.regs.handlers p id).1 hm
    obtain ⟨-, -, hempty, hwhy⟩ := (hi.life p).gone_of_done (.inr hfreed)
    rcases hwhy with ⟨hzero, -⟩ | ⟨⟨-, ea, hended, -⟩, hclosed⟩
    · exact hpid hzero
    · refine h p ⟨hpid, ?_, hclosed, (noCommands_iff hi.delivered).2 hempty⟩
      rw [hended]
      exact Option.some_ne_none ea

/-- In every run in which the end of a child is only reported to its own process, `done` is raised
once and for the right reason, and no freed process is left on `PSC_Service_childExited` if and only if
no child of a process came to its end. -/
theorem process_lifecycle {opts : P → ProcessOpts} (h : (machine opts).Run Clean s) :
    (∀ p, DoneOnce s p) ∧ (Unregistered s ↔ ∀ p, ¬ Ended s p) :=
  ⟨(inv_of_run h).doneOnce, (inv_of_run h).unregistered_iff⟩

/-- A sound test for `Clean` -/
def cleanTest (s : State P) : Action P → Bool
  | .start p cb pipe fork =>
      (s.entry p).process.doneArgs.status ≠ .exited ||
        ((s.entry p).process.canPipe cb pipe && fork.isSome)
  | .reap ea =>
      match s.children.find? fun c => c.1 == ea.pid with
      | none => true
      | some c => s.handlers.all fun h => h.2 ≠ ea.pid || h.1 = c.2
  | _ => true

theorem clean_of_test (s : State P) (a : Action P) (h : cleanTest s a = true) : Clean s a := by
  cases a with
  | start p cb pipe fork =>
    intro _ hstatus
    simp only [cleanTest, hstatus, ne_eq, not_true_eq_false, decide_false, Bool.false_or,
      Bool.and_eq_true, Option.isSome_iff_ne_none] at h
    exact h
  | reap ea =>
    intro c hfind i hi heq
    simp only [cleanTest, hfind, List.all_eq_true] at h
    have hor := h i hi
    simp only [heq, ne_eq, not_true_eq_false, decide_false, Bool.false_or, decide_eq_true_eq] at hor
    exact hor
  | _ => trivial

/-- Two processes on the main thread; the first has a pipe for its standard output, and the start of
the second fails with 127. -/
def mainThread (p : Bool) : ProcessOpts where
  execError := 127
  actions type := if p = true ∧ type = .stdout then .pipe else .leave
  thrno := none

theorem process_lifecycle_pipe : ∃ s : State Bool, (∀ p, DoneOnce s p) ∧ ¬ Unregistered s ∧
    (s.entry true).done = [⟨0, .exited⟩] ∧ (s.entry false).done = [⟨127, .exited⟩] := by
  have hrun : ((machine mainThread).execOk cleanTest
      [.start true true (fun _ => true) (some 7), .start false false (fun _ => true) none,
        .reap ⟨7, 0, false⟩, .close true .stdout] (create mainThread)).any
      (fun s => (s.entry true).process.pid = 7 ∧ (s.entry true).ended = some ⟨7, 0, false⟩ ∧
        (s.entry true).conn .stdout = .closed ∧ s.handlers = [(true, 7)] ∧ (s.entry true).freed = true ∧
        (s.entry true).done = [⟨0, .exited⟩] ∧ (s.entry false).done = [⟨127, .exited⟩]) = true := by
    decide
  obtain ⟨s, hs, hp⟩ := Machine.exists_run rfl clean_of_test hrun
  obtain ⟨-, -, -, hhandlers, hfreed, hdone, hdone'⟩ := of_decide_eq_true hp
  refine ⟨s, (process_lifecycle hs).1, fun h => ?_, hdone, hdone'⟩
  apply h true hfreed 7
  rw [hhandlers]
  exact List.mem_cons_self

/-- A freed process is left on the event; and where a pid is given again while the first process waits
for its pipe, that one reports the outcome of the other's child. -/
theorem process_confused : (¬ ∀ s : State Bool, (machine mainThread).Reachable s → Unregistered s) ∧
    ¬ ∀ s : State Bool, (machine mainThread).Reachable s → ∀ p, DoneOnce s p := by
  constructor
  · intro hall
    have hrun : ((machine mainThread).exec
        [.start false true (fun _ => true) (some 7), .reap ⟨7, 0, false⟩] (create mainThread)).any
        (fun s => (s.entry false).freed = true ∧ s.handlers = [(false, 7)]) = true := by decide
    obtain ⟨s, hs, hp⟩ := Machine.exists_reachable rfl hrun
    obtain ⟨hfreed, hhandlers⟩ := of_decide_eq_true hp
    apply hall s hs false hfreed 7
    rw [hhandlers]
    exact List.mem_cons_self
  · intro hall
    have hrun : ((machine mainThread).exec
        [.start true true (fun _ => true) (some 7), .reap ⟨7, 0, false⟩,
          .start false true (fun _ => true) (some 7), .reap ⟨7, 1, false⟩, .close true .stdout]
        (create mainThread)).any
        (fun s => (s.entry true).process.pid = 7 ∧ (s.entry true).ended = some ⟨7, 0, false⟩ ∧
          (s.entry true).done = [⟨1, .exited⟩]) = true := by decide
    obtain ⟨s, hs, hp⟩ := Machine.exists_reachable rfl hrun
    obtain ⟨hpid, hended, hdone⟩ := of_decide_eq_true hp
    have hright := (hall s hs true).right ⟨1, .exited⟩ (by rw [hdone]; exact List.mem_cons_self)
    rcases hright with ⟨hzero, -⟩ | ⟨ea, hea, hout, -⟩
    · rw [hpid] at hzero
      cases hzero
    · rw [hended] at hea
      obtain rfl := Option.some.inj hea
      exact absurd hout (by decide)

end PoserCore.Processes
