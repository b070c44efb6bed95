import PoserCore.CommandQueue.Shape

/-!
# The invariant of the command queue

Over the shape of the memory come what the owner knows about the live nodes in each phase of
`runCommands` (`Phase`) and how the history is read off the chain (`History`): the commands run are
those of the retired nodes, and the chain keeps the order in which a thread allocated its nodes.
-/

namespace PoserCore.CommandQueue

open Lib SharedObj

variable {Tid Cmd : Type}

/-! ## The view of a state -/

def EnqPc.work : EnqPc Cmd → Work
  | .create _ pc => .create pc
  | .link node pc => .link node pc
  | _ => .none

def OwnPc.work : OwnPc → Work
  | .create _ pc => .create pc
  | .link _ dummy pc => .link dummy pc
  | _ => .none

def OwnPc.rpc : OwnPc → Option RetirePc
  | .retireFirst _ _ pc | .retireRun _ _ pc => some pc
  | _ => none

def State.view (s : State Tid Cmd) : View Tid where
  next := s.mem.next
  fresh := s.mem.fresh
  last := s.last
  dead := s.dead
  work a := a.elim s.opc.work fun t => (s.pc t).work
  retired := s.oloc.retired
  rpc := s.opc.rpc

theorem view_goto [DecidableEq Tid] (s : State Tid Cmd) (t : Tid) (p : EnqPc Cmd) :
    (s.goto t p).view = { s.view with work := Function.update s.view.work (some t) p.work } := by
  simp only [State.view, State.goto, View.mk.injEq, true_and, and_true]
  funext a
  cases a with
  | none => rfl
  | some t' =>
    by_cases h : t' = t
    · subst h
      simp
    · simp [h]

theorem shape_owner [DecidableEq Tid] {s s' : State Tid Cmd} {c : Chain} (hpc : s'.pc = s.pc)
    (h : Shape
      { next := s'.mem.next, fresh := s'.mem.fresh, last := s'.last, dead := s'.dead
        work := Function.update s.view.work none s'.opc.work
        retired := s'.oloc.retired, rpc := s'.opc.rpc } c) : Shape s'.view c := by
  have hwork : s'.view.work = Function.update s.view.work none s'.opc.work := by
    funext a
    cases a with
    | none => simp [State.view]
    | some t => simp [State.view, hpc]
  rw [← hwork] at h
  exact h

/-! ## The owner's phases -/

/-- All nodes hold commands. -/
def Commands (cmd : Obj → Option Cmd) (l : List Obj) : Prop := ∀ o ∈ l, (cmd o).isSome

/-- The queue outside a batch: the dummy, then commands of which the first are `pre`. -/
def Queued (first : Obj) (cmd : Obj → Option Cmd) (c : Chain) (pre : List Obj) : Prop :=
  ∃ post, c.live = first :: (pre ++ post) ∧ cmd first = none ∧ Commands cmd (pre ++ post)

/-- The batch is closed by the new dummy, and the old one is still there. -/
def Closed (first : Obj) (cmd : Obj → Option Cmd) (c : Chain) (torun dummy : Obj) : Prop :=
  ∃ batch post, c.live = first :: torun :: batch ++ dummy :: post ∧ cmd first = none ∧
    cmd dummy = none ∧ Commands cmd (torun :: batch) ∧ Commands cmd post

/-- The owner works through the batch, `torun` is the next node. -/
def Draining (last : Obj) (cmd : Obj → Option Cmd) (c : Chain) (torun : Option Obj) (dummy : Obj) :
    Prop :=
  ∃ batch post, c.live = batch ++ dummy :: post ∧ (batch ++ [dummy]).head? = torun ∧
    cmd dummy = none ∧ Commands cmd batch ∧ Commands cmd post ∧ After c.live dummy last

/-- The node read from `q->last`. -/
def LinkPc.ptr : LinkPc → Option Obj
  | .reserve (.check _ p) | .loadNext p | .casNext p | .casHelp p _ | .casLast p => some p
  | _ => none

/-- What the owner knows about the live nodes. -/
def Phase (first last : Obj) (cmd : Obj → Option Cmd) (c : Chain) : OwnPc → Prop
  | .storeMustwake (some torun) | .create torun _ => Queued first cmd c [torun]
  | .link torun dummy pc =>
      (∀ p, pc.ptr = some p → p ∈ c.live) ∧
      if pc.linked then
        Closed first cmd c torun dummy ∧ (pc.ptr = none → After c.live dummy last)
      else Queued first cmd c [torun] ∧ cmd dummy = none
  | .retireFirst torun dummy _ | .setFirst torun dummy => Draining last cmd c (some torun) dummy
  | .run torun dummy | .retireRun dummy torun _ =>
      first = dummy ∧ Draining last cmd c torun dummy
  | .loadNext torun dummy => first = dummy ∧ torun ≠ dummy ∧ Draining last cmd c (some torun) dummy
  | _ => Queued first cmd c []

section Grow

variable {first last last' : Obj} {cmd cmd' : Obj → Option Cmd} {c c' : Chain} {l : List Obj}

theorem Commands.congr (h : Commands cmd l) (heq : ∀ o ∈ l, cmd' o = cmd o) : Commands cmd' l :=
  fun o ho => heq o ho ▸ h o ho

theorem Commands.append {l' : List Obj} (h : Commands cmd l) (h' : Commands cmd l') :
    Commands cmd (l ++ l') :=
  fun o ho => (List.mem_append.1 ho).elim (h o) (h' o)

/-- New commands at the end of the queue. -/
theorem Queued.grow {pre new : List Obj} (h : Queued first cmd c pre) (hl : c'.live = c.live ++ new)
    (hcmd : ∀ o ∈ c.live, cmd' o = cmd o) (hnew : Commands cmd' new) :
    Queued first cmd' c' pre := by
  obtain ⟨post, he, hf, hc⟩ := h
  rw [he] at hcmd
  refine ⟨post ++ new, by simp [hl, he], (hcmd _ (.head _)).trans hf, ?_⟩
  rw [← List.append_assoc]
  exact (hc.congr fun o ho => hcmd o (.tail _ ho)).append hnew

theorem Closed.grow {torun dummy : Obj} {new : List Obj} (h : Closed first cmd c torun dummy)
    (hl : c'.live = c.live ++ new) (hcmd : ∀ o ∈ c.live, cmd' o = cmd o)
    (hnew : Commands cmd' new) : Closed first cmd' c' torun dummy := by
  obtain ⟨batch, post, he, hf, hd, hb, hp⟩ := h
  rw [he] at hcmd
  refine ⟨batch, post ++ new, by simp [hl, he], (hcmd _ (by simp)).trans hf,
    (hcmd _ (by simp)).trans hd, hb.congr fun o ho => hcmd o ?_, .append (hp.congr fun o ho =>
      hcmd o ?_) hnew⟩
  · exact List.mem_append_left _ (.tail _ ho)
  · exact List.mem_append_right _ (.tail _ ho)

theorem Draining.grow {torun : Option Obj} {dummy : Obj} {new : List Obj}
    (h : Draining last cmd c torun dummy) (hl : c'.live = c.live ++ new)
    (hcmd : ∀ o ∈ c.live, cmd' o = cmd o) (hnew : Commands cmd' new)
    (hafter : ∀ p, After c.live p last → After c'.live p last') :
    Draining last' cmd' c' torun dummy := by
  obtain ⟨batch, post, he, ht, hd, hb, hp, ha⟩ := h
  refine ⟨batch, post ++ new, by simp [hl, he], ht, ?_, ?_, ?_, hafter dummy ha⟩
  · exact (hcmd dummy ha.mem).trans hd
  · exact hb.congr fun o ho => hcmd o (by simp [he, ho])
  · exact .append (hp.congr fun o ho => hcmd o (by simp [he, ho])) hnew

/-- What the owner knows stays true while others append commands and `q->last` moves on. -/
theorem Phase.grow {pc : OwnPc} {new : List Obj} (h : Phase first last cmd c pc)
    (hl : c'.live = c.live ++ new) (hcmd : ∀ o ∈ c.live, cmd' o = cmd o)
    (hdummy : ∀ o, pc.work.held = some o → cmd' o = cmd o) (hnew : Commands cmd' new)
    (hafter : ∀ p, After c.live p last → After c'.live p last') : Phase first last' cmd' c' pc := by
  cases pc with
  | storeMustwake torun =>
    cases torun with
    | none => exact Queued.grow h hl hcmd hnew
    | some torun => exact Queued.grow h hl hcmd hnew
  | link torun dummy pc =>
    obtain ⟨hptr, h⟩ := h
    refine ⟨fun p hp => hl ▸ List.mem_append_left _ (hptr p hp), ?_⟩
    split_ifs at h ⊢ with hlinked
    · exact ⟨h.1.grow hl hcmd hnew, fun hp => hafter _ (h.2 hp)⟩
    · exact ⟨h.1.grow hl hcmd hnew, (hdummy dummy (by simp [OwnPc.work, Work.held, hlinked])).trans h.2⟩
  | retireFirst torun dummy pc | setFirst torun dummy => exact Draining.grow h hl hcmd hnew hafter
  | run torun dummy | retireRun dummy torun pc => exact ⟨h.1, h.2.grow hl hcmd hnew hafter⟩
  | loadNext torun dummy => exact ⟨h.1, h.2.1, h.2.2.grow hl hcmd hnew hafter⟩
  | _ => exact Queued.grow h hl hcmd hnew

end Grow

/-! ## The history -/

/-- The node a thread has allocated for its command. -/
def EnqPc.node : EnqPc Cmd → Option Obj
  | .create _ pc => createSelf pc
  | .link node _ => some node
  | _ => none

/-- The node whose command was called and that is not retired yet. -/
def OwnPc.current : OwnPc → List Obj
  | .loadNext torun _ => [torun]
  | _ => []

/-- Of two nodes of one thread the first is older. -/
def Before (issuer : Obj → Option Tid) (a b : Obj) : Prop :=
  ∀ t, issuer a = some t → issuer b = some t → a < b

/-- The commands run are those of the retired nodes, in their order. -/
def Ran (s : State Tid Cmd) (c : Chain) : Prop :=
  s.ran = c.dead.filter (fun o => (s.cmd o).isSome) ++ s.opc.current

structure History (s : State Tid Cmd) (c : Chain) : Prop where
  order : (c.dead ++ c.live).Pairwise (Before s.issuer)
  issued : ∀ o t, s.issuer o = some t → o < s.mem.fresh
  newest : ∀ t o, (s.pc t).node = some o → ∀ o', s.issuer o' = some t → o' ≤ o
  dummy : ∀ o, s.opc.work.held = some o → s.issuer o = none
  linking : ∀ t node pc, s.pc t = .link node pc → s.issuer node = some t ∧
    (s.cmd node).isSome ∧ node ∉ s.returned ∧ (pc.linked → node ∈ c.live ++ c.off)
  returned : ∀ o ∈ s.returned,
    o ∈ c.live ++ c.off ∧ (s.cmd o).isSome ∧ (s.issuer o).isSome
  returned_order : s.returned.Pairwise (Before s.issuer)

structure Inv (s : State Tid Cmd) (c : Chain) : Prop where
  shape : Shape s.view c
  phase : Phase s.first s.last s.cmd c s.opc
  ran : Ran s c
  history : History s c

namespace History

variable {s s' : State Tid Cmd} {c c' : Chain}

/-- A step that allocates nodes at most and moves agents. -/
theorem frame (h : History s c) (hissuer : s'.issuer = s.issuer) (hcmd : s'.cmd = s.cmd)
    (hfresh : s.mem.fresh ≤ s'.mem.fresh) (hret : s'.returned = s.returned)
    (hnode : ∀ t o, (s'.pc t).node = some o → (s.pc t).node = some o ∨ s.mem.fresh ≤ o)
    (hdummy : ∀ o, s'.opc.work.held = some o → s.opc.work.held = some o ∨ s.mem.fresh ≤ o)
    (hlink : ∀ t node pc, s'.pc t = .link node pc →
      (∃ pc', s.pc t = .link node pc') ∧ (pc.linked → node ∈ c.live ++ c.off)) : History s' c where
  order := hissuer ▸ h.order
  issued o t ho := Nat.lt_of_lt_of_le (h.issued o t (hissuer ▸ ho)) hfresh
  newest t o ho o' ho' := by
    rw [hissuer] at ho'
    rcases hnode t o ho with ho | ho
    · exact h.newest t o ho o' ho'
    · exact Nat.le_trans (Nat.le_of_lt (h.issued o' t ho')) ho
  dummy o ho := by
    rw [hissuer]
    rcases hdummy o ho with ho | ho
    · exact h.dummy o ho
    · exact Option.eq_none_iff_forall_ne_some.2 fun t ht =>
        Nat.not_lt.2 ho (h.issued o t ht)
  linking t node pc hpc := by
    obtain ⟨⟨pc', hpc'⟩, hall⟩ := hlink t node pc hpc
    obtain ⟨hi, hc, hr, -⟩ := h.linking t node pc' hpc'
    rw [hissuer, hcmd, hret]
    exact ⟨hi, hc, hr, hall⟩
  returned := by
    rw [hissuer, hcmd, hret]
    exact h.returned
  returned_order := by
    rw [hissuer, hret]
    exact h.returned_order

/-- A node is appended to the live ones or to the lost ones. -/
theorem extend (h : History s c) {new : List Obj} (hdead : c'.dead = c.dead)
    (hlive : c'.live = c.live ++ new) (hall : c.live ++ c.off ⊆ c'.live ++ c'.off)
    (hnew : new.Pairwise (Before s.issuer))
    (hbefore : ∀ a ∈ c.dead ++ c.live, ∀ b ∈ new, Before s.issuer a b) : History s c' where
  order := by
    rw [hdead, hlive, ← List.append_assoc]
    exact List.pairwise_append.2 ⟨h.order, hnew, hbefore⟩
  issued := h.issued
  newest := h.newest
  dummy := h.dummy
  linking t node pc hpc := by
    obtain ⟨hi, hc, hr, hm⟩ := h.linking t node pc hpc
    exact ⟨hi, hc, hr, fun hl => hall (hm hl)⟩
  returned o ho := by
    obtain ⟨hm, h'⟩ := h.returned o ho
    exact ⟨hall hm, h'⟩
  returned_order := h.returned_order

/-- Nodes move within the chain. -/
theorem shift (h : History s c) (horder : c'.dead ++ c'.live = c.dead ++ c.live)
    (hlost : c'.lost = c.lost) : History s c' := by
  have hall : ∀ o, o ∈ c.live ++ c.off ↔ o ∈ c'.live ++ c'.off := by
    intro o
    have := congrArg (o ∈ ·) horder
    simp only [List.mem_append, eq_iff_iff, Chain.off, hlost] at this ⊢
    tauto
  exact
    { h with
      order := horder ▸ h.order
      linking := fun t node pc hpc => by
        obtain ⟨hi, hc, hr, hm⟩ := h.linking t node pc hpc
        exact ⟨hi, hc, hr, fun hl => (hall _).1 (hm hl)⟩
      returned := fun o ho => by
        obtain ⟨hm, h'⟩ := h.returned o ho
        exact ⟨(hall _).1 hm, h'⟩ }

end History

end PoserCore.CommandQueue
