import PoserCore.Lib.Links
import PoserCore.CommandQueue.Model

/-!
# The shape of the queue

The nodes that were ever linked form a chain: first those already passed to `SharedObj_retire`, in
the order of their retirement, then the live ones, which the pointers really connect.  A node that
an enqueuer links to a retired one is in neither part; such nodes are collected in `lost`.

`Shape` is the invariant of the memory.  It speaks about a `View` of the state in which the owner
and the other threads are agents of the same kind, so that a step of `SharedObj_create` or
`enqueueLockfree` is treated once for all of them.
-/

namespace PoserCore.CommandQueue

open Lib SharedObj

/-- The function on nodes an agent is in. -/
inductive Work
  | none
  | create (pc : CreatePc)
  | link (node : Obj) (pc : LinkPc)

/-- The object that `SharedObj_create` has allocated. -/
def createSelf : CreatePc → Option Obj
  | .storeNext self _ | .storeCreated self _ | .storeRetired self _ => some self
  | _ => none

/-- The object whose `next` word `SharedObj_create` has initialised. -/
def createClean : CreatePc → Option Obj
  | .storeCreated self _ | .storeRetired self _ => some self
  | _ => none

/-- The link to the new node is written. -/
def LinkPc.linked : LinkPc → Bool
  | .casLast _ | .release _ => true
  | _ => false

/-- The node that is the agent's own: allocated, and not linked yet. -/
def Work.held : Work → Option Obj
  | .none => Option.none
  | .create pc => createSelf pc
  | .link node pc => if pc.linked then Option.none else some node

/-- The node that is the agent's own and points nowhere. -/
def Work.clean : Work → Option Obj
  | .none => Option.none
  | .create pc => createClean pc
  | .link node pc => if pc.linked then Option.none else some node

theorem Work.held_of_clean {w : Work} {o : Obj} (h : w.clean = some o) : w.held = some o := by
  cases w with
  | none => cases h
  | create pc => cases pc <;> first | exact h | cases h
  | link node pc => exact h

/-- The object `SharedObj_retire` has not put into the list yet. -/
def retiring : RetirePc → Option Obj
  | .loadEpoch so | .storeRetired so _ | .storeNext so => some so
  | _ => none

/-- The objects a sweep has its hands on. -/
def sweeping : RetirePc → List Obj
  | .loadNext _ p i => i :: p.toList
  | .loadCreated _ p i n | .loadRetired _ p i n _ | .loadRes _ p i n _ _ _ | .drop _ p i n =>
      i :: (p.toList ++ n.toList)
  | _ => []

/-- What the shape of the queue depends on.  The agent `none` is the owner; `retired` is its list
of retired objects and `rpc` its place in `SharedObj_retire`. -/
structure View (Tid : Type) where
  next : Obj → Option Obj
  fresh : Obj
  last : Obj
  dead : Obj → Bool
  work : Option Tid → Work
  retired : Option Obj
  rpc : Option RetirePc

/-- The nodes that were linked: retired, live, and linked to a retired one. -/
structure Chain where
  dead : List Obj
  live : List Obj
  lost : List Obj

/-- The nodes that were linked and are not live. -/
def Chain.off (c : Chain) : List Obj := c.dead ++ c.lost

/-- What `enqueueLockfree` knows about `q->last` and the node it read from it. -/
def LinkOk (next : Obj → Option Obj) (last : Obj) (c : Chain) (node : Obj) : LinkPc → Prop
  | .reserve (.check _ p) | .loadNext p | .casNext p => p ∈ c.dead ∨ After c.live p last
  | .casHelp p n => p ∈ c.dead ∨ After c.live p last ∧ next p = some n
  | .casLast p => p ∈ c.dead ∨ After c.live p last ∧ next p = some node
  | _ => True

structure Shape {Tid : Type} (v : View Tid) (c : Chain) : Prop where
  links : Links v.next c.live
  nodup : (c.live ++ c.off).Nodup
  old : ∀ o ∈ c.live ++ c.off, o < v.fresh
  last : v.last ∈ c.live
  dead : ∀ o, v.dead o = true ↔ o ∈ c.dead
  off : ∀ o ∈ c.off, v.rpc.bind retiring ≠ some o → ∀ n, v.next o = some n → n ∈ c.off
  retired : ∀ o, v.retired = some o → o ∈ c.off
  retiring : ∀ o, v.rpc.bind retiring = some o → o ∈ c.off
  sweeping : ∀ pc, v.rpc = some pc → ∀ o ∈ sweeping pc, o ∈ c.off
  held : ∀ a o, (v.work a).held = some o → o < v.fresh ∧ o ∉ c.live ++ c.off
  own : ∀ a b o, (v.work a).held = some o → (v.work b).held = some o → a = b
  clean : ∀ a o, (v.work a).clean = some o → v.next o = none
  link : ∀ a node pc, v.work a = .link node pc → LinkOk v.next v.last c node pc

namespace Shape

variable {Tid : Type} [DecidableEq Tid] {v : View Tid} {c : Chain}

omit [DecidableEq Tid] in
theorem not_off (h : Shape v c) {o : Obj} (ho : o ∈ c.live) : o ∉ c.off :=
  fun hoff => List.disjoint_of_nodup_append h.nodup ho hoff

/-- An agent goes on, and its node stays what it was. -/
theorem move (h : Shape v c) (a : Option Tid) (w : Work)
    (hheld : ∀ o, w.held = some o → (v.work a).held = some o)
    (hclean : ∀ o, w.clean = some o → v.next o = none)
    (hlink : ∀ node pc, w = .link node pc → LinkOk v.next v.last c node pc) :
    Shape { v with work := Function.update v.work a w } c := by
  have hheld' : ∀ b o, (Function.update v.work a w b).held = some o → (v.work b).held = some o := by
    intro b o hb
    by_cases he : b = a
    · subst he
      rw [Function.update_self] at hb
      exact hheld o hb
    · rwa [Function.update_of_ne he] at hb
  refine { h with
    held := fun b o hb => h.held b o (hheld' b o hb)
    own := ?_
    clean := ?_
    link := ?_ }
  · exact fun b b' o hb hb' => h.own b b' o (hheld' b o hb) (hheld' b' o hb')
  · intro b o hb
    by_cases he : b = a
    · subst he
      simp only [Function.update_self] at hb
      exact hclean o hb
    · simp only [Function.update_of_ne he] at hb
      exact h.clean b o hb
  · intro b node pc hb
    by_cases he : b = a
    · subst he
      simp only [Function.update_self] at hb
      exact hlink node pc hb
    · simp only [Function.update_of_ne he] at hb
      exact h.link b node pc hb

/-- An agent that has no node of its own allocates one. -/
theorem malloc (h : Shape v c) (a : Option Tid) (created : ℕ) :
    Shape { v with fresh := v.fresh + 1,
                   work := Function.update v.work a (.create (.storeNext v.fresh created)) } c := by
  have hnew : v.fresh ∉ c.live ++ c.off := fun hm => Nat.lt_irrefl _ (h.old _ hm)
  refine { h with
    old := fun o ho => Nat.lt_succ_of_lt (h.old o ho)
    held := ?_
    own := ?_
    clean := ?_
    link := ?_ }
  · intro b o hb
    by_cases he : b = a
    · subst he
      obtain rfl : v.fresh = o := by simpa [Work.held, createSelf] using hb
      exact ⟨Nat.lt_succ_self _, hnew⟩
    · simp only [Function.update_of_ne he] at hb
      obtain ⟨hlt, hmem⟩ := h.held b o hb
      exact ⟨Nat.lt_succ_of_lt hlt, hmem⟩
  · -- a node that some agent already holds is older than the new one
    have hne : ∀ b, (v.work b).held ≠ some v.fresh := fun b hb => Nat.lt_irrefl _ (h.held b _ hb).1
    intro b b' o hb hb'
    by_cases he : b = a <;> by_cases he' : b' = a
    · rw [he, he']
    · simp only [he, Function.update_self, Function.update_of_ne he', Work.held, createSelf,
        Option.some.injEq] at hb hb'
      exact absurd (hb ▸ hb') (hne b')
    · simp only [he', Function.update_self, Function.update_of_ne he, Work.held, createSelf,
        Option.some.injEq] at hb hb'
      exact absurd (hb' ▸ hb) (hne b)
    · simp only [Function.update_of_ne he, Function.update_of_ne he'] at hb hb'
      exact h.own b b' o hb hb'
  · intro b o hb
    by_cases he : b = a
    · subst he
      simp [Work.clean, createClean] at hb
    · simp only [Function.update_of_ne he] at hb
      exact h.clean b o hb
  · intro b node pc hb
    by_cases he : b = a
    · subst he
      simp at hb
    · simp only [Function.update_of_ne he] at hb
      exact h.link b node pc hb

end Shape

theorem LinkOk.mono {next next' : Obj → Option Obj} {last last' : Obj} {c c' : Chain} {node : Obj}
    {pc : LinkPc} (h : LinkOk next last c node pc) (hdead : ∀ p ∈ c.dead, p ∈ c'.dead)
    (hafter : ∀ p, After c.live p last → p ∈ c'.dead ∨ After c'.live p last')
    (hnext : ∀ p n, p ∈ c.live → next p = some n → p ∈ c'.dead ∨ next' p = some n) :
    LinkOk next' last' c' node pc := by
  have hpos : ∀ p, p ∈ c.dead ∨ After c.live p last → p ∈ c'.dead ∨ After c'.live p last' :=
    fun p hp => hp.elim (fun hp => .inl (hdead p hp)) (hafter p)
  have hptr : ∀ p n, p ∈ c.dead ∨ After c.live p last ∧ next p = some n →
      p ∈ c'.dead ∨ After c'.live p last' ∧ next' p = some n := by
    rintro p n (hp | ⟨hp, hn⟩)
    · exact .inl (hdead p hp)
    · rcases hafter p hp with hd | ha
      · exact .inl hd
      · exact (hnext p n hp.mem hn).imp id fun hn' => ⟨ha, hn'⟩
  cases pc with
  | reserve pc =>
    cases pc with
    | check ep p => exact hpos p h
    | _ => trivial
  | loadNext p | casNext p => exact hpos p h
  | casHelp p n => exact hptr p n h
  | casLast p => exact hptr p node h
  | release pc => trivial

namespace Shape

variable {Tid : Type} [DecidableEq Tid] {v : View Tid} {c : Chain}

omit [DecidableEq Tid] in
/-- A write to a node an agent holds, or to one that is no longer live. -/
theorem write (h : Shape v c) (o : Obj) (n : Option Obj) (hlive : o ∉ c.live)
    (hoff : o ∈ c.off → ∀ x, n = some x → x ∈ c.off)
    (hclean : ∀ a, (v.work a).clean = some o → n = none) :
    Shape { v with next := Function.update v.next o n } c := by
  have hframe : ∀ x ∈ c.live, Function.update v.next o n x = v.next x := by
    intro x hx
    exact Function.update_of_ne (ne_of_mem_of_not_mem hx hlive) ..
  refine { h with links := h.links.congr hframe, off := ?_, clean := ?_, link := ?_ }
  · intro x hx hr y hy
    by_cases he : x = o
    · subst he
      simp only [Function.update_self] at hy
      exact hoff hx y hy
    · simp only [Function.update_of_ne he] at hy
      exact h.off x hx hr y hy
  · intro a x ha
    by_cases he : x = o
    · subst he
      simp only [Function.update_self]
      exact hclean a ha
    · simp only [Function.update_of_ne he]
      exact h.clean a x ha
  · exact fun a node pc ha => (h.link a node pc ha).mono (fun _ hp => hp) (fun _ hp => .inr hp)
      fun p n hp hn => .inr ((hframe p hp).trans hn)

/-- The link to a new node is written, and the node becomes part of the chain. -/
theorem publish (h : Shape v c) {c' : Chain} {a : Option Tid} {node p : Obj}
    (hw : v.work a = .link node (.casNext p)) (hn : v.next p = none)
    (hlinks : Links (Function.update v.next p (some node)) c'.live)
    (hperm : (c'.live ++ c'.off).Perm (node :: (c.live ++ c.off))) (hdead : c'.dead = c.dead)
    (hoff : c.off ⊆ c'.off) (hoff' : ∀ o ∈ c'.off, o ∈ c.off ∨ o = node)
    (hp : p ∈ c'.off → node ∈ c'.off) (hafter : ∀ q, After c.live q v.last → After c'.live q v.last)
    (hlast : v.last ∈ c'.live) :
    Shape { v with next := Function.update v.next p (some node),
                   work := Function.update v.work a (.link node (.casLast p)) } c' := by
  have hheld : (v.work a).held = some node := by rw [hw]; rfl
  obtain ⟨hlt, hfresh⟩ := h.held a node hheld
  have hnode : v.next node = none := h.clean a node (by rw [hw]; rfl)
  have hothers : ∀ b, b ≠ a → ∀ o, (v.work b).held = some o → o ≠ node := by
    rintro b hb o ho rfl
    exact hb (h.own b a o ho hheld)
  have hpos : p ∈ c'.dead ∨ After c'.live p v.last := by
    rw [hdead]
    have hlink := h.link a node _ hw
    exact hlink.imp id (hafter p)
  have hmem : p ∈ c.live ++ c.off := by
    have hlink := h.link a node _ hw
    rcases hlink with hd | ha
    · exact List.mem_append_right _ (List.mem_append_left _ hd)
    · exact List.mem_append_left _ ha.mem
  -- the agent no longer holds the node, the others hold what they held
  have hholds : ∀ b o, (Function.update v.work a (.link node (.casLast p)) b).held = some o →
      b ≠ a ∧ (v.work b).held = some o := by
    intro b o hb
    by_cases he : b = a
    · simp [he, Work.held, LinkPc.linked] at hb
    · rw [Function.update_of_ne he] at hb
      exact ⟨he, hb⟩
  refine
    { links := hlinks
      nodup := hperm.nodup_iff.2 (List.nodup_cons.2 ⟨hfresh, h.nodup⟩)
      old := ?_
      last := hlast
      dead := by rw [hdead]; exact h.dead
      off := ?_
      retired := fun o ho => hoff (h.retired o ho)
      retiring := fun o ho => hoff (h.retiring o ho)
      sweeping := fun pc hpc o ho => hoff (h.sweeping pc hpc o ho)
      held := ?_
      own := fun b b' o hb hb' => h.own b b' o (hholds b o hb).2 (hholds b' o hb').2
      clean := ?_
      link := ?_ }
  · intro o ho
    rcases List.mem_cons.1 (hperm.mem_iff.1 ho) with rfl | ho
    · exact hlt
    · exact h.old o ho
  · intro o ho hr n hon
    by_cases he : o = p
    · subst he
      simp only [Function.update_self, Option.some.injEq] at hon
      exact hon ▸ hp ho
    · simp only [Function.update_of_ne he] at hon
      rcases hoff' o ho with ho | rfl
      · exact hoff (h.off o ho hr n hon)
      · rw [hnode] at hon
        cases hon
  · intro b o hb
    obtain ⟨hba, hb⟩ := hholds b o hb
    obtain ⟨ho, hm⟩ := h.held b o hb
    refine ⟨ho, fun hm' => ?_⟩
    rcases List.mem_cons.1 (hperm.mem_iff.1 hm') with he | hm'
    · exact hothers b hba o hb he
    · exact hm hm'
  · intro b o hb
    have hb' := hholds b o (Work.held_of_clean hb)
    simp only [Function.update_of_ne hb'.1] at hb
    have hop : o ≠ p := fun e => (h.held b o hb'.2).2 (e ▸ hmem)
    simp only [Function.update_of_ne hop]
    exact h.clean b o hb
  · intro b node' pc hb
    by_cases he : b = a
    · subst he
      simp only [Function.update_self, Work.link.injEq] at hb
      obtain ⟨rfl, rfl⟩ := hb
      exact hpos.imp id fun ha => ⟨ha, Function.update_self ..⟩
    · simp only [Function.update_of_ne he] at hb
      refine (h.link b node' pc hb).mono (fun _ hq => hdead ▸ hq) (fun q hq => .inr (hafter q hq)) ?_
      intro q n hq hqn
      refine .inr ?_
      have hqp : q ≠ p := by
        rintro rfl
        rw [hn] at hqn
        cases hqn
      simpa only [Function.update_of_ne hqp] using hqn

/-- The new node is linked to the end of the queue. -/
theorem link_live (h : Shape v c) {a : Option Tid} {node p : Obj}
    (hw : v.work a = .link node (.casNext p)) (hp : p ∈ c.live) (hn : v.next p = none) :
    Shape { v with next := Function.update v.next p (some node),
                   work := Function.update v.work a (.link node (.casLast p)) }
      { c with live := c.live ++ [node] } := by
  have hfresh := (h.held a node (by rw [hw]; rfl)).2
  have hnode : v.next node = none := h.clean a node (by rw [hw]; rfl)
  obtain ⟨l, hl⟩ := h.links.eq_append_of_none hp hn
  have hlinks : Links (Function.update v.next p (some node)) (c.live ++ [node]) := by
    rw [hl]
    refine (hl ▸ h.links).snoc ?_ ?_ hnode
    · exact hl ▸ (List.nodup_append.1 h.nodup).1
    · exact fun hm => hfresh (List.mem_append_left _ (hl ▸ hm))
  refine h.publish hw hn hlinks ?_ rfl (fun _ ho => ho) (fun _ ho => .inl ho) ?_ ?_ ?_
  · rw [List.append_assoc]
    exact List.perm_middle
  · exact fun ho => absurd ho (h.not_off hp)
  · exact fun q hq => hq.append [node]
  · exact List.mem_append_left _ h.last

/-- The new node is linked to a retired one, where the owner will not look for it. -/
theorem link_lost (h : Shape v c) {a : Option Tid} {node p : Obj}
    (hw : v.work a = .link node (.casNext p)) (hp : p ∈ c.dead) (hn : v.next p = none) :
    Shape { v with next := Function.update v.next p (some node),
                   work := Function.update v.work a (.link node (.casLast p)) }
      { c with lost := c.lost ++ [node] } := by
  have hlive : p ∉ c.live := fun hl => h.not_off hl (List.mem_append_left _ hp)
  have hlinks : Links (Function.update v.next p (some node)) c.live := by
    refine h.links.congr fun x hx => Function.update_of_ne ?_ ..
    exact ne_of_mem_of_not_mem hx hlive
  have hoff : ∀ o, o ∈ c.dead ++ (c.lost ++ [node]) ↔ o ∈ c.off ∨ o = node := by
    intro o
    simp [Chain.off, or_assoc]
  refine h.publish hw hn hlinks ?_ rfl (fun o ho => (hoff o).2 (.inl ho)) (fun o => (hoff o).1) ?_
    (fun _ hq => hq) h.last
  · simp only [Chain.off, ← List.append_assoc]
    exact List.perm_append_singleton ..
  · exact fun _ => (hoff node).2 (.inr rfl)

omit [DecidableEq Tid] in
/-- `q->last` follows the pointer of the node it points to. -/
theorem advance (h : Shape v c) {n : Obj} (hn : v.next v.last = some n) :
    Shape { v with last := n } c := by
  refine { h with last := h.links.mem_next h.last hn, link := ?_ }
  intro b node pc hb
  refine (h.link b node pc hb).mono (fun _ hq => hq) (fun q hq => ?_) fun _ _ _ hq => .inr hq
  exact .inr (hq.advance h.links hn)

omit [DecidableEq Tid] in
/-- The head of the queue is passed to `SharedObj_retire`. -/
theorem retire (h : Shape v c) {o : Obj} {l : List Obj} (hl : c.live = o :: l) (hlast : v.last ∈ l)
    (hrpc : v.rpc = none) :
    Shape { v with dead := Function.update v.dead o true, rpc := some (.loadEpoch o) }
      { c with dead := c.dead ++ [o], live := l } := by
  have hnil : l ≠ [] := List.ne_nil_of_mem hlast
  have hlinks : Links v.next (o :: l) := hl ▸ h.links
  have hperm : (l ++ (c.dead ++ [o] ++ c.lost)).Perm (c.live ++ c.off) := by
    rw [hl, Chain.off, List.append_assoc c.dead, ← List.append_assoc l]
    exact List.perm_middle.trans (by simp)
  have hoff : ∀ x, x ∈ c.off → x ∈ c.dead ++ [o] ++ c.lost := by
    intro x hx
    rcases List.mem_append.1 hx with hx | hx
    · exact List.mem_append_left _ (List.mem_append_left _ hx)
    · exact List.mem_append_right _ hx
  have ho : o ∈ c.dead ++ [o] ++ c.lost := by simp
  refine
    { links := hlinks.tail hnil
      nodup := hperm.nodup_iff.2 h.nodup
      old := fun x hx => h.old x (hperm.mem_iff.1 hx)
      last := hlast
      dead := ?_
      off := ?_
      retired := fun x hx => hoff x (h.retired x hx)
      retiring := ?_
      sweeping := ?_
      held := ?_
      own := h.own
      clean := h.clean
      link := ?_ }
  · intro x
    by_cases hx : x = o
    · simp [hx]
    · simp [h.dead x, hx]
  · intro x hx hr n hn
    have hxo : x ≠ o := fun e => hr (by simp [e, CommandQueue.retiring])
    have hx' : x ∈ c.off := by
      simpa [Chain.off, hxo] using hx
    exact hoff n (h.off x hx' (by simp [hrpc]) n hn)
  · intro x hx
    obtain rfl : o = x := by simpa [CommandQueue.retiring] using hx
    exact ho
  · intro pc hpc x hx
    obtain rfl : RetirePc.loadEpoch o = pc := by simpa using hpc
    simp [CommandQueue.sweeping] at hx
  · intro a x ha
    obtain ⟨hlt, hm⟩ := h.held a x ha
    exact ⟨hlt, fun hx => hm (hperm.mem_iff.1 hx)⟩
  · intro a node pc ha
    refine (h.link a node pc ha).mono (fun q hq => List.mem_append_left _ hq) ?_
      fun _ _ _ hn => .inr hn
    intro q hq
    rw [hl] at hq
    exact hq.tail.imp (fun e => by simp [e]) id

omit [DecidableEq Tid] in
/-- `SharedObj_retire` goes on without writing to the memory. -/
theorem retire_move (h : Shape v c) (r : Option RetirePc)
    (hr : r.bind CommandQueue.retiring = v.rpc.bind CommandQueue.retiring)
    (hs : ∀ pc, r = some pc → ∀ o ∈ CommandQueue.sweeping pc, o ∈ c.off) :
    Shape { v with rpc := r } c :=
  { h with
    off := fun o ho hne => h.off o ho (hr ▸ hne)
    retiring := fun o ho => h.retiring o (hr ▸ ho)
    sweeping := hs }

end Shape

theorem retiring_sweep (nt : ℕ) (p n : Option Obj) : (sweep nt p n).bind retiring = none := by
  cases n <;> rfl

theorem sweeping_sweep {nt : ℕ} {p n : Option Obj} {pc : RetirePc} (h : sweep nt p n = some pc) :
    ∀ o ∈ sweeping pc, p = some o ∨ n = some o := by
  cases n with
  | none => cases h
  | some i =>
    obtain rfl := Option.some.inj h
    intro o ho
    simpa [sweeping, eq_comm, or_comm] using ho

theorem retiring_scan (nt : ℕ) (p : Option Obj) (i : Obj) (n : Option Obj) (creat retd t : ℕ) :
    retiring (scan nt p i n creat retd t) = none := by
  unfold scan
  split <;> rfl

theorem sweeping_scan (nt : ℕ) (p : Option Obj) (i : Obj) (n : Option Obj) (creat retd t : ℕ) :
    sweeping (scan nt p i n creat retd t) = i :: (p.toList ++ n.toList) := by
  unfold scan
  split <;> rfl

namespace Shape

variable {Tid : Type} [DecidableEq Tid] {v : View Tid} {c : Chain}

omit [DecidableEq Tid] in
/-- The retired object becomes the head of the list of its thread. -/
theorem retire_push (h : Shape v c) {so : Obj} (hpc : v.rpc = some (.storeNext so)) :
    Shape { v with next := Function.update v.next so v.retired, retired := some so,
                   rpc := some .count } c := by
  have hoff : so ∈ c.off := h.retiring so (by rw [hpc]; rfl)
  have hw := h.write so v.retired (fun hl => h.not_off hl hoff) (fun _ => h.retired)
    fun a ha => absurd (List.mem_append_right _ hoff) (h.held a so (Work.held_of_clean ha)).2
  refine { hw with off := ?_, retired := ?_, retiring := ?_, sweeping := ?_ }
  · intro o ho _ n hn
    by_cases he : o = so
    · subst he
      simp only [Function.update_self] at hn
      exact h.retired n hn
    · refine hw.off o ho ?_ n hn
      simp [hpc, CommandQueue.retiring, Ne.symm he]
  · exact fun o ho => Option.some.inj ho ▸ hoff
  · rintro o ⟨⟩
  · rintro pc ⟨⟩ o ho
    simp [CommandQueue.sweeping] at ho

omit [DecidableEq Tid] in
/-- One access of `SharedObj_retire`. -/
theorem retire_step (h : Shape v c) {P : SharedObj.Params} {m : Mem} {l : Local} {pc : RetirePc}
    (hm : m.next = v.next) (hl : l.retired = v.retired) (hpc : v.rpc = some pc) :
    Shape { v with next := (pc.step P m l).1.next, retired := (pc.step P m l).2.1.retired,
                   rpc := (pc.step P m l).2.2 } c := by
  have hsw := h.sweeping pc hpc
  cases pc with
  | loadEpoch so =>
    rw [RetirePc.step, hm, hl]
    exact h.retire_move _ (by rw [hpc]; rfl) (by rintro pc ⟨⟩; exact hsw)
  | storeRetired so ep =>
    simp only [RetirePc.step]
    rw [hm, hl]
    exact h.retire_move _ (by rw [hpc]; rfl) (by rintro pc ⟨⟩; exact hsw)
  | storeNext so =>
    simp only [RetirePc.step]
    rw [hm, hl]
    exact h.retire_push hpc
  | count =>
    rw [RetirePc.step]
    split <;> simp only [hm, hl]
    · exact h.retire_move _ (by rw [hpc]; rfl) (by rintro pc ⟨⟩; exact hsw)
    · exact h.retire_move _ (by rw [hpc]; rfl) (by rintro pc ⟨⟩)
  | loadNthr =>
    rw [RetirePc.step, hm, hl]
    refine h.retire_move _ (by rw [hpc, retiring_sweep]; rfl) fun pc' hpc' o ho => ?_
    exact h.retired o ((sweeping_sweep hpc' o ho).resolve_left nofun)
  | loadNext nt p i =>
    rw [RetirePc.step, hm, hl]
    refine h.retire_move _ (by rw [hpc]; rfl) ?_
    rintro pc ⟨⟩ o ho
    simp only [CommandQueue.sweeping, List.mem_cons, List.mem_append, Option.mem_toList] at ho hsw
    rcases ho with rfl | ho | ho
    · exact hsw _ (.inl rfl)
    · exact hsw _ (.inr ho)
    · exact h.off i (hsw _ (.inl rfl)) (by simp [hpc, CommandQueue.retiring]) o ho
  | loadCreated nt p i n =>
    rw [RetirePc.step, hm, hl]
    exact h.retire_move _ (by rw [hpc]; rfl) (by rintro pc ⟨⟩; exact hsw)
  | loadRetired nt p i n creat =>
    rw [RetirePc.step, hm, hl]
    refine h.retire_move _ (by rw [hpc]; exact retiring_scan ..) ?_
    rintro pc ⟨⟩
    rw [sweeping_scan]
    exact hsw
  | loadRes nt p i n creat retd t =>
    simp only [CommandQueue.sweeping, List.mem_cons, List.mem_append, Option.mem_toList] at hsw
    rw [RetirePc.step]
    split <;> simp only [hm, hl]
    · refine h.retire_move _ (by rw [hpc, retiring_sweep]; rfl) fun pc' hpc' o ho => ?_
      rcases sweeping_sweep hpc' o ho with ho | ho
      · exact hsw _ (.inl (Option.some.inj ho).symm)
      · exact hsw _ (.inr (.inr ho))
    · refine h.retire_move _ (by rw [hpc]; exact retiring_scan ..) ?_
      rintro pc ⟨⟩
      rw [sweeping_scan]
      simpa using hsw
  | drop nt p i n =>
    simp only [CommandQueue.sweeping, List.mem_cons, List.mem_append, Option.mem_toList] at hsw
    cases p with
    | none =>
      simp only [RetirePc.step, hm]
      have hm' := h.retire_move (sweep nt none n) (by rw [hpc, retiring_sweep]; rfl) ?_
      · exact { hm' with retired := fun o ho => hsw _ (.inr (.inr ho)) }
      · intro pc' hpc' o ho
        exact hsw _ (.inr (.inr ((sweeping_sweep hpc' o ho).resolve_left nofun)))
    | some p =>
      have hp : p ∈ c.off := hsw _ (.inr (.inl rfl))
      simp only [RetirePc.step, hm, hl]
      have hw := h.write p n (fun hlive => h.not_off hlive hp) (fun _ x hx => hsw _ (.inr (.inr hx)))
        fun a ha => absurd (List.mem_append_right _ hp) (h.held a p (Work.held_of_clean ha)).2
      refine hw.retire_move (sweep nt (some p) n) (by simp [retiring_sweep, hpc,
        CommandQueue.retiring]) fun pc' hpc' o ho => ?_
      rcases sweeping_sweep hpc' o ho with ho | ho
      · exact hsw _ (.inr (.inl ho))
      · exact hsw _ (.inr (.inr ho))

end Shape

/-- What `SharedObj_create` is followed by. -/
def Work.afterCreate : CreatePc ⊕ Obj → Work
  | .inl pc => .create pc
  | .inr node => .link node .start

/-- What an access of `enqueueLockfree` is followed by. -/
def Work.afterLink (node : Obj) : Option LinkPc → Work
  | some pc => .link node pc
  | Option.none => .none

/-- How the chain changes in an access of `enqueueLockfree`. -/
inductive Chain.Link (next : Obj → Option Obj) (c : Chain) (node : Obj) : LinkPc → Chain → Prop
  | same {pc : LinkPc} (h : ∀ p, pc = .casNext p → next p ≠ none) : Chain.Link next c node pc c
  | live {p : Obj} (hp : p ∈ c.live) (hn : next p = none) :
      Chain.Link next c node (.casNext p) { c with live := c.live ++ [node] }
  | lost {p : Obj} (hp : p ∈ c.dead) (hn : next p = none) :
      Chain.Link next c node (.casNext p) { c with lost := c.lost ++ [node] }

namespace Shape

variable {Tid : Type} [DecidableEq Tid] {v : View Tid} {c : Chain}

/-- One access of `SharedObj_create`. -/
theorem create_step (h : Shape v c) {P : SharedObj.Params} {m : Mem} {l : Local} {pc : CreatePc}
    {a : Option Tid} (hm : m.next = v.next) (hf : m.fresh = v.fresh) (hw : v.work a = .create pc) :
    Shape { v with next := (pc.step P m l).1.next, fresh := (pc.step P m l).1.fresh,
                   work := Function.update v.work a (.afterCreate (pc.step P m l).2.2) } c := by
  cases pc with
  | count =>
    rw [CreatePc.step]
    split <;> simp only [hm, hf] <;> exact h.move a _ nofun nofun nofun
  | addEpoch | loadEpoch =>
    simp only [CreatePc.step, Mem.malloc, hm, hf]
    exact h.malloc a _
  | storeNext self created =>
    simp only [CreatePc.step, hm, hf]
    have hheld := h.held a self (by rw [hw]; rfl)
    have hw' := h.write self none (fun hl => hheld.2 (List.mem_append_left _ hl)) nofun
      fun _ _ => rfl
    refine hw'.move a _ ?_ ?_ nofun
    · rw [hw]
      exact fun _ => id
    · rintro o ⟨⟩
      exact Function.update_self ..
  | storeCreated self created | storeRetired self created =>
    simp only [CreatePc.step, hm, hf]
    refine h.move a _ ?_ ?_ ?_
    · rw [hw]
      exact fun _ => id
    · exact fun o ho => h.clean a o (by rw [hw]; exact ho)
    · rintro node pc ⟨⟩
      try trivial

omit [DecidableEq Tid] in
/-- In `enqueueLockfree` the node `q->last` points to only moves towards the end of the queue. -/
theorem link_last (h : Shape v c) {m : Mem} {l : Local} {node : Obj} {pc : LinkPc} {a : Option Tid}
    (hw : v.work a = .link node pc) : (pc.step m l v.last node).2.1 = v.last ∨
      v.next v.last = some (pc.step m l v.last node).2.1 := by
  have hlink := h.link a node pc hw
  cases pc with
  | reserve pc =>
    left
    rw [LinkPc.step]
    split <;> rfl
  | loadNext p | casNext p =>
    left
    rw [LinkPc.step]
    split <;> rfl
  | casHelp p n | casLast p =>
    rw [LinkPc.step]
    by_cases hlast : v.last = p
    · right
      rcases hlink with hd | ⟨-, hn⟩
      · exact absurd (List.mem_append_left _ hd) (h.not_off (hlast ▸ h.last))
      · simpa [hlast] using hn
    · simp [hlast]
  | release pc =>
    left
    rw [LinkPc.step]
    split <;> rfl

/-- One access of `enqueueLockfree`. -/
theorem link_step (h : Shape v c) {m : Mem} {l : Local} {node : Obj} {pc : LinkPc} {a : Option Tid}
    (hm : m.next = v.next) (hw : v.work a = .link node pc) :
    ∃ c', c.Link v.next node pc c' ∧
      Shape { v with next := (pc.step m l v.last node).1.next, last := (pc.step m l v.last node).2.1,
                     work := Function.update v.work a
                       (.afterLink node (pc.step m l v.last node).2.2) } c' := by
  have hlink := h.link a node pc hw
  have hmove : ∀ pc', (pc.linked → pc'.linked) → LinkOk v.next v.last c node pc' →
      Shape { v with work := Function.update v.work a (.link node pc') } c := by
    intro pc' hpc' hok
    have hheld : ∀ o, (Work.link node pc').held = some o → (v.work a).held = some o := by
      intro o ho
      rw [hw]
      simp only [Work.held] at ho ⊢
      cases hp : pc'.linked <;> cases hq : pc.linked <;> simp_all
    refine h.move a _ hheld (fun o ho => h.clean a o ?_) ?_
    · have := hheld o (Work.held_of_clean ho)
      rw [hw] at this ⊢
      exact this
    · rintro node pc ⟨⟩
      exact hok
  cases pc with
  | reserve pc =>
    refine ⟨c, .same nofun, ?_⟩
    cases pc with
    | loadEpoch | store ep =>
      simp only [LinkPc.step, ReservePc.step, hm]
      exact hmove _ id trivial
    | read ep =>
      simp only [LinkPc.step, ReservePc.step, hm]
      exact hmove _ id (.inr (.refl h.last))
    | check ep p =>
      simp only [LinkPc.step, ReservePc.step]
      split <;> rename_i heq <;> split at heq <;> cases heq <;> simp only [hm]
      · exact hmove _ id trivial
      · exact hmove _ id hlink
  | loadNext p =>
    refine ⟨c, .same nofun, ?_⟩
    simp only [LinkPc.step]
    cases hn : m.next p with
    | none =>
      simp only [hm]
      exact hmove _ id hlink
    | some n =>
      simp only [hm]
      refine hmove _ id (hlink.imp id fun ha => ⟨ha, ?_⟩)
      rw [← hm, hn]
  | casNext p =>
    simp only [LinkPc.step]
    cases hn : m.next p with
    | some n =>
      simp only [hm]
      exact ⟨c, .same (by rintro p ⟨⟩; simp [← hm, hn]), hmove .start id trivial⟩
    | none =>
      rw [hm] at hn
      simp only [hm]
      rcases hlink with hd | ha
      · exact ⟨_, .lost hd hn, h.link_lost hw hd hn⟩
      · exact ⟨_, .live ha.mem hn, h.link_live hw ha.mem hn⟩
  | casHelp p n =>
    refine ⟨c, .same nofun, ?_⟩
    simp only [LinkPc.step, hm]
    have hs := hmove .start id trivial
    rcases h.link_last (m := m) (l := l) hw with he | hn
    · simp only [LinkPc.step] at he
      rw [he]
      exact hs
    · exact hs.advance hn
  | casLast p =>
    refine ⟨c, .same nofun, ?_⟩
    simp only [LinkPc.step, hm]
    have hs := hmove (.release .loadEpoch) id trivial
    rcases h.link_last (m := m) (l := l) hw with he | hn
    · simp only [LinkPc.step] at he
      rw [he]
      exact hs
    · exact hs.advance hn
  | release pc =>
    refine ⟨c, .same nofun, ?_⟩
    cases pc with
    | loadEpoch =>
      simp only [LinkPc.step, ReleasePc.step, hm]
      exact hmove _ id trivial
    | store ep =>
      simp only [LinkPc.step, ReleasePc.step, hm]
      exact h.move a .none nofun nofun nofun

end Shape

end PoserCore.CommandQueue
