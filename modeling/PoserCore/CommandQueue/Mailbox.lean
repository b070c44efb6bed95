import PoserCore.CommandQueue.Locked

/-!
# The locked command queue is a mailbox

The nodes of the queue and those that `runCommands` took are two chains in the heap, and together with
the nodes that threads have allocated and not yet linked they are all that is in use (`Store`).  So no
access faults and each node is freed once, and for the threads and the owner the queue is a mailbox
(`implements_mailbox`).
-/

namespace PoserCore.CommandQueue.Locked

open Lib

variable {Tid Cmd : Type}

/-! ## The heap -/

def nextOf (heap : Heap Cmd) (a : Addr) : Option Addr := (heap a).bind Node.next

def cmdOf (heap : Heap Cmd) (a : Addr) : Option Cmd := (heap a).map Node.cmd

theorem nextOf_setNext (heap : Heap Cmd) {a : Addr} (h : (heap a).isSome) (next : Option Addr) :
    nextOf (setNext heap a next) = Function.update (nextOf heap) a next := by
  obtain ⟨n, hn⟩ := Option.isSome_iff_exists.1 h
  funext b
  by_cases hb : b = a
  · subst hb
    simp [nextOf, setNext, hn]
  · simp [nextOf, setNext, hb]

theorem cmdOf_setNext (heap : Heap Cmd) (a : Addr) (next : Option Addr) :
    cmdOf (setNext heap a next) = cmdOf heap := by
  funext b
  by_cases hb : b = a
  · subst hb
    cases hn : heap b <;> simp [cmdOf, setNext, hn]
  · simp [cmdOf, setNext, hb]

theorem isSome_setNext (heap : Heap Cmd) (a b : Addr) (next : Option Addr) :
    (setNext heap a next b).isSome = (heap b).isSome := by
  by_cases hb : b = a
  · subst hb
    simp [setNext]
  · simp [setNext, hb]

/-- The nodes `L` are in the queue and hold the commands `q`, the nodes `T` were taken by `runCommands`
and hold `cmds`, and `own t` is the node of a thread that it has not linked yet. -/
structure Store (heap : Heap Cmd) (own : Tid → Option (Cmd × Addr)) (L T : List Addr)
    (q cmds : List Cmd) : Prop where
  nodup : (L ++ T).Nodup
  queue : Linked (nextOf heap) L
  torun : Linked (nextOf heap) T
  queued : L.map (cmdOf heap) = q.map some
  taken : T.map (cmdOf heap) = cmds.map some
  used : ∀ a, (heap a).isSome ↔ a ∈ L ++ T ∨ ∃ t cmd, own t = some (cmd, a)
  mine : ∀ t cmd a, own t = some (cmd, a) → heap a = some ⟨none, cmd⟩ ∧ a ∉ L ++ T
  inj : ∀ t u cmd cmd' a, own t = some (cmd, a) → own u = some (cmd', a) → t = u

section Store

variable {heap : Heap Cmd} {own : Tid → Option (Cmd × Addr)} {L T : List Addr} {q cmds : List Cmd}
variable {t : Tid} {cmd : Cmd} {a : Addr}

theorem Store.isSome (h : Store heap own L T q cmds) (ha : a ∈ L ++ T) : (heap a).isSome :=
  (h.used a).2 (.inl ha)

theorem Store.notMem (h : Store heap own L T q cmds) (ha : heap a = none) : a ∉ L ++ T := by
  intro hm
  have := h.isSome hm
  rw [ha] at this
  cases this

theorem notMem_append (h : a ∉ L ++ T) : a ∉ L ∧ a ∉ T := by
  rwa [List.mem_append, not_or] at h

/-- The commands in a chain do not change where the nodes are left alone. -/
theorem map_cmdOf_congr {heap' : Heap Cmd} {l : List Addr} (h : ∀ x ∈ l, heap' x = heap x) :
    l.map (cmdOf heap') = l.map (cmdOf heap) :=
  List.map_congr_left fun x hx => by rw [cmdOf, cmdOf, h x hx]

theorem linked_congr {heap' : Heap Cmd} {l : List Addr} (hl : Linked (nextOf heap) l)
    (h : ∀ x ∈ l, heap' x = heap x) : Linked (nextOf heap') l :=
  hl.congr fun x hx => by rw [nextOf, nextOf, h x hx]

variable [DecidableEq Tid]

/-- A thread allocates its node. -/
theorem Store.malloc (h : Store heap own L T q cmds) (ht : own t = none) (ha : heap a = none) :
    Store (Function.update heap a (some ⟨none, cmd⟩)) (Function.update own t (some (cmd, a)))
      L T q cmds := by
  have hne : ∀ x ∈ L ++ T, x ≠ a := by
    rintro x hx rfl
    exact h.notMem ha hx
  have hsame : ∀ x ∈ L ++ T, Function.update heap a (some ⟨none, cmd⟩) x = heap x :=
    fun x hx => Function.update_of_ne (hne x hx) ..
  have hL : ∀ x ∈ L, Function.update heap a (some ⟨none, cmd⟩) x = heap x :=
    fun x hx => hsame x (List.mem_append_left _ hx)
  have hT : ∀ x ∈ T, Function.update heap a (some ⟨none, cmd⟩) x = heap x :=
    fun x hx => hsame x (List.mem_append_right _ hx)
  have hold : ∀ u c b, own u = some (c, b) → b ≠ a := by
    rintro u c b hu rfl
    rw [(h.mine u c b hu).1] at ha
    cases ha
  have hcases : ∀ u c b, Function.update own t (some (cmd, a)) u = some (c, b) →
      u = t ∧ c = cmd ∧ b = a ∨ u ≠ t ∧ own u = some (c, b) := by
    intro u c b hu
    by_cases hut : u = t
    · rw [hut, Function.update_self] at hu
      obtain ⟨rfl, rfl⟩ := Prod.mk.inj (Option.some.inj hu)
      exact .inl ⟨hut, rfl, rfl⟩
    · rw [Function.update_of_ne hut] at hu
      exact .inr ⟨hut, hu⟩
  constructor
  case nodup => exact h.nodup
  case queue => exact linked_congr h.queue hL
  case torun => exact linked_congr h.torun hT
  case queued => exact (map_cmdOf_congr hL).trans h.queued
  case taken => exact (map_cmdOf_congr hT).trans h.taken
  case used =>
    intro b
    by_cases hb : b = a
    · subst hb
      rw [Function.update_self]
      exact iff_of_true rfl (.inr ⟨t, cmd, Function.update_self ..⟩)
    · rw [Function.update_of_ne hb, h.used]
      refine or_congr_right ⟨?_, ?_⟩
      · rintro ⟨u, c, hu⟩
        have hut : u ≠ t := fun e => by simp [e, ht] at hu
        exact ⟨u, c, by rwa [Function.update_of_ne hut]⟩
      · rintro ⟨u, c, hu⟩
        rcases hcases u c b hu with ⟨-, -, hba⟩ | ⟨-, hu⟩
        · exact absurd hba hb
        · exact ⟨u, c, hu⟩
  case mine =>
    intro u c b hu
    rcases hcases u c b hu with ⟨-, rfl, rfl⟩ | ⟨-, hu⟩
    · exact ⟨Function.update_self .., h.notMem ha⟩
    · rw [Function.update_of_ne (hold u c b hu)]
      exact h.mine u c b hu
  case inj =>
    intro u v c c' b hu hv
    rcases hcases u c b hu with ⟨rfl, -, rfl⟩ | ⟨-, hu'⟩ <;>
      rcases hcases v c' _ hv with ⟨rfl, -, hb⟩ | ⟨-, hv'⟩
    · rfl
    · exact absurd rfl (hold v c' _ hv')
    · exact absurd hb (hold u c b hu')
    · exact h.inj u v c c' b hu' hv'

/-- The other threads keep their nodes when one gives up its own. -/
theorem own_update {u : Tid} {p : Cmd × Addr} (h : Function.update own t none u = some p) :
    u ≠ t ∧ own u = some p := by
  have hut : u ≠ t := fun e => by simp [e] at h
  exact ⟨hut, by rwa [Function.update_of_ne hut] at h⟩

/-- A thread links its node behind the last one, if there is one. -/
theorem Store.link (h : Store heap own L T q cmds) (ht : own t = some (cmd, a)) :
    Store (L.getLast?.elim heap fun last => setNext heap last (some a)) (Function.update own t none)
      (L ++ [a]) T (q ++ [cmd]) cmds := by
  obtain ⟨hheap, hmem⟩ := h.mine t cmd a ht
  have ha : nextOf heap a = none := by simp [nextOf, hheap]
  have hcmd : cmdOf heap a = some cmd := by simp [cmdOf, hheap]
  obtain ⟨haL, haT⟩ := notMem_append hmem
  generalize hheap' : (L.getLast?.elim heap fun last => setNext heap last (some a)) = heap'
  have hcmds : cmdOf heap' = cmdOf heap := by
    subst hheap'
    cases L.getLast? with
    | none => rfl
    | some last => exact cmdOf_setNext ..
  have hsome : ∀ b, (heap' b).isSome = (heap b).isSome := by
    subst hheap'
    intro b
    cases L.getLast? with
    | none => rfl
    | some last => exact isSome_setNext ..
  -- only the last node of the queue is written
  have hsame : ∀ b, b ∉ L → heap' b = heap b := by
    subst hheap'
    intro b hb
    cases hlast : L.getLast? with
    | none => rfl
    | some last =>
      refine Function.update_of_ne ?_ ..
      rintro rfl
      exact hb (List.mem_of_getLast? hlast)
  have hqueue : Linked (nextOf heap') (L ++ [a]) := by
    subst hheap'
    rcases List.eq_nil_or_concat L with rfl | ⟨L', last, rfl⟩
    · exact ⟨ha, trivial⟩
    · rw [List.concat_eq_append] at *
      rw [List.getLast?_concat]
      show Linked (nextOf (setNext heap last (some a))) _
      rw [nextOf_setNext heap (h.isSome (by simp))]
      exact h.queue.snoc (List.nodup_append.1 h.nodup).1 haL ha
  constructor
  case nodup =>
    rw [List.append_assoc]
    exact (List.nodup_middle (a := a)).2 (List.nodup_cons.2 ⟨hmem, h.nodup⟩)
  case queue => exact hqueue
  case torun =>
    refine linked_congr h.torun fun x hx => hsame x fun hxL => ?_
    exact (List.nodup_append.1 h.nodup).2.2 x hxL x hx rfl
  case queued =>
    rw [hcmds, List.map_append, List.map_append, h.queued, List.map_singleton, hcmd,
      List.map_singleton]
  case taken => rw [hcmds, h.taken]
  case used =>
    intro b
    rw [hsome, h.used]
    simp only [List.mem_append, List.mem_singleton]
    constructor
    · rintro ((hb | hb) | ⟨u, c, hu⟩)
      · exact .inl (.inl (.inl hb))
      · exact .inl (.inr hb)
      · by_cases hut : u = t
        · rw [hut, ht] at hu
          obtain ⟨-, rfl⟩ := Prod.mk.inj (Option.some.inj hu)
          exact .inl (.inl (.inr rfl))
        · exact .inr ⟨u, c, by rwa [Function.update_of_ne hut]⟩
    · rintro (((hb | rfl) | hb) | ⟨u, c, hu⟩)
      · exact .inl (.inl hb)
      · exact .inr ⟨t, cmd, ht⟩
      · exact .inl (.inr hb)
      · exact .inr ⟨u, c, (own_update hu).2⟩
  case mine =>
    intro u c b hu
    obtain ⟨hut, hu⟩ := own_update hu
    obtain ⟨hb, hbmem⟩ := h.mine u c b hu
    have hba : b ≠ a := by
      rintro rfl
      exact hut (h.inj u t c cmd b hu ht)
    refine ⟨by rw [hsame b (notMem_append hbmem).1, hb], ?_⟩
    simp only [List.mem_append, List.mem_singleton, not_or] at hbmem ⊢
    exact ⟨⟨hbmem.1, hba⟩, hbmem.2⟩
  case inj =>
    intro u v c c' b hu hv
    exact h.inj u v c c' b (own_update hu).2 (own_update hv).2

omit [DecidableEq Tid] in
/-- `runCommands` takes the queue. -/
theorem Store.take (h : Store heap own L [] q []) : Store heap own [] L [] q where
  nodup := by simpa using h.nodup
  queue := trivial
  torun := h.queue
  queued := rfl
  taken := h.queued
  used a := by simpa using h.used a
  mine t cmd a ht := by simpa using h.mine t cmd a ht
  inj := h.inj

omit [DecidableEq Tid] in
/-- `runCommands` frees the node whose command it ran. -/
theorem Store.free (h : Store heap own L (a :: T) q (cmd :: cmds)) :
    Store (Function.update heap a none) own L T q cmds := by
  have hnd : a ∉ L ++ T ∧ (L ++ T).Nodup := List.nodup_cons.1 (List.nodup_middle.1 h.nodup)
  have hsame : ∀ x ∈ L ++ T, Function.update heap a none x = heap x := by
    intro x hx
    refine Function.update_of_ne ?_ ..
    rintro rfl
    exact hnd.1 hx
  have hL : ∀ x ∈ L, Function.update heap a none x = heap x :=
    fun x hx => hsame x (List.mem_append_left _ hx)
  have hT : ∀ x ∈ T, Function.update heap a none x = heap x :=
    fun x hx => hsame x (List.mem_append_right _ hx)
  have hown : ∀ t c b, own t = some (c, b) → b ≠ a := by
    rintro t c b ht rfl
    exact (h.mine t c b ht).2 (by simp)
  constructor
  case nodup => exact hnd.2
  case queue => exact linked_congr h.queue hL
  case torun => exact linked_congr h.torun.2 hT
  case queued => exact (map_cmdOf_congr hL).trans h.queued
  case taken => exact (map_cmdOf_congr hT).trans (List.cons.inj h.taken).2
  case used =>
    intro b
    by_cases hb : b = a
    · subst hb
      rw [Function.update_self]
      refine iff_of_false (by simp) ?_
      rintro (hm | ⟨t, c, ht⟩)
      · exact hnd.1 hm
      · exact hown t c b ht rfl
    · rw [Function.update_of_ne hb, h.used]
      simp [hb]
  case mine =>
    intro t c b ht
    rw [Function.update_of_ne (hown t c b ht)]
    refine ⟨(h.mine t c b ht).1, fun hm => (h.mine t c b ht).2 ?_⟩
    simp only [List.mem_append, List.mem_cons] at hm ⊢
    exact hm.imp_right .inr
  case inj => exact h.inj

end Store

/-! ## The lock -/

/-- Between lock and unlock -/
def Pc.Holds : Pc Cmd → Prop
  | .idle | .malloc _ | .lock _ _ | .wake => False
  | _ => True

def OwnPc.Holds : OwnPc → Prop
  | .clearStore _ | .clearUnlock _ | .readFirst | .zeroFirst _ | .zeroLast _ | .setWake _
  | .unlock _ => True
  | _ => False

/-- Whoever is between lock and unlock holds the lock. -/
structure Locks (lock : Option (Option Tid)) (pc : Tid → Pc Cmd) (opc : OwnPc) : Prop where
  thread : ∀ t, (pc t).Holds ↔ lock = some (some t)
  owner : opc.Holds ↔ lock = some none

namespace Locks

variable {lock : Option (Option Tid)} {pc : Tid → Pc Cmd} {opc opc' : OwnPc} {t u : Tid} {p : Pc Cmd}

theorem not_owner (h : Locks lock pc opc) (ht : (pc t).Holds) : ¬ opc.Holds := by
  rw [h.owner, (h.thread t).1 ht]
  simp

theorem not_thread (h : Locks lock pc opc) (ho : opc.Holds) : ¬ (pc t).Holds := by
  rw [h.thread, h.owner.1 ho]
  simp

theorem unique (h : Locks lock pc opc) (ht : (pc t).Holds) (hu : (pc u).Holds) : u = t := by
  have := ((h.thread u).1 hu).symm.trans ((h.thread t).1 ht)
  simpa using this

theorem owner_move (h : Locks lock pc opc) (hp : opc'.Holds ↔ opc.Holds) : Locks lock pc opc' :=
  ⟨h.thread, hp.trans h.owner⟩

theorem owner_take (h : Locks none pc opc) (hp : opc'.Holds) : Locks (some none) pc opc' :=
  ⟨fun t => iff_of_false (by simpa using (h.thread t).not.2) (by simp), iff_of_true hp rfl⟩

theorem owner_give (h : Locks lock pc opc) (ho : opc.Holds) (hp : ¬ opc'.Holds) :
    Locks none pc opc' :=
  ⟨fun t => iff_of_false (h.not_thread ho) (by simp), iff_of_false hp (by simp)⟩

variable [DecidableEq Tid]

theorem move (h : Locks lock pc opc) (hp : p.Holds ↔ (pc t).Holds) :
    Locks lock (Function.update pc t p) opc := by
  refine ⟨fun u => ?_, h.owner⟩
  by_cases hu : u = t
  · rw [hu, Function.update_self, hp]
    exact h.thread t
  · rw [Function.update_of_ne hu]
    exact h.thread u

theorem take (h : Locks none pc opc) (hp : p.Holds) :
    Locks (some (some t)) (Function.update pc t p) opc := by
  refine ⟨fun u => ?_, iff_of_false (by simpa using h.owner.not.2) (by simp)⟩
  by_cases hu : u = t
  · rw [hu, Function.update_self]
    exact iff_of_true hp rfl
  · rw [Function.update_of_ne hu]
    exact iff_of_false (by simpa using (h.thread u).not.2) (by simpa using Ne.symm hu)

theorem give (h : Locks lock pc opc) (ht : (pc t).Holds) (hp : ¬ p.Holds) :
    Locks none (Function.update pc t p) opc := by
  refine ⟨fun u => ?_, iff_of_false (h.not_owner ht) (by simp)⟩
  refine iff_of_false ?_ (by simp)
  by_cases hu : u = t
  · rwa [hu, Function.update_self]
  · rw [Function.update_of_ne hu]
    exact fun hh => hu (h.unique ht hh)

end Locks

/-! ## The relation -/

/-- The node of a thread that it has not linked yet -/
def Pc.own : Pc Cmd → Option (Cmd × Addr)
  | .lock cmd node | .link cmd node => some (cmd, node)
  | _ => none

def Pc.phase : Pc Cmd → Phase (Call Cmd) (Result Cmd)
  | .idle => .idle
  | .malloc cmd | .lock cmd _ | .link cmd _ => .active (.post cmd)
  | _ => .done .posted

/-- What `runCommands` does or returns, where it ran `ran` and the nodes that it took and did not free
hold `cmds`. -/
def OwnPc.phase (ran cmds : List Cmd) : OwnPc → Phase (Call Cmd) (Result Cmd)
  | .lock | .readFirst => .active .collect
  | .zeroFirst _ | .zeroLast _ | .setWake _ | .unlock _ | .run _ => .done (.ran (ran ++ cmds))
  | .loadNext _ | .free _ _ => .done (.ran (ran ++ cmds.tail))
  | _ => .idle

/-- The nodes that `runCommands` took and did not free -/
def OwnPc.Took (T : List Addr) : OwnPc → Prop
  | .zeroFirst torun | .zeroLast torun | .setWake torun | .unlock torun | .run torun =>
      torun = T.head?
  | .loadNext torun => ∃ T', T = torun :: T'
  | .free torun next => ∃ T', T = torun :: T' ∧ next = T'.head?
  | _ => T = []

/-- The owner is about to reset `q->first` or `q->last`. -/
def OwnPc.Resets : OwnPc → Prop
  | .zeroFirst _ | .zeroLast _ => True
  | _ => False

/-- Where `first` and `last` point, while nobody is about to set them. -/
structure Ends (first last : Option Addr) (pc : Tid → Pc Cmd) (opc : OwnPc) (L : List Addr) :
    Prop where
  first : (∀ torun, opc ≠ .zeroFirst torun) → first = L.head?
  last : ¬ opc.Resets → (∀ t node, pc t ≠ .setLast node) → last = L.getLast?
  setLast : ∀ t node, pc t = .setLast node → L.getLast? = some node
  empty : opc.Resets → L = []

structure Rel (s : State Tid Cmd) (q : List Cmd) (ph : Option Tid → Phase (Call Cmd) (Result Cmd)) :
    Prop where
  fault : s.fault = false
  locks : Locks s.lock s.pc s.opc
  thread : ∀ t, ph (some t) = (s.pc t).phase
  ran : s.opc = .lock ∨ s.opc = .readFirst → s.ran = []
  nodes : ∃ L T cmds, Store s.heap (Pc.own ∘ s.pc) L T q cmds ∧
    Ends s.first s.last s.pc s.opc L ∧ s.opc.Took T ∧ ph none = s.opc.phase s.ran cmds

section Ends

variable {first last : Option Addr} {pc : Tid → Pc Cmd} {opc opc' : OwnPc} {L : List Addr}
variable {t : Tid} {p : Pc Cmd} {node : Addr}

theorem holds_of_resets (h : opc.Resets) : opc.Holds := by
  cases opc <;> trivial

theorem Ends.owner_move (h : Ends first last pc opc L) (hz : ∀ torun, opc ≠ .zeroFirst torun)
    (hr : ¬ opc.Resets) (hz' : ¬ opc'.Resets) : Ends first last pc opc' L :=
  ⟨fun _ => h.first hz, fun _ => h.last hr, h.setLast, fun he => absurd he hz'⟩

variable [DecidableEq Tid]

/-- Another statement than `q->last = cmd` -/
theorem Ends.move (h : Ends first last pc opc L) (ht : ∀ node, pc t ≠ .setLast node)
    (hp : ∀ node, p ≠ .setLast node) : Ends first last (Function.update pc t p) opc L := by
  refine ⟨h.first, fun hr hno => h.last hr fun u node hu => ?_, fun u node hu => ?_, h.empty⟩
  · have hut : u ≠ t := fun e => ht node (e ▸ hu)
    exact hno u node (by rwa [Function.update_of_ne hut])
  · have hut : u ≠ t := by
      rintro rfl
      rw [Function.update_self] at hu
      exact hp node hu
    rw [Function.update_of_ne hut] at hu
    exact h.setLast u node hu

/-- The first or the last node points to the new one. -/
theorem Ends.link (node : Addr) {lock : Option (Option Tid)} (h : Ends first last pc opc L)
    (hl : Locks lock pc opc) (ht : (pc t).Holds) (hpc : ∀ node, pc t ≠ .setLast node) :
    last = L.getLast? ∧ Ends (if L.getLast?.isNone then some node else first) last
      (Function.update pc t (.setLast node)) opc (L ++ [node]) := by
  have hr : ¬ opc.Resets := fun hr => hl.not_owner ht (holds_of_resets hr)
  have hz : ∀ torun, opc ≠ .zeroFirst torun := by
    rintro torun rfl
    exact hr trivial
  have hno : ∀ u node, pc u ≠ .setLast node := by
    intro u node hu
    obtain rfl := hl.unique ht (u := u) (by rw [hu]; trivial)
    exact hpc node hu
  refine ⟨h.last hr hno, fun _ => ?_, fun _ hset => ?_, fun u n hu => ?_, fun hr' => absurd hr' hr⟩
  · rcases List.eq_nil_or_concat L with rfl | ⟨L', x, rfl⟩
    · rfl
    · rw [List.concat_eq_append] at h ⊢
      rw [List.getLast?_concat, h.first hz]
      cases L' <;> rfl
  · exact absurd (Function.update_self ..) (hset t node)
  · have hut : u = t := by
      by_contra hut
      rw [Function.update_of_ne hut] at hu
      exact hno u n hu
    rw [hut, Function.update_self] at hu
    cases hu
    exact List.getLast?_concat

/-- `q->last = cmd` -/
theorem Ends.set (h : Ends first last pc opc L) (ht : pc t = .setLast node)
    (hp : ∀ node, p ≠ .setLast node) : Ends first (some node) (Function.update pc t p) opc L := by
  have hlast := h.setLast t node ht
  refine ⟨h.first, fun _ _ => hlast.symm, fun u n hu => ?_, h.empty⟩
  have hut : u ≠ t := by
    rintro rfl
    rw [Function.update_self] at hu
    exact hp n hu
  rw [Function.update_of_ne hut] at hu
  exact h.setLast u n hu

end Ends

/-! ## Steps of the threads -/

section Rel

variable [DecidableEq Tid] {s s' z : State Tid Cmd} {q q' : List Cmd}
variable {ph : Option Tid → Phase (Call Cmd) (Result Cmd)} {t : Tid} {p : Pc Cmd}
variable {L T : List Addr} {cmds : List Cmd}

theorem thread_update (h : ∀ t, ph (some t) = (s.pc t).phase) (t : Tid) (p : Pc Cmd) (u : Tid) :
    Function.update ph (some t) p.phase (some u) = (Function.update s.pc t p u).phase := by
  by_cases hu : u = t
  · rw [hu, Function.update_self, Function.update_self]
  · rw [Function.update_of_ne (by simpa using hu), Function.update_of_ne hu]
    exact h u

theorem own_eq (hp : p.own = (s.pc t).own) :
    Pc.own ∘ Function.update s.pc t p = Pc.own ∘ s.pc := by
  rw [Function.comp_update, hp]
  exact Function.update_eq_self ..

/-- A step of a thread that leaves the nodes alone -/
theorem Rel.move (h : Rel s q ph) (hheap : z.heap = s.heap) (hpc : z.pc = s.pc)
    (hopc : z.opc = s.opc) (hran : z.ran = s.ran) (hfault : z.fault = s.fault)
    (hown : p.own = (s.pc t).own) (hlocks : Locks z.lock (Function.update s.pc t p) s.opc)
    (hends : ∀ L, Ends s.first s.last s.pc s.opc L →
      Ends z.first z.last (Function.update s.pc t p) s.opc L) :
    Rel (z.goto t p) q (Function.update ph (some t) p.phase) := by
  obtain ⟨L, T, cmds, hstore, hends', htook, hnone⟩ := h.nodes
  constructor
  case fault => exact hfault.trans h.fault
  case locks =>
    rw [State.goto, hpc, hopc]
    exact hlocks
  case thread =>
    intro u
    rw [State.goto, hpc]
    exact thread_update h.thread t p u
  case ran =>
    rw [State.goto, hopc, hran]
    exact h.ran
  case nodes =>
    refine ⟨L, T, cmds, ?_, ?_, ?_, ?_⟩
    · rw [State.goto, hpc, hheap, own_eq hown]
      exact hstore
    · rw [State.goto, hpc, hopc]
      exact hends L hends'
    · rw [State.goto, hopc]
      exact htook
    · rw [State.goto, hopc, hran, Function.update_of_ne (by simp)]
      exact hnone

/-- `malloc` -/
theorem Rel.malloc (h : Rel s q ph) {cmd : Cmd} {a : Addr} (ht : s.pc t = .malloc cmd)
    (ha : s.heap a = none) :
    Rel ({ s with heap := Function.update s.heap a (some ⟨none, cmd⟩) }.goto t (.lock cmd a)) q ph := by
  obtain ⟨L, T, cmds, hstore, hends, htook, hnone⟩ := h.nodes
  constructor
  case fault => exact h.fault
  case locks => exact h.locks.move (iff_of_false id (by rw [ht]; exact id))
  case thread =>
    intro u
    have hu := thread_update h.thread t (.lock cmd a) u
    have hphase : (Pc.lock cmd a).phase = ph (some t) := by
      rw [h.thread, ht]
      rfl
    rwa [hphase, Function.update_eq_self] at hu
  case ran => exact h.ran
  case nodes =>
    refine ⟨L, T, cmds, ?_, hends.move (by simp [ht]) (by simp), htook, hnone⟩
    show Store _ (Pc.own ∘ Function.update s.pc t (.lock cmd a)) L T q cmds
    rw [Function.comp_update]
    exact hstore.malloc (by simp [ht, Pc.own]) ha

/-- A node is linked: here the command is posted. -/
theorem Rel.link (h : Rel s q ph) {cmd : Cmd} {node : Addr} (ht : s.pc t = .link cmd node)
    (hs : runThread s t = some s') :
    Rel s' (q ++ [cmd]) (Function.update ph (some t) (.done .posted)) := by
  obtain ⟨L, T, cmds, hstore, hends, htook, hnone⟩ := h.nodes
  have hholds : (s.pc t).Holds := by
    rw [ht]
    trivial
  obtain ⟨hlast, hends'⟩ := hends.link node h.locks hholds (by simp [ht])
  have hstore' := hstore.link (show (Pc.own ∘ s.pc) t = some (cmd, node) by simp [ht, Pc.own])
  have hs' : s' = { s with
      first := if L.getLast?.isNone then some node else s.first
      heap := L.getLast?.elim s.heap fun last => setNext s.heap last (some node) }.goto t
        (.setLast node) := by
    rw [runThread, ht] at hs
    dsimp only at hs
    split at hs
    next hl =>
      have hget : L.getLast? = none := hlast.symm.trans hl
      rw [hget]
      exact (Option.some.inj hs).symm
    next last hl =>
      have hget : L.getLast? = some last := hlast.symm.trans hl
      have hsome := hstore.isSome (a := last) (List.mem_append_left _ (List.mem_of_getLast? hget))
      have hnot : (s.heap last).isNone = false := by
        rw [Option.isNone_eq_false_iff]
        exact hsome
      rw [hnot, Bool.or_false] at hs
      rw [hget]
      exact (Option.some.inj hs).symm
  subst hs'
  constructor
  case fault => exact h.fault
  case locks => exact h.locks.move (iff_of_true trivial hholds)
  case thread => exact thread_update h.thread t (.setLast node)
  case ran => exact h.ran
  case nodes =>
    refine ⟨L ++ [node], T, cmds, ?_, hends', htook, ?_⟩
    · show Store _ (Pc.own ∘ Function.update s.pc t (.setLast node)) _ T _ cmds
      rw [Function.comp_update]
      exact hstore'
    · rw [Function.update_of_ne (by simp)]
      exact hnone

/-- A step that the mailbox does not see. -/
theorem stutter (h : Rel s q ph) (hp : p.phase = (s.pc t).phase) :
    (mailbox Cmd).Path q ph [] q (Function.update ph (some t) p.phase) := by
  rw [hp, ← h.thread, Function.update_eq_self]
  exact .refl

theorem runThread_rel (h : Rel s q ph) (hs : runThread s t = some s') :
    ∃ q' ph', (mailbox Cmd).Path q ph (seen s (.run t)) q' ph' ∧ Rel s' q' ph' := by
  cases hpc : s.pc t with
  | idle => simp [runThread, hpc] at hs
  | malloc cmd => simp [runThread, hpc] at hs
  | lock cmd node =>
    rw [runThread, hpc] at hs
    dsimp only at hs
    split_ifs at hs with hl
    obtain rfl := Option.some.inj hs
    have hlocks := h.locks
    rw [hl] at hlocks
    simp only [seen, hpc]
    exact ⟨q, _, stutter h (p := .link cmd node) (by rw [hpc]; rfl),
      h.move (z := { s with lock := some (some t) }) rfl rfl rfl rfl rfl (by rw [hpc]; rfl)
        (hlocks.take trivial) fun L he => he.move (by simp [hpc]) (by simp)⟩
  | link cmd node =>
    simp only [seen, hpc]
    exact ⟨q ++ [cmd], _, .single (.finish (by rw [h.thread, hpc]; rfl) (Mailbox.post q cmd)),
      h.link hpc hs⟩
  | setLast node =>
    rw [runThread, hpc] at hs
    obtain rfl := Option.some.inj hs
    simp only [seen, hpc]
    exact ⟨q, _, stutter h (p := .readWake) (by rw [hpc]; rfl),
      h.move (z := { s with last := some node }) rfl rfl rfl rfl rfl (by rw [hpc]; rfl)
        (h.locks.move (by rw [hpc]; exact Iff.rfl)) fun L he => he.set hpc (by simp)⟩
  | readWake =>
    rw [runThread, hpc] at hs
    obtain rfl := Option.some.inj hs
    simp only [seen, hpc]
    exact ⟨q, _, stutter h (p := .clearWake s.mustwake) (by rw [hpc]; rfl),
      h.move (z := s) rfl rfl rfl rfl rfl (by rw [hpc]; rfl)
        (h.locks.move (by rw [hpc]; exact Iff.rfl)) fun L he => he.move (by simp [hpc]) (by simp)⟩
  | clearWake mustwake =>
    rw [runThread, hpc] at hs
    obtain rfl := Option.some.inj hs
    simp only [seen, hpc]
    exact ⟨q, _, stutter h (p := .unlock mustwake) (by rw [hpc]; rfl),
      h.move (z := { s with mustwake := false }) rfl rfl rfl rfl rfl (by rw [hpc]; rfl)
        (h.locks.move (by rw [hpc]; exact Iff.rfl)) fun L he => he.move (by simp [hpc]) (by simp)⟩
  | unlock mustwake =>
    rw [runThread, hpc] at hs
    obtain rfl := Option.some.inj hs
    have hholds : (s.pc t).Holds := by
      rw [hpc]
      trivial
    cases mustwake with
    | false =>
      simp only [seen, hpc]
      exact ⟨q, _, .single (.ret (by rw [h.thread, hpc]; rfl)),
        h.move (p := .idle) (z := { s with lock := none }) rfl rfl rfl rfl rfl (by rw [hpc]; rfl)
          (h.locks.give hholds id) fun L he => he.move (by simp [hpc]) (by simp)⟩
    | true =>
      simp only [seen, hpc]
      exact ⟨q, _, stutter h (p := .wake) (by rw [hpc]; rfl),
        h.move (z := { s with lock := none }) rfl rfl rfl rfl rfl (by rw [hpc]; rfl)
          (h.locks.give hholds id) fun L he => he.move (by simp [hpc]) (by simp)⟩
  | wake =>
    rw [runThread, hpc] at hs
    obtain rfl := Option.some.inj hs
    simp only [seen, hpc]
    exact ⟨q, _, .single (.ret (by rw [h.thread, hpc]; rfl)),
      h.move (p := .idle) (z := { s with token := true }) rfl rfl rfl rfl rfl (by rw [hpc]; rfl)
        (h.locks.move (by rw [hpc]; exact Iff.rfl)) fun L he => he.move (by simp [hpc]) (by simp)⟩

/-! ## Steps of the owner -/

omit [DecidableEq Tid] in
/-- A step of the owner that leaves the nodes alone and that the mailbox does not see -/
theorem Rel.owner_move {opc : OwnPc} (h : Rel s q ph) (hheap : z.heap = s.heap) (hpc : z.pc = s.pc)
    (hran : z.ran = s.ran) (hfault : z.fault = s.fault) (hlocks : Locks z.lock s.pc opc)
    (hnew : opc = .lock ∨ opc = .readFirst → s.ran = [])
    (hends : ∀ L, Ends s.first s.last s.pc s.opc L → Ends z.first z.last s.pc opc L)
    (htook : ∀ T, s.opc.Took T → opc.Took T)
    (hphase : ∀ cmds, opc.phase s.ran cmds = s.opc.phase s.ran cmds) :
    Rel { z with opc := opc } q ph := by
  obtain ⟨L, T, cmds, hstore, hends', htook', hnone⟩ := h.nodes
  constructor
  case fault => exact hfault.trans h.fault
  case locks =>
    rw [hpc]
    exact hlocks
  case thread =>
    rw [hpc]
    exact h.thread
  case ran =>
    rw [hran]
    exact hnew
  case nodes =>
    refine ⟨L, T, cmds, ?_, ?_, htook T htook', ?_⟩
    · rw [hpc, hheap]
      exact hstore
    · rw [hpc]
      exact hends L hends'
    · rw [hran, hphase]
      exact hnone

/-- The thread `none` is where `opc` says. -/
theorem thread_none (h : ∀ t, ph (some t) = (s.pc t).phase) (x : Phase (Call Cmd) (Result Cmd)) (u : Tid) :
    Function.update ph none x (some u) = (s.pc u).phase := by
  rw [Function.update_of_ne (by simp)]
  exact h u

/-- Here `runCommands` takes what was posted. -/
theorem Rel.collect (h : Rel s q ph) (ho : s.opc = .readFirst) :
    (mailbox Cmd).Path q ph [] [] (Function.update ph none (.done (.ran q))) ∧
      Rel { s with opc := .zeroFirst s.first } [] (Function.update ph none (.done (.ran q))) := by
  obtain ⟨L, T, cmds, hstore, hends, htook, hnone⟩ := h.nodes
  rw [ho] at hends htook hnone
  obtain rfl : T = [] := htook
  have hcmds : cmds = [] := by simpa using hstore.taken.symm
  subst hcmds
  refine ⟨.single (.finish hnone (.collect q)), ?_⟩
  constructor
  case fault => exact h.fault
  case locks => exact h.locks.owner_move (by rw [ho]; exact Iff.rfl)
  case thread => exact thread_none h.thread _
  case ran => rintro (he | he) <;> cases he
  case nodes =>
    refine ⟨[], L, q, hstore.take, ?_, hends.first (by simp), ?_⟩
    · refine ⟨fun hz => absurd rfl (hz s.first), fun hr => absurd trivial hr, fun t node ht => ?_,
        fun _ => rfl⟩
      have hholds : s.opc.Holds := by
        rw [ho]
        trivial
      exact absurd (by rw [ht]; trivial) (h.locks.not_thread (t := t) hholds)
    · rw [Function.update_self, h.ran (.inr ho)]
      rfl

omit [DecidableEq Tid] in
/-- The command of a node is called. -/
theorem Rel.run (h : Rel s q ph) {torun : Addr} (ho : s.opc = .run (some torun)) :
    ∃ node, s.heap torun = some node ∧
      Rel { s with ran := s.ran ++ [node.cmd], opc := .loadNext torun } q ph := by
  obtain ⟨L, T, cmds, hstore, hends, htook, hnone⟩ := h.nodes
  rw [ho] at hends htook hnone
  obtain ⟨T', rfl⟩ : ∃ T', T = torun :: T' := by
    cases T with
    | nil => cases htook
    | cons a T' => exact ⟨T', by rw [Option.some.inj htook]⟩
  obtain ⟨node, hnode⟩ := Option.isSome_iff_exists.1 (hstore.isSome (a := torun) (by simp))
  have hcmds : cmds = node.cmd :: cmds.tail := by
    have htaken := hstore.taken
    cases cmds with
    | nil => simp at htaken
    | cons c cmds' =>
      have hc := (List.cons.inj htaken).1
      rw [cmdOf, hnode] at hc
      rw [List.tail_cons, Option.some.inj hc]
  refine ⟨node, hnode, ?_⟩
  constructor
  case fault => exact h.fault
  case locks => exact h.locks.owner_move (by rw [ho]; exact Iff.rfl)
  case thread => exact h.thread
  case ran => rintro (he | he) <;> cases he
  case nodes =>
    refine ⟨L, _, cmds, hstore, hends.owner_move (by simp) id id, ⟨T', rfl⟩, ?_⟩
    rw [hnone]
    show Phase.done (Result.ran (s.ran ++ cmds)) =
      Phase.done (Result.ran (s.ran ++ [node.cmd] ++ cmds.tail))
    rw [List.append_assoc, List.singleton_append, ← hcmds]

omit [DecidableEq Tid] in
theorem Rel.free (h : Rel s q ph) {torun : Addr} {next : Option Addr} (ho : s.opc = .free torun next) :
    (s.heap torun).isNone = false ∧
      Rel { s with heap := Function.update s.heap torun none, opc := .run next } q ph := by
  obtain ⟨L, T, cmds, hstore, hends, htook, hnone⟩ := h.nodes
  rw [ho] at hends htook hnone
  obtain ⟨T', rfl, rfl⟩ := htook
  have hsome := hstore.isSome (a := torun) (by simp)
  obtain ⟨c, cmds', rfl⟩ : ∃ c cmds', cmds = c :: cmds' := by
    have htaken := hstore.taken
    cases cmds with
    | nil => simp at htaken
    | cons c cmds' => exact ⟨c, cmds', rfl⟩
  refine ⟨by rw [Option.isNone_eq_false_iff]; exact hsome, ?_⟩
  constructor
  case fault => exact h.fault
  case locks => exact h.locks.owner_move (by rw [ho]; exact Iff.rfl)
  case thread => exact h.thread
  case ran => rintro (he | he) <;> cases he
  case nodes => exact ⟨L, T', cmds', hstore.free, hends.owner_move (by simp) id id, rfl, hnone⟩

theorem runOwner_rel {latched : Bool} (h : Rel s q ph) (hs : runOwner latched s = some s') :
    ∃ q' ph', (mailbox Cmd).Path q ph (seen s .owner) q' ph' ∧ Rel s' q' ph' := by
  have hacq : ∀ opc, s.acquire opc = some s' →
      Locks none s.pc s.opc ∧ s' = { s with lock := some none, opc := opc } := by
    intro opc ha
    rw [State.acquire] at ha
    split_ifs at ha with hl
    exact ⟨hl ▸ h.locks, (Option.some.inj ha).symm⟩
  cases ho : s.opc with
  | poll => simp [runOwner, ho] at hs
  | clearLock reported =>
    rw [runOwner, ho] at hs
    obtain ⟨hlocks, rfl⟩ := hacq _ hs
    simp only [seen, ho]
    exact ⟨q, ph, .refl, h.owner_move (z := { s with lock := some none }) rfl rfl rfl rfl
      (hlocks.owner_take trivial) (by simp) (fun L he => (ho ▸ he).owner_move (by simp) id id)
      (fun T ht => by rwa [ho] at ht) fun cmds => by rw [ho]; rfl⟩
  | clearStore reported =>
    rw [runOwner, ho] at hs
    obtain rfl := Option.some.inj hs
    simp only [seen, ho]
    exact ⟨q, ph, .refl, h.owner_move (z := { s with mustwake := false }) rfl rfl rfl rfl
      (h.locks.owner_move (by rw [ho]; exact Iff.rfl)) (by simp)
      (fun L he => (ho ▸ he).owner_move (by simp) id id)
      (fun T ht => by rwa [ho] at ht) fun cmds => by rw [ho]; rfl⟩
  | clearUnlock reported =>
    rw [runOwner, ho] at hs
    obtain rfl := Option.some.inj hs
    have hgive : ∀ opc : OwnPc, ¬ opc.Holds → Locks none s.pc opc :=
      fun opc hopc => h.locks.owner_give (by rw [ho]; trivial) hopc
    simp only [seen, ho]
    split_ifs
    · exact ⟨q, ph, .refl, h.owner_move (z := { s with lock := none }) rfl rfl rfl rfl
        (hgive .drain id) (by simp) (fun L he => (ho ▸ he).owner_move (by simp) id id)
        (fun T ht => by rwa [ho] at ht) fun cmds => by rw [ho]; rfl⟩
    · exact ⟨q, ph, .refl, h.owner_move (z := { s with lock := none }) rfl rfl rfl rfl
        (hgive .enter id) (by simp) (fun L he => (ho ▸ he).owner_move (by simp) id id)
        (fun T ht => by rwa [ho] at ht) fun cmds => by rw [ho]; rfl⟩
  | drain =>
    rw [runOwner, ho] at hs
    obtain rfl := Option.some.inj hs
    simp only [seen, ho]
    exact ⟨q, ph, .refl, h.owner_move (z := { s with token := false }) rfl rfl rfl rfl
      (h.locks.owner_move (by rw [ho]; exact Iff.rfl)) (by simp)
      (fun L he => (ho ▸ he).owner_move (by simp) id id)
      (fun T ht => by rwa [ho] at ht) fun cmds => by rw [ho]; rfl⟩
  | enter =>
    rw [runOwner, ho] at hs
    obtain rfl := Option.some.inj hs
    obtain ⟨L, T, cmds, hstore, hends, htook, hnone⟩ := h.nodes
    rw [ho] at hends htook hnone
    simp only [seen, ho]
    refine ⟨q, _, .single (.call hnone), h.fault,
      h.locks.owner_move (by rw [ho]; exact Iff.rfl), thread_none h.thread _, fun _ => rfl,
      L, T, cmds, hstore, hends.owner_move (by simp) id id, htook, Function.update_self ..⟩
  | lock =>
    rw [runOwner, ho] at hs
    obtain ⟨hlocks, rfl⟩ := hacq _ hs
    simp only [seen, ho]
    exact ⟨q, ph, .refl, h.owner_move (z := { s with lock := some none }) rfl rfl rfl rfl
      (hlocks.owner_take trivial) (fun _ => h.ran (.inl ho))
      (fun L he => (ho ▸ he).owner_move (by simp) id id)
      (fun T ht => by rwa [ho] at ht) fun cmds => by rw [ho]; rfl⟩
  | readFirst =>
    rw [runOwner, ho] at hs
    obtain rfl := Option.some.inj hs
    simp only [seen, ho]
    exact ⟨[], _, h.collect ho⟩
  | zeroFirst torun =>
    rw [runOwner, ho] at hs
    obtain rfl := Option.some.inj hs
    simp only [seen, ho]
    refine ⟨q, ph, .refl, h.owner_move (z := { s with first := none }) rfl rfl rfl rfl
      (h.locks.owner_move (by rw [ho]; exact Iff.rfl)) (by simp) (fun L he => ?_)
      (fun T ht => by rwa [ho] at ht) fun cmds => by rw [ho]; rfl⟩
    obtain rfl := he.empty (by rw [ho]; trivial)
    exact ⟨fun _ => rfl, fun hr => absurd trivial hr, he.setLast, fun _ => rfl⟩
  | zeroLast torun =>
    rw [runOwner, ho] at hs
    obtain rfl := Option.some.inj hs
    simp only [seen, ho]
    refine ⟨q, ph, .refl, h.owner_move (z := { s with last := none }) rfl rfl rfl rfl
      (h.locks.owner_move (by rw [ho]; exact Iff.rfl)) (by simp) (fun L he => ?_)
      (fun T ht => by rwa [ho] at ht) fun cmds => by rw [ho]; rfl⟩
    obtain rfl := he.empty (by rw [ho]; trivial)
    exact ⟨fun _ => he.first (by simp [ho]), fun _ _ => rfl, he.setLast, fun hr => absurd hr id⟩
  | setWake torun =>
    rw [runOwner, ho] at hs
    obtain rfl := Option.some.inj hs
    simp only [seen, ho]
    exact ⟨q, ph, .refl, h.owner_move (z := { s with mustwake := true }) rfl rfl rfl rfl
      (h.locks.owner_move (by rw [ho]; exact Iff.rfl)) (by simp)
      (fun L he => (ho ▸ he).owner_move (by simp) id id)
      (fun T ht => by rwa [ho] at ht) fun cmds => by rw [ho]; rfl⟩
  | unlock torun =>
    rw [runOwner, ho] at hs
    obtain rfl := Option.some.inj hs
    simp only [seen, ho]
    exact ⟨q, ph, .refl, h.owner_move (z := { s with lock := none }) rfl rfl rfl rfl
      (h.locks.owner_give (by rw [ho]; trivial) id) (by simp)
      (fun L he => (ho ▸ he).owner_move (by simp) id id)
      (fun T ht => by rwa [ho] at ht) fun cmds => by rw [ho]; rfl⟩
  | run torun =>
    cases torun with
    | none =>
      rw [runOwner, ho] at hs
      obtain rfl := Option.some.inj hs
      obtain ⟨L, T, cmds, hstore, hends, htook, hnone⟩ := h.nodes
      rw [ho] at hends htook hnone
      obtain rfl : T = [] := List.head?_eq_none_iff.1 (Eq.symm htook)
      have hcmds : cmds = [] := by simpa using hstore.taken.symm
      have hret : ph none = .done (.ran s.ran) := by
        rw [hnone, hcmds, OwnPc.phase, List.append_nil]
      simp only [seen, ho]
      exact ⟨q, _, .single (.ret hret), h.fault, h.locks.owner_move (by rw [ho]; exact Iff.rfl),
        thread_none h.thread _, by simp, L, [], cmds, hstore, hends.owner_move (by simp) id id, rfl,
        Function.update_self ..⟩
    | some torun =>
      obtain ⟨node, hnode, hrel⟩ := h.run ho
      rw [runOwner, ho] at hs
      simp only [hnode] at hs
      obtain rfl := Option.some.inj hs
      simp only [seen, ho]
      exact ⟨q, ph, .refl, hrel⟩
  | loadNext torun =>
    rw [runOwner, ho] at hs
    obtain rfl := Option.some.inj hs
    obtain ⟨L, T, cmds, hstore, hends, htook, hnone⟩ := h.nodes
    rw [ho] at hends htook hnone
    obtain ⟨T', rfl⟩ := htook
    have hsome : (s.heap torun).isNone = false := by
      rw [Option.isNone_eq_false_iff]
      exact hstore.isSome (by simp)
    simp only [seen, ho, hsome, Bool.or_false]
    exact ⟨q, ph, .refl, h.fault, h.locks.owner_move (by rw [ho]; exact Iff.rfl), h.thread,
      by simp, L, _, cmds, hstore, hends.owner_move (by simp) id id,
      ⟨T', rfl, hstore.torun.1⟩, hnone⟩
  | free torun next =>
    obtain ⟨hsome, hrel⟩ := h.free ho
    rw [runOwner, ho] at hs
    obtain rfl := Option.some.inj hs
    simp only [seen, ho, hsome, Bool.or_false]
    exact ⟨q, ph, .refl, hrel⟩
  | eventsDone =>
    rw [runOwner, ho] at hs
    obtain rfl := Option.some.inj hs
    simp only [seen, ho]
    exact ⟨q, ph, .refl, h.owner_move (z := s) rfl rfl rfl rfl
      (h.locks.owner_move (by rw [ho]; exact Iff.rfl)) (by simp)
      (fun L he => (ho ▸ he).owner_move (by simp) id id)
      (fun T ht => by rwa [ho] at ht) fun cmds => by rw [ho]; rfl⟩

theorem step_rel {latched : Bool} {a : Action Tid Cmd} (h : Rel s q ph)
    (hs : step latched s a = some s') :
    ∃ q' ph', (mailbox Cmd).Path q ph (seen s a) q' ph' ∧ Rel s' q' ph' := by
  cases a with
  | run t => exact runThread_rel h hs
  | owner => exact runOwner_rel h hs
  | call t cmd =>
    rw [step] at hs
    split at hs
    next hpc =>
      obtain rfl := Option.some.inj hs
      exact ⟨q, _, .single (.call (by rw [h.thread, hpc]; rfl)),
        h.move (p := .malloc cmd) (z := s) rfl rfl rfl rfl rfl (by rw [hpc]; rfl)
          (h.locks.move (by rw [hpc]; exact Iff.rfl)) fun L he => he.move (by simp [hpc]) (by simp)⟩
    next => cases hs
  | malloc t a =>
    rw [step] at hs
    split at hs
    next cmd hpc ha =>
      obtain rfl := Option.some.inj hs
      exact ⟨q, ph, .refl, h.malloc hpc ha⟩
    next => cases hs
  | poll reported =>
    rw [step] at hs
    split_ifs at hs with hp
    obtain rfl := Option.some.inj hs
    have ho := hp.1
    exact ⟨q, ph, .refl, h.owner_move
      (z := { s with token := s.token && !(reported && latched) }) rfl rfl rfl rfl
      (h.locks.owner_move (by rw [ho]; exact Iff.rfl)) (by simp)
      (fun L he => (ho ▸ he).owner_move (by simp) id id)
      (fun T ht => by rwa [ho] at ht) fun cmds => by rw [ho]; rfl⟩

end Rel

theorem rel_init [DecidableEq Tid] : Rel (init : State Tid Cmd) [] fun _ => .idle where
  fault := rfl
  locks := ⟨fun t => iff_of_false id (by simp [init]), iff_of_false id (by simp [init])⟩
  thread t := rfl
  ran _ := rfl
  nodes := ⟨[], [], [], {
    nodup := List.nodup_nil
    queue := trivial
    torun := trivial
    queued := rfl
    taken := rfl
    used := fun a => by simp [init, Pc.own]
    mine := fun t cmd a ht => by cases ht
    inj := fun t u cmd cmd' a ht => by cases ht }, {
    first := fun _ => rfl
    last := fun _ _ => rfl
    setLast := fun t node ht => by cases ht
    empty := fun _ => rfl }, rfl, rfl⟩

theorem reachable_rel [DecidableEq Tid] {latched : Bool} {s : State Tid Cmd}
    (h : (machine Tid Cmd latched).Reachable s) : ∃ q ph, Rel s q ph := by
  refine Machine.Run.invariant (I := fun s => ∃ q ph, Rel s q ph) ?_ ?_ h
  · rintro s rfl
    exact ⟨[], _, rel_init⟩
  · rintro s a s' ⟨q, ph, hrel⟩ - hs
    obtain ⟨q', ph', -, hrel'⟩ := step_rel hrel hs
    exact ⟨q', ph', hrel'⟩

/-- No access faulted, and between two rounds just the nodes of the queue are in use. -/
structure Sound (s : State Tid Cmd) : Prop where
  fault : s.fault = false
  inUse : (∀ t, s.pc t = .idle) → s.opc = .poll → ∃ L, L.Nodup ∧ s.first = L.head? ∧
    Linked (nextOf s.heap) L ∧ ∀ a, (s.heap a).isSome ↔ a ∈ L

theorem Rel.sound {s : State Tid Cmd} {q : List Cmd}
    {ph : Option Tid → Phase (Call Cmd) (Result Cmd)} (h : Rel s q ph) : Sound s := by
  refine ⟨h.fault, fun hidle ho => ?_⟩
  obtain ⟨L, T, cmds, hstore, hends, htook, -⟩ := h.nodes
  rw [ho] at htook hends
  obtain rfl : T = [] := htook
  refine ⟨L, by simpa using hstore.nodup, hends.first (by simp), hstore.queue, fun a => ?_⟩
  rw [hstore.used, List.append_nil]
  refine or_iff_left ?_
  rintro ⟨t, cmd, ht⟩
  simp [hidle t, Pc.own] at ht

/-- For the threads that post commands and for the owner, the queue is a mailbox: `runCommands` runs
every command that was posted before it took the lock and that no earlier call ran, once and in the
order of posting.  No memory is accessed that was freed, and nothing leaks. -/
theorem implements_mailbox (Tid Cmd : Type) [DecidableEq Tid] (latched : Bool) :
    Implements (machine Tid Cmd latched) seen (mailbox Cmd) ∧
      ∀ s, (machine Tid Cmd latched).Reachable s → Sound s := by
  refine ⟨.of_simulation Rel ?_ fun s a s' q ph h hs => step_rel h hs, fun s hs => ?_⟩
  · rintro s rfl
    exact ⟨[], rfl, rel_init⟩
  · obtain ⟨q, ph, h⟩ := reachable_rel hs
    exact h.sound

end PoserCore.CommandQueue.Locked
