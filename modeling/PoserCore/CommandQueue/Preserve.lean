import PoserCore.CommandQueue.Invariant

/-!
# Every step keeps the invariant

The chain changes in three ways: an enqueuer appends its node, an enqueuer loses its node by linking
it to a retired one, and the owner retires the head of the live part.
-/

namespace PoserCore.CommandQueue

open Lib SharedObj

variable {Tid Cmd : Type} [DecidableEq Tid] {P : Params} {s s' : State Tid Cmd} {c c' : Chain}

/-- The step links a node to one that was already passed to `SharedObj_retire`. -/
def LinksRetired (s : State Tid Cmd) : Action Tid Cmd → Prop
  | .run t => ∃ node p, s.pc t = .link node (.casNext p) ∧ s.mem.next p = none ∧ s.dead p = true
  | _ => False

/-! ## What the functions on nodes do to the counters -/

theorem create_fresh (P : SharedObj.Params) (m : Mem) (l : Local) (pc : CreatePc) :
    m.fresh ≤ (pc.step P m l).1.fresh := by
  cases pc with
  | count =>
    rw [CreatePc.step]
    split <;> exact Nat.le_refl _
  | addEpoch | loadEpoch => exact Nat.le_succ _
  | _ => exact Nat.le_refl _

theorem create_self {P : SharedObj.Params} {m m' : Mem} {l l' : Local} {pc pc' : CreatePc}
    (h : pc.step P m l = (m', l', .inl pc')) {o : Obj} (ho : createSelf pc' = some o) :
    createSelf pc = some o ∨ m.fresh ≤ o := by
  cases pc with
  | count =>
    rw [CreatePc.step] at h
    split at h <;> cases h <;> cases ho
  | addEpoch | loadEpoch =>
    cases h
    obtain rfl := Option.some.inj ho
    exact .inr (Nat.le_refl _)
  | storeNext self created | storeCreated self created =>
    cases h
    exact .inl ho
  | storeRetired self created => cases h

theorem create_return {P : SharedObj.Params} {m m' : Mem} {l l' : Local} {pc : CreatePc}
    {node : Obj} (h : pc.step P m l = (m', l', .inr node)) :
    createSelf pc = some node ∧ m'.fresh = m.fresh := by
  cases pc with
  | count =>
    rw [CreatePc.step] at h
    split at h <;> cases h
  | storeRetired self created =>
    cases h
    exact ⟨rfl, rfl⟩
  | _ => cases h

theorem create_retired {P : SharedObj.Params} {m m' : Mem} {l l' : Local} {pc : CreatePc}
    {r : CreatePc ⊕ Obj} (h : pc.step P m l = (m', l', r)) : l'.retired = l.retired := by
  cases pc with
  | count =>
    rw [CreatePc.step] at h
    split at h <;> cases h <;> rfl
  | _ =>
    cases h
    rfl

theorem link_fresh (m : Mem) (l : Local) (last node : Obj) (pc : LinkPc) :
    (pc.step m l last node).1.fresh = m.fresh := by
  cases pc with
  | reserve pc =>
    cases pc with
    | check ep p =>
      simp only [LinkPc.step, ReservePc.step]
      split <;> rename_i heq <;> split at heq <;> cases heq <;> rfl
    | _ => rfl
  | loadNext p | casNext p =>
    rw [LinkPc.step]
    split <;> rfl
  | casHelp p n | casLast p => rfl
  | release pc => cases pc <;> rfl

theorem retire_fresh {P : SharedObj.Params} {m m' : Mem} {l l' : Local} {pc : RetirePc}
    {r : Option RetirePc} (h : pc.step P m l = (m', l', r)) : m'.fresh = m.fresh := by
  cases pc with
  | count | loadRes nt p i n creat retd t =>
    rw [RetirePc.step] at h
    split at h <;> cases h <;> rfl
  | drop nt p i n =>
    cases p <;> cases h <;> rfl
  | _ =>
    cases h
    rfl

/-- The function returns only after the link is written. -/
theorem link_linked {m m' : Mem} {l : Local} {last last' node : Obj} {pc : LinkPc}
    {r : Option LinkPc} (h : pc.step m l last node = (m', last', r)) (hr : ∀ pc', r = some pc' → pc'.linked) :
    pc.linked ∨ ∃ p, pc = .casNext p ∧ m.next p = none := by
  cases pc with
  | reserve pc =>
    cases pc with
    | check ep p =>
      simp only [LinkPc.step, ReservePc.step] at h
      split at h <;> cases h <;> cases hr _ rfl
    | _ => cases h; cases hr _ rfl
  | loadNext p =>
    rw [LinkPc.step] at h
    split at h <;> cases h <;> cases hr _ rfl
  | casNext p =>
    rw [LinkPc.step] at h
    split at h
    · rename_i hn
      exact .inr ⟨p, rfl, hn⟩
    · cases h
      cases hr _ rfl
  | casHelp p n =>
    cases h
    cases hr _ rfl
  | casLast p | release pc => exact .inl rfl

theorem linked_stays {m m' : Mem} {l : Local} {last last' node : Obj} {pc pc' : LinkPc}
    (h : pc.step m l last node = (m', last', some pc')) (hl : pc.linked) : pc'.linked := by
  cases pc with
  | casLast p =>
    cases h
    rfl
  | release pc =>
    cases pc <;> cases h
    rfl
  | _ => cases hl

theorem link_return {m m' : Mem} {l : Local} {last last' node : Obj} {pc : LinkPc}
    (h : pc.step m l last node = (m', last', none)) :
    ∃ ep, pc = .release (.store ep) ∧ m'.next = m.next ∧ m'.fresh = m.fresh ∧ last' = last := by
  cases pc with
  | reserve pc =>
    rw [LinkPc.step] at h
    split at h <;> cases h
  | loadNext p | casNext p =>
    rw [LinkPc.step] at h
    split at h <;> cases h
  | casHelp p n | casLast p => cases h
  | release pc =>
    cases pc with
    | loadEpoch => cases h
    | store ep =>
      cases h
      exact ⟨ep, rfl, rfl, rfl, rfl⟩

namespace Chain.Link

variable {next : Obj → Option Obj} {node : Obj} {pc : LinkPc}

theorem dead_eq (h : c.Link next node pc c') : c'.dead = c.dead := by
  cases h <;> rfl

theorem subset (h : c.Link next node pc c') : c.live ++ c.off ⊆ c'.live ++ c'.off := by
  cases h with
  | same => exact fun _ ho => ho
  | live hp hn =>
    intro o ho
    simp only [List.mem_append, Chain.off] at ho ⊢
    tauto
  | lost hp hn =>
    intro o ho
    simp only [List.mem_append, Chain.off] at ho ⊢
    tauto

theorem live_eq (h : c.Link next node pc c') :
    c'.live = c.live ∨ c'.live = c.live ++ [node] ∧ pc.linked = false := by
  cases h with
  | same => exact .inl rfl
  | live hp hn => exact .inr ⟨rfl, rfl⟩
  | lost hp hn => exact .inl rfl

/-- After the link is written the node is in the chain. -/
theorem mem (h : c.Link next node pc c') {p : Obj} (hpc : pc = .casNext p) (hn : next p = none) :
    node ∈ c'.live ++ c'.off := by
  cases h with
  | same hs => exact absurd hn (hs p hpc)
  | live hp hn => simp
  | lost hp hn => simp [Chain.off]

end Chain.Link

/-! ## The threads -/

/-- A step of thread `t` that allocates a node at most. -/
theorem History.thread (h : History s c) {t : Tid} {p : EnqPc Cmd} (hissuer : s'.issuer = s.issuer)
    (hcmd : s'.cmd = s.cmd) (hfresh : s.mem.fresh ≤ s'.mem.fresh)
    (hret : s'.returned = s.returned) (hopc : s'.opc = s.opc)
    (hpc : s'.pc = Function.update s.pc t p)
    (hnode : ∀ o, p.node = some o → (s.pc t).node = some o ∨ s.mem.fresh ≤ o)
    (hlink : ∀ node pc, p = .link node pc →
      (∃ pc', s.pc t = .link node pc') ∧ (pc.linked → node ∈ c.live ++ c.off)) : History s' c := by
  refine h.frame hissuer hcmd hfresh hret ?_ (fun o ho => .inl (hopc ▸ ho)) ?_
  · intro t' o ho
    by_cases he : t' = t
    · subst he
      rw [hpc, Function.update_self] at ho
      exact hnode o ho
    · rw [hpc, Function.update_of_ne he] at ho
      exact .inl ho
  · intro t' node pc hp
    by_cases he : t' = t
    · subst he
      rw [hpc, Function.update_self] at hp
      exact hlink node pc hp
    · rw [hpc, Function.update_of_ne he] at hp
      exact ⟨⟨pc, hp⟩, (h.linking t' node pc hp).2.2.2⟩

/-- A thread goes on without touching the nodes. -/
theorem Inv.thread_move (h : Inv s c) (t : Tid) (p : EnqPc Cmd) (hnode : p.node = none)
    (b b' : Bool) : Inv ({ s with mustwake := b, token := b' }.goto t p) c := by
  have hheld : ∀ o, p.work.held = some o → p.node = some o := by
    cases p with
    | link node pc => cases hnode
    | _ => exact fun _ => id
  refine ⟨?_, h.phase, h.ran, ?_⟩
  · rw [view_goto]
    refine h.shape.move (some t) p.work (fun o ho => ?_) (fun o ho => ?_) ?_
    · cases hnode ▸ hheld o ho
    · cases hnode ▸ hheld o (Work.held_of_clean ho)
    · rintro node pc hp
      cases p <;> cases hp
      cases hnode
  · refine h.history.thread (t := t) (p := p) rfl rfl (Nat.le_refl _) rfl rfl rfl ?_ ?_
    · intro o ho
      cases hnode ▸ ho
    · rintro node pc rfl
      cases hnode

/-- A thread performs an access of `SharedObj_create`. -/
theorem Inv.thread_create (h : Inv s c) {t : Tid} {cmd : Cmd} {pc pc' : CreatePc} {m : Mem}
    {l : Local} (hpc : s.pc t = .create cmd pc)
    (hstep : pc.step P.toParams s.mem (s.loc t) = (m, l, .inl pc')) :
    Inv ({ s with mem := m, loc := Function.update s.loc t l }.goto t (.create cmd pc')) c := by
  have hwork : s.view.work (some t) = .create pc := by simp [State.view, hpc, EnqPc.work]
  have hfresh := create_fresh P.toParams s.mem (s.loc t) pc
  have hshape := h.shape.create_step (P := P.toParams) (m := s.mem) (l := s.loc t) rfl rfl hwork
  rw [hstep] at hfresh hshape
  refine ⟨?_, h.phase, h.ran, ?_⟩
  · rw [view_goto]
    exact hshape
  · refine h.history.thread (t := t) (p := .create cmd pc') rfl rfl hfresh rfl rfl rfl ?_ (fun _ _ hn => by cases hn)
    intro o ho
    rw [hpc]
    exact create_self hstep ho

omit [DecidableEq Tid] in
/-- The node a thread links is not one that another agent holds. -/
theorem Inv.linking_ne (h : Inv s c) {t : Tid} {node o : Obj} {pc : LinkPc} {a : Option Tid}
    (hpc : s.pc t = .link node pc) (ho : (s.view.work a).held = some o) (ha : a ≠ some t) :
    node ≠ o := by
  rintro rfl
  cases hl : pc.linked with
  | false =>
    refine ha (h.shape.own a (some t) node ho ?_)
    simp [State.view, hpc, EnqPc.work, Work.held, hl]
  | true => exact (h.shape.held a node ho).2 ((h.history.linking t node pc hpc).2.2.2 hl)

omit [DecidableEq Tid] in
theorem before_congr {issuer issuer' : Obj → Option Tid} {l : List Obj}
    (h : l.Pairwise (Before issuer)) (heq : ∀ o ∈ l, issuer' o = issuer o) :
    l.Pairwise (Before issuer') := by
  refine h.imp_of_mem fun {a b} ha hb hab t hat hbt => ?_
  rw [heq a ha] at hat
  rw [heq b hb] at hbt
  exact hab t hat hbt

omit [DecidableEq Tid] in
theorem ran_congr {cmd cmd' : Obj → Option Cmd} {l : List Obj} (heq : ∀ o ∈ l, cmd' o = cmd o) :
    l.filter (fun o => (cmd' o).isSome) = l.filter fun o => (cmd o).isSome :=
  List.filter_congr fun o ho => by rw [heq o ho]

/-- A thread returns from `SharedObj_create` and fills in its command. -/
theorem Inv.thread_created (h : Inv s c) {t : Tid} {cmd : Cmd} {pc : CreatePc} {m : Mem}
    {l : Local} {node : Obj} (hpc : s.pc t = .create cmd pc)
    (hstep : pc.step P.toParams s.mem (s.loc t) = (m, l, .inr node)) :
    Inv ({ s with
      mem := m, loc := Function.update s.loc t l,
      cmd := Function.update s.cmd node (some cmd),
      issuer := Function.update s.issuer node (some t) }.goto t (.link node .start)) c := by
  have hwork : s.view.work (some t) = .create pc := by simp [State.view, hpc, EnqPc.work]
  have hshape := h.shape.create_step (P := P.toParams) (m := s.mem) (l := s.loc t) rfl rfl hwork
  rw [hstep] at hshape
  obtain ⟨hself, hfresh⟩ := create_return hstep
  have hheld : (s.view.work (some t)).held = some node := by rw [hwork]; exact hself
  obtain ⟨hlt, hout⟩ := h.shape.held _ _ hheld
  have hne : ∀ o ∈ c.live ++ c.off, o ≠ node := fun o ho => ne_of_mem_of_not_mem ho hout
  have hdead : ∀ o ∈ c.dead ++ c.live, o ≠ node := by
    intro o ho
    refine hne o ?_
    rcases List.mem_append.1 ho with ho | ho
    · exact List.mem_append_right _ (List.mem_append_left _ ho)
    · exact List.mem_append_left _ ho
  have hret : ∀ o ∈ s.returned, o ≠ node := fun o ho => hne o (h.history.returned o ho).1
  have hother : ∀ t' node' pc', t' ≠ t → s.pc t' = .link node' pc' → node' ≠ node :=
    fun t' node' pc' ht' hp => h.linking_ne hp hheld fun e => ht' (Option.some.inj e).symm
  have howner : ∀ o, s.opc.work.held = some o → o ≠ node := by
    rintro o ho rfl
    cases h.shape.own none (some t) o ho hheld
  refine ⟨?_, ?_, ?_, ?_⟩
  · rw [view_goto]
    exact hshape
  · refine h.phase.grow (List.append_nil _).symm (fun o ho => ?_) (fun o ho => ?_) (fun _ hn => by cases hn)
      fun _ ha => ha
    · exact Function.update_of_ne (hne o (List.mem_append_left _ ho)) ..
    · exact Function.update_of_ne (howner o ho) ..
  · refine h.ran.trans (congrArg (· ++ _) (ran_congr fun o ho => ?_).symm)
    exact Function.update_of_ne (hdead o (List.mem_append_left _ ho)) ..
  · refine
      { order := before_congr h.history.order fun o ho => Function.update_of_ne (hdead o ho) ..
        issued := ?_
        newest := ?_
        dummy := ?_
        linking := ?_
        returned := ?_
        returned_order := before_congr h.history.returned_order fun o ho =>
          Function.update_of_ne (hret o ho) .. }
    · intro o t' ho
      change o < m.fresh
      rw [hfresh]
      by_cases he : o = node
      · exact he ▸ hlt
      · exact h.history.issued o t' (by simpa [State.goto, Function.update_of_ne he] using ho)
    · intro t' o ho o' ho'
      by_cases ht : t' = t
      · subst ht
        obtain rfl : node = o := by simpa [State.goto, EnqPc.node] using ho
        by_cases he : o' = node
        · exact Nat.le_of_eq he
        · refine h.history.newest t' node (by rw [hpc]; exact hself) o' ?_
          simpa [State.goto, Function.update_of_ne he] using ho'
      · have he : o' ≠ node := by
          rintro rfl
          simp only [State.goto, Function.update_self, Option.some.injEq] at ho'
          exact ht ho'.symm
        simp only [State.goto, Function.update_of_ne ht, Function.update_of_ne he] at ho ho'
        exact h.history.newest t' o ho o' ho'
    · intro o ho
      simp only [State.goto, Function.update_of_ne (howner o ho)]
      exact h.history.dummy o ho
    · intro t' node' pc' hp
      by_cases ht : t' = t
      · subst ht
        simp only [State.goto, Function.update_self, EnqPc.link.injEq] at hp
        obtain ⟨rfl, rfl⟩ := hp
        simp only [State.goto, Function.update_self]
        exact ⟨trivial, rfl, fun hm => hret _ hm rfl, fun hn => by cases hn⟩
      · simp only [State.goto, Function.update_of_ne ht] at hp
        simp only [State.goto, Function.update_of_ne (hother t' node' pc' ht hp)]
        exact h.history.linking t' node' pc' hp
    · intro o ho
      simp only [State.goto, Function.update_of_ne (hret o ho)]
      exact h.history.returned o ho

omit [DecidableEq Tid] in
/-- In `enqueueLockfree` positions before `q->last` stay before it. -/
theorem Inv.link_after (h : Inv s c) {node : Obj} {pc : LinkPc} {a : Option Tid} {m : Mem}
    {l : Local} (hwork : s.view.work a = .link node pc) (hlink : c.Link s.mem.next node pc c')
    {p : Obj} (hp : After c.live p s.last) :
    After c'.live p (pc.step m l s.last node).2.1 := by
  have hlast : After c.live p (pc.step m l s.last node).2.1 := by
    rcases h.shape.link_last (m := m) (l := l) hwork with he | hn
    · rw [show (pc.step m l s.last node).2.1 = s.last from he]
      exact hp
    · exact hp.advance h.shape.links hn
  rcases hlink.live_eq with he | ⟨he, -⟩
  · rwa [he]
  · rw [he]
    exact hlast.append [node]

omit [DecidableEq Tid] in
/-- What a thread's access of `enqueueLockfree` does to phase and history before the thread moves. -/
theorem Inv.thread_link_chain (h : Inv s c) {t : Tid} {node : Obj} {pc : LinkPc} {m : Mem}
    {l : Local} (hpc : s.pc t = .link node pc) (hlink : c.Link s.mem.next node pc c') :
    Phase s.first (pc.step m l s.last node).2.1 s.cmd c' s.opc ∧ Ran s c' ∧ History s c' := by
  have hwork : s.view.work (some t) = .link node pc := by simp [State.view, hpc, EnqPc.work]
  obtain ⟨hissuer, hcmd, -, -⟩ := h.history.linking t node pc hpc
  have hafter : ∀ p, After c.live p s.last → After c'.live p (pc.step m l s.last node).2.1 :=
    fun p hp => h.link_after hwork hlink hp
  refine ⟨?_, ?_, ?_⟩
  · rcases hlink.live_eq with he | ⟨he, -⟩
    · exact h.phase.grow (he.trans (List.append_nil _).symm) (fun _ _ => rfl) (fun _ _ => rfl) (fun _ hn => by cases hn)
        hafter
    · refine h.phase.grow he (fun _ _ => rfl) (fun _ _ => rfl) (fun o ho => ?_) hafter
      rw [List.mem_singleton.1 ho]
      exact hcmd
  · rw [Ran, hlink.dead_eq]
    exact h.ran
  · rcases hlink.live_eq with he | ⟨he, hl⟩
    · exact h.history.extend hlink.dead_eq (he.trans (List.append_nil _).symm) hlink.subset .nil (fun _ _ _ hn => by cases hn)
    · refine h.history.extend hlink.dead_eq he hlink.subset (List.pairwise_singleton ..) ?_
      intro a ha b hb t' hat hbt
      rw [List.mem_singleton.1 hb] at hbt ⊢
      obtain rfl : t = t' := Option.some.inj (hissuer.symm.trans hbt)
      have hout := (h.shape.held (some t) node (by rw [hwork]; simp [Work.held, hl])).2
      have hne : a ≠ node := by
        rintro rfl
        refine hout ?_
        simp only [List.mem_append, Chain.off] at ha ⊢
        tauto
      refine Nat.lt_of_le_of_ne (h.history.newest t node ?_ a hat) hne
      rw [hpc]
      rfl

theorem Chain.Link.lost_eq {next : Obj → Option Obj} {node : Obj} {pc : LinkPc}
    (h : c.Link next node pc c') :
    c'.lost = c.lost ∨ ∃ p, pc = .casNext p ∧ next p = none ∧ p ∈ c.dead := by
  cases h with
  | lost hp hn => exact .inr ⟨_, rfl, hn, hp⟩
  | _ => exact .inl rfl

/-- A thread performs an access of `enqueueLockfree`. -/
theorem Inv.thread_link (h : Inv s c) {t : Tid} {node : Obj} {pc pc' : LinkPc} {m : Mem} {last : Obj}
    (hpc : s.pc t = .link node pc)
    (hstep : pc.step s.mem (s.loc t) s.last node = (m, last, some pc')) :
    ∃ c', Inv ({ s with mem := m, last := last }.goto t (.link node pc')) c' ∧
      (c'.lost = c.lost ∨ LinksRetired s (.run t)) := by
  have hwork : s.view.work (some t) = .link node pc := by simp [State.view, hpc, EnqPc.work]
  obtain ⟨c', hlink, hshape⟩ := h.shape.link_step (m := s.mem) (l := s.loc t) rfl hwork
  obtain ⟨hphase, hran, hhist⟩ := h.thread_link_chain (m := s.mem) (l := s.loc t) hpc hlink
  have hfresh := link_fresh s.mem (s.loc t) s.last node pc
  have hlast : (pc.step s.mem (s.loc t) s.view.last node) = (m, last, some pc') := hstep
  rw [hlast] at hshape
  rw [hstep] at hphase hfresh
  refine ⟨c', ⟨?_, hphase, hran, ?_⟩, ?_⟩
  · rw [view_goto]
    rw [show s.view.fresh = m.fresh from hfresh.symm] at hshape
    exact hshape
  · refine hhist.thread (t := t) (p := .link node pc') rfl rfl (Nat.le_of_eq hfresh.symm) rfl rfl rfl
      (fun o ho => ?_) ?_
    · rw [hpc]
      exact .inl ho
    · rintro _ _ ⟨⟩
      refine ⟨⟨pc, hpc⟩, fun hl => ?_⟩
      rcases link_linked hstep (fun pc'' he => Option.some.inj he ▸ hl) with hl | ⟨p, hp, hn⟩
      · exact (hhist.linking t node pc hpc).2.2.2 hl
      · exact hlink.mem hp hn
  · rcases hlink.lost_eq with he | ⟨p, rfl, hn, hd⟩
    · exact .inl he
    · exact .inr ⟨node, p, hpc, hn, (h.shape.dead p).2 hd⟩

/-- A thread returns from `enqueueLockfree`. -/
theorem Inv.thread_linked (h : Inv s c) {t : Tid} {node : Obj} {pc : LinkPc} {m : Mem} {last : Obj}
    (hpc : s.pc t = .link node pc)
    (hstep : pc.step s.mem (s.loc t) s.last node = (m, last, none)) :
    Inv ({ s with mem := m, last := last, returned := s.returned ++ [node] }.goto t
      (.exchange node)) c := by
  obtain ⟨ep, rfl, hnext, hfresh, rfl⟩ := link_return hstep
  obtain ⟨hissuer, hcmd, hret, hall⟩ := h.history.linking t node _ hpc
  refine ⟨?_, h.phase, h.ran, ?_⟩
  · rw [view_goto]
    have hshape := h.shape.move (some t) .none (fun _ hn => by cases hn) (fun _ hn => by cases hn)
      (fun _ _ hn => by cases hn)
    rw [show s.view = { s.view with next := m.next, fresh := m.fresh } by
      rw [hnext, hfresh]; rfl] at hshape
    exact hshape
  · have hmove : History ({ s with mem := m }.goto t (.exchange node)) c :=
      h.history.thread rfl rfl (Nat.le_of_eq hfresh.symm) rfl rfl rfl (fun _ hn => by cases hn)
        (fun _ _ hn => by cases hn)
    refine { hmove with linking := ?_, returned := ?_, returned_order := ?_ }
    · intro t' node' pc' hp
      obtain ⟨hi, hc, hr, hm⟩ := hmove.linking t' node' pc' hp
      refine ⟨hi, hc, fun hmem => ?_, hm⟩
      rcases List.mem_append.1 hmem with hmem | hmem
      · exact hr hmem
      · rw [List.mem_singleton.1 hmem] at hi
        obtain rfl : t = t' := Option.some.inj (hissuer.symm.trans hi)
        simp [State.goto] at hp
    · intro o ho
      rcases List.mem_append.1 ho with ho | ho
      · exact h.history.returned o ho
      · rw [List.mem_singleton.1 ho]
        exact ⟨hall rfl, hcmd, by simp [State.goto, hissuer]⟩
    · refine List.pairwise_append.2 ⟨h.history.returned_order, List.pairwise_singleton .., ?_⟩
      intro a ha b hb t' hat hbt
      rw [List.mem_singleton.1 hb] at hbt ⊢
      obtain rfl : t = t' := Option.some.inj (hissuer.symm.trans hbt)
      refine Nat.lt_of_le_of_ne (h.history.newest t node ?_ a hat) ?_
      · rw [hpc]
        rfl
      · rintro rfl
        exact hret ha

/-- Every access of a thread in `enqueueCommand`. -/
theorem Inv.run (h : Inv s c) {t : Tid} (hs : enqueueCommand P s t = some s') :
    ∃ c', Inv s' c' ∧ (c'.lost = c.lost ∨ LinksRetired s (.run t)) := by
  rw [enqueueCommand] at hs
  split at hs
  · cases hs
  · rename_i cmd pc hpc
    split at hs
    · rename_i m l pc' hstep
      obtain rfl := Option.some.inj hs
      exact ⟨c, h.thread_create hpc hstep, .inl rfl⟩
    · rename_i m l node hstep
      obtain rfl := Option.some.inj hs
      exact ⟨c, h.thread_created hpc hstep, .inl rfl⟩
  · rename_i node pc hpc
    split at hs
    · rename_i m last pc' hstep
      obtain rfl := Option.some.inj hs
      exact h.thread_link hpc hstep
    · rename_i m last hstep
      obtain rfl := Option.some.inj hs
      exact ⟨c, h.thread_linked hpc hstep, .inl rfl⟩
  · rename_i node hpc
    obtain rfl := Option.some.inj hs
    exact ⟨c, h.thread_move t _ (by split <;> rfl) .., .inl rfl⟩
  · rename_i node hpc
    obtain rfl := Option.some.inj hs
    exact ⟨c, h.thread_move t _ rfl .., .inl rfl⟩

/-! ## The owner -/

omit [DecidableEq Tid] in
/-- A step of the owner that allocates a node at most. -/
theorem History.owner (h : History s c) (hissuer : s'.issuer = s.issuer) (hcmd : s'.cmd = s.cmd)
    (hfresh : s.mem.fresh ≤ s'.mem.fresh) (hret : s'.returned = s.returned) (hpc : s'.pc = s.pc)
    (hdummy : ∀ o, s'.opc.work.held = some o → s.opc.work.held = some o ∨ s.mem.fresh ≤ o) :
    History s' c := by
  refine h.frame hissuer hcmd hfresh hret (fun t o ho => .inl (hpc ▸ ho)) hdummy ?_
  intro t node pc hp
  rw [hpc] at hp
  exact ⟨⟨pc, hp⟩, (h.linking t node pc hp).2.2.2⟩

/-- The owner goes on without touching the nodes. -/
theorem Inv.owner_move (h : Inv s c) {p : OwnPc} {f : Obj} {b b' : Bool} {r : List Obj}
    (hheld : p.work.held = none) (hlink : ∀ node pc, p.work ≠ .link node pc) (hrpc : p.rpc = none)
    (hrpc' : s.opc.rpc = none) (hphase : Phase f s.last s.cmd c p)
    (hran : r = c.dead.filter (fun o => (s.cmd o).isSome) ++ p.current) :
    Inv { s with first := f, mustwake := b, token := b', ran := r, opc := p } c := by
  refine ⟨?_, hphase, hran, ?_⟩
  · refine shape_owner (s := s) rfl ?_
    have hm := h.shape.move none p.work (fun o ho => by cases hheld ▸ ho)
      (fun o ho => by cases hheld ▸ Work.held_of_clean ho) (fun node pc hp => absurd hp (hlink node pc))
    simp only [hrpc, ← hrpc']
    exact hm
  · refine h.history.owner rfl rfl (Nat.le_refl _) rfl rfl fun o ho => ?_
    cases hheld ▸ ho

/-- The owner performs an access of `SharedObj_create`. -/
theorem Inv.owner_create (h : Inv s c) {torun : Obj} {pc pc' : CreatePc} {m : Mem} {l : Local}
    (hpc : s.opc = .create torun pc) (hstep : pc.step P.toParams s.mem s.oloc = (m, l, .inl pc')) :
    Inv { s with mem := m, oloc := l, opc := .create torun pc' } c := by
  have hwork : s.view.work none = .create pc := by simp [State.view, hpc, OwnPc.work]
  have hfresh := create_fresh P.toParams s.mem s.oloc pc
  have hshape := h.shape.create_step (P := P.toParams) (m := s.mem) (l := s.oloc) rfl rfl hwork
  have hphase := h.phase
  have hran := h.ran
  rw [hstep] at hfresh hshape
  rw [hpc] at hphase
  rw [Ran, hpc] at hran
  refine ⟨?_, hphase, hran, ?_⟩
  · refine shape_owner (s := s) rfl ?_
    simp only [create_retired hstep, State.view, hpc, OwnPc.rpc] at hshape ⊢
    exact hshape
  · refine h.history.owner rfl rfl hfresh rfl rfl fun o ho => ?_
    rw [hpc]
    exact create_self hstep ho

/-- The owner returns from `SharedObj_create` with the new dummy. -/
theorem Inv.owner_created (h : Inv s c) {torun dummy : Obj} {pc : CreatePc} {m : Mem} {l : Local}
    (hpc : s.opc = .create torun pc)
    (hstep : pc.step P.toParams s.mem s.oloc = (m, l, .inr dummy)) :
    Inv { s with mem := m, oloc := l, cmd := Function.update s.cmd dummy none,
                 opc := .link torun dummy .start } c := by
  have hwork : s.view.work none = .create pc := by simp [State.view, hpc, OwnPc.work]
  have hshape := h.shape.create_step (P := P.toParams) (m := s.mem) (l := s.oloc) rfl rfl hwork
  have hphase := h.phase
  have hran := h.ran
  rw [hstep] at hshape
  rw [hpc] at hphase
  rw [Ran, hpc] at hran
  obtain ⟨hself, hfresh⟩ := create_return hstep
  have hheld : (s.view.work none).held = some dummy := by rw [hwork]; exact hself
  have hne : ∀ o ∈ c.live ++ c.off, o ≠ dummy :=
    fun o ho => ne_of_mem_of_not_mem ho (h.shape.held _ _ hheld).2
  refine ⟨?_, ?_, ?_, ?_⟩
  · refine shape_owner (s := s) rfl ?_
    simp only [create_retired hstep, State.view, hpc, OwnPc.rpc] at hshape ⊢
    exact hshape
  · refine ⟨by rintro _ ⟨⟩, ?_, Function.update_self ..⟩
    refine Queued.grow hphase (List.append_nil _).symm (fun o ho => ?_) (fun _ hn => by cases hn)
    exact Function.update_of_ne (hne o (List.mem_append_left _ ho)) ..
  · refine hran.trans (congrArg (· ++ _) (ran_congr fun o ho => ?_).symm)
    exact Function.update_of_ne
      (hne o (List.mem_append_right _ (List.mem_append_left _ ho))) ..
  · have hmove : History { s with mem := m, opc := .link torun dummy .start } c := by
      refine h.history.owner rfl rfl (Nat.le_of_eq hfresh.symm) rfl rfl fun o ho => .inl ?_
      rw [hpc]
      exact hself.trans ho
    refine { hmove with linking := ?_, returned := ?_ }
    · intro t node pc' hp
      simp only [Function.update_of_ne (h.linking_ne hp hheld (fun hn => by cases hn))]
      exact h.history.linking t node pc' hp
    · intro o ho
      simp only [Function.update_of_ne (hne o (h.history.returned o ho).1)]
      exact h.history.returned o ho

omit [DecidableEq Tid] in
/-- What the owner knows after an access of `enqueueLockfree` for its dummy. -/
theorem Inv.owner_link_phase (h : Inv s c) {torun dummy : Obj} {pc pc' : LinkPc} {m : Mem}
    {last : Obj} (hpc : s.opc = .link torun dummy pc) (hlink : c.Link s.mem.next dummy pc c')
    (hstep : pc.step s.mem s.oloc s.last dummy = (m, last, some pc')) :
    Phase s.first last s.cmd c' (.link torun dummy pc') := by
  have hphase := h.phase
  rw [hpc] at hphase
  obtain ⟨hptr, hphase⟩ := hphase
  have hok := h.shape.link none dummy pc (by simp [State.view, hpc, OwnPc.work])
  cases pc with
  | reserve pc =>
    obtain rfl : c' = c := by cases hlink; rfl
    cases pc with
    | loadEpoch | store ep =>
      cases hstep
      exact ⟨by rintro _ ⟨⟩, hphase⟩
    | read ep =>
      cases hstep
      exact ⟨fun p hp => Option.some.inj hp ▸ h.shape.last, hphase⟩
    | check ep p =>
      simp only [LinkPc.step, ReservePc.step] at hstep
      split at hstep <;> rename_i heq <;> split at heq <;> cases heq <;> cases hstep
      · exact ⟨by rintro _ ⟨⟩, hphase⟩
      · exact ⟨hptr, hphase⟩
  | loadNext p =>
    obtain rfl : c' = c := by cases hlink; rfl
    rw [LinkPc.step] at hstep
    split at hstep <;> cases hstep <;> exact ⟨hptr, hphase⟩
  | casNext p =>
    rw [LinkPc.step] at hstep
    cases hlink with
    | same hs =>
      split at hstep
      · exact absurd ‹_› (hs p rfl)
      · cases hstep
        exact ⟨by rintro _ ⟨⟩, hphase⟩
    | live hp hn =>
      split at hstep <;> cases hstep
      · obtain ⟨⟨post, he, hf, hc⟩, hd⟩ := hphase
        refine ⟨fun q hq => List.mem_append_left _ (hptr q hq), ⟨post, [], ?_, hf, hd, hc, fun _ hn => by cases hn⟩,
          (fun hn => by cases hn)⟩
        simp [he]
      · simp_all
    | lost hp hn => exact absurd (List.mem_append_left _ hp) (h.shape.not_off (hptr p rfl))
  | casHelp p n =>
    obtain rfl : c' = c := by cases hlink; rfl
    cases hstep
    exact ⟨by rintro _ ⟨⟩, hphase⟩
  | casLast p =>
    obtain rfl : c' = c := by cases hlink; rfl
    cases hstep
    obtain ⟨hclosed, -⟩ := hphase
    refine ⟨by rintro _ ⟨⟩, hclosed, fun _ => ?_⟩
    rcases hok with hd | ⟨ha, hn⟩
    · exact absurd (List.mem_append_left _ hd) (h.shape.not_off (hptr p rfl))
    · split_ifs with hlast
      · obtain ⟨batch, post, he, -⟩ := hclosed
        exact .refl (by simp [he])
      · exact ha.follow h.shape.links hn hlast
  | release pc =>
    obtain rfl : c' = c := by cases hlink; rfl
    cases pc with
    | loadEpoch =>
      cases hstep
      exact ⟨by rintro _ ⟨⟩, hphase⟩
    | store ep => cases hstep

/-- The owner performs an access of `enqueueLockfree`. -/
theorem Inv.owner_link (h : Inv s c) {torun dummy : Obj} {pc pc' : LinkPc} {m : Mem} {last : Obj}
    (hpc : s.opc = .link torun dummy pc)
    (hstep : pc.step s.mem s.oloc s.last dummy = (m, last, some pc')) :
    ∃ c', Inv { s with mem := m, last := last, opc := .link torun dummy pc' } c' ∧
      c'.lost = c.lost := by
  have hwork : s.view.work none = .link dummy pc := by simp [State.view, hpc, OwnPc.work]
  obtain ⟨c', hlink, hshape⟩ := h.shape.link_step (m := s.mem) (l := s.oloc) rfl hwork
  have hphase := h.owner_link_phase hpc hlink hstep
  have hfresh := link_fresh s.mem s.oloc s.last dummy pc
  have hlast : pc.step s.mem s.oloc s.view.last dummy = (m, last, some pc') := hstep
  have hran := h.ran
  rw [hlast] at hshape
  rw [hstep] at hfresh
  rw [Ran, hpc, ← hlink.dead_eq] at hran
  refine ⟨c', ⟨?_, hphase, hran, ?_⟩, ?_⟩
  · refine shape_owner (s := s) rfl ?_
    rw [show s.view.fresh = m.fresh from hfresh.symm] at hshape
    simp only [State.view, hpc, OwnPc.rpc] at hshape ⊢
    exact hshape
  · have hhist : History s c' := by
      rcases hlink.live_eq with he | ⟨he, hl⟩
      · exact h.history.extend hlink.dead_eq (he.trans (List.append_nil _).symm) hlink.subset .nil
          (fun _ _ _ hn => by cases hn)
      · refine h.history.extend hlink.dead_eq he hlink.subset (List.pairwise_singleton ..) ?_
        intro a _ b hb t _ hbt
        have hnone := h.history.dummy dummy (by simp [hpc, OwnPc.work, Work.held, hl])
        rw [List.mem_singleton.1 hb, hnone] at hbt
        cases hbt
    refine hhist.owner rfl rfl (Nat.le_of_eq hfresh.symm) rfl rfl fun o ho => .inl ?_
    have hl : pc.linked = false := by
      by_contra hl
      simp [OwnPc.work, Work.held, linked_stays hstep (Bool.not_eq_false _ ▸ hl)] at ho
    have hl' : pc'.linked = false := by
      by_contra hl'
      simp [OwnPc.work, Work.held, hl'] at ho
    simpa [hpc, OwnPc.work, Work.held, hl, hl'] using ho
  · rcases hlink.lost_eq with he | ⟨p, rfl, hn, hd⟩
    · exact he
    · have hptr := h.phase
      rw [hpc] at hptr
      exact absurd (List.mem_append_left _ hd) (h.shape.not_off (hptr.1 p rfl))

/-- The owner passes the head of the live nodes to `SharedObj_retire`. -/
theorem Inv.retire (h : Inv s c) {o : Obj} {l : List Obj} {m : Mem} {k : RetirePc → OwnPc}
    (hnext : m.next = s.mem.next) (hfresh : m.fresh = s.mem.fresh) (hrpc : s.opc.rpc = none)
    (hk : (k (.loadEpoch o)).rpc = some (.loadEpoch o)) (hk' : (k (.loadEpoch o)).work = .none)
    (hlive : c.live = o :: l) (hlast : s.last ∈ l)
    (hphase : Phase s.first s.last s.cmd { c with dead := c.dead ++ [o], live := l }
      (k (.loadEpoch o)))
    (hran : s.ran = (c.dead ++ [o]).filter (fun o => (s.cmd o).isSome) ++
      (k (.loadEpoch o)).current) :
    Inv ({ s with mem := m }.retire o k) { c with dead := c.dead ++ [o], live := l } := by
  refine ⟨?_, hphase, hran, ?_⟩
  · refine shape_owner (s := s) rfl ?_
    have hmove := (h.shape.move none .none (fun _ hn => by cases hn) (fun _ hn => by cases hn)
      (fun _ _ hn => by cases hn)).retire hlive hlast hrpc
    simp only [State.retire, hk, hk', hnext, hfresh]
    exact hmove
  · have hhist : History s { c with dead := c.dead ++ [o], live := l } :=
      h.history.shift (by simp [hlive]) rfl
    refine hhist.owner rfl rfl (Nat.le_of_eq hfresh.symm) rfl rfl fun x hx => ?_
    simp [State.retire, hk', Work.held] at hx

/-- The owner returns from `enqueueLockfree` and retires the old dummy. -/
theorem Inv.owner_linked (h : Inv s c) {torun dummy : Obj} {pc : LinkPc} {m : Mem} {last : Obj}
    (hpc : s.opc = .link torun dummy pc)
    (hstep : pc.step s.mem s.oloc s.last dummy = (m, last, none)) :
    ∃ c', Inv ({ s with mem := m, last := last }.retire s.first (.retireFirst torun dummy)) c' ∧
      c'.lost = c.lost := by
  obtain ⟨ep, rfl, hnext, hfresh, rfl⟩ := link_return hstep
  have hphase := h.phase
  have hran := h.ran
  rw [hpc] at hphase
  rw [Ran, hpc] at hran
  obtain ⟨-, ⟨batch, post, he, hf, hd, hb, hp⟩, hafter⟩ := hphase
  have hmem : s.last ∈ dummy :: post := by
    refine (he ▸ hafter rfl).mem_of_nodup ?_
    exact he ▸ (List.nodup_append.1 h.shape.nodup).1
  refine ⟨_, h.retire hnext hfresh (by rw [hpc]; rfl) rfl rfl he
    (List.mem_append_right _ hmem) ?_ ?_, rfl⟩
  · exact ⟨torun :: batch, post, rfl, rfl, hd, hb, hp, _, _, rfl, hmem⟩
  · simp [hran, hf, OwnPc.current]

/-- The owner reads the node after the one it ran, which it retires. -/
theorem Inv.owner_loadNext (h : Inv s c) {torun dummy : Obj} (hpc : s.opc = .loadNext torun dummy) :
    ∃ c', Inv (s.retire torun (.retireRun dummy (s.mem.next torun))) c' ∧ c'.lost = c.lost := by
  have hphase := h.phase
  have hran := h.ran
  rw [hpc] at hphase
  rw [Ran, hpc] at hran
  obtain ⟨hfirst, hne, batch, post, he, ht, hd, hb, hp, hafter⟩ := hphase
  cases batch with
  | nil =>
    obtain rfl : dummy = torun := by simpa using ht
    exact absurd rfl hne
  | cons node batch =>
    obtain rfl : node = torun := by simpa using ht
    have hnd : (node :: batch ++ dummy :: post).Nodup :=
      he ▸ (List.nodup_append.1 h.shape.nodup).1
    have hmem : s.last ∈ dummy :: post := (he ▸ hafter).mem_of_nodup hnd
    have hlinks : Links s.mem.next (node :: batch ++ dummy :: post) := he ▸ h.shape.links
    have hnext : s.mem.next node = (batch ++ dummy :: post).head? := Links.next_head hlinks
    refine ⟨_, h.retire rfl rfl (by rw [hpc]; rfl) rfl rfl he
      (List.mem_append_right _ hmem) ?_ ?_, rfl⟩
    · refine ⟨hfirst, batch, post, rfl, ?_, hd, fun o ho => hb o (.tail _ ho), hp, _, _, rfl, hmem⟩
      rw [hnext]
      cases batch <;> rfl
    · simp [hran, hb node (.head _), OwnPc.current]

/-- The owner performs an access of `SharedObj_retire`. -/
theorem Inv.owner_retire (h : Inv s c) {pc : RetirePc} {m : Mem} {l : Local} {r : Option RetirePc}
    {p : OwnPc} (hpc : s.opc.rpc = some pc) (hstep : pc.step P.toParams s.mem s.oloc = (m, l, r))
    (hrpc : p.rpc = r) (hwork : p.work = .none) (hcur : p.current = s.opc.current)
    (hphase : Phase s.first s.last s.cmd c p) : Inv { s with mem := m, oloc := l, opc := p } c := by
  have hshape := (h.shape.move none .none (fun _ hn => by cases hn) (fun _ hn => by cases hn)
      (fun _ _ hn => by cases hn)).retire_step (P := P.toParams)
    (m := s.mem) (l := s.oloc) rfl rfl hpc
  have hran := h.ran
  rw [hstep] at hshape
  rw [Ran, ← hcur] at hran
  have hfresh := retire_fresh hstep
  refine ⟨?_, hphase, hran, ?_⟩
  · refine shape_owner (s := s) rfl ?_
    simp only [hwork, hrpc, hfresh]
    exact hshape
  · refine h.history.owner rfl rfl (Nat.le_of_eq hfresh.symm) rfl rfl fun o ho => ?_
    simp [hwork, Work.held] at ho

/-- Every access of the owner. -/
theorem Inv.owner (h : Inv s c) (hs : runOwner P s = some s') :
    ∃ c', Inv s' c' ∧ c'.lost = c.lost := by
  have hphase := h.phase
  have hran := h.ran
  rw [Ran] at hran
  rw [runOwner] at hs
  cases hpc : s.opc with
  | poll => simp [hpc] at hs
  | clear reported =>
    simp only [hpc, Option.some.injEq] at hs hphase hran
    subst hs
    refine ⟨c, h.owner_move ?_ ?_ ?_ (by rw [hpc]; rfl) ?_ ?_, rfl⟩ <;> split <;>
      first | rfl | exact hphase | exact hran | exact fun _ _ hn => by cases hn
  | drain =>
    simp only [hpc, Option.some.injEq] at hs hphase hran
    subst hs
    exact ⟨c, h.owner_move rfl (fun _ _ hn => by cases hn) rfl (by rw [hpc]; rfl) hphase hran, rfl⟩
  | loadFirst =>
    simp only [hpc, Option.some.injEq] at hs hphase hran
    subst hs
    refine ⟨c, h.owner_move rfl (fun _ _ hn => by cases hn) rfl (by rw [hpc]; rfl) ?_ hran, rfl⟩
    obtain ⟨post, he, hf, hc⟩ := hphase
    have hnext : s.mem.next s.first = post.head? := Links.next_head (he ▸ h.shape.links)
    rw [hnext]
    cases post with
    | nil => exact ⟨[], he, hf, hc⟩
    | cons torun post => exact ⟨post, he, hf, hc⟩
  | storeMustwake torun =>
    cases torun with
    | none =>
      simp only [hpc, Option.some.injEq] at hs hphase hran
      subst hs
      exact ⟨c, h.owner_move rfl (fun _ _ hn => by cases hn) rfl (by rw [hpc]; rfl) hphase hran, rfl⟩
    | some torun =>
      simp only [hpc, Option.some.injEq] at hs hphase hran
      subst hs
      exact ⟨c, h.owner_move rfl (fun _ _ hn => by cases hn) rfl (by rw [hpc]; rfl) hphase hran, rfl⟩
  | create torun pc =>
    simp only [hpc] at hs
    split at hs <;> obtain rfl := Option.some.inj hs
    · exact ⟨c, h.owner_create hpc ‹_›, rfl⟩
    · exact ⟨c, h.owner_created hpc ‹_›, rfl⟩
  | link torun dummy pc =>
    simp only [hpc] at hs
    split at hs <;> obtain rfl := Option.some.inj hs
    · exact h.owner_link hpc ‹_›
    · exact h.owner_linked hpc ‹_›
  | retireFirst torun dummy pc =>
    simp only [hpc] at hs hphase
    split at hs <;> obtain rfl := Option.some.inj hs
    · exact ⟨c, h.owner_retire (by rw [hpc]; rfl) ‹_› rfl rfl (by rw [hpc]; rfl) hphase, rfl⟩
    · exact ⟨c, h.owner_retire (by rw [hpc]; rfl) ‹_› rfl rfl (by rw [hpc]; rfl) hphase, rfl⟩
  | setFirst torun dummy =>
    simp only [hpc, Option.some.injEq] at hs hphase hran
    subst hs
    exact ⟨c, h.owner_move rfl (fun _ _ hn => by cases hn) rfl (by rw [hpc]; rfl) ⟨rfl, hphase⟩ hran, rfl⟩
  | run torun dummy =>
    simp only [hpc] at hs hphase hran
    split_ifs at hs with htorun
    · obtain rfl := Option.some.inj hs
      refine ⟨c, h.owner_move rfl (fun _ _ hn => by cases hn) rfl (by rw [hpc]; rfl) ?_ hran, rfl⟩
      obtain ⟨rfl, batch, post, he, ht, hd, hb, hp, -⟩ := hphase
      -- a command is never the dummy, so the batch is used up
      cases batch with
      | nil => exact ⟨post, he, hd, hp⟩
      | cons node batch =>
        obtain rfl : node = s.first := by simpa [htorun] using ht
        exact absurd (hb _ (.head _)) (by simp [hd])
    · obtain ⟨node, rfl, rfl⟩ := Option.map_eq_some_iff.1 hs
      refine ⟨c, h.owner_move rfl (fun _ _ hn => by cases hn) rfl (by rw [hpc]; rfl) ⟨hphase.1, ?_, hphase.2⟩ ?_, rfl⟩
      · exact fun e => htorun (congrArg some e)
      · simp [hran, OwnPc.current]
  | loadNext torun dummy =>
    simp only [hpc, Option.some.injEq] at hs
    subst hs
    exact h.owner_loadNext hpc
  | retireRun dummy next pc =>
    simp only [hpc] at hs hphase
    split at hs <;> obtain rfl := Option.some.inj hs
    · exact ⟨c, h.owner_retire (by rw [hpc]; rfl) ‹_› rfl rfl (by rw [hpc]; rfl) hphase, rfl⟩
    · exact ⟨c, h.owner_retire (by rw [hpc]; rfl) ‹_› rfl rfl (by rw [hpc]; rfl) hphase, rfl⟩
  | eventsDone =>
    simp only [hpc, Option.some.injEq] at hs hphase hran
    subst hs
    exact ⟨c, h.owner_move rfl (fun _ _ hn => by cases hn) rfl (by rw [hpc]; rfl) hphase hran, rfl⟩

/-! ## All steps -/

omit [DecidableEq Tid] in
theorem Init.inv (h : Init s) : Inv s ⟨[], [s.first], []⟩ := by
  have hwork : ∀ a, s.view.work a = .none := by
    intro a
    cases a with
    | none => simp [State.view, h.opc, OwnPc.work]
    | some t => simp [State.view, h.pc, EnqPc.work]
  refine ⟨?_, ?_, ?_, ?_⟩
  · refine
      { links := ?_, nodup := ?_, old := ?_, last := ?_, dead := ?_, off := ?_, retired := ?_,
        retiring := ?_, sweeping := ?_, held := ?_, own := ?_, clean := ?_, link := ?_ }
    all_goals try simp only [hwork]
    all_goals simp [Chain.off, Links, Work.held, Work.clean, h.first, State.view, h.next, h.last,
      h.dead, h.retired, h.opc, OwnPc.rpc, h.fresh]
  · rw [h.opc]
    exact ⟨[], rfl, h.cmd _, fun _ hn => by cases hn⟩
  · simp [Ran, h.ran, h.opc, OwnPc.current]
  · constructor <;> simp [h.issuer, h.pc, h.returned, EnqPc.node, h.opc, OwnPc.work, Work.held]

/-- A step keeps the invariant, and loses no node unless it links one to a retired node. -/
theorem Inv.step (h : Inv s c) {a : Action Tid Cmd} (hs : step P s a = some s') :
    ∃ c', Inv s' c' ∧ (c'.lost = c.lost ∨ LinksRetired s a) := by
  cases a with
  | call t cmd =>
    simp only [CommandQueue.step] at hs
    split_ifs at hs
    obtain rfl := Option.some.inj hs
    exact ⟨c, h.thread_move t (.create cmd .count) rfl s.mustwake s.token, .inl rfl⟩
  | run t => exact h.run hs
  | poll reported =>
    simp only [CommandQueue.step] at hs
    split_ifs at hs with hopc
    obtain rfl := Option.some.inj hs
    have hphase := h.phase
    have hran := h.ran
    rw [hopc.1] at hphase
    rw [Ran, hopc.1] at hran
    exact ⟨c, h.owner_move rfl (fun _ _ hn => by cases hn) rfl (by rw [hopc.1]; rfl) hphase hran, .inl rfl⟩
  | owner =>
    obtain ⟨c', hc', hl⟩ := h.owner hs
    exact ⟨c', hc', .inl hl⟩
  | register =>
    obtain rfl := Option.some.inj hs
    exact ⟨c, ⟨h.shape, h.phase, h.ran, { h.history with }⟩, .inl rfl⟩

end PoserCore.CommandQueue
