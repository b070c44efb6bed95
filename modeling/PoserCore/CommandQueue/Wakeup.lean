import PoserCore.CommandQueue.Safety

/-!
# Wake-ups

The owner must not sleep while commands wait.  It announces that it wants a wake-up by storing 1 to
`mustwake`, which it does after it looked for commands: a command linked in between is not seen by
the owner, and an enqueuer that exchanges `mustwake` in between is told that no wake-up is needed.

In every run in which the owner, having found nothing, makes that store only while the queue is
still empty or somebody is about to wake it (`Covered`), an owner that sleeps with no wake-up on its
way has nothing to do (`no_lost_wakeup`).  `lost_wakeup` is a run that breaks the condition.
-/

namespace PoserCore.CommandQueue

open Lib SharedObj

variable {Tid Cmd : Type}

/-- The thread has linked its node and not yet finished the exchange and the wake-up. -/
def EnqPc.inFlight : EnqPc Cmd → Bool
  | .link _ pc => pc.linked
  | .exchange _ | .wake _ => true
  | _ => false

/-- The owner sleeps, and nobody is going to wake it. -/
structure Stranded (s : State Tid Cmd) : Prop where
  blocked : s.opc = .poll
  token : s.token = false
  quiet : ∀ t, (s.pc t).inFlight = false

/-- A command that was not run can be reached from `q->first`. -/
def Waiting (s : State Tid Cmd) : Prop :=
  ∃ o, Reaches s s.first o ∧ (s.cmd o).isSome ∧ o ∉ s.ran

/-- When the owner, having found no command, stores to `mustwake`, there is still none, or a
wake-up is on its way. -/
def Covered (s : State Tid Cmd) : Action Tid Cmd → Prop
  | .owner => s.opc = .storeMustwake none →
      s.mem.next s.first = none ∨ s.token = true ∨ ∃ t, (s.pc t).inFlight = true
  | _ => True

/-- The store to `mustwake` is done, and its effect was not revoked. -/
def OwnPc.armed : OwnPc → Bool
  | .clear _ | .drain | .loadFirst | .storeMustwake _ => false
  | _ => true

/-- The dummy behind which the commands for the next round are linked. -/
def OwnPc.tail (first : Obj) : OwnPc → Option Obj
  | .poll | .eventsDone => some first
  | .link _ dummy pc => if pc.linked then some dummy else none
  | .retireFirst _ dummy _ | .setFirst _ dummy | .run _ dummy | .loadNext _ dummy
  | .retireRun dummy _ _ => some dummy
  | _ => none

/-- Commands for the next round and a cleared flag both mean that a wake-up is on its way. -/
structure Wakeable (s : State Tid Cmd) : Prop where
  pending : ∀ d, s.opc.tail s.first = some d → s.mem.next d ≠ none →
    s.token = true ∨ ∃ t, (s.pc t).inFlight = true
  signalled : s.opc.armed = true → s.mustwake = false →
    s.token = true ∨ ∃ t node, s.pc t = .wake node

/-! ## Where the functions write links -/

theorem create_next {P : SharedObj.Params} {m m' : Mem} {l l' : Local} {pc : CreatePc}
    {r : CreatePc ⊕ Obj} (h : pc.step P m l = (m', l', r)) {o : Obj} (ho : createSelf pc ≠ some o) :
    m'.next o = m.next o := by
  cases pc with
  | count =>
    rw [CreatePc.step] at h
    split at h <;> cases h <;> rfl
  | storeNext self created =>
    cases h
    exact Function.update_of_ne (fun e => ho (congrArg some e.symm)) ..
  | _ =>
    cases h
    rfl

theorem link_next {m m' : Mem} {l : Local} {last last' node : Obj} {pc : LinkPc} {r : Option LinkPc}
    (h : pc.step m l last node = (m', last', r)) (o : Obj) :
    m'.next o = m.next o ∨ pc = .casNext o ∧ m.next o = none ∧ r = some (.casLast o) := by
  cases pc with
  | reserve pc =>
    cases pc with
    | check ep p =>
      simp only [LinkPc.step, ReservePc.step] at h
      split at h <;> rename_i heq <;> split at heq <;> cases heq <;> cases h <;> exact .inl rfl
    | _ =>
      cases h
      exact .inl rfl
  | loadNext p =>
    rw [LinkPc.step] at h
    split at h <;> cases h <;> exact .inl rfl
  | casNext p =>
    rw [LinkPc.step] at h
    split at h <;> cases h
    · by_cases he : o = p
      · subst he
        exact .inr ⟨rfl, ‹_›, rfl⟩
      · exact .inl (Function.update_of_ne he ..)
    · exact .inl rfl
  | casHelp p n | casLast p =>
    cases h
    exact .inl rfl
  | release pc => cases pc <;> cases h <;> exact .inl rfl

theorem retire_next {P : SharedObj.Params} {m m' : Mem} {l l' : Local} {pc : RetirePc}
    {r : Option RetirePc} (h : pc.step P m l = (m', l', r)) {o : Obj}
    (hr : retiring pc ≠ some o) (hs : o ∉ sweeping pc) : m'.next o = m.next o := by
  cases pc with
  | count | loadRes nt p i n creat retd t =>
    rw [RetirePc.step] at h
    split at h <;> cases h <;> rfl
  | storeNext so =>
    cases h
    exact Function.update_of_ne (fun e => hr (congrArg some e.symm)) ..
  | drop nt p i n =>
    cases p with
    | none =>
      cases h
      rfl
    | some p =>
      cases h
      refine Function.update_of_ne ?_ ..
      rintro rfl
      simp [sweeping] at hs
  | _ =>
    cases h
    rfl

/-! ## Every step keeps the wake-ups -/

variable {s s' : State Tid Cmd} {c : Chain} {P : Params}

/-- The dummy is live. -/
theorem Inv.tail_live (h : Inv s c) {d : Obj} (hd : s.opc.tail s.first = some d) : d ∈ c.live := by
  have hphase := h.phase
  have hdraining : ∀ {torun}, Draining s.last s.cmd c torun d → d ∈ c.live :=
    fun ⟨_, _, _, _, _, _, _, ha⟩ => ha.mem
  cases hpc : s.opc with
  | poll | eventsDone =>
    rw [hpc] at hphase hd
    obtain ⟨post, he, -⟩ := hphase
    rw [he, ← Option.some.inj hd]
    exact .head _
  | link torun dummy pc =>
    rw [hpc] at hphase hd
    obtain ⟨-, hphase⟩ := hphase
    simp only [OwnPc.tail] at hd
    split_ifs at hd hphase
    obtain ⟨⟨batch, post, he, -⟩, -⟩ := hphase
    rw [he, ← Option.some.inj hd]
    simp
  | retireFirst torun dummy pc | setFirst torun dummy =>
    rw [hpc] at hphase hd
    obtain rfl := Option.some.inj hd
    exact hdraining hphase
  | run torun dummy | retireRun dummy torun pc =>
    rw [hpc] at hphase hd
    obtain rfl := Option.some.inj hd
    exact hdraining hphase.2
  | loadNext torun dummy =>
    rw [hpc] at hphase hd
    obtain rfl := Option.some.inj hd
    exact hdraining hphase.2.2
  | _ =>
    rw [hpc] at hd
    cases hd

theorem armed_of_tail {pc : OwnPc} {first d : Obj} (h : pc.tail first = some d) :
    pc.armed = true := by
  cases pc <;> first | rfl | cases h

namespace Wakeable

variable [DecidableEq Tid]

/-- A thread that does not write the token goes on; it stays in flight if it was. -/
theorem thread (h : Wakeable s) {t : Tid} {p : EnqPc Cmd} (hpc : s'.pc = Function.update s.pc t p)
    (hopc : s'.opc = s.opc) (hfirst : s'.first = s.first) (hmust : s'.mustwake = s.mustwake)
    (htoken : s'.token = s.token)
    (hnext : ∀ d, s.opc.tail s.first = some d → s'.mem.next d ≠ none →
      s.mem.next d ≠ none ∨ p.inFlight = true)
    (hflight : (s.pc t).inFlight = true → p.inFlight = true) (hwake : ∀ node, s.pc t ≠ .wake node) :
    Wakeable s' := by
  constructor
  · intro d hd hn
    rw [hopc, hfirst] at hd
    rw [htoken, hpc]
    rcases hnext d hd hn with hn | hp
    · refine (h.pending d hd hn).imp id fun ⟨t', ht'⟩ => ⟨t', ?_⟩
      by_cases he : t' = t
      · subst he
        rw [Function.update_self]
        exact hflight ht'
      · rwa [Function.update_of_ne he]
    · exact .inr ⟨t, by rwa [Function.update_self]⟩
  · intro ha hm
    rw [hopc] at ha
    rw [hmust] at hm
    rw [htoken, hpc]
    refine (h.signalled ha hm).imp id fun ⟨t', node, ht'⟩ => ⟨t', node, ?_⟩
    have he : t' ≠ t := by
      rintro rfl
      exact hwake node ht'
    rwa [Function.update_of_ne he]

theorem run (h : Wakeable s) (hi : Inv s c) {t : Tid} (hs : enqueueCommand P s t = some s') :
    Wakeable s' := by
  rw [enqueueCommand] at hs
  split at hs
  · cases hs
  · rename_i cmd pc hpc
    have hself : ∀ d, s.opc.tail s.first = some d → createSelf pc ≠ some d := by
      intro d hd hself
      refine (hi.shape.held (some t) d ?_).2 (List.mem_append_left _ (hi.tail_live hd))
      simpa [State.view, hpc, EnqPc.work, Work.held] using hself
    split at hs <;> rename_i hstep <;> obtain rfl := Option.some.inj hs
    all_goals
      refine h.thread (t := t) rfl rfl rfl rfl rfl (fun d hd hn => .inl ?_) (by simp [hpc, EnqPc.inFlight])
        (by simp [hpc])
      rwa [← create_next hstep (hself d hd)]
  · rename_i node pc hpc
    split at hs <;> rename_i hstep <;> obtain rfl := Option.some.inj hs
    · refine h.thread (t := t) rfl rfl rfl rfl rfl (fun d hd hn => ?_) (fun hf => ?_) (by simp [hpc])
      · rcases link_next hstep d with he | ⟨rfl, -, hr⟩
        · exact .inl (he ▸ hn)
        · obtain rfl := Option.some.inj hr
          exact .inr rfl
      · rw [hpc] at hf
        exact linked_stays hstep hf
    · refine h.thread (t := t) rfl rfl rfl rfl rfl (fun d hd hn => .inr rfl) (fun _ => rfl)
        (by simp [hpc])
  · rename_i node hpc
    obtain rfl := Option.some.inj hs
    cases hm : s.mustwake with
    | true =>
      have hflight : ∀ r : Prop, r ∨ ∃ t' node',
          Function.update s.pc t (EnqPc.wake node) t' = .wake node' :=
        fun _ => .inr ⟨t, node, Function.update_self ..⟩
      refine ⟨fun _ _ _ => (hflight _).imp id fun hex => ?_, fun _ _ => hflight _⟩
      obtain ⟨t', _, ht'⟩ := hex
      refine ⟨t', ?_⟩
      simp [State.goto, ht', EnqPc.inFlight]
    | false =>
      -- whoever got the flag is still about to wake the owner, or has done so
      have hsig : s.opc.armed = true → s.token = true ∨
          ∃ t' node', Function.update s.pc t EnqPc.idle t' = .wake node' := by
        intro ha
        refine (h.signalled ha hm).imp id fun hex => ?_
        obtain ⟨t', node', ht'⟩ := hex
        refine ⟨t', node', ?_⟩
        have he : t' ≠ t := by
          rintro rfl
          rw [hpc] at ht'
          cases ht'
        rwa [Function.update_of_ne he]
      refine ⟨fun d hd _ => (hsig (armed_of_tail hd)).imp id fun hex => ?_, fun ha _ => hsig ha⟩
      obtain ⟨t', _, ht'⟩ := hex
      refine ⟨t', ?_⟩
      simp [State.goto, ht', EnqPc.inFlight]
  · rename_i node hpc
    obtain rfl := Option.some.inj hs
    exact ⟨fun _ _ _ => .inl rfl, fun _ _ => .inl rfl⟩

omit [DecidableEq Tid] in
/-- The owner goes on in an armed phase, without writing a link to its dummy. -/
theorem owner_armed (h : Wakeable s) (hpc : s'.pc = s.pc) (hmust : s'.mustwake = s.mustwake)
    (htoken : s'.token = s.token) (harmed : s.opc.armed = true)
    (hnext : ∀ d, s'.opc.tail s'.first = some d → s'.mem.next d ≠ none →
      s.opc.tail s.first = some d ∧ s.mem.next d ≠ none) : Wakeable s' := by
  constructor
  · intro d hd hn
    obtain ⟨hd, hn⟩ := hnext d hd hn
    rw [htoken, hpc]
    exact h.pending d hd hn
  · intro _ hm
    rw [htoken, hpc]
    exact h.signalled harmed (hmust ▸ hm)

omit [DecidableEq Tid] in
/-- `SharedObj_retire` writes no link to the dummy. -/
theorem owner_retire (h : Wakeable s) (hi : Inv s c) {pc : RetirePc} {m : Mem} {l : Local}
    {r : Option RetirePc} {p : OwnPc} (hpc : s.opc.rpc = some pc)
    (hstep : pc.step P.toParams s.mem s.oloc = (m, l, r)) (harmed : s.opc.armed = true)
    (htail : p.tail s.first = s.opc.tail s.first) :
    Wakeable { s with mem := m, oloc := l, opc := p } := by
  refine h.owner_armed rfl rfl rfl harmed fun d hd hn => ?_
  have hd' : s.opc.tail s.first = some d := htail ▸ hd
  refine ⟨hd', ?_⟩
  have hoff := hi.shape.not_off (hi.tail_live hd')
  rwa [← retire_next hstep (fun hr => hoff (hi.shape.retiring d (by simp [State.view, hpc, hr])))
    fun hm => hoff (hi.shape.sweeping pc hpc d hm)]

omit [DecidableEq Tid] in
/-- A link to the dummy is never written by the owner, and not before the dummy is in the queue. -/
theorem owner_link (hi : Inv s c) {torun dummy d : Obj} {pc pc' : LinkPc} {m : Mem} {last : Obj}
    (hpc : s.opc = .link torun dummy pc)
    (hstep : pc.step s.mem s.oloc s.last dummy = (m, last, some pc'))
    (hd : (OwnPc.link torun dummy pc').tail s.first = some d) (hn : m.next d ≠ none) :
    s.opc.tail s.first = some d ∧ s.mem.next d ≠ none := by
  simp only [OwnPc.tail] at hd
  split_ifs at hd
  obtain rfl := Option.some.inj hd
  have hptr := hi.phase
  rw [hpc] at hptr
  cases hl : pc.linked with
  | true =>
    rcases link_next hstep dummy with he | ⟨rfl, -, -⟩
    · exact ⟨by simp [hpc, OwnPc.tail, hl], he ▸ hn⟩
    · cases hl
  | false =>
    have hwork : s.view.work none = .link dummy pc := by simp [State.view, hpc, OwnPc.work]
    have hclean := hi.shape.clean none dummy (by simp [hwork, Work.clean, hl])
    have hheld := hi.shape.held none dummy (by simp [hwork, Work.held, hl])
    rcases link_next hstep dummy with he | ⟨rfl, -, -⟩
    · exact absurd (he.trans hclean) hn
    · exact absurd (List.mem_append_left _ (hptr.1 dummy rfl)) hheld.2

omit [DecidableEq Tid] in
theorem owner (h : Wakeable s) (hi : Inv s c) (hok : Covered s .owner)
    (hs : runOwner P s = some s') : Wakeable s' := by
  rw [runOwner] at hs
  cases hpc : s.opc with
  | poll => simp [hpc] at hs
  | clear reported =>
    simp only [hpc, Option.some.injEq] at hs
    subst hs
    constructor
    · simp only
      split <;> exact fun _ hd => by cases hd
    · simp only
      split <;> exact fun hn => by cases hn
  | drain | loadFirst =>
    simp only [hpc, Option.some.injEq] at hs
    subst hs
    exact ⟨(fun _ hn => by cases hn), fun hn => by cases hn⟩
  | storeMustwake torun =>
    cases torun with
    | none =>
      simp only [hpc, Option.some.injEq] at hs
      subst hs
      refine ⟨fun d hd hn => ?_, fun _ hn => by cases hn⟩
      obtain rfl := Option.some.inj hd
      exact (hok hpc).resolve_left hn
    | some torun =>
      simp only [hpc, Option.some.injEq] at hs
      subst hs
      exact ⟨(fun _ hn => by cases hn), fun _ hn => by cases hn⟩
  | create torun pc =>
    simp only [hpc] at hs
    split at hs <;> obtain rfl := Option.some.inj hs
    · exact h.owner_armed rfl rfl rfl (by rw [hpc]; rfl) (fun _ hn => by cases hn)
    · exact h.owner_armed rfl rfl rfl (by rw [hpc]; rfl) (fun _ hn => by cases hn)
  | link torun dummy pc =>
    simp only [hpc] at hs
    split at hs <;> rename_i hstep <;> obtain rfl := Option.some.inj hs
    · refine h.owner_armed rfl rfl rfl (by rw [hpc]; rfl) fun d hd hn => ?_
      exact owner_link hi hpc hstep hd hn
    · obtain ⟨ep, rfl, hnext, -, -⟩ := link_return hstep
      refine h.owner_armed rfl rfl rfl (by rw [hpc]; rfl) fun d hd hn => ?_
      rw [hpc]
      exact ⟨hd, by rwa [← hnext]⟩
  | retireFirst torun dummy pc =>
    simp only [hpc] at hs
    split at hs <;> rename_i hstep <;> obtain rfl := Option.some.inj hs
    · exact h.owner_retire hi (by rw [hpc]; rfl) hstep (by rw [hpc]; rfl) (by rw [hpc]; rfl)
    · exact h.owner_retire hi (by rw [hpc]; rfl) hstep (by rw [hpc]; rfl) (by rw [hpc]; rfl)
  | setFirst torun dummy =>
    simp only [hpc, Option.some.injEq] at hs
    subst hs
    refine h.owner_armed rfl rfl rfl (by rw [hpc]; rfl) fun d hd hn => ?_
    rw [hpc]
    exact ⟨hd, hn⟩
  | run torun dummy =>
    have hphase := hi.phase
    rw [hpc] at hphase
    simp only [hpc] at hs
    split_ifs at hs
    · obtain rfl := Option.some.inj hs
      refine h.owner_armed rfl rfl rfl (by rw [hpc]; rfl) fun d hd hn => ?_
      rw [hpc]
      exact ⟨hphase.1 ▸ hd, hn⟩
    · obtain ⟨node, rfl, rfl⟩ := Option.map_eq_some_iff.1 hs
      refine h.owner_armed rfl rfl rfl (by rw [hpc]; rfl) fun d hd hn => ?_
      rw [hpc]
      exact ⟨hd, hn⟩
  | loadNext torun dummy =>
    simp only [hpc, Option.some.injEq] at hs
    subst hs
    refine h.owner_armed rfl rfl rfl (by rw [hpc]; rfl) fun d hd hn => ?_
    rw [hpc]
    exact ⟨hd, hn⟩
  | retireRun dummy next pc =>
    simp only [hpc] at hs
    split at hs <;> rename_i hstep <;> obtain rfl := Option.some.inj hs
    · exact h.owner_retire hi (by rw [hpc]; rfl) hstep (by rw [hpc]; rfl) (by rw [hpc]; rfl)
    · exact h.owner_retire hi (by rw [hpc]; rfl) hstep (by rw [hpc]; rfl) (by rw [hpc]; rfl)
  | eventsDone =>
    simp only [hpc, Option.some.injEq] at hs
    subst hs
    refine h.owner_armed rfl rfl rfl (by rw [hpc]; rfl) fun d hd hn => ?_
    rw [hpc]
    exact ⟨hd, hn⟩

theorem step (h : Wakeable s) (hi : Inv s c) {a : Action Tid Cmd} (hok : Covered s a)
    (hs : CommandQueue.step P s a = some s') : Wakeable s' := by
  cases a with
  | call t cmd =>
    simp only [CommandQueue.step] at hs
    split_ifs at hs with hidle
    obtain rfl := Option.some.inj hs
    have hpc : s.pc t = .idle := by
      cases hp : s.pc t <;> simp_all
    exact h.thread (t := t) rfl rfl rfl rfl rfl (fun d hd hn => .inl hn)
      (by simp [hpc, EnqPc.inFlight]) (by simp [hpc])
  | run t => exact h.run hi hs
  | poll reported =>
    simp only [CommandQueue.step] at hs
    split_ifs at hs
    obtain rfl := Option.some.inj hs
    exact ⟨(fun _ hn => by cases hn), fun hn => by cases hn⟩
  | owner => exact h.owner hi hok hs
  | register =>
    obtain rfl := Option.some.inj hs
    exact ⟨h.pending, h.signalled⟩

end Wakeable

/-! ## Runs -/

theorem Init.wakeable (h : Init s) : Wakeable s := by
  refine ⟨fun d hd hn => ?_, fun _ hm => ?_⟩
  · rw [h.opc, h.first] at hd
    exact absurd (Option.some.inj hd ▸ h.next) hn
  · rw [h.mustwake] at hm
    cases hm

/-- A sleeping owner whose dummy has no successor has nothing to run. -/
theorem Wakeable.not_waiting (h : Wakeable s) (hi : Inv s c) (hs : Stranded s) : ¬ Waiting s := by
  rintro ⟨o, hreach, hcmd, -⟩
  have hnext : s.mem.next s.first = none := by
    by_contra hn
    rcases h.pending s.first (by rw [hs.blocked]; rfl) hn with ht | ⟨t, ht⟩
    · rw [hs.token] at ht
      cases ht
    · rw [hs.quiet t] at ht
      cases ht
  have hphase := hi.phase
  rw [hs.blocked] at hphase
  obtain ⟨post, -, hdummy, -⟩ := hphase
  rcases Relation.ReflTransGen.cases_head hreach with rfl | ⟨n, hn, -⟩
  · rw [hdummy] at hcmd
    cases hcmd
  · rw [hnext] at hn
    cases hn

/-- In every run that meets `Covered`, an owner that sleeps with no wake-up on its way leaves no
command behind. -/
theorem no_lost_wakeup [DecidableEq Tid] (h : (machine Tid Cmd P).Run Covered s)
    (hs : Stranded s) : ¬ Waiting s := by
  have hinv : (∃ c, Inv s c) ∧ Wakeable s := by
    refine Machine.Run.invariant (I := fun s => (∃ c, Inv s c) ∧ Wakeable s) ?_ ?_ h
    · exact fun s hs => ⟨⟨_, Init.inv hs⟩, Init.wakeable hs⟩
    · rintro s a s' ⟨⟨c, hc⟩, hw⟩ hok hs
      obtain ⟨c', hc', -⟩ := hc.step hs
      exact ⟨⟨c', hc'⟩, hw.step hc hok hs⟩
  obtain ⟨⟨c, hc⟩, hw⟩ := hinv
  exact hw.not_waiting hc hs

/-- The owner wakes up for another event, clears `mustwake` and finds no command; thread 0 enqueues
one and sees that no wake-up is wanted; the owner asks for a wake-up and goes to sleep. -/
def missedWakeup : List (Action (Fin 2) Unit) :=
  .poll false :: List.replicate 2 .owner ++ .call 0 () :: List.replicate 15 (.run 0) ++
  List.replicate 2 .owner

/-- One enqueuer is enough for the owner to sleep on a command. -/
theorem lost_wakeup : ¬ ∀ s : State (Fin 2) Unit, (machine (Fin 2) Unit defaults).Reachable s →
    Stranded s → ¬ Waiting s := by
  intro hall
  have hrun : ((machine (Fin 2) Unit defaults).exec missedWakeup created).any (fun s =>
      decide (s.opc = .poll ∧ s.token = false ∧ (∀ t, (s.pc t).inFlight = false) ∧
        s.mem.next s.first = some 1 ∧ (s.cmd 1).isSome ∧ 1 ∉ s.ran)) = true := by decide
  obtain ⟨s, hreach, hs⟩ := Machine.exists_reachable created_init hrun
  obtain ⟨hpoll, htoken, hquiet, hnext, hcmd, hran⟩ := of_decide_eq_true hs
  exact hall s hreach ⟨hpoll, htoken, hquiet⟩ ⟨1, .single hnext, hcmd, hran⟩

/-- A test for `Covered` with two threads. -/
def covered (s : State (Fin 2) Unit) : Action (Fin 2) Unit → Bool
  | .owner => decide (s.opc = .storeMustwake none →
      s.mem.next s.first = none ∨ s.token = true ∨ ∃ t, (s.pc t).inFlight = true)
  | _ => true

theorem covered_sound {s : State (Fin 2) Unit} {a : Action (Fin 2) Unit}
    (h : covered s a = true) : Covered s a := by
  cases a with
  | owner =>
    simp only [covered, decide_eq_true_eq] at h
    exact h
  | _ => trivial

/-- The condition is met by runs in which an enqueuer races with a sleeping owner: thread 0 wakes
it, and after the command is run the owner finds an empty queue and sleeps again. -/
theorem no_lost_wakeup_once : ∃ s : State (Fin 2) Unit,
    s.ran = [1] ∧ Stranded s ∧ ¬ Waiting s := by
  have hrun : ((machine (Fin 2) Unit defaults).execOk covered
      (.call 0 () :: List.replicate 16 (.run 0) ++ .poll true :: List.replicate 31 .owner ++
        .poll false :: List.replicate 4 .owner) created).any
      (fun s => decide (s.ran = [1] ∧ s.opc = .poll ∧ s.token = false ∧
        ∀ t, (s.pc t).inFlight = false)) = true := by decide
  obtain ⟨s, hrun, hs⟩ := Machine.exists_run created_init (fun _ _ => covered_sound) hrun
  obtain ⟨hran, hpoll, htoken, hquiet⟩ := of_decide_eq_true hs
  have hstr : Stranded s := ⟨hpoll, htoken, hquiet⟩
  exact ⟨s, hran, hstr, no_lost_wakeup hrun hstr⟩

end PoserCore.CommandQueue
