import Mathlib.Tactic.Linarith
import PoserCore.SharedObj.System

/-!
# A held object is not destroyed

A thread protects an object when it holds it, or when its `SOM_reserve` has read it and will return
it unless the epoch changes (`Protects`).  The epoch it published then lies between the creation and
the retirement of the object, and a sweep that examines the object finds the reservation before it
gets to destroying the object.  A thread that registers after a sweep has read the number of threads
protects nothing the sweep can find: those objects were unlinked before.
-/

namespace PoserCore.SharedObj

open Lib

variable {Tid Ref : Type}

/-- The wrapped test of the sweep finds every epoch between creation and retirement. -/
theorem conflicts_word {creat ep retd : ℕ} (h₁ : creat ≤ ep) (h₂ : ep ≤ retd)
    (h₃ : retd < creat + 2 ^ 32) : conflicts (word creat) (word retd) (word ep) = true := by
  unfold conflicts word
  split_ifs <;> simp only [Bool.or_eq_true, Bool.and_eq_true, decide_eq_true_eq, ge_iff_le] <;> omega

/-- Thread `t` holds `o`, or its `SOM_reserve` returns it if the epoch is still `ep`. -/
def Protects (s : State Tid Ref) (t : Tid) (o : Obj) (ep : ℕ) : Prop :=
  s.held t = some (ep, some o) ∨
    (∃ r, s.op t = .reserve r (.check ep (some o))) ∧ s.mem.epoch = ep

/-- The object `SharedObj_create` has allocated, and the epoch it was created in. -/
def CreatePc.made : CreatePc → Option (Obj × ℕ)
  | .storeNext self created | .storeCreated self created | .storeRetired self created =>
      some (self, created)
  | _ => none

/-- Every thread that protects an object in the list of `w` is among the first `nt`. -/
def Covers (s : State Tid Ref) (w : Tid) (nt : ℕ) : Prop :=
  ∀ o t ep, s.status o = .listed w → Protects s t o ep → (s.loc t).tid < nt

/-- Retirement in epoch `retd` is not before any reservation of the object. -/
def Stamp (s : State Tid Ref) (o : Obj) (retd : ℕ) : Prop :=
  retd ≤ s.mem.epoch ∧ ∀ t ep, Protects s t o ep → ep ≤ retd

/-- The sweep of `w` works on objects in its own list. -/
structure Sweep (s : State Tid Ref) (w : Tid) (nt : ℕ) (p : Option Obj) (i : Obj)
    (n : Option Obj) : Prop where
  covers : Covers s w nt
  kept : ∀ o ∈ p, s.status o = .listed w
  cur : s.status i = .listed w
  rest : ∀ o ∈ n, s.status o = .listed w

/-- What a thread in `SharedObj_retire` knows. -/
def RetireOk (s : State Tid Ref) (w : Tid) : RetirePc → Prop
  | .loadEpoch so => s.status so = .retiring w
  | .storeRetired so ep => s.status so = .retiring w ∧ Stamp s so ep
  | .storeNext so => s.status so = .retiring w ∧ Stamp s so (s.mem.retired so)
  | .count | .loadNthr => True
  | .loadNext nt p i => Sweep s w nt p i none
  | .loadCreated nt p i n => Sweep s w nt p i n
  | .loadRetired nt p i n creat => Sweep s w nt p i n ∧ creat = s.mem.created i
  | .loadRes nt p i n creat retd tt => Sweep s w nt p i n ∧ creat = s.mem.created i ∧
      retd = s.mem.retired i ∧ ∀ t ep, Protects s t i ep → tt ≤ (s.loc t).tid
  | .drop nt p i n => Sweep s w nt p i n ∧ ∀ t ep, ¬ Protects s t i ep

/-- What a thread in a function knows. -/
def OpOk (s : State Tid Ref) (t : Tid) : Op Ref → Prop
  | .idle => True
  | .create pc => ∀ o created, pc.made = some (o, created) →
      o < s.mem.fresh ∧ s.status o = .raw ∧ created = s.mem.born o ∧
        (∀ c, pc = .storeRetired o c → s.mem.created o = s.mem.born o)
  | .retire pc => RetireOk s t pc
  | .reserve _ pc => s.registered t = true ∧ s.held t = none ∧
      (∀ ep, passEpoch pc = some ep → ep ≤ s.mem.epoch) ∧
      match pc with
      | .read ep | .check ep _ => s.mem.res (s.loc t).tid = ep
      | _ => True
  | .release _ => s.registered t = true

structure Inv (s : State Tid Ref) : Prop where
  tid_lt : ∀ t, s.registered t = true → (s.loc t).tid < s.mem.nthr
  tid_inj : ∀ t t', s.registered t = true → s.registered t' = true →
    (s.loc t).tid = (s.loc t').tid → t = t'
  born : ∀ o < s.mem.fresh, s.mem.born o ≤ s.mem.epoch
  known : ∀ o, s.status o ≠ .raw → o < s.mem.fresh ∧ s.mem.created o = s.mem.born o
  refs : ∀ r o, s.refs r = some o → s.status o = .live
  freed : ∀ o, s.mem.freed o = true → ∃ w, s.status o = .listed w
  op : ∀ t, OpOk s t (s.op t)
  own : ∀ t t' pc pc' x y, s.op t = .create pc → s.op t' = .create pc' → pc.made = some x →
    pc'.made = some y → x.1 = y.1 → t = t'
  held : ∀ t ep p, s.held t = some (ep, p) → s.registered t = true ∧ ep ≤ s.mem.epoch ∧
    s.mem.res (s.loc t).tid = ep
  list : ∀ w o, (s.loc w).retired = some o → s.status o = .listed w
  next : ∀ w o n, s.status o = .listed w → s.mem.next o = some n → s.status n = .listed w
  protects : ∀ t o ep, Protects s t o ep →
    s.status o ≠ .raw ∧ s.mem.born o ≤ ep ∧ s.mem.freed o = false
  stamp : ∀ w o, s.status o = .listed w → Stamp s o (s.mem.retired o)

/-- A thread that protects an object is registered, and its reservation is published. -/
theorem Inv.published {s : State Tid Ref} (h : Inv s) {t : Tid} {o : Obj} {ep : ℕ}
    (hp : Protects s t o ep) :
    s.registered t = true ∧ ep ≤ s.mem.epoch ∧ s.mem.res (s.loc t).tid = ep := by
  rcases hp with hp | ⟨⟨r, hp⟩, he⟩
  · exact h.held t ep _ hp
  · have hop := h.op t
    rw [hp] at hop
    exact ⟨hop.1, he.ge, hop.2.2.2⟩

/-! ## What the other threads see of a step -/

/-- What a step of thread `t` leaves of the things other threads rely on. -/
structure Evolves (s s' : State Tid Ref) (t : Tid) : Prop where
  epoch : s.mem.epoch ≤ s'.mem.epoch
  fresh : s.mem.fresh ≤ s'.mem.fresh
  born : ∀ o < s.mem.fresh, s'.mem.born o = s.mem.born o
  raw : ∀ u pc x, u ≠ t → s.op u = .create pc → pc.made = some x →
    s'.status x.1 = .raw ∧ s'.mem.created x.1 = s.mem.created x.1
  retiring : ∀ u o, u ≠ t → s.status o = .retiring u →
    s'.status o = .retiring u ∧ s'.mem.retired o = s.mem.retired o
  listed : ∀ u o, u ≠ t → (s'.status o = .listed u ↔ s.status o = .listed u)
  words : ∀ u o, s.status o = .listed u →
    s'.mem.created o = s.mem.created o ∧ s'.mem.retired o = s.mem.retired o
  thread : ∀ u, u ≠ t → s'.registered u = s.registered u ∧ s'.held u = s.held u
  tid : ∀ u, s.registered u = true → (s'.loc u).tid = (s.loc u).tid
  res : ∀ u, u ≠ t → s.registered u = true →
    s'.mem.res (s.loc u).tid = s.mem.res (s.loc u).tid
  protects : ∀ u o ep, Protects s' u o ep → Protects s u o ep ∨ s.status o = .live

namespace Evolves

variable {s s' : State Tid Ref} {t u : Tid}

theorem covers (e : Evolves s s' t) (h : Inv s) (hu : u ≠ t) {nt : ℕ} (hc : Covers s u nt) :
    Covers s' u nt := by
  intro o t' ep ho hp
  rw [e.listed u o hu] at ho
  rcases e.protects t' o ep hp with hp | hl
  · rw [e.tid t' (h.published hp).1]
    exact hc o t' ep ho hp
  · rw [ho] at hl
    cases hl

theorem stamp (e : Evolves s s' t) {o : Obj} {retd : ℕ} (hs : Stamp s o retd)
    (ho : s.status o ≠ .live) : Stamp s' o retd :=
  ⟨hs.1.trans e.epoch, fun t' ep hp => hs.2 t' ep ((e.protects t' o ep hp).resolve_right ho)⟩

theorem sweep (e : Evolves s s' t) (h : Inv s) (hu : u ≠ t) {nt : ℕ} {p n : Option Obj} {i : Obj}
    (hs : Sweep s u nt p i n) : Sweep s' u nt p i n where
  covers := e.covers h hu hs.covers
  kept o ho := (e.listed u o hu).2 (hs.kept o ho)
  cur := (e.listed u i hu).2 hs.cur
  rest o ho := (e.listed u o hu).2 (hs.rest o ho)

/-- What the other threads know stays true. -/
theorem opOk (e : Evolves s s' t) (h : Inv s) (hu : u ≠ t) : OpOk s' u (s.op u) := by
  have hop := h.op u
  cases hpc : s.op u with
  | idle => trivial
  | create pc =>
    rw [hpc] at hop
    intro o created hm
    obtain ⟨hlt, -, hb, hc⟩ := hop o created hm
    obtain ⟨hraw, hcr⟩ := e.raw u pc _ hu hpc hm
    refine ⟨hlt.trans_le e.fresh, hraw, hb.trans (e.born o hlt).symm, fun c hst => ?_⟩
    rw [hcr, e.born o hlt]
    exact hc c hst
  | retire pc =>
    rw [hpc] at hop
    have hlive : ∀ {o}, s.status o = .retiring u → s.status o ≠ .live := by
      intro o ho
      simp [ho]
    have hprot : ∀ {i : Obj}, s.status i = .listed u → ∀ t' ep, Protects s' t' i ep →
        Protects s t' i ep ∧ (s'.loc t').tid = (s.loc t').tid := by
      intro i hi t' ep hp
      have hp' := (e.protects t' i ep hp).resolve_right (by simp [hi])
      exact ⟨hp', e.tid t' (h.published hp').1⟩
    cases pc with
    | loadEpoch so => exact (e.retiring u so hu hop).1
    | storeRetired so ep => exact ⟨(e.retiring u so hu hop.1).1, e.stamp hop.2 (hlive hop.1)⟩
    | storeNext so =>
      obtain ⟨hst, hret⟩ := e.retiring u so hu hop.1
      exact ⟨hst, hret ▸ e.stamp hop.2 (hlive hop.1)⟩
    | count | loadNthr => trivial
    | loadNext nt p i | loadCreated nt p i n => exact e.sweep h hu hop
    | loadRetired nt p i n creat =>
      exact ⟨e.sweep h hu hop.1, hop.2.trans (e.words u i hop.1.cur).1.symm⟩
    | loadRes nt p i n creat retd tt =>
      obtain ⟨hsw, hc, hr, hp⟩ := hop
      obtain ⟨hc', hr'⟩ := e.words u i hsw.cur
      refine ⟨e.sweep h hu hsw, hc.trans hc'.symm, hr.trans hr'.symm, fun t' ep hp' => ?_⟩
      obtain ⟨hp', ht⟩ := hprot hsw.cur t' ep hp'
      rw [ht]
      exact hp t' ep hp'
    | drop nt p i n =>
      exact ⟨e.sweep h hu hop.1, fun t' ep hp => hop.2 t' ep (hprot hop.1.cur t' ep hp).1⟩
  | reserve r pc =>
    rw [hpc] at hop
    refine ⟨(e.thread u hu).1.trans hop.1, (e.thread u hu).2.trans hop.2.1,
      fun ep hep => (hop.2.2.1 ep hep).trans e.epoch, ?_⟩
    have hres : s'.mem.res (s'.loc u).tid = s.mem.res (s.loc u).tid := by
      rw [e.tid u hop.1]
      exact e.res u hu hop.1
    cases pc with
    | read ep | check ep p => exact hres.trans hop.2.2.2
    | _ => trivial
  | release pc =>
    rw [hpc] at hop
    exact (e.thread u hu).1.trans hop

end Evolves

/-! ## Steps of a thread -/

variable {s s' : State Tid Ref} {t : Tid}

/-- The parts of the invariant that say what the objects are. -/
structure Objects (s : State Tid Ref) : Prop where
  born : ∀ o < s.mem.fresh, s.mem.born o ≤ s.mem.epoch
  known : ∀ o, s.status o ≠ .raw → o < s.mem.fresh ∧ s.mem.created o = s.mem.born o
  refs : ∀ r o, s.refs r = some o → s.status o = .live
  freed : ∀ o, s.mem.freed o = true → ∃ w, s.status o = .listed w
  list : ∀ w o, (s.loc w).retired = some o → s.status o = .listed w
  next : ∀ w o n, s.status o = .listed w → s.mem.next o = some n → s.status n = .listed w

/-- The rule for a step of thread `t`: besides the objects, only the thread itself, its reservation,
and the objects that become protected, listed or destroyed need a look. -/
theorem Inv.advance [DecidableEq Tid] (h : Inv s) (e : Evolves s s' t) (hobj : Objects s')
    {p : Op Ref} (hop : s'.op = Function.update s.op t p) (hreg : s'.registered = s.registered)
    (htid : ∀ u, (s'.loc u).tid = (s.loc u).tid) (hnthr : s'.mem.nthr = s.mem.nthr)
    (hraw : ∀ o, s.status o ≠ .raw → s'.status o ≠ .raw) (hok : OpOk s' t p)
    (hown : ∀ pc x, p = .create pc → pc.made = some x → ∀ u pc' y, u ≠ t → s.op u = .create pc' →
      pc'.made = some y → x.1 ≠ y.1)
    (hres : ∀ ep q, s'.held t = some (ep, q) → s.registered t = true ∧ ep ≤ s'.mem.epoch ∧
      s'.mem.res (s.loc t).tid = ep)
    (hnew : ∀ u o ep, Protects s' u o ep → Protects s u o ep ∨ s.mem.born o ≤ ep ∧
      s'.status o = .live)
    (hfreed : ∀ o, s'.mem.freed o = true → s.mem.freed o = true ∨ ∀ u ep, ¬ Protects s u o ep)
    (hlisted : ∀ o, s'.status o = .listed t → s.status o = .listed t ∨
      Stamp s' o (s'.mem.retired o)) : Inv s' := by
  have hops : ∀ u, u ≠ t → s'.op u = s.op u := fun u hu => by rw [hop, Function.update_of_ne hu]
  refine
    { born := hobj.born, known := hobj.known, refs := hobj.refs, freed := hobj.freed
      list := hobj.list, next := hobj.next
      tid_lt := ?_, tid_inj := ?_, op := ?_, own := ?_, held := ?_, protects := ?_, stamp := ?_ }
  · intro u hu
    rw [htid, hnthr]
    exact h.tid_lt u (hreg ▸ hu)
  · intro u u' hu hu' he
    rw [htid, htid] at he
    exact h.tid_inj u u' (hreg ▸ hu) (hreg ▸ hu') he
  · intro u
    by_cases hu : u = t
    · subst hu
      rw [hop, Function.update_self]
      exact hok
    · rw [hops u hu]
      exact e.opOk h hu
  · intro u u' pc pc' x y hpc hpc' hx hy hxy
    by_cases hu : u = t <;> by_cases hu' : u' = t
    · rw [hu, hu']
    · rw [hu, hop, Function.update_self] at hpc
      rw [hops u' hu'] at hpc'
      exact absurd hxy (hown pc x hpc hx u' pc' y hu' hpc' hy)
    · rw [hu', hop, Function.update_self] at hpc'
      rw [hops u hu] at hpc
      exact absurd hxy.symm (hown pc' y hpc' hy u pc x hu hpc hx)
    · rw [hops u hu] at hpc
      rw [hops u' hu'] at hpc'
      exact h.own u u' pc pc' x y hpc hpc' hx hy hxy
  · intro u ep q hq
    rw [hreg, htid]
    by_cases hu : u = t
    · subst hu
      exact hres ep q hq
    · rw [(e.thread u hu).2] at hq
      obtain ⟨hr, hle, hre⟩ := h.held u ep q hq
      exact ⟨hr, hle.trans e.epoch, (e.res u hu hr).trans hre⟩
  · intro u o ep hp
    rcases hnew u o ep hp with hp | ⟨hb, hl⟩
    · obtain ⟨hst, hb, hf⟩ := h.protects u o ep hp
      refine ⟨hraw o hst, (e.born o (h.known o hst).1).symm ▸ hb, ?_⟩
      by_contra hf'
      rcases hfreed o (Bool.not_eq_false _ ▸ hf') with hf' | hno
      · rw [hf] at hf'
        cases hf'
      · exact hno u ep hp
    · have hst : s'.status o ≠ .raw := by simp [hl]
      refine ⟨hst, ?_, ?_⟩
      · rcases e.protects u o ep hp with hp | hl'
        · obtain ⟨hst, hb, -⟩ := h.protects u o ep hp
          exact (e.born o (h.known o hst).1).symm ▸ hb
        · exact (e.born o (h.known o (by simp [hl'])).1).symm ▸ hb
      · by_contra hf
        obtain ⟨w, hw⟩ := hobj.freed o (Bool.not_eq_false _ ▸ hf)
        rw [hl] at hw
        cases hw
  · intro w o ho
    have hold : s.status o = .listed w → Stamp s' o (s'.mem.retired o) := by
      intro ho
      rw [(e.words w o ho).2]
      exact e.stamp (h.stamp w o ho) (by simp [ho])
    by_cases hw : w = t
    · subst hw
      exact (hlisted o ho).elim hold id
    · exact hold ((e.listed w o hw).1 ho)

variable [DecidableEq Tid] {P : Params}

/-- A step of thread `t` leaves the protection by other threads alone, unless the epoch changes. -/
theorem Inv.protects_of_ne (h : Inv s) {u : Tid} {o : Obj} {ep : ℕ} (hp : Protects s' u o ep)
    (hu : u ≠ t) {p : Op Ref} (hop : s'.op = Function.update s.op t p)
    (hheld : s'.held u = s.held u) (hepoch : s.mem.epoch ≤ s'.mem.epoch) : Protects s u o ep := by
  have hpass : ∀ r q, s.op u = .reserve r (.check ep q) → ep ≤ s.mem.epoch := by
    intro r q hr
    have hok := h.op u
    rw [hr] at hok
    exact hok.2.2.1 ep rfl
  rcases hp with hp | ⟨⟨r, hr⟩, he⟩
  · exact .inl (hheld ▸ hp)
  · rw [hop, Function.update_of_ne hu] at hr
    exact .inr ⟨⟨r, hr⟩, le_antisymm (hepoch.trans he.le) (hpass r _ hr)⟩

/-- A step that touches no object: the thread moves, and its reservation may change. -/
theorem Inv.quiet (h : Inv s) (t : Tid) {p : Op Ref} {r : ℕ → ℕ} {q : Tid → Option (ℕ × Option Obj)}
    {l : Tid → Local} (hl : ∀ u, (l u).tid = (s.loc u).tid ∧ (l u).retired = (s.loc u).retired)
    (hr : ∀ u, u ≠ t → s.registered u = true → r (s.loc u).tid = s.mem.res (s.loc u).tid)
    (hq : ∀ u, u ≠ t → q u = s.held u) (hcreate : ∀ pc x, p = .create pc → pc.made ≠ some x)
    (hres : ∀ ep x, q t = some (ep, x) → s.registered t = true ∧ ep ≤ s.mem.epoch ∧
      r (s.loc t).tid = ep)
    (hok : OpOk ({ s with mem := { s.mem with res := r }, loc := l, held := q }.goto t p) t p)
    (hprot : ∀ o ep,
      Protects ({ s with mem := { s.mem with res := r }, loc := l, held := q }.goto t p) t o ep →
        Protects s t o ep ∨ s.mem.born o ≤ ep ∧ s.status o = .live) :
    Inv ({ s with mem := { s.mem with res := r }, loc := l, held := q }.goto t p) := by
  have hnew : ∀ u o ep,
      Protects ({ s with mem := { s.mem with res := r }, loc := l, held := q }.goto t p) u o ep →
        Protects s u o ep ∨ s.mem.born o ≤ ep ∧ s.status o = .live := by
    intro u o ep hp
    by_cases hu : u = t
    · subst hu
      exact hprot o ep hp
    · exact .inl (h.protects_of_ne hp hu rfl (hq u hu) le_rfl)
  have e : Evolves s ({ s with mem := { s.mem with res := r }, loc := l, held := q }.goto t p) t :=
    { epoch := le_rfl, fresh := le_rfl
      born := fun _ _ => rfl
      raw := fun u pc x hu hpc hm => by
        have hop := h.op u
        rw [hpc] at hop
        exact ⟨(hop x.1 x.2 hm).2.1, rfl⟩
      retiring := fun _ _ _ ho => ⟨ho, rfl⟩
      listed := fun _ _ _ => Iff.rfl
      words := fun _ _ _ => ⟨rfl, rfl⟩
      thread := fun u hu => ⟨rfl, hq u hu⟩
      tid := fun u _ => (hl u).1
      res := hr
      protects := fun u o ep hp => (hnew u o ep hp).imp id And.right }
  have hobj : Objects ({ s with mem := { s.mem with res := r }, loc := l, held := q }.goto t p) :=
    ⟨h.born, h.known, h.refs, h.freed, fun w o ho => h.list w o ((hl w).2 ▸ ho), h.next⟩
  exact h.advance e hobj rfl rfl (fun u => (hl u).1) rfl (fun _ ho => ho) hok
    (fun pc x hp hm => absurd hm (hcreate pc x hp)) hres hnew (fun _ => .inl) fun _ => .inl

/-- A thread goes on without an effect on what is shared. -/
theorem Inv.move (h : Inv s) (t : Tid) {p : Op Ref} {l : Tid → Local}
    (hl : ∀ u, (l u).tid = (s.loc u).tid ∧ (l u).retired = (s.loc u).retired)
    (hcreate : ∀ pc x, p = .create pc → pc.made ≠ some x)
    (hok : OpOk ({ s with loc := l }.goto t p) t p)
    (hcheck : ∀ r ep q, p ≠ .reserve r (.check ep q)) : Inv ({ s with loc := l }.goto t p) := by
  refine h.quiet t hl (fun _ _ _ => rfl) (fun _ _ => rfl) hcreate (fun ep x => h.held t ep x) hok ?_
  rintro o ep (hp | ⟨⟨r, hr⟩, -⟩)
  · exact .inl (.inl hp)
  · simp only [State.goto, Function.update_self] at hr
    exact absurd hr (hcheck r ep _)

/-- Equal words of epochs less than `2^32` apart are equal epochs. -/
theorem eq_of_word_eq {m n : ℕ} (h : word m = word n) (hle : m ≤ n) (hlt : n < m + 2 ^ 32) :
    n = m := by
  unfold word at h
  omega

omit [DecidableEq Tid] in
/-- Only the thread itself writes its reservation. -/
theorem Inv.other_res (h : Inv s) {t u : Tid} (ht : s.registered t = true) (hu : u ≠ t) (ep : ℕ)
    (hr : s.registered u = true) :
    Function.update s.mem.res (s.loc t).tid ep (s.loc u).tid = s.mem.res (s.loc u).tid :=
  Function.update_of_ne (fun e => hu (h.tid_inj u t hr ht e)) ..

/-- One access of `SOM_reserve`. -/
theorem Inv.reserve (h : Inv s) (hshort : ShortPasses s) {r : Ref} {pc : ReservePc (Option Obj)}
    (hop : s.op t = .reserve r pc) (hs : runThread P s t = some s') : Inv s' := by
  have hok := h.op t
  rw [hop] at hok
  obtain ⟨hreg, hnone, hle, hres⟩ := hok
  simp only [runThread, hop] at hs
  cases pc with
  | loadEpoch =>
    obtain rfl := Option.some.inj hs
    exact h.move t (fun _ => ⟨rfl, rfl⟩) nofun ⟨hreg, hnone, fun ep he => (Option.some.inj he).ge, trivial⟩ nofun
  | store ep =>
    obtain rfl := Option.some.inj hs
    refine h.quiet t (fun _ => ⟨rfl, rfl⟩) (fun u hu hr => h.other_res hreg hu ep hr) (fun _ _ => rfl) nofun ?_
      ⟨hreg, hnone, hle, Function.update_self ..⟩ ?_
    · intro ep' x hx
      rw [hnone] at hx
      cases hx
    · rintro o ep' (hp | ⟨⟨r, hr⟩, -⟩)
      · exact .inl (.inl hp)
      · simp [State.goto] at hr
  | read ep =>
    obtain rfl := Option.some.inj hs
    refine h.quiet t (fun _ => ⟨rfl, rfl⟩) (fun _ _ _ => rfl) (fun _ _ => rfl) nofun (fun ep x => h.held t ep x)
      ⟨hreg, hnone, hle, hres⟩ ?_
    rintro o ep' (hp | ⟨⟨r', hr⟩, he⟩)
    · exact .inl (.inl hp)
    · simp only [State.goto, Function.update_self, Op.reserve.injEq, ReservePc.check.injEq] at hr
      have hlive := h.refs r o hr.2.2
      exact .inr ⟨he ▸ h.born o (h.known o (by simp [hlive])).1, hlive⟩
  | check ep q =>
    simp only [ReservePc.step] at hs
    split_ifs at hs with hw <;> obtain rfl := Option.some.inj hs
    · have he : s.mem.epoch = ep := eq_of_word_eq hw (hle ep rfl) (hshort t r _ ep hop rfl)
      refine h.quiet t (fun _ => ⟨rfl, rfl⟩) (fun _ _ _ => rfl) (fun u hu => Function.update_of_ne hu ..) nofun ?_ trivial ?_
      · intro ep' x hx
        rw [Function.update_self] at hx
        obtain ⟨rfl, rfl⟩ := Prod.mk.inj (Option.some.inj hx)
        exact ⟨hreg, hle ep rfl, hres⟩
      · rintro o ep' (hp | ⟨⟨r', hr⟩, -⟩)
        · simp only [State.goto, Function.update_self] at hp
          obtain ⟨rfl, rfl⟩ := Prod.mk.inj (Option.some.inj hp)
          exact .inl (.inr ⟨⟨r, hop⟩, he⟩)
        · simp [State.goto] at hr
    · exact h.move t (fun _ => ⟨rfl, rfl⟩) nofun ⟨hreg, hnone, nofun, trivial⟩ nofun

/-- One access of `SOM_release`. -/
theorem Inv.release (h : Inv s) {pc : ReleasePc} (hop : s.op t = .release pc)
    (hs : runThread P s t = some s') : Inv s' := by
  have hreg := h.op t
  rw [hop] at hreg
  simp only [runThread, hop] at hs
  cases pc with
  | loadEpoch =>
    obtain rfl := Option.some.inj hs
    exact h.move t (fun _ => ⟨rfl, rfl⟩) nofun hreg nofun
  | store ep =>
    obtain rfl := Option.some.inj hs
    refine h.quiet t (fun _ => ⟨rfl, rfl⟩) (fun u hu hr => h.other_res hreg hu _ hr)
      (fun u hu => Function.update_of_ne hu ..) nofun (by simp) trivial ?_
    rintro o ep' (hp | ⟨⟨r, hr⟩, -⟩)
    · simp [State.goto] at hp
    · simp [State.goto] at hr

/-! ## `SharedObj_create` -/

omit [DecidableEq Tid] in
/-- An object whose creation is under way is not one of the others'. -/
theorem Inv.making (h : Inv s) {pc : CreatePc} {x : Obj × ℕ} (hop : s.op t = .create pc)
    (hx : pc.made = some x) : x.1 < s.mem.fresh ∧ s.status x.1 = .raw ∧ x.2 = s.mem.born x.1 ∧
      ∀ c, pc = .storeRetired x.1 c → s.mem.created x.1 = s.mem.born x.1 := by
  have hok := h.op t
  rw [hop] at hok
  exact hok x.1 x.2 hx

omit [DecidableEq Tid] in
/-- The objects of two creations are different. -/
theorem Inv.made_ne (h : Inv s) {u : Tid} (hu : u ≠ t) {pc pc' : CreatePc} {x y : Obj × ℕ}
    (hop : s.op t = .create pc) (hx : pc.made = some x) (hop' : s.op u = .create pc')
    (hy : pc'.made = some y) : y.1 ≠ x.1 :=
  fun e => hu (h.own u t pc' pc y x hop' hop hy hx e)

/-- A thread that is not in `SOM_reserve` protects what it holds. -/
theorem protects_self {p : Op Ref} (hop : s'.op = Function.update s.op t p)
    (hp : ∀ r ep q, p ≠ .reserve r (.check ep q)) (hheld : s'.held t = s.held t) {o : Obj} {ep : ℕ}
    (h : Protects s' t o ep) : Protects s t o ep := by
  rcases h with h | ⟨⟨r, hr⟩, -⟩
  · exact .inl (hheld ▸ h)
  · rw [hop, Function.update_self] at hr
    exact absurd hr (hp r ep _)

/-- A step of a thread outside `SOM_reserve` protects nothing new. -/
theorem Inv.protects_old (h : Inv s) {u : Tid} {o : Obj} {ep : ℕ} (hp : Protects s' u o ep)
    {p : Op Ref} (hop : s'.op = Function.update s.op t p)
    (hcheck : ∀ r ep q, p ≠ .reserve r (.check ep q)) (hheld : s'.held = s.held)
    (hepoch : s.mem.epoch ≤ s'.mem.epoch) : Protects s u o ep := by
  by_cases hu : u = t
  · subst hu
    exact protects_self hop hcheck (congrFun hheld u) hp
  · exact h.protects_of_ne hp hu hop (congrFun hheld u) hepoch

/-- A thread allocates an object, and may advance the epoch. -/
theorem Inv.create_malloc (h : Inv s) {e : ℕ} (he : s.mem.epoch ≤ e) :
    Inv ({ s with mem := { s.mem.malloc with epoch := e } }.goto t
      (.create (.storeNext s.mem.fresh s.mem.epoch))) := by
  have hlt : ∀ o, o < s.mem.fresh → Function.update s.mem.born s.mem.fresh s.mem.epoch o =
      s.mem.born o := fun o ho => Function.update_of_ne ho.ne ..
  have hself : Function.update s.mem.born s.mem.fresh s.mem.epoch s.mem.fresh = s.mem.epoch :=
    Function.update_self ..
  have hprot : ∀ u o ep, Protects ({ s with mem := { s.mem.malloc with epoch := e } }.goto t
      (.create (.storeNext s.mem.fresh s.mem.epoch))) u o ep → Protects s u o ep :=
    fun u o ep hp => h.protects_old hp rfl nofun rfl he
  refine h.advance (t := t)
    { epoch := he, fresh := Nat.le_succ _, born := hlt
      raw := fun u pc x _ hpc hm => ⟨(h.making hpc hm).2.1, rfl⟩
      retiring := fun _ _ _ ho => ⟨ho, rfl⟩
      listed := fun _ _ _ => Iff.rfl
      words := fun _ _ _ => ⟨rfl, rfl⟩
      thread := fun u hu => ⟨rfl, rfl⟩
      tid := fun _ _ => rfl
      res := fun _ _ _ => rfl
      protects := fun u o ep hp => .inl (hprot u o ep hp) }
    ⟨?_, ?_, h.refs, h.freed, h.list, h.next⟩ rfl rfl (fun _ => rfl) rfl (fun _ ho => ho) ?_ ?_
    (fun ep q hq => ?_) (fun u o ep hp => .inl (hprot u o ep hp)) (fun _ => .inl) fun _ => .inl
  · intro o ho
    change Function.update s.mem.born s.mem.fresh s.mem.epoch o ≤ e
    rcases Nat.lt_succ_iff_lt_or_eq.1 ho with ho | rfl
    · rw [hlt o ho]
      exact (h.born o ho).trans he
    · rw [hself]
      exact he
  · intro o ho
    obtain ⟨hlt', hc⟩ := h.known o ho
    exact ⟨Nat.lt_succ_of_lt hlt', hc.trans (hlt o hlt').symm⟩
  · rintro o created hm
    obtain ⟨rfl, rfl⟩ := Prod.mk.inj (Option.some.inj hm)
    refine ⟨Nat.lt_succ_self _, ?_, hself.symm, nofun⟩
    by_contra hst
    exact (h.known _ hst).1.false
  · rintro pc x ⟨⟩ hm u pc' y - hpc hy hxy
    obtain rfl := Option.some.inj hm
    exact (hxy ▸ (h.making hpc hy).1).false
  · obtain ⟨hreg, hle, hres⟩ := h.held t ep q hq
    exact ⟨hreg, hle.trans he, hres⟩

/-- A thread writes to the object it is creating. -/
theorem Inv.create_write (h : Inv s) {pc pc' : CreatePc} {x : Obj × ℕ} (hop : s.op t = .create pc)
    (hx : pc.made = some x) (hx' : pc'.made = some x) {n : Obj → Option Obj} {c : Obj → ℕ}
    (hn : ∀ o, o ≠ x.1 → n o = s.mem.next o) (hc : ∀ o, o ≠ x.1 → c o = s.mem.created o)
    (hcreated : ∀ c', pc' = .storeRetired x.1 c' → c x.1 = s.mem.born x.1) :
    Inv ({ s with mem := { s.mem with next := n, created := c } }.goto t (.create pc')) := by
  obtain ⟨hlt, hraw, hborn, -⟩ := h.making hop hx
  have hne : ∀ o, s.status o ≠ .raw → o ≠ x.1 := by
    rintro o ho rfl
    exact ho hraw
  have hprot : ∀ u o ep, Protects ({ s with mem := { s.mem with next := n, created := c } }.goto t
      (.create pc')) u o ep → Protects s u o ep :=
    fun u o ep hp => h.protects_old hp rfl nofun rfl le_rfl
  refine h.advance (t := t)
    { epoch := le_rfl, fresh := le_rfl, born := fun _ _ => rfl
      raw := fun u pc'' y hu hpc hm =>
        ⟨(h.making hpc hm).2.1, hc _ (h.made_ne hu hop hx hpc hm)⟩
      retiring := fun _ _ _ ho => ⟨ho, rfl⟩
      listed := fun _ _ _ => Iff.rfl
      words := fun _ o ho => ⟨hc o (hne o (by simp [ho])), rfl⟩
      thread := fun u hu => ⟨rfl, rfl⟩
      tid := fun _ _ => rfl
      res := fun _ _ _ => rfl
      protects := fun u o ep hp => .inl (hprot u o ep hp) }
    ⟨h.born, ?_, h.refs, h.freed, h.list, ?_⟩ rfl rfl (fun _ => rfl) rfl (fun _ ho => ho) ?_ ?_
    (fun ep q hq => h.held t ep q hq) (fun u o ep hp => .inl (hprot u o ep hp)) (fun _ => .inl)
    fun _ => .inl
  · intro o ho
    obtain ⟨hlt', hc'⟩ := h.known o ho
    exact ⟨hlt', (hc o (hne o ho)).trans hc'⟩
  · intro w o m ho hm
    exact h.next w o m ho ((hn o (hne o (by simp [show s.status o = _ from ho]))) ▸ hm)
  · intro o created hm
    obtain rfl := Option.some.inj (hx'.symm.trans hm)
    exact ⟨hlt, hraw, hborn, hcreated⟩
  · rintro pc'' y ⟨⟩ hm u p z hu hpc hz hyz
    obtain rfl := Option.some.inj (hx'.symm.trans hm)
    exact h.made_ne hu hop hx hpc hz hyz.symm

/-- `SharedObj_create` returns. -/
theorem Inv.created (h : Inv s) {o : Obj} {c : ℕ} (hop : s.op t = .create (.storeRetired o c)) :
    Inv ({ s with
      mem := { s.mem with retired := Function.update s.mem.retired o (wordPred c) },
      status := Function.update s.status o .live }.goto t .idle) := by
  obtain ⟨hlt, hraw, -, hc⟩ := h.making hop rfl
  have hst : ∀ {x st}, s.status x = st → st ≠ .raw →
      Function.update s.status o .live x = st ∧
        Function.update s.mem.retired o (wordPred c) x = s.mem.retired x := by
    intro x st hx hst
    have hne : x ≠ o := by
      rintro rfl
      exact hst (hx.symm.trans hraw)
    exact ⟨(Function.update_of_ne hne ..).trans hx, Function.update_of_ne hne ..⟩
  have hst' : ∀ {x st}, Function.update s.status o .live x = st → st ≠ .live → s.status x = st := by
    intro x st hx hst
    by_cases hne : x = o
    · rw [hne, Function.update_self] at hx
      exact absurd hx.symm hst
    · rwa [Function.update_of_ne hne] at hx
  have hprot : ∀ u x ep, Protects ({ s with
      mem := { s.mem with retired := Function.update s.mem.retired o (wordPred c) },
      status := Function.update s.status o .live }.goto t .idle) u x ep → Protects s u x ep :=
    fun u o ep hp => h.protects_old hp rfl nofun rfl le_rfl
  refine h.advance (t := t)
    { epoch := le_rfl, fresh := le_rfl, born := fun _ _ => rfl
      raw := fun u pc y hu hpc hm =>
        ⟨(Function.update_of_ne (h.made_ne hu hop rfl hpc hm) ..).trans (h.making hpc hm).2.1, rfl⟩
      retiring := fun _ _ _ ho => hst ho nofun
      listed := fun _ x _ => ⟨fun hx => hst' hx nofun, fun hx => (hst hx nofun).1⟩
      words := fun _ x hx => ⟨rfl, (hst hx nofun).2⟩
      thread := fun u hu => ⟨rfl, rfl⟩
      tid := fun _ _ => rfl
      res := fun _ _ _ => rfl
      protects := fun u o ep hp => .inl (hprot u o ep hp) }
    ⟨h.born, ?_, fun r x hx => (hst (h.refs r x hx) nofun).1, ?_,
      fun w x hx => (hst (h.list w x hx) nofun).1, ?_⟩ rfl rfl (fun _ => rfl) rfl ?_ trivial nofun
    (fun ep q hq => h.held t ep q hq) (fun u o ep hp => .inl (hprot u o ep hp)) (fun _ => .inl)
    fun x hx => .inl (hst' hx nofun)
  · intro x hx
    by_cases hne : x = o
    · subst hne
      exact ⟨hlt, hc c rfl⟩
    · exact h.known x (by simpa [State.goto, Function.update_of_ne hne] using hx)
  · intro x hx
    obtain ⟨w, hw⟩ := h.freed x hx
    exact ⟨w, (hst hw nofun).1⟩
  · intro w x n hx hn
    exact (hst (h.next w x n (hst' hx nofun) hn) nofun).1
  · intro x hx hx'
    exact hx (hst' (show Function.update s.status o .live x = .raw from hx') nofun)

/-- One access of `SharedObj_create`. -/
theorem Inv.create (h : Inv s) {pc : CreatePc} (hop : s.op t = .create pc)
    (hs : runThread P s t = some s') : Inv s' := by
  simp only [runThread, hop] at hs
  cases pc with
  | count =>
    have hl : ∀ k u, (Function.update s.loc t { s.loc t with ncreated := k } u).tid = (s.loc u).tid ∧
        (Function.update s.loc t { s.loc t with ncreated := k } u).retired = (s.loc u).retired := by
      intro k u
      by_cases hu : u = t
      · subst hu
        simp
      · simp [hu]
    simp only [CreatePc.step] at hs
    split at hs
    · rename_i heq
      split at heq <;> cases heq <;> obtain rfl := Option.some.inj hs
      · exact h.move t (hl _) (by rintro pc x ⟨⟩; nofun) nofun nofun
      · exact h.move t (hl _) (by rintro pc x ⟨⟩; nofun) nofun nofun
    · rename_i heq
      split at heq <;> cases heq
  | addEpoch =>
    simp only [CreatePc.step, Function.update_eq_self, Option.some.injEq] at hs
    subst hs
    exact h.create_malloc (Nat.le_succ _)
  | loadEpoch =>
    simp only [CreatePc.step, Function.update_eq_self, Option.some.injEq] at hs
    subst hs
    exact h.create_malloc le_rfl
  | storeNext self created =>
    simp only [CreatePc.step, Function.update_eq_self, Option.some.injEq] at hs
    subst hs
    exact h.create_write hop rfl rfl (fun o ho => Function.update_of_ne ho ..) (fun _ _ => rfl) nofun
  | storeCreated self created =>
    simp only [CreatePc.step, Function.update_eq_self, Option.some.injEq] at hs
    subst hs
    refine h.create_write hop rfl rfl (fun _ _ => rfl) (fun o ho => Function.update_of_ne ho ..)
      fun _ _ => ?_
    rw [Function.update_self]
    exact (h.making hop rfl).2.2.1
  | storeRetired self created =>
    simp only [CreatePc.step, Function.update_eq_self, Option.some.injEq] at hs
    subst hs
    exact h.created hop

/-! ## `SharedObj_retire` -/

omit [DecidableEq Tid] in
theorem RetireOk.congr {pc : RetirePc} (h : RetireOk s t pc) (hst : s'.status = s.status)
    (hcreated : s'.mem.created = s.mem.created) (hretired : s'.mem.retired = s.mem.retired)
    (hepoch : s'.mem.epoch = s.mem.epoch) (htid : ∀ u, (s'.loc u).tid = (s.loc u).tid)
    (hp : ∀ u o ep, Protects s' u o ep → Protects s u o ep) : RetireOk s' t pc := by
  have hstamp : ∀ {o retd}, Stamp s o retd → Stamp s' o retd :=
    fun hs => ⟨hepoch ▸ hs.1, fun u ep hu => hs.2 u ep (hp u _ ep hu)⟩
  have hsweep : ∀ {nt p i n}, Sweep s t nt p i n → Sweep s' t nt p i n := fun hs =>
    { covers := fun o u ep ho hu => htid u ▸ hs.covers o u ep (hst ▸ ho) (hp u o ep hu)
      kept := hst ▸ hs.kept, cur := hst ▸ hs.cur, rest := hst ▸ hs.rest }
  cases pc with
  | loadEpoch so => exact (congrFun hst so).trans h
  | storeRetired so ep => exact ⟨hst ▸ h.1, hstamp h.2⟩
  | storeNext so => exact ⟨hst ▸ h.1, hretired ▸ hstamp h.2⟩
  | count | loadNthr => trivial
  | loadNext nt p i | loadCreated nt p i n => exact hsweep h
  | loadRetired nt p i n creat => exact ⟨hsweep h.1, hcreated ▸ h.2⟩
  | loadRes nt p i n creat retd tt =>
    exact ⟨hsweep h.1, hcreated ▸ h.2.1, hretired ▸ h.2.2.1,
      fun u ep hu => htid u ▸ h.2.2.2 u ep (hp u i ep hu)⟩
  | drop nt p i n => exact ⟨hsweep h.1, fun u ep hu => h.2 u ep (hp u i ep hu)⟩

omit [DecidableEq Tid] in
theorem retireOk_sweep {nt : ℕ} {p n : Option Obj} (hc : Covers s t nt)
    (hp : ∀ o ∈ p, s.status o = .listed t) (hn : ∀ o ∈ n, s.status o = .listed t) {pc : RetirePc}
    (h : sweep nt p n = some pc) : RetireOk s t pc := by
  cases n with
  | none => cases h
  | some i =>
    obtain rfl := Option.some.inj h
    exact ⟨hc, hp, hn i rfl, nofun⟩

omit [DecidableEq Tid] in
theorem retireOk_scan {nt : ℕ} {p n : Option Obj} {i : Obj} {creat retd tt : ℕ}
    (hs : Sweep s t nt p i n) (hc : creat = s.mem.created i) (hr : retd = s.mem.retired i)
    (hp : ∀ u ep, Protects s u i ep → tt ≤ (s.loc u).tid) :
    RetireOk s t (scan nt p i n creat retd tt) := by
  unfold scan
  split_ifs with hlt
  · exact ⟨hs, hc, hr, hp⟩
  · exact ⟨hs, fun u ep hu => hlt ((hp u ep hu).trans_lt (hs.covers i u ep hs.cur hu))⟩

/-- Where `SharedObj_retire` goes on. -/
def afterRetire : Option RetirePc → Op Ref
  | some pc => .retire pc
  | none => .idle

theorem afterRetire_ne (r : Option RetirePc) (ref : Ref) (pc : ReservePc (Option Obj)) :
    (afterRetire r : Op Ref) ≠ .reserve ref pc := by
  cases r <;> nofun

theorem afterRetire_ne_create (r : Option RetirePc) (pc : CreatePc) :
    (afterRetire r : Op Ref) ≠ .create pc := by
  cases r <;> nofun

/-- `SharedObj_retire` goes on without a write to the memory. -/
theorem Inv.retire_move (h : Inv s) (t : Tid) {l : Tid → Local}
    (hl : ∀ u, (l u).tid = (s.loc u).tid ∧ (l u).retired = (s.loc u).retired)
    {r : Option RetirePc} (hok : ∀ pc, r = some pc → RetireOk s t pc) :
    Inv ({ s with loc := l }.goto t (afterRetire r)) := by
  refine h.move t hl (fun pc x hp => absurd hp (afterRetire_ne_create r pc)) ?_
    fun ref ep q => afterRetire_ne r ref _
  cases r with
  | none => trivial
  | some pc =>
    refine (hok pc rfl).congr rfl rfl rfl rfl (fun u => (hl u).1) fun u o ep hp => ?_
    exact h.protects_old hp rfl (fun ref ep q => afterRetire_ne _ ref _) rfl le_rfl

/-- The time of retirement is written. -/
theorem Inv.retire_stamp (h : Inv s) {so : Obj} {ep : ℕ}
    (hop : s.op t = .retire (.storeRetired so ep)) :
    Inv ({ s with mem := { s.mem with retired := Function.update s.mem.retired so ep } }.goto t
      (.retire (.storeNext so))) := by
  have hok := h.op t
  rw [hop] at hok
  obtain ⟨hst, hstamp⟩ := hok
  have hne : ∀ {o st}, s.status o = st → st ≠ .retiring t →
      Function.update s.mem.retired so ep o = s.mem.retired o := by
    intro o st ho hne
    refine Function.update_of_ne ?_ ..
    rintro rfl
    exact hne (ho.symm.trans hst)
  have hprot : ∀ u o ep', Protects ({ s with
      mem := { s.mem with retired := Function.update s.mem.retired so ep } }.goto t
        (.retire (.storeNext so))) u o ep' → Protects s u o ep' :=
    fun u o ep' hp => h.protects_old hp rfl nofun rfl le_rfl
  refine h.advance (t := t)
    { epoch := le_rfl, fresh := le_rfl, born := fun _ _ => rfl
      raw := fun u pc y hu hpc hm => ⟨(h.making hpc hm).2.1, rfl⟩
      retiring := fun u o hu ho => ⟨ho, hne ho fun e => hu (Status.retiring.inj e)⟩
      listed := fun _ x _ => Iff.rfl
      words := fun _ x hx => ⟨rfl, hne hx nofun⟩
      thread := fun u hu => ⟨rfl, rfl⟩
      tid := fun _ _ => rfl
      res := fun _ _ _ => rfl
      protects := fun u o ep hp => .inl (hprot u o ep hp) }
    ⟨h.born, h.known, h.refs, h.freed, h.list, h.next⟩ rfl rfl (fun _ => rfl) rfl (fun _ ho => ho)
    ⟨hst, ?_⟩ nofun (fun ep q hq => h.held t ep q hq) (fun u o ep hp => .inl (hprot u o ep hp))
    (fun _ => .inl) fun x hx => .inl hx
  have hself : Function.update s.mem.retired so ep so = ep := Function.update_self ..
  exact ⟨hself.le.trans hstamp.1, fun u ep' hp => (hstamp.2 u ep' (hprot u so ep' hp)).trans hself.ge⟩

/-- The object becomes the head of the thread's list. -/
theorem Inv.retire_push (h : Inv s) {so : Obj} (hop : s.op t = .retire (.storeNext so)) :
    Inv ({ s with
      mem := { s.mem with next := Function.update s.mem.next so (s.loc t).retired },
      loc := Function.update s.loc t { s.loc t with retired := some so },
      status := Function.update s.status so (.listed t) }.goto t (.retire .count)) := by
  have hok := h.op t
  rw [hop] at hok
  obtain ⟨hst, hstamp⟩ := hok
  have hkeep : ∀ {o st}, s.status o = st → st ≠ .retiring t →
      Function.update s.status so (.listed t) o = st := by
    intro o st ho hne
    refine (Function.update_of_ne ?_ ..).trans ho
    rintro rfl
    exact hne (ho.symm.trans hst)
  have hold : ∀ {o st}, Function.update s.status so (.listed t) o = st → o ≠ so → s.status o = st :=
    fun ho hne => (Function.update_of_ne hne ..).symm.trans ho
  have htid : ∀ u, (Function.update s.loc t { s.loc t with retired := some so } u).tid =
      (s.loc u).tid := by
    intro u
    by_cases hu : u = t
    · subst hu
      simp
    · simp [hu]
  have hprot : ∀ u o ep, Protects ({ s with
      mem := { s.mem with next := Function.update s.mem.next so (s.loc t).retired },
      loc := Function.update s.loc t { s.loc t with retired := some so },
      status := Function.update s.status so (.listed t) }.goto t (.retire .count)) u o ep →
        Protects s u o ep :=
    fun u o ep hp => h.protects_old hp rfl nofun rfl le_rfl
  refine h.advance (t := t)
    { epoch := le_rfl, fresh := le_rfl, born := fun _ _ => rfl
      raw := fun u pc y hu hpc hm => ⟨hkeep (h.making hpc hm).2.1 nofun, rfl⟩
      retiring := fun u o hu ho => ⟨hkeep ho fun e => hu (Status.retiring.inj e), rfl⟩
      listed := fun u x hu => ⟨fun hx => ?_, fun hx => hkeep hx nofun⟩
      words := fun _ x hx => ⟨rfl, rfl⟩
      thread := fun u hu => ⟨rfl, rfl⟩
      tid := fun u _ => htid u
      res := fun _ _ _ => rfl
      protects := fun u o ep hp => .inl (hprot u o ep hp) }
    ⟨h.born, ?_, fun r o ho => hkeep (h.refs r o ho) nofun, ?_, ?_, ?_⟩ rfl rfl htid rfl ?_ trivial
    nofun (fun ep q hq => h.held t ep q hq) (fun u o ep hp => .inl (hprot u o ep hp)) (fun _ => .inl) ?_
  · refine hold hx ?_
    rintro rfl
    simp only [State.goto, Function.update_self, Status.listed.injEq] at hx
    exact hu hx.symm
  · intro o ho
    by_cases hne : o = so
    · exact h.known o (by simp [hne, hst])
    · exact h.known o fun hr => ho ((Function.update_of_ne hne ..).trans hr)
  · intro o ho
    obtain ⟨w, hw⟩ := h.freed o ho
    exact ⟨w, hkeep hw nofun⟩
  · intro w o ho
    by_cases hw : w = t
    · subst hw
      simp only [State.goto, Function.update_self, Option.some.injEq] at ho
      exact ho ▸ Function.update_self ..
    · simp only [State.goto, Function.update_of_ne hw] at ho
      exact hkeep (h.list w o ho) nofun
  · intro w o n ho hn
    by_cases hne : o = so
    · subst hne
      simp only [State.goto, Function.update_self, Status.listed.injEq] at ho hn
      subst ho
      exact hkeep (h.list t n hn) nofun
    · simp only [State.goto, Function.update_of_ne hne] at hn
      exact hkeep (h.next w o n (hold ho hne) hn) nofun
  · intro o ho hr
    by_cases hne : o = so
    · subst hne
      simp [State.goto] at hr
    · exact ho (hold hr hne)
  · intro o ho
    by_cases hne : o = so
    · subst hne
      exact .inr ⟨hstamp.1, fun u ep hp => hstamp.2 u ep (hprot u o ep hp)⟩
    · exact .inl (hold ho hne)

/-- The sweep destroys an object and takes it out of the list. -/
theorem Inv.retire_drop (h : Inv s) {nt : ℕ} {p n : Option Obj} {i : Obj}
    (hop : s.op t = .retire (.drop nt p i n)) {x : Obj → Option Obj} {l : Tid → Local}
    (hx : ∀ o, x o = s.mem.next o ∨ p = some o ∧ x o = n)
    (hl : ∀ u, (l u).tid = (s.loc u).tid ∧ ((l u).retired = (s.loc u).retired ∨
      u = t ∧ (l u).retired = n)) :
    Inv ({ s with
      mem := { s.mem with next := x, freed := Function.update s.mem.freed i true },
      loc := l }.goto t (afterRetire (sweep nt p n))) := by
  have hok := h.op t
  rw [hop] at hok
  obtain ⟨hsw, hno⟩ := hok
  have hprot : ∀ u o ep, Protects ({ s with
      mem := { s.mem with next := x, freed := Function.update s.mem.freed i true },
      loc := l }.goto t (afterRetire (sweep nt p n))) u o ep → Protects s u o ep :=
    fun u o ep hp => h.protects_old hp rfl (fun ref ep q => afterRetire_ne _ ref _) rfl le_rfl
  refine h.advance (t := t)
    { epoch := le_rfl, fresh := le_rfl, born := fun _ _ => rfl
      raw := fun u pc y hu hpc hm => ⟨(h.making hpc hm).2.1, rfl⟩
      retiring := fun u o hu ho => ⟨ho, rfl⟩
      listed := fun _ x _ => Iff.rfl
      words := fun _ x hx => ⟨rfl, rfl⟩
      thread := fun u hu => ⟨rfl, rfl⟩
      tid := fun u _ => (hl u).1
      res := fun _ _ _ => rfl
      protects := fun u o ep hp => .inl (hprot u o ep hp) }
    ⟨h.born, h.known, h.refs, ?_, ?_, ?_⟩ rfl rfl (fun u => (hl u).1) rfl (fun _ ho => ho) ?_
    (fun pc y hp => absurd hp (afterRetire_ne_create _ pc)) (fun ep q hq => h.held t ep q hq)
    (fun u o ep hp => .inl (hprot u o ep hp)) ?_ fun x hx => .inl hx
  · intro o ho
    by_cases hne : o = i
    · exact ⟨t, hne ▸ hsw.cur⟩
    · exact h.freed o ((Function.update_of_ne hne ..).symm.trans ho)
  · intro w o ho
    rcases (hl w).2 with he | ⟨rfl, he⟩
    · exact h.list w o (he ▸ ho)
    · exact hsw.rest o (he ▸ ho)
  · intro w o m ho hm
    rcases hx o with he | ⟨hp, he⟩
    · exact h.next w o m ho (he ▸ hm)
    · obtain rfl : t = w := Status.listed.inj ((hsw.kept o hp).symm.trans ho)
      exact hsw.rest m (he ▸ hm)
  · cases hr : sweep nt p n with
    | none => trivial
    | some pc =>
      exact (retireOk_sweep hsw.covers hsw.kept hsw.rest hr).congr rfl rfl rfl rfl
        (fun u => (hl u).1) (hr ▸ hprot)
  · intro o ho
    by_cases hne : o = i
    · exact .inr (hne ▸ hno)
    · exact .inl ((Function.update_of_ne hne ..).symm.trans ho)

/-- The result of an access of `SharedObj_retire` other than the one that lists the object. -/
theorem runThread_retire {pc : RetirePc} (hop : s.op t = .retire pc)
    (hpc : ∀ so, pc ≠ .storeNext so) : runThread P s t = some ({ s with
      mem := (pc.step P s.mem (s.loc t)).1,
      loc := Function.update s.loc t (pc.step P s.mem (s.loc t)).2.1 }.goto t
        (afterRetire (pc.step P s.mem (s.loc t)).2.2)) := by
  simp only [runThread, hop]
  cases pc with
  | storeNext so => exact absurd rfl (hpc so)
  | _ => split <;> rename_i heq <;> rw [heq] <;> rfl

/-- One access of `SharedObj_retire`. -/
theorem Inv.retire (h : Inv s) (hshort : ShortLives s) {pc : RetirePc} (hop : s.op t = .retire pc)
    (hs : runThread P s t = some s') : Inv s' := by
  have hok := h.op t
  rw [hop] at hok
  have hloc : ∀ u, (Function.update s.loc t (s.loc t) u).tid = (s.loc u).tid ∧
      (Function.update s.loc t (s.loc t) u).retired = (s.loc u).retired := by
    simp
  by_cases hpc : ∀ so, pc ≠ .storeNext so
  · rw [runThread_retire hop hpc] at hs
    obtain rfl := Option.some.inj hs
    cases pc with
    | storeNext so => exact absurd rfl (hpc so)
    | loadEpoch so =>
      refine h.retire_move t hloc ?_
      rintro _ ⟨⟩
      exact ⟨hok, le_rfl, fun u ep hp => (h.published hp).2.1⟩
    | storeRetired so ep =>
      simp only [RetirePc.step, Function.update_eq_self]
      exact h.retire_stamp hop
    | count =>
      have hl : ∀ k u, (Function.update s.loc t { s.loc t with nretired := k } u).tid =
          (s.loc u).tid ∧ (Function.update s.loc t { s.loc t with nretired := k } u).retired =
            (s.loc u).retired := by
        intro k u
        by_cases hu : u = t
        · subst hu
          simp
        · simp [hu]
      simp only [RetirePc.step]
      split_ifs
      · exact h.retire_move t (hl _) (by rintro _ ⟨⟩; trivial)
      · exact h.retire_move t (hl _) nofun
    | loadNthr =>
      refine h.retire_move t hloc fun pc' hpc' => retireOk_sweep ?_ (by simp) (h.list t) hpc'
      exact fun o u ep _ hp => h.tid_lt u (h.published hp).1
    | loadNext nt p i =>
      refine h.retire_move t hloc ?_
      rintro _ ⟨⟩
      exact ⟨hok.covers, hok.kept, hok.cur, fun o ho => h.next t i o hok.cur ho⟩
    | loadCreated nt p i n =>
      refine h.retire_move t hloc ?_
      rintro _ ⟨⟩
      exact ⟨hok, rfl⟩
    | loadRetired nt p i n creat =>
      refine h.retire_move t hloc ?_
      rintro _ ⟨⟩
      exact retireOk_scan hok.1 hok.2 rfl fun _ _ _ => Nat.zero_le _
    | loadRes nt p i n creat retd tt =>
      obtain ⟨hsw, rfl, rfl, hp⟩ := hok
      simp only [RetirePc.step]
      split_ifs with hconf
      · refine h.retire_move t hloc fun pc' hpc' =>
          retireOk_sweep hsw.covers ?_ hsw.rest hpc'
        exact fun o ho => Option.some.inj ho ▸ hsw.cur
      · refine h.retire_move t hloc ?_
        rintro _ ⟨⟩
        refine retireOk_scan hsw rfl rfl fun u ep hu => ?_
        -- the reservation just loaded is not one of a thread that protects the object
        refine lt_of_le_of_ne (hp u ep hu) fun he => hconf ?_
        obtain ⟨-, hle, hres⟩ := h.published hu
        obtain ⟨hst, hborn, hfreed⟩ := h.protects u i ep hu
        obtain ⟨hlt, hcr⟩ := h.known i hst
        obtain ⟨hretd, hstamp⟩ := h.stamp t i hsw.cur
        rw [he, hres]
        refine conflicts_word (hcr ▸ hborn) (hstamp u ep hu) (hretd.trans_lt ?_)
        exact hcr ▸ hshort i hlt hfreed
    | drop nt p i n =>
      cases p with
      | none =>
        refine h.retire_drop hop (fun _ => .inl rfl) fun u => ?_
        by_cases hu : u = t
        · subst hu
          simp [RetirePc.step]
        · simp [RetirePc.step, hu]
      | some p =>
        refine h.retire_drop hop (fun o => ?_) fun u => ⟨(hloc u).1, .inl (hloc u).2⟩
        by_cases ho : o = p
        · subst ho
          exact .inr ⟨rfl, Function.update_self ..⟩
        · exact .inl (Function.update_of_ne ho ..)
  · obtain ⟨so, rfl⟩ : ∃ so, pc = .storeNext so := by
      by_contra hne
      exact hpc fun so hso => hne ⟨so, hso⟩
    simp only [runThread, hop, RetirePc.step, Option.some.injEq] at hs
    subst hs
    exact h.retire_push hop

/-- A thread calls `SharedObj_retire` on an object that no reference holds. -/
theorem Inv.retire_call (h : Inv s) {so : Obj} (hso : s.status so = .live)
    (hrefs : ∀ r, s.refs r ≠ some so) :
    Inv ({ s with status := Function.update s.status so (.retiring t) }.goto t
      (.retire (.loadEpoch so))) := by
  have hkeep : ∀ {o st}, s.status o = st → st ≠ .live →
      Function.update s.status so (.retiring t) o = st := by
    intro o st ho hne
    refine (Function.update_of_ne ?_ ..).trans ho
    rintro rfl
    exact hne (ho.symm.trans hso)
  have hold : ∀ {o st}, Function.update s.status so (.retiring t) o = st → st ≠ .retiring t →
      s.status o = st := by
    intro o st ho hne
    by_cases he : o = so
    · rw [he, Function.update_self] at ho
      exact absurd ho.symm hne
    · rwa [Function.update_of_ne he] at ho
  have hprot : ∀ u o ep, Protects ({ s with
      status := Function.update s.status so (.retiring t) }.goto t (.retire (.loadEpoch so))) u o ep →
        Protects s u o ep :=
    fun u o ep hp => h.protects_old hp rfl nofun rfl le_rfl
  refine h.advance (t := t)
    { epoch := le_rfl, fresh := le_rfl, born := fun _ _ => rfl
      raw := fun u pc y hu hpc hm => ⟨hkeep (h.making hpc hm).2.1 nofun, rfl⟩
      retiring := fun u o hu ho => ⟨hkeep ho nofun, rfl⟩
      listed := fun u x hu => ⟨fun hx => hold hx nofun, fun hx => hkeep hx nofun⟩
      words := fun _ x hx => ⟨rfl, rfl⟩
      thread := fun u hu => ⟨rfl, rfl⟩
      tid := fun u _ => rfl
      res := fun _ _ _ => rfl
      protects := fun u o ep hp => .inl (hprot u o ep hp) }
    ⟨h.born, ?_, ?_, ?_, fun w o ho => hkeep (h.list w o ho) nofun, ?_⟩ rfl rfl (fun _ => rfl) rfl ?_
    (Function.update_self ..) nofun (fun ep q hq => h.held t ep q hq)
    (fun u o ep hp => .inl (hprot u o ep hp)) (fun _ => .inl) fun o ho => .inl (hold ho nofun)
  · intro o ho
    refine h.known o fun hr => ho (hkeep hr nofun)
  · intro r o ho
    refine (Function.update_of_ne ?_ ..).trans (h.refs r o ho)
    rintro rfl
    exact hrefs r ho
  · intro o ho
    obtain ⟨w, hw⟩ := h.freed o ho
    exact ⟨w, hkeep hw nofun⟩
  · intro w o n ho hn
    exact hkeep (h.next w o n (hold ho nofun) hn) nofun
  · intro o ho hr
    exact ho (hold hr nofun)

/-- A thread registers. -/
theorem Inv.register (h : Inv s) (hreg : s.registered t = false) (hidle : s.op t = .idle) :
    Inv { s with
      mem := { s.mem with nthr := s.mem.nthr + 1 },
      loc := Function.update s.loc t { s.loc t with tid := s.mem.nthr },
      registered := Function.update s.registered t true } := by
  have hne : ∀ u, s.registered u = true → u ≠ t := by
    rintro u hu rfl
    rw [hreg] at hu
    cases hu
  have htid : ∀ u, u ≠ t →
      Function.update s.loc t { s.loc t with tid := s.mem.nthr } u = s.loc u :=
    fun u hu => Function.update_of_ne hu ..
  have hregd : ∀ u, u ≠ t → Function.update s.registered t true u = s.registered u :=
    fun u hu => Function.update_of_ne hu ..
  have e : Evolves s { s with
      mem := { s.mem with nthr := s.mem.nthr + 1 },
      loc := Function.update s.loc t { s.loc t with tid := s.mem.nthr },
      registered := Function.update s.registered t true } t :=
    { epoch := le_rfl, fresh := le_rfl, born := fun _ _ => rfl
      raw := fun u pc y hu hpc hm => ⟨(h.making hpc hm).2.1, rfl⟩
      retiring := fun u o hu ho => ⟨ho, rfl⟩
      listed := fun u x hu => Iff.rfl
      words := fun _ x hx => ⟨rfl, rfl⟩
      thread := fun u hu => ⟨hregd u hu, rfl⟩
      tid := fun u hu => congrArg Local.tid (htid u (hne u hu))
      res := fun _ _ _ => rfl
      protects := fun u o ep hp => .inl hp }
  refine { h with tid_lt := ?_, tid_inj := ?_, op := ?_, held := ?_, list := ?_ }
  · intro u hu
    by_cases hut : u = t
    · subst hut
      simp
    · simp only [hregd u hut, htid u hut] at hu ⊢
      exact Nat.lt_succ_of_lt (h.tid_lt u hu)
  · intro u u' hu hu' he
    by_cases hut : u = t <;> by_cases hut' : u' = t
    · rw [hut, hut']
    · simp only [hut, Function.update_self, hregd u' hut', htid u' hut'] at he hu'
      exact absurd he.symm (h.tid_lt u' hu').ne
    · simp only [hut', Function.update_self, hregd u hut, htid u hut] at he hu
      exact absurd he (h.tid_lt u hu).ne
    · simp only [hregd u hut, htid u hut, hregd u' hut', htid u' hut'] at he hu hu'
      exact h.tid_inj u u' hu hu' he
  · intro u
    by_cases hut : u = t
    · subst hut
      simp only [hidle]
      trivial
    · exact e.opOk h hut
  · intro u ep q hq
    obtain ⟨hr, hle, hres⟩ := h.held u ep q hq
    simp only [hregd u (hne u hr), htid u (hne u hr)]
    exact ⟨hr, hle, hres⟩
  · intro w o ho
    refine h.list w o ?_
    by_cases hw : w = t
    · subst hw
      simpa using ho
    · simpa [hw] using ho

omit [DecidableEq Tid] in
/-- A reference is overwritten. -/
theorem Inv.write [DecidableEq Ref] (h : Inv s) {ref : Ref} {p : Option Obj}
    (hp : ∀ o ∈ p, s.status o = .live) :
    Inv { s with refs := Function.update s.refs ref p } := by
  refine { h with refs := fun r o ho => ?_, op := fun t => ?_ }
  · by_cases hr : r = ref
    · subst hr
      exact hp o (by simpa using ho)
    · exact h.refs r o (by simpa [Function.update_of_ne hr] using ho)
  · have hop := h.op t
    cases hpc : s.op t with
    | retire pc =>
      rw [hpc] at hop
      exact RetireOk.congr hop rfl rfl rfl rfl (fun _ => rfl) fun _ _ _ hu => hu
    | reserve r pc =>
      rw [hpc] at hop
      cases pc <;> exact hop
    | _ =>
      rw [hpc] at hop
      exact hop

/-! ## Runs -/

omit [DecidableEq Tid] in
theorem Init.inv (h : Init s) : Inv s := by
  constructor <;> simp [h.fresh, h.freed, h.refs, h.loc, h.op, h.registered, h.status, h.held,
    Local.zero, OpOk, Protects]

/-- The bounds on epoch increments under which reclamation is safe. -/
structure Bounded (s : State Tid Ref) : Prop where
  lives : ShortLives s
  passes : ShortPasses s

variable [DecidableEq Ref] [Fintype Ref]

theorem Inv.step (h : Inv s) (hb : Bounded s) {a : Action Tid Ref} (hs : step P s a = some s') :
    Inv s' := by
  cases a with
  | register t =>
    simp only [SharedObj.step] at hs
    split_ifs at hs with hg
    obtain rfl := Option.some.inj hs
    exact h.register hg.2 hg.1
  | create t =>
    simp only [SharedObj.step] at hs
    split_ifs at hs with hg
    obtain rfl := Option.some.inj hs
    exact h.move t (fun _ => ⟨rfl, rfl⟩) (by rintro pc x ⟨⟩; nofun) nofun nofun
  | retire t so =>
    simp only [SharedObj.step] at hs
    split_ifs at hs with hg
    obtain rfl := Option.some.inj hs
    exact h.retire_call hg.2.1 hg.2.2
  | reserve t ref =>
    simp only [SharedObj.step] at hs
    split_ifs at hs with hg
    obtain rfl := Option.some.inj hs
    exact h.move t (fun _ => ⟨rfl, rfl⟩) nofun ⟨hg.2.1, hg.2.2, nofun, trivial⟩ nofun
  | release t =>
    simp only [SharedObj.step] at hs
    split_ifs at hs with hg
    obtain rfl := Option.some.inj hs
    obtain ⟨⟨ep, q⟩, hq⟩ := Option.ne_none_iff_exists'.1 hg.2
    exact h.move t (fun _ => ⟨rfl, rfl⟩) nofun (h.held t ep q hq).1 nofun
  | write ref p =>
    simp only [SharedObj.step] at hs
    split_ifs at hs with hg
    obtain rfl := Option.some.inj hs
    exact h.write hg
  | run t =>
    cases hop : s.op t with
    | idle => simp [SharedObj.step, runThread, hop] at hs
    | create pc => exact h.create hop hs
    | retire pc => exact h.retire hb.lives hop hs
    | reserve r pc => exact h.reserve hb.passes hop hs
    | release pc => exact h.release hop hs

/-- In every run with fewer than `2^32` epoch increments in the life of each object and in each pass
of `SOM_reserve`, no thread holds a destroyed object. -/
theorem reclaim_safe (h : (machine Tid Ref P).Run (fun s _ => Bounded s) s) : Safe s := by
  have hinv : Inv s :=
    Machine.Run.invariant (I := Inv) (fun _ => Init.inv) (fun _ _ _ hi hb hs => hi.step hb hs) h
  exact fun t ep o ho => (hinv.protects t o ep (.inl ho)).2.2

/-! ## A reader that outlasts a sweep -/

def shortPass (epoch : ℕ) : Op Unit → Bool
  | .reserve _ pc => (passEpoch pc).all fun ep => epoch < ep + 2 ^ 32
  | _ => true

/-- A test for `Bounded` with two threads and one reference. -/
def bounded (s : State (Fin 2) Unit) : Bool :=
  decide (∀ o < s.mem.fresh, s.mem.freed o = false → s.mem.epoch < s.mem.born o + 2 ^ 32) &&
  decide (∀ t, shortPass s.mem.epoch (s.op t) = true)

theorem bounded_sound {s : State (Fin 2) Unit} (h : bounded s = true) : Bounded s := by
  rw [bounded, Bool.and_eq_true] at h
  have hlives := of_decide_eq_true h.1
  refine ⟨hlives, fun t ref pc ep hop hep => ?_⟩
  have hpass := of_decide_eq_true h.2 t
  rw [hop, shortPass, hep, Option.all_some] at hpass
  exact of_decide_eq_true hpass

/-- No object and no registered thread, in epoch 0. -/
def empty : State (Fin 2) Unit where
  mem :=
    { epoch := 0, nthr := 0, res := fun _ => 0, next := fun _ => none, created := fun _ => 0
      retired := fun _ => 0, fresh := 0, born := fun _ => 0, freed := fun _ => false }
  refs := fun _ => none
  loc := fun _ => .zero
  op := fun _ => .idle
  registered := fun _ => false
  status := fun _ => .raw
  held := fun _ => none

theorem empty_init : Init empty := by
  constructor <;> first | rfl | exact fun _ => rfl

/-- Thread 1 retires the object thread 0 holds and sweeps: the object is still there. -/
theorem reclaim_safe_reader : ∃ s : State (Fin 2) Unit,
    s.held 0 = some (1, some 0) ∧ s.status 0 = .listed 1 ∧ Safe s := by
  have hrun : ((machine (Fin 2) Unit ⟨1, 1⟩).execOk (fun s _ => bounded s)
      (.register 0 :: .create 1 :: List.replicate 5 (.run 1) ++ .write () (some 0) ::
        .reserve 0 () :: List.replicate 4 (.run 0) ++ .write () none :: .retire 1 0 ::
          List.replicate 9 (.run 1)) empty).any
      (fun s => decide (s.held 0 = some (1, some 0) ∧ s.status 0 = .listed 1)) = true := by decide
  obtain ⟨s, hs, hp⟩ := Machine.exists_run empty_init (fun _ _ => bounded_sound) hrun
  exact ⟨s, (of_decide_eq_true hp).1, (of_decide_eq_true hp).2, reclaim_safe hs⟩

end PoserCore.SharedObj
