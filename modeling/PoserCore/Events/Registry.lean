import Mathlib.Data.List.Perm.Basic
import PoserCore.Events.Model

/-!
# What an event is for

The registrations of an event in their order, cut where a running raise stands: those it has passed
and those ahead of it.  A registration is added at the end, which is ahead of the raise only when
something else is, and taken out wherever it is; the raise passes one registration after the other.

`Turns` says what has become of the registrations a raise began with.  Its invariant is that the
ones still ahead are those whose turn has not come, less those unregistered since: registrations
made meanwhile come after all of them.
-/

namespace PoserCore.Events

/-! ## Records of what happened -/

/-- The registrations that were called. -/
def calls (tr : List Ev) : List Reg :=
  tr.filterMap fun
    | .called r _ _ => some r
    | _ => none

/-- The registrations that were ended. -/
def drops (tr : List Ev) : List Reg :=
  tr.filterMap fun
    | .unregistered r => some r
    | _ => none

@[simp] theorem calls_append (tr tr' : List Ev) : calls (tr ++ tr') = calls tr ++ calls tr' :=
  List.filterMap_append

@[simp] theorem drops_append (tr tr' : List Ev) : drops (tr ++ tr') = drops tr ++ drops tr' :=
  List.filterMap_append

/-- Called exactly once, while it was registered. -/
def OnceIn (r : Reg) (tr : List Ev) : Prop :=
  ∃ t₁ t₂ sender args, tr = t₁ ++ .called r sender args :: t₂ ∧
    r ∉ calls t₁ ∧ r ∉ calls t₂ ∧ r ∉ drops t₁

/-- Unregistered and not called. -/
def DroppedIn (r : Reg) (tr : List Ev) : Prop := r ∈ drops tr ∧ r ∉ calls tr

/-- No registration is called after its end. -/
def Orderly (tr : List Ev) : Prop := ∀ t₁ t₂ r, tr = t₁ ++ t₂ → r ∈ drops t₁ → r ∉ calls t₂

variable {r : Reg} {tr ext : List Ev}

theorem OnceIn.append (h : OnceIn r tr) (hr : r ∉ calls ext) : OnceIn r (tr ++ ext) := by
  obtain ⟨t₁, t₂, sender, args, rfl, h₁, h₂, hd⟩ := h
  refine ⟨t₁, t₂ ++ ext, sender, args, by simp, h₁, ?_, hd⟩
  rw [calls_append, List.mem_append]
  exact fun hm => hm.elim h₂ hr

theorem DroppedIn.append (h : DroppedIn r tr) (hr : r ∉ calls ext) : DroppedIn r (tr ++ ext) := by
  constructor
  · rw [drops_append]
    exact List.mem_append_left _ h.1
  · rw [calls_append, List.mem_append]
    exact fun hm => hm.elim h.2 hr

theorem orderly_nil : Orderly [] := by
  intro t₁ t₂ r h
  obtain ⟨rfl, rfl⟩ := List.nil_eq_append_iff.1 h
  exact fun _ hm => nomatch hm

/-- One more record, which calls nothing that was ended. -/
theorem Orderly.snoc {ev : Ev} (h : Orderly tr) (hev : ∀ r ∈ calls [ev], r ∉ drops tr) :
    Orderly (tr ++ [ev]) := by
  intro t₁ t₂ r he hd
  rcases List.eq_nil_or_concat t₂ with rfl | ⟨t, x, rfl⟩
  · exact fun hm => nomatch hm
  · rw [List.concat_eq_append, ← List.append_assoc] at he
    obtain ⟨rfl, hx⟩ := List.append_inj' he rfl
    rw [List.concat_eq_append, ← hx, calls_append, List.mem_append]
    rintro (hm | hm)
    · exact h t₁ t r rfl hd hm
    · apply hev r hm
      rw [drops_append]
      exact List.mem_append_left _ hd

/-! ## The registry -/

structure Registry where
  before : List Reg
  ahead : List Reg
  count : ℕ
  trace : List Ev

namespace Registry

def regs (A : Registry) : List Reg := A.before ++ A.ahead

/-- A new registration comes last. -/
def add (A : Registry) (hdl : EvHandler) : Registry where
  before := if A.ahead = [] then A.before ++ [⟨A.count, hdl⟩] else A.before
  ahead := if A.ahead = [] then [] else A.ahead ++ [⟨A.count, hdl⟩]
  count := A.count + 1
  trace := A.trace ++ [.registered ⟨A.count, hdl⟩]

def drop (A : Registry) (r : Reg) : Registry where
  before := A.before.filter fun x => x ≠ r
  ahead := A.ahead.filter fun x => x ≠ r
  count := A.count
  trace := A.trace ++ [.unregistered r]

/-- One step while a raise of `id` may be running. -/
inductive Step (id : ℤ) (A : Registry) : Act → Registry → Prop
  | known (hdl : EvHandler) (h : ∃ r ∈ A.regs, r.handler = hdl) : Step id A (.op (.register hdl)) A
  | register (hdl : EvHandler) (h : ∀ r ∈ A.regs, r.handler ≠ hdl) :
      Step id A (.op (.register hdl)) (A.add hdl)
  | unknown (hdl : EvHandler) (h : ∀ r ∈ A.regs, r.handler ≠ hdl) :
      Step id A (.op (.unregister hdl)) A
  | unregister (r : Reg) (h : r ∈ A.regs) : Step id A (.op (.unregister r.handler)) (A.drop r)
  | raise (i : ℤ) (args : Args) : Step id A (.raise i args) { A with before := [], ahead := A.regs }
  | call (r : Reg) (rest : List Reg) (sender : Addr) (args : Args) (h : A.ahead = r :: rest)
      (hid : r.handler.id = id) :
      Step id A .visit
        { A with
          before := A.before ++ [r]
          ahead := rest
          trace := A.trace ++ [.called r sender args] }
  | skip (r : Reg) (rest : List Reg) (h : A.ahead = r :: rest) (hid : r.handler.id ≠ id) :
      Step id A .visit { A with before := A.before ++ [r], ahead := rest }
  | ret : Step id A .ret A
  | done (h : A.ahead = []) : Step id A .done A

/-- What every step keeps. -/
structure Good (A : Registry) : Prop where
  sorted : A.regs.Pairwise fun r r' => r.ref < r'.ref
  bound : ∀ r ∈ A.regs, r.ref < A.count
  handlers : (A.regs.map Reg.handler).Nodup
  past : ∀ r ∈ drops A.trace, r.ref < A.count
  live : ∀ r ∈ A.regs, r ∉ drops A.trace
  orderly : Orderly A.trace

variable {id : ℤ} {A A' : Registry} {a : Act}

theorem regs_add (A : Registry) (hdl : EvHandler) :
    (A.add hdl).regs = A.regs ++ [⟨A.count, hdl⟩] := by
  unfold regs add
  by_cases h : A.ahead = []
  · simp [h]
  · simp [h]

theorem regs_drop (A : Registry) (r : Reg) :
    (A.drop r).regs = A.regs.filter fun x => x ≠ r := by
  unfold regs drop
  rw [List.filter_append]

theorem Good.add (hg : A.Good) {hdl : EvHandler} (h : ∀ r ∈ A.regs, r.handler ≠ hdl) :
    (A.add hdl).Good := by
  have hdrops : drops (A.add hdl).trace = drops A.trace := by
    change drops (A.trace ++ [_]) = _
    rw [drops_append]
    exact List.append_nil _
  constructor
  · rw [regs_add, List.pairwise_append]
    refine ⟨hg.sorted, List.pairwise_singleton _ _, ?_⟩
    intro r hr r' hr'
    rw [List.mem_singleton.1 hr']
    exact hg.bound r hr
  · intro r hr
    change r.ref < A.count + 1
    rw [regs_add, List.mem_append, List.mem_singleton] at hr
    rcases hr with hr | rfl
    · have := hg.bound r hr
      omega
    · exact Nat.lt_succ_self _
  · rw [regs_add, List.map_append, List.map_singleton]
    apply List.Nodup.append hg.handlers (List.nodup_singleton _)
    rw [List.disjoint_singleton]
    intro hm
    obtain ⟨r, hr, he⟩ := List.mem_map.1 hm
    exact h r hr he
  · intro r hr
    rw [hdrops] at hr
    exact Nat.lt_succ_of_lt (hg.past r hr)
  · intro r hr
    rw [hdrops]
    rw [regs_add, List.mem_append, List.mem_singleton] at hr
    rcases hr with hr | rfl
    · exact hg.live r hr
    · intro hm
      exact absurd (hg.past _ hm) (Nat.lt_irrefl _)
  · exact hg.orderly.snoc fun r hr => nomatch hr

theorem Good.drop (hg : A.Good) {r : Reg} (hr : r ∈ A.regs) : (A.drop r).Good := by
  have hsub : (A.drop r).regs.Sublist A.regs := by
    rw [regs_drop]
    exact List.filter_sublist
  have hdrops : drops (A.drop r).trace = drops A.trace ++ [r] := drops_append _ _
  constructor
  · exact hg.sorted.sublist hsub
  · exact fun x hx => hg.bound x (hsub.subset hx)
  · exact hg.handlers.sublist (hsub.map _)
  · intro x hx
    rw [hdrops, List.mem_append, List.mem_singleton] at hx
    rcases hx with hx | rfl
    · exact hg.past x hx
    · exact hg.bound x hr
  · intro x hx
    rw [hdrops, List.mem_append, List.mem_singleton]
    rw [regs_drop, List.mem_filter, decide_eq_true_eq] at hx
    rintro (hm | rfl)
    · exact hg.live x hx.1 hm
    · exact hx.2 rfl
  · exact hg.orderly.snoc fun r hr => nomatch hr

/-- Moving the cut, with a call of a registration or without. -/
theorem Good.advance (hg : A.Good) (before ahead : List Reg) (hregs : before ++ ahead = A.regs)
    {ext : List Ev} (hext : ext = [] ∨ ∃ r ∈ A.regs, ∃ sender args, ext = [.called r sender args]) :
    Good { A with before := before, ahead := ahead, trace := A.trace ++ ext } := by
  have hdrops : drops ext = [] := by
    rcases hext with rfl | ⟨r, -, sender, args, rfl⟩ <;> rfl
  have htrace : drops (A.trace ++ ext) = drops A.trace := by
    rw [drops_append, hdrops, List.append_nil]
  have hnew : regs { A with before := before, ahead := ahead, trace := A.trace ++ ext } = A.regs :=
    hregs
  constructor
  · rw [hnew]
    exact hg.sorted
  · rw [hnew]
    exact hg.bound
  · rw [hnew]
    exact hg.handlers
  · exact fun r hr => hg.past r (htrace ▸ hr)
  · rw [hnew, htrace]
    exact hg.live
  · rcases hext with rfl | ⟨r, hr, sender, args, rfl⟩
    · rw [List.append_nil]
      exact hg.orderly
    · apply hg.orderly.snoc
      intro x hx
      obtain rfl : x = r := List.mem_singleton.1 hx
      exact hg.live x hr

theorem Good.step (hg : A.Good) (h : Step id A a A') : A'.Good := by
  cases h with
  | known hdl h => exact hg
  | register hdl h => exact hg.add h
  | unknown hdl h => exact hg
  | unregister r h => exact hg.drop h
  | raise i args =>
    have hadv := hg.advance [] A.regs rfl (Or.inl rfl)
    rwa [List.append_nil] at hadv
  | call r rest sender args h hid =>
    refine hg.advance _ _ (by simp [regs, h]) (Or.inr ⟨r, ?_, sender, args, rfl⟩)
    simp [regs, h]
  | skip r rest h hid =>
    have hadv := hg.advance (A.before ++ [r]) rest (by simp [regs, h]) (Or.inl rfl)
    rwa [List.append_nil] at hadv
  | ret => exact hg
  | done h => exact hg

/-! ### The registrations a raise began with -/

/-- Of the registrations `L₀` that were there when the raise of `id` began, `P` have had their turn
and `Q` have not; `tr` is what happened since, with `v` entries visited. -/
structure Turns (id : ℤ) (n₀ : ℕ) (L₀ : List Reg) (t₀ : List Ev) (v : ℕ) (A : Registry)
    (tr : List Ev) (P Q : List Reg) : Prop where
  trace : A.trace = t₀ ++ tr
  split : L₀ = P ++ Q
  count : n₀ ≤ A.count
  ahead : (A.ahead.filter fun r => r.ref < n₀) = Q.filter fun r => r ∉ drops tr
  passed : ∀ r ∈ P, r.handler.id = id → OnceIn r tr ∨ DroppedIn r tr
  waiting : ∀ r ∈ Q, r ∉ calls tr
  ids : ∀ r ∈ calls tr, r.handler.id = id
  inOrder : ((calls tr).filter fun r => r.ref < n₀).Sublist P
  visits : Q.length + v ≤ L₀.length ∨ Q = []

section

variable {n₀ v : ℕ} {L₀ P Q : List Reg} {t₀ tr : List Ev}

/-- A record that calls nothing, of a step that keeps the cut. -/
theorem Turns.record (h : Turns id n₀ L₀ t₀ v A tr P Q) {ev : Ev} (hev : calls [ev] = [])
    (htrace : A'.trace = A.trace ++ [ev]) (hcount : A.count ≤ A'.count)
    (hahead : (A'.ahead.filter fun r => r.ref < n₀) = Q.filter fun r => r ∉ drops (tr ++ [ev])) :
    Turns id n₀ L₀ t₀ v A' (tr ++ [ev]) P Q := by
  have hcalls : calls (tr ++ [ev]) = calls tr := by rw [calls_append, hev, List.append_nil]
  constructor
  · rw [htrace, h.trace, List.append_assoc]
  · exact h.split
  · exact Nat.le_trans h.count hcount
  · exact hahead
  · intro r hr hid
    have hnot : r ∉ calls [ev] := by simp [hev]
    exact (h.passed r hr hid).imp (fun ho => ho.append hnot) fun hd => hd.append hnot
  · rw [hcalls]
    exact h.waiting
  · rw [hcalls]
    exact h.ids
  · rw [hcalls]
    exact h.inOrder
  · exact h.visits

theorem Turns.add (h : Turns id n₀ L₀ t₀ v A tr P Q) (hdl : EvHandler) :
    Turns id n₀ L₀ t₀ v (A.add hdl) (tr ++ [.registered ⟨A.count, hdl⟩]) P Q := by
  apply h.record rfl rfl (Nat.le_succ _)
  have hnew : ¬ A.count < n₀ := Nat.not_lt.2 h.count
  rw [drops_append]
  change _ = Q.filter fun r => r ∉ drops tr ++ []
  rw [List.append_nil, ← h.ahead]
  unfold Registry.add
  by_cases hA : A.ahead = []
  · simp [hA]
  · simp [hA, hnew]

theorem Turns.drop (h : Turns id n₀ L₀ t₀ v A tr P Q) (r : Reg) :
    Turns id n₀ L₀ t₀ v (A.drop r) (tr ++ [.unregistered r]) P Q := by
  have hcount : A.count ≤ (A.drop r).count := Nat.le_refl _
  apply h.record rfl rfl hcount
  change ((A.ahead.filter fun x => x ≠ r).filter fun x => x.ref < n₀) = _
  rw [List.filter_comm, h.ahead, List.filter_filter]
  apply List.filter_congr
  intro x _
  rw [drops_append]
  change _ = decide (x ∉ drops tr ++ [r])
  simp [and_comm]

/-- What the turn of a registration adds: a call when its id is the one raised. -/
def Called (id : ℤ) (r : Reg) (ext : List Ev) : Prop :=
  (r.handler.id = id ∧ ∃ sender args, ext = [.called r sender args]) ∨
    (r.handler.id ≠ id ∧ ext = [])

theorem Called.drops {r : Reg} {ext : List Ev} (h : Called id r ext) : drops ext = [] := by
  rcases h with ⟨-, sender, args, rfl⟩ | ⟨-, rfl⟩ <;> rfl

theorem Called.calls {r : Reg} {ext : List Ev} (h : Called id r ext) :
    (calls ext).Sublist [r] ∧ ∀ x ∈ calls ext, x.handler.id = id := by
  rcases h with ⟨hid, sender, args, rfl⟩ | ⟨-, rfl⟩
  · refine ⟨List.Sublist.refl _, ?_⟩
    intro x hx
    rwa [List.mem_singleton.1 hx]
  · exact ⟨List.nil_sublist _, fun x hx => nomatch hx⟩

theorem Called.not_mem {r x : Reg} {ext : List Ev} (h : Called id r ext) (hx : x ≠ r) :
    x ∉ Events.calls ext :=
  fun hm => hx (List.mem_singleton.1 (h.calls.1.subset hm))

/-- A turn does not change what has become of the others. -/
theorem Called.settled {r x : Reg} {ext : List Ev} (h : Called id r ext) (hx : x ≠ r)
    (hs : OnceIn x tr ∨ DroppedIn x tr) : OnceIn x (tr ++ ext) ∨ DroppedIn x (tr ++ ext) :=
  hs.imp (fun ho => ho.append (h.not_mem hx)) fun hd => hd.append (h.not_mem hx)

/-- The parts that do not depend on whose turn it is. -/
theorem Turns.ids_append (h : Turns id n₀ L₀ t₀ v A tr P Q) {r : Reg} {ext : List Ev}
    (hext : Called id r ext) : ∀ x ∈ calls (tr ++ ext), x.handler.id = id := by
  intro x hx
  rw [calls_append, List.mem_append] at hx
  rcases hx with hx | hx
  · exact h.ids x hx
  · exact hext.calls.2 x hx

theorem Turns.trace_append (h : Turns id n₀ L₀ t₀ v A tr P Q) (ext : List Ev) :
    A.trace ++ ext = t₀ ++ (tr ++ ext) := by
  rw [h.trace, List.append_assoc]

/-- The turn of a registration that was there when the raise began: it is the first of those that
wait and are still registered, and those before it have left. -/
theorem Turns.pass_old (h : Turns id n₀ L₀ t₀ v A tr P Q)
    (hsorted : L₀.Pairwise fun r r' => r.ref < r'.ref) {r : Reg} {rest : List Reg}
    (hr : A.ahead = r :: rest) (hrn : r.ref < n₀) {ext : List Ev} (hext : Called id r ext) :
    ∃ P' Q', Turns id n₀ L₀ t₀ (v + 1)
      { A with before := A.before ++ [r], ahead := rest, trace := A.trace ++ ext } (tr ++ ext)
      P' Q' := by
  have hfilter : r :: (rest.filter fun x => x.ref < n₀) = Q.filter fun x => x ∉ drops tr := by
    rw [← h.ahead, hr, List.filter_cons_of_pos (by simpa using hrn)]
  obtain ⟨Q₁, Q₂, rfl, hQ₁, hrd, hQ₂⟩ := List.filter_eq_cons_iff.1 hfilter.symm
  have hrd : r ∉ drops tr := by simpa using hrd
  have hrQ : r ∈ Q₁ ++ r :: Q₂ := List.mem_append_right _ (.head _)
  have hs := hsorted
  rw [h.split, List.pairwise_append] at hs
  have hsQ := List.pairwise_append.1 hs.2.1
  have hP : ∀ x ∈ P, x ≠ r := by
    rintro x hx rfl
    exact absurd (hs.2.2 x hx x hrQ) (Nat.lt_irrefl _)
  have hQ₁r : ∀ x ∈ Q₁, x ≠ r := by
    rintro x hx rfl
    exact absurd (hsQ.2.2 x hx x (.head _)) (Nat.lt_irrefl _)
  have hQ₂r : ∀ x ∈ Q₂, x ≠ r := by
    rintro x hx rfl
    exact absurd ((List.pairwise_cons.1 hsQ.2.1).1 x hx) (Nat.lt_irrefl _)
  refine ⟨P ++ (Q₁ ++ [r]), Q₂, h.trace_append ext, by simp [h.split], h.count, ?_, ?_, ?_,
    h.ids_append hext, ?_, ?_⟩
  · rw [drops_append, hext.drops, List.append_nil]
    exact hQ₂.symm
  · intro x hx hid
    rcases List.mem_append.1 hx with hx | hx
    · exact hext.settled (hP x hx) (h.passed x hx hid)
    · rcases List.mem_append.1 hx with hx | hx
      · have hdropped : DroppedIn x tr :=
          ⟨by simpa using hQ₁ x hx, h.waiting x (List.mem_append_left _ hx)⟩
        exact hext.settled (hQ₁r x hx) (Or.inr hdropped)
      · obtain rfl := List.mem_singleton.1 hx
        rcases hext with ⟨-, sender, args, rfl⟩ | ⟨hn, -⟩
        · exact Or.inl ⟨tr, [], sender, args, rfl, h.waiting x hrQ, (nomatch ·), hrd⟩
        · exact absurd hid hn
  · intro x hx
    rw [calls_append, List.mem_append]
    rintro (hm | hm)
    · exact h.waiting x (List.mem_append_right _ (.tail _ hx)) hm
    · exact hext.not_mem (hQ₂r x hx) hm
  · rw [calls_append, List.filter_append]
    apply h.inOrder.append
    exact (List.filter_sublist.trans hext.calls.1).trans (List.sublist_append_right Q₁ [r])
  · have hlen := h.visits
    simp only [List.length_append, List.length_cons, List.append_eq_nil_iff, reduceCtorEq,
      and_false, or_false] at hlen
    left
    omega

/-- The turn of a registration made during the raise: none of the others is ahead any more. -/
theorem Turns.pass_new (h : Turns id n₀ L₀ t₀ v A tr P Q) (hg : A.Good)
    (hold : ∀ r ∈ L₀, r.ref < n₀) {r : Reg} {rest : List Reg} (hr : A.ahead = r :: rest)
    (hrn : ¬ r.ref < n₀) {ext : List Ev} (hext : Called id r ext) :
    ∃ P' Q', Turns id n₀ L₀ t₀ (v + 1)
      { A with before := A.before ++ [r], ahead := rest, trace := A.trace ++ ext } (tr ++ ext)
      P' Q' := by
  have hs := (List.pairwise_append.1 hg.sorted).2.1
  rw [hr, List.pairwise_cons] at hs
  have hrest : (rest.filter fun x => x.ref < n₀) = [] := by
    rw [List.filter_eq_nil_iff]
    intro x hx
    have := hs.1 x hx
    simp
    omega
  have hnone : ∀ x ∈ Q, x ∈ drops tr := by
    have hahead := h.ahead
    rw [hr, List.filter_cons_of_neg (by simpa using hrn), hrest, eq_comm,
      List.filter_eq_nil_iff] at hahead
    simpa using hahead
  have hnr : ∀ x ∈ L₀, x ≠ r := by
    rintro x hx rfl
    exact hrn (hold x hx)
  refine ⟨L₀, [], h.trace_append ext, (List.append_nil _).symm, h.count, ?_, ?_,
    fun x hx => (nomatch hx), h.ids_append hext, ?_, Or.inr rfl⟩
  · rw [List.filter_nil]
    exact hrest
  · intro x hx hid
    apply hext.settled (hnr x hx)
    rw [h.split, List.mem_append] at hx
    rcases hx with hx | hx
    · exact h.passed x hx hid
    · exact Or.inr ⟨hnone x hx, h.waiting x hx⟩
  · rw [calls_append, List.filter_append]
    have hnew : ((calls ext).filter fun x => x.ref < n₀) = [] := by
      rw [List.filter_eq_nil_iff]
      intro x hx
      rw [List.mem_singleton.1 (hext.calls.1.subset hx)]
      simpa using hrn
    rw [hnew, List.append_nil, h.split]
    exact h.inOrder.trans (List.sublist_append_left P Q)

/-- What has become of the registrations when nothing is ahead of the raise any more, or it has
visited as many entries as there were. -/
theorem Turns.settled (h : Turns id n₀ L₀ t₀ v A tr P Q) (hend : A.ahead = [] ∨ L₀.length ≤ v) :
    ∀ r ∈ L₀, r.handler.id = id → OnceIn r tr ∨ DroppedIn r tr := by
  intro r hr hid
  rw [h.split, List.mem_append] at hr
  rcases hr with hr | hr
  · exact h.passed r hr hid
  · right
    refine ⟨?_, h.waiting r hr⟩
    rcases hend with hend | hend
    · have hnone := h.ahead
      rw [hend, List.filter_nil, eq_comm, List.filter_eq_nil_iff] at hnone
      simpa using hnone r hr
    · have hpos : 0 < Q.length := List.length_pos_of_mem hr
      rcases h.visits with hv | rfl
      · omega
      · exact nomatch hr

end

end Registry

end PoserCore.Events
