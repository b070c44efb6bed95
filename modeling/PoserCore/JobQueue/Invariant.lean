import Mathlib.Data.Finset.Card
import Mathlib.Data.Finset.Max
import Mathlib.Data.Fintype.Basic
import PoserCore.JobQueue.Model
import PoserCore.Lib.Census
import PoserCore.Lib.Tickets

/-!
# What the job queue keeps

`Ring` relates the positions reserved on the two sides: which reservations have stored or taken a
job, how many threads are between two accesses, and how full each slot is.  It is kept by every run
in which a store never comes before a consumer that reserved the slot earlier (`InOrder`), and it
makes every such store hit an empty slot (`Ring.store_empty`).  `Places` says that a job is in at
most one place at a time and that an accepted job is in one.
-/

namespace PoserCore.JobQueue

open Lib

variable {Tid Job : Type}

/-- No store into a slot while a consumer that reserved the slot before the producer did has still
to empty it. -/
def InOrder (s : State Tid Job) : Action Tid Job → Prop
  | .run t => ∀ job pos no, s.pc t = .enqStore job pos no →
      ∀ t' no', s.pc t' = .deqExchange pos no' → no ≤ no'
  | _ => True

/-- The test of `InOrder` for finitely many threads. -/
def inOrder [Fintype Tid] (s : State Tid Job) : Action Tid Job → Bool
  | .run t => match s.pc t with
    | .enqStore _ pos no => decide (∀ t', (match s.pc t' with
      | .deqExchange pos' no' => pos' != pos || decide (no ≤ no')
      | _ => true) = true)
    | _ => true
  | _ => true

theorem inOrder_sound [Fintype Tid] {s : State Tid Job} {a : Action Tid Job}
    (h : inOrder s a = true) : InOrder s a := by
  cases a with
  | run t =>
    intro job pos no hpc t' no' hpc'
    simp only [inOrder, hpc, decide_eq_true_eq] at h
    have := h t'
    simpa [hpc'] using this
  | enqueue | dequeue | interrupt => trivial

/-- What a thread owes the counters: a claimed slot without a position, a position without an
announced job, a promised job without a position, or a position whose slot is not given back. -/
inductive Stage
  | none
  | claiming
  | storing
  | waiting
  | taking
  deriving DecidableEq

/-- The stage a thread is in. -/
def Pc.stage : Pc Job → Stage
  | .enqLoadPos _ | .enqCasPos _ _ => .claiming
  | .enqStore _ _ _ | .enqPost _ => .storing
  | .deqLoadPos | .deqCasPos _ => .waiting
  | .deqExchange _ _ | .deqRelease _ => .taking
  | _ => .none

/-- The number of the position a producer is about to store into. -/
def Pc.enqNo : Pc Job → Option ℕ
  | .enqStore _ _ no => some no
  | _ => none

/-- The number of the position a consumer is about to empty. -/
def Pc.deqNo : Pc Job → Option ℕ
  | .deqExchange _ no => some no
  | _ => none

/-- How many of the reservations `A` are of slot `x`. -/
def onSlot (sz x : ℕ) (A : Finset ℕ) : ℕ := (A.filter (· % sz = x)).card

/-- How many jobs a slot holds. -/
def load : Option Job → ℕ
  | none => 0
  | some _ => 1

/-- The reservations `S` have stored their job, the reservations `T` have taken one. -/
structure Ring (s : State Tid Job) (S T : Finset ℕ) : Prop where
  sz_pos : 0 < s.sz
  enqpos_eq : s.enqpos = s.enqs % s.sz
  deqpos_eq : s.deqpos = s.deqs % s.sz
  budget : ∃ np nx, Census (Pc.stage · = .claiming) s.pc np ∧ Census (Pc.stage · = .taking) s.pc nx ∧
    s.avail + np + s.enqs + nx = s.sz + s.deqs
  supply : ∃ ns nw, Census (Pc.stage · = .storing) s.pc ns ∧ Census (Pc.stage · = .waiting) s.pc nw ∧
    s.count + nw + s.deqs + ns = s.enqs
  storing : Tickets (Pc.enqNo ∘ s.pc) s.enqs S
  taking : Tickets (Pc.deqNo ∘ s.pc) s.deqs T
  enq_slot : ∀ t job pos no, s.pc t = .enqStore job pos no → pos = no % s.sz
  deq_slot : ∀ t pos no, s.pc t = .deqExchange pos no → pos = no % s.sz
  slot : ∀ x < s.sz, onSlot s.sz x S = onSlot s.sz x T + load (s.jobs x)
  order : ∀ e ∈ S, ∀ d < e, d % s.sz = e % s.sz → d ∈ T

theorem ring_create {sz : ℕ} (h : 0 < sz) : Ring (create sz : State Tid Job) ∅ ∅ := by
  constructor
  case budget => exact ⟨0, 0, .of_forall_not fun _ => Stage.noConfusion, .of_forall_not fun _ => Stage.noConfusion, rfl⟩
  case supply => exact ⟨0, 0, .of_forall_not fun _ => Stage.noConfusion, .of_forall_not fun _ => Stage.noConfusion, rfl⟩
  case storing => exact .none
  case taking => exact .none
  all_goals simp [create, h, load]

theorem exchange_of_deqNo {p : Pc Job} {no : ℕ} (h : p.deqNo = some no) :
    ∃ pos, p = .deqExchange pos no := by
  cases p <;> simp [Pc.deqNo] at h
  case deqExchange pos no' => exact ⟨pos, by rw [h]⟩

namespace Ring

variable {s : State Tid Job} {S T : Finset ℕ}

/-- Every position reserved by a producer one lap ago is reserved by a consumer. -/
theorem lap (h : Ring s S T) {e d : ℕ} (he : e < s.enqs) (hd : d < e) (hm : d % s.sz = e % s.sz) :
    d < s.deqs := by
  obtain ⟨np, nx, -, -, hb⟩ := h.budget
  have hlap : d + s.sz ≤ e := by
    have h1 := Nat.div_add_mod d s.sz
    have h2 := Nat.div_add_mod e s.sz
    have h3 : d / s.sz < e / s.sz := by
      by_contra hc
      have h4 := Nat.mul_le_mul_left s.sz (Nat.le_of_not_lt hc)
      omega
    have h5 : s.sz * (d / s.sz + 1) ≤ s.sz * (e / s.sz) := Nat.mul_le_mul_left _ h3
    rw [Nat.mul_add, Nat.mul_one] at h5
    omega
  omega

/-- Under `InOrder` all consumers of earlier laps are done when a producer stores. -/
theorem earlier_taken (h : Ring s S T) {t : Tid} {job : Job} {pos no : ℕ}
    (hpc : s.pc t = .enqStore job pos no) (hok : InOrder s (.run t)) :
    ∀ d < no, d % s.sz = no % s.sz → d ∈ T := by
  intro d hd hm
  have hlt := (h.storing.held t no (by simp [hpc, Pc.enqNo])).1
  by_contra hdT
  obtain ⟨t', ht'⟩ := h.taking.pending d (h.lap hlt hd hm) hdT
  obtain ⟨pos', hpc'⟩ : ∃ pos', s.pc t' = .deqExchange pos' d := exchange_of_deqNo ht'
  have hpos : pos' = pos := by rw [h.deq_slot _ _ _ hpc', hm, h.enq_slot _ _ _ _ hpc]
  have := hok job pos no hpc t' d (hpos ▸ hpc')
  omega

/-- Under `InOrder` a producer stores into an empty slot. -/
theorem store_empty (h : Ring s S T) {t : Tid} {job : Job} {pos no : ℕ}
    (hpc : s.pc t = .enqStore job pos no) (hok : InOrder s (.run t)) : s.jobs pos = none := by
  have hS := (h.storing.held t no (by simp [hpc, Pc.enqNo])).2
  obtain rfl := h.enq_slot _ _ _ _ hpc
  have hT := h.earlier_taken hpc hok
  have hslot := h.slot _ (Nat.mod_lt no h.sz_pos)
  by_contra hfull
  obtain ⟨job', hjob⟩ := Option.ne_none_iff_exists'.1 hfull
  rw [hjob, load] at hslot
  suffices hle : onSlot s.sz (no % s.sz) S ≤ onSlot s.sz (no % s.sz) T by omega
  unfold onSlot
  by_cases hlate : ∃ e ∈ S, e % s.sz = no % s.sz ∧ no < e
  · -- the reservations stored on this slot are the last one and some earlier ones other than `no`
    obtain ⟨m, hm, hmax⟩ := Finset.exists_max_image (S.filter (· % s.sz = no % s.sz)) id (by
      obtain ⟨e, he, hem, -⟩ := hlate
      exact ⟨e, Finset.mem_filter.2 ⟨he, hem⟩⟩)
    obtain ⟨hmS, hmm⟩ := Finset.mem_filter.1 hm
    have hnm : no < m := by
      obtain ⟨e, he, hem, hlt'⟩ := hlate
      exact lt_of_lt_of_le hlt' (hmax e (Finset.mem_filter.2 ⟨he, hem⟩))
    have hnoT : no ∈ T.filter (· % s.sz = no % s.sz) :=
      Finset.mem_filter.2 ⟨h.order m hmS no hnm hmm.symm, rfl⟩
    have hsub : S.filter (· % s.sz = no % s.sz) ⊆
        insert m ((T.filter (· % s.sz = no % s.sz)).erase no) := by
      intro e he
      obtain ⟨heS, hem⟩ := Finset.mem_filter.1 he
      rcases eq_or_ne e m with rfl | hne
      · exact Finset.mem_insert_self _ _
      · have hlt' : e < m := lt_of_le_of_ne (hmax e he) hne
        refine Finset.mem_insert_of_mem (Finset.mem_erase.2 ⟨fun h' => hS (h' ▸ heS), ?_⟩)
        exact Finset.mem_filter.2 ⟨h.order m hmS e hlt' (hem.trans hmm.symm), hem⟩
    have hpos := Finset.card_pos.2 ⟨no, hnoT⟩
    calc (S.filter (· % s.sz = no % s.sz)).card
        ≤ (insert m ((T.filter (· % s.sz = no % s.sz)).erase no)).card := Finset.card_le_card hsub
      _ ≤ ((T.filter (· % s.sz = no % s.sz)).erase no).card + 1 := Finset.card_insert_le _ _
      _ = (T.filter (· % s.sz = no % s.sz)).card := by
          rw [Finset.card_erase_of_mem hnoT]
          omega
  · apply Finset.card_le_card
    intro e he
    obtain ⟨heS, hem⟩ := Finset.mem_filter.1 he
    have hne : e ≠ no := fun h' => hS (h' ▸ heS)
    have hlt' : e < no := by
      by_contra hc
      exact hlate ⟨e, heS, hem, by omega⟩
    exact Finset.mem_filter.2 ⟨hT e hlt' hem, hem⟩

variable [DecidableEq Tid]

/-- The other threads are about to access the slots they were about to access before. -/
theorem enq_slots (h : Ring s S T) {t : Tid} {p : Pc Job}
    (hp : ∀ job pos no, p = .enqStore job pos no → pos = no % s.sz) :
    ∀ t' job pos no, Function.update s.pc t p t' = .enqStore job pos no → pos = no % s.sz := by
  intro t' job pos no ht'
  rcases eq_or_ne t' t with rfl | hne
  · rw [Function.update_self] at ht'
    exact hp job pos no ht'
  · rw [Function.update_of_ne hne] at ht'
    exact h.enq_slot _ _ _ _ ht'

theorem deq_slots (h : Ring s S T) {t : Tid} {p : Pc Job}
    (hp : ∀ pos no, p = .deqExchange pos no → pos = no % s.sz) :
    ∀ t' pos no, Function.update s.pc t p t' = .deqExchange pos no → pos = no % s.sz := by
  intro t' pos no ht'
  rcases eq_or_ne t' t with rfl | hne
  · rw [Function.update_self] at ht'
    exact hp pos no ht'
  · rw [Function.update_of_ne hne] at ht'
    exact h.deq_slot _ _ _ ht'

/-- A step that changes neither the positions nor the slots, by a thread that is about to access no
slot before it and after it. -/
theorem quiet {s' : State Tid Job} (h : Ring s S T) (t : Tid) (p : Pc Job)
    (hpc : s'.pc = Function.update s.pc t p) (hsz : s'.sz = s.sz) (henq : s'.enqpos = s.enqpos)
    (hdeq : s'.deqpos = s.deqpos) (henqs : s'.enqs = s.enqs) (hdeqs : s'.deqs = s.deqs)
    (hjobs : s'.jobs = s.jobs) (hold : (s.pc t).enqNo = none ∧ (s.pc t).deqNo = none)
    (hnew : p.enqNo = none ∧ p.deqNo = none)
    (hbudget : ∃ np nx, Census (Pc.stage · = .claiming) s'.pc np ∧ Census (Pc.stage · = .taking) s'.pc nx ∧
      s'.avail + np + s'.enqs + nx = s'.sz + s'.deqs)
    (hsupply : ∃ ns nw, Census (Pc.stage · = .storing) s'.pc ns ∧ Census (Pc.stage · = .waiting) s'.pc nw ∧
      s'.count + nw + s'.deqs + ns = s'.enqs) : Ring s' S T := by
  have henqNo : Pc.enqNo ∘ s'.pc = Pc.enqNo ∘ s.pc := by
    rw [hpc, Function.comp_update, hnew.1]
    exact Function.update_eq_self_iff.2 hold.1.symm
  have hdeqNo : Pc.deqNo ∘ s'.pc = Pc.deqNo ∘ s.pc := by
    rw [hpc, Function.comp_update, hnew.2]
    exact Function.update_eq_self_iff.2 hold.2.symm
  constructor
  case budget => exact hbudget
  case supply => exact hsupply
  case storing => rw [henqNo, henqs]; exact h.storing
  case taking => rw [hdeqNo, hdeqs]; exact h.taking
  case enq_slot =>
    rw [hpc, hsz]
    refine h.enq_slots fun job pos no hp => ?_
    simp [hp, Pc.enqNo] at hnew
  case deq_slot =>
    rw [hpc, hsz]
    refine h.deq_slots fun pos no hp => ?_
    simp [hp, Pc.deqNo] at hnew
  all_goals simp only [hsz, henq, hdeq, henqs, hdeqs, hjobs]
  · exact h.sz_pos
  · exact h.enqpos_eq
  · exact h.deqpos_eq
  · exact h.slot
  · exact h.order

/-- A quiet step that keeps the counters and the stage of its thread. -/
theorem still (h : Ring s S T) (t : Tid) (p : Pc Job)
    (hold : (s.pc t).enqNo = none ∧ (s.pc t).deqNo = none)
    (hnew : p.enqNo = none ∧ p.deqNo = none) (hstage : p.stage = (s.pc t).stage) :
    Ring (s.goto t p) S T := by
  obtain ⟨np, nx, hp, hx, hb⟩ := h.budget
  obtain ⟨ns, nw, hn, hw, hc⟩ := h.supply
  refine h.quiet t p rfl rfl rfl rfl rfl rfl rfl hold hnew ?_ ?_
  · exact ⟨_, _, hp.keep (by rw [hstage]), hx.keep (by rw [hstage]), hb⟩
  · exact ⟨_, _, hn.keep (by rw [hstage]), hw.keep (by rw [hstage]), hc⟩

theorem nextPos_mod {sz n : ℕ} (h : 0 < sz) : nextPos sz (n % sz) = (n + 1) % sz := by
  have hlt := Nat.mod_lt n h
  unfold nextPos
  rw [← Nat.mod_add_mod]
  split_ifs with hn
  · rw [hn, Nat.mod_self]
  · exact (Nat.mod_eq_of_lt (by omega)).symm

theorem onSlot_insert {n sz x : ℕ} {A : Finset ℕ} (h : n ∉ A) :
    onSlot sz x (insert n A) = onSlot sz x A + if n % sz = x then 1 else 0 := by
  unfold onSlot
  rw [Finset.filter_insert]
  split_ifs
  · exact Finset.card_insert_of_notMem fun hm => h (Finset.mem_filter.1 hm).1
  · rfl

/-- A producer reserves a position. -/
theorem reserve_enq (h : Ring s S T) {t : Tid} {job : Job} (hpc : s.pc t = .enqCasPos job s.enqpos) :
    Ring ({ s with enqpos := nextPos s.sz s.enqpos, enqs := s.enqs + 1 }.goto t
      (.enqStore job s.enqpos s.enqs)) S T := by
  obtain ⟨np, nx, hp, hx, hb⟩ := h.budget
  obtain ⟨ns, nw, hn, hw, hc⟩ := h.supply
  have hpos := hp.pos (i := t) (by simp [hpc, Pc.stage])
  constructor <;> simp only [State.goto]
  case budget =>
    exact ⟨_, _, hp.leave (by simp [hpc, Pc.stage]) (by simp [Pc.stage]),
      hx.keep (by simp [hpc, Pc.stage]), by omega⟩
  case supply =>
    exact ⟨_, _, hn.enter (by simp [hpc, Pc.stage]) (by simp [Pc.stage]),
      hw.keep (by simp [hpc, Pc.stage]), by omega⟩
  case sz_pos => exact h.sz_pos
  case enqpos_eq => rw [h.enqpos_eq, nextPos_mod h.sz_pos]
  case deqpos_eq => exact h.deqpos_eq
  case storing =>
    rw [Function.comp_update]
    exact h.storing.draw (by simp [hpc, Pc.enqNo])
  case taking =>
    rw [Function.comp_update, Function.update_eq_self_iff.2 (by simp [hpc, Pc.deqNo])]
    exact h.taking
  case enq_slot =>
    refine h.enq_slots fun job' pos no hp => ?_
    obtain ⟨-, rfl, rfl⟩ := Pc.enqStore.inj hp
    exact h.enqpos_eq
  case deq_slot => exact h.deq_slots fun _ _ hp => by cases hp
  case slot => exact h.slot
  case order => exact h.order

/-- A consumer reserves a position. -/
theorem reserve_deq (h : Ring s S T) {t : Tid} (hpc : s.pc t = .deqCasPos s.deqpos) :
    Ring ({ s with deqpos := nextPos s.sz s.deqpos, deqs := s.deqs + 1 }.goto t
      (.deqExchange s.deqpos s.deqs)) S T := by
  obtain ⟨np, nx, hp, hx, hb⟩ := h.budget
  obtain ⟨ns, nw, hn, hw, hc⟩ := h.supply
  have hpos := hw.pos (i := t) (by simp [hpc, Pc.stage])
  constructor <;> simp only [State.goto]
  case budget =>
    exact ⟨_, _, hp.keep (by simp [hpc, Pc.stage]),
      hx.enter (by simp [hpc, Pc.stage]) (by simp [Pc.stage]), by omega⟩
  case supply =>
    exact ⟨_, _, hn.keep (by simp [hpc, Pc.stage]),
      hw.leave (by simp [hpc, Pc.stage]) (by simp [Pc.stage]), by omega⟩
  case sz_pos => exact h.sz_pos
  case enqpos_eq => exact h.enqpos_eq
  case deqpos_eq => rw [h.deqpos_eq, nextPos_mod h.sz_pos]
  case storing =>
    rw [Function.comp_update, Function.update_eq_self_iff.2 (by simp [hpc, Pc.enqNo])]
    exact h.storing
  case taking =>
    rw [Function.comp_update]
    exact h.taking.draw (by simp [hpc, Pc.deqNo])
  case enq_slot => exact h.enq_slots fun _ _ _ hp => by cases hp
  case deq_slot =>
    refine h.deq_slots fun pos no hp => ?_
    obtain ⟨rfl, rfl⟩ := Pc.deqExchange.inj hp
    exact h.deqpos_eq
  case slot => exact h.slot
  case order => exact h.order

/-- A producer stores its job; under `InOrder` the slot becomes full. -/
theorem store (h : Ring s S T) {t : Tid} {job : Job} {pos no : ℕ}
    (hpc : s.pc t = .enqStore job pos no) (hok : InOrder s (.run t)) :
    Ring ({ s with jobs := Function.update s.jobs pos (some job) }.goto t (.enqPost job))
      (insert no S) T := by
  obtain ⟨np, nx, hp, hx, hb⟩ := h.budget
  obtain ⟨ns, nw, hn, hw, hc⟩ := h.supply
  have hno : (Pc.enqNo ∘ s.pc) t = some no := by simp [hpc, Pc.enqNo]
  have hempty := h.store_empty hpc hok
  constructor <;> simp only [State.goto]
  case budget =>
    exact ⟨_, _, hp.keep (by simp [hpc, Pc.stage]), hx.keep (by simp [hpc, Pc.stage]), hb⟩
  case supply =>
    exact ⟨_, _, hn.keep (by simp [hpc, Pc.stage]), hw.keep (by simp [hpc, Pc.stage]), hc⟩
  case sz_pos => exact h.sz_pos
  case enqpos_eq => exact h.enqpos_eq
  case deqpos_eq => exact h.deqpos_eq
  case storing =>
    rw [Function.comp_update]
    exact h.storing.spend hno
  case taking =>
    rw [Function.comp_update, Function.update_eq_self_iff.2 (by simp [hpc, Pc.deqNo])]
    exact h.taking
  case enq_slot => exact h.enq_slots fun _ _ _ hp => by cases hp
  case deq_slot => exact h.deq_slots fun _ _ hp => by cases hp
  case slot =>
    intro x hx
    rw [onSlot_insert (h.storing.held t no hno).2, h.slot x hx]
    rcases eq_or_ne x pos with rfl | hne
    · rw [Function.update_self, hempty, if_pos (h.enq_slot _ _ _ _ hpc).symm]
      rfl
    · rw [Function.update_of_ne hne, if_neg (fun e => hne (by rw [h.enq_slot _ _ _ _ hpc, e]))]
      rfl
  case order =>
    intro e he d hd hm
    rcases Finset.mem_insert.1 he with rfl | he
    · exact h.earlier_taken hpc hok d hd hm
    · exact h.order e he d hd hm

/-- A consumer empties its slot. -/
theorem take (h : Ring s S T) {t : Tid} {job : Job} {pos no : ℕ}
    (hpc : s.pc t = .deqExchange pos no) (hjob : s.jobs pos = some job) :
    Ring ({ s with jobs := Function.update s.jobs pos none }.goto t (.deqRelease job))
      S (insert no T) := by
  obtain ⟨np, nx, hp, hx, hb⟩ := h.budget
  obtain ⟨ns, nw, hn, hw, hc⟩ := h.supply
  have hno : (Pc.deqNo ∘ s.pc) t = some no := by simp [hpc, Pc.deqNo]
  constructor <;> simp only [State.goto]
  case budget =>
    exact ⟨_, _, hp.keep (by simp [hpc, Pc.stage]), hx.keep (by simp [hpc, Pc.stage]), hb⟩
  case supply =>
    exact ⟨_, _, hn.keep (by simp [hpc, Pc.stage]), hw.keep (by simp [hpc, Pc.stage]), hc⟩
  case sz_pos => exact h.sz_pos
  case enqpos_eq => exact h.enqpos_eq
  case deqpos_eq => exact h.deqpos_eq
  case storing =>
    rw [Function.comp_update, Function.update_eq_self_iff.2 (by simp [hpc, Pc.enqNo])]
    exact h.storing
  case taking =>
    rw [Function.comp_update]
    exact h.taking.spend hno
  case enq_slot => exact h.enq_slots fun _ _ _ hp => by cases hp
  case deq_slot => exact h.deq_slots fun _ _ hp => by cases hp
  case slot =>
    intro x hx
    rw [onSlot_insert (h.taking.held t no hno).2, h.slot x hx]
    rcases eq_or_ne x pos with rfl | hne
    · rw [Function.update_self, hjob, if_pos (h.deq_slot _ _ _ hpc).symm]
      rfl
    · rw [Function.update_of_ne hne, if_neg (fun e => hne (by rw [h.deq_slot _ _ _ hpc, e])),
        Nat.add_zero]
  case order =>
    exact fun e he d hd hm => Finset.mem_insert_of_mem (h.order e he d hd hm)

/-- Every step that meets `InOrder` keeps the ring. -/
theorem step [DecidableEq Job] {s' : State Tid Job} {a : Action Tid Job} (h : Ring s S T)
    (hok : InOrder s a) (hs : step s a = some s') : ∃ S' T', Ring s' S' T' := by
  obtain ⟨np, nx, hp, hx, hb⟩ := h.budget
  obtain ⟨ns, nw, hn, hw, hc⟩ := h.supply
  cases a with
  | enqueue t job =>
    simp only [JobQueue.step] at hs
    split_ifs at hs with hi
    cases hs
    have h' : Ring { s with passed := job :: s.passed } S T := { h with }
    exact ⟨S, T, h'.still t _ (by simp [hi.1, Pc.enqNo, Pc.deqNo])
      ⟨rfl, rfl⟩ (by rw [hi.1]; rfl)⟩
  | dequeue t =>
    simp only [JobQueue.step] at hs
    split_ifs at hs with hi
    cases hs
    exact ⟨S, T, h.still t _ (by simp [hi, Pc.enqNo, Pc.deqNo])
      ⟨rfl, rfl⟩ (by rw [hi]; rfl)⟩
  | interrupt t =>
    simp only [JobQueue.step] at hs
    split_ifs at hs with hi
    cases hs
    exact ⟨S, T, h.still t _ (by simp [hi, Pc.enqNo, Pc.deqNo])
      ⟨rfl, rfl⟩ (by rw [hi]; rfl)⟩
  | run t =>
    simp only [JobQueue.step, runThread] at hs
    cases hpc : s.pc t with
    | idle => simp [hpc] at hs
    | enqLoadAvail job =>
      simp only [hpc] at hs
      cases hs
      exact ⟨S, T, h.still t _ (by simp [hpc, Pc.enqNo, Pc.deqNo])
        ⟨rfl, rfl⟩ (by rw [hpc]; rfl)⟩
    | enqCasAvail job avail =>
      simp only [hpc] at hs
      split_ifs at hs with h0 h1
      · cases hs
        exact ⟨S, T, h.still t _
          (by simp [hpc, Pc.enqNo, Pc.deqNo]) ⟨rfl, rfl⟩ (by rw [hpc]; rfl)⟩
      · -- the claim: one slot fewer is available, one more thread is claiming
        cases hs
        refine ⟨S, T, h.quiet t _ rfl rfl rfl rfl rfl rfl rfl (by simp [hpc, Pc.enqNo, Pc.deqNo])
          ⟨rfl, rfl⟩ ?_ ?_⟩ <;> simp only [State.goto]
        · exact ⟨_, _, hp.enter (by simp [hpc, Pc.stage]) rfl, hx.keep (by simp [hpc, Pc.stage]),
            by omega⟩
        · exact ⟨_, _, hn.keep (by simp [hpc, Pc.stage]), hw.keep (by simp [hpc, Pc.stage]), hc⟩
      · cases hs
        exact ⟨S, T, h.still t _
          (by simp [hpc, Pc.enqNo, Pc.deqNo]) ⟨rfl, rfl⟩ (by rw [hpc]; rfl)⟩
    | enqLoadPos job =>
      simp only [hpc] at hs
      cases hs
      exact ⟨S, T, h.still t _ (by simp [hpc, Pc.enqNo, Pc.deqNo])
        ⟨rfl, rfl⟩ (by rw [hpc]; rfl)⟩
    | enqCasPos job enqpos =>
      simp only [hpc] at hs
      split_ifs at hs with he
      · cases hs
        subst he
        exact ⟨S, T, h.reserve_enq hpc⟩
      · cases hs
        exact ⟨S, T, h.still t _
          (by simp [hpc, Pc.enqNo, Pc.deqNo]) ⟨rfl, rfl⟩ (by rw [hpc]; rfl)⟩
    | enqStore job enqpos no =>
      simp only [hpc] at hs
      cases hs
      exact ⟨_, T, h.store hpc hok⟩
    | enqPost job =>
      simp only [hpc] at hs
      cases hs
      have hpos := hn.pos (i := t) (by simp [hpc, Pc.stage])
      refine ⟨S, T, h.quiet t _ rfl rfl rfl rfl rfl rfl rfl (by simp [hpc, Pc.enqNo, Pc.deqNo])
        ⟨rfl, rfl⟩ ?_ ?_⟩ <;> simp only [State.goto]
      · exact ⟨_, _, hp.keep (by simp [hpc, Pc.stage]), hx.keep (by simp [hpc, Pc.stage]), hb⟩
      · exact ⟨_, _, hn.leave (by simp [hpc, Pc.stage]) (by simp [Pc.stage]),
          hw.keep (by simp [hpc, Pc.stage]), by omega⟩
    | deqWait =>
      simp only [hpc] at hs
      split_ifs at hs with h0
      cases hs
      refine ⟨S, T, h.quiet t _ rfl rfl rfl rfl rfl rfl rfl (by simp [hpc, Pc.enqNo, Pc.deqNo])
        ⟨rfl, rfl⟩ ?_ ?_⟩ <;> simp only [State.goto]
      · exact ⟨_, _, hp.keep (by simp [hpc, Pc.stage]), hx.keep (by simp [hpc, Pc.stage]), hb⟩
      · exact ⟨_, _, hn.keep (by simp [hpc, Pc.stage]), hw.enter (by simp [hpc, Pc.stage]) rfl,
          by omega⟩
    | deqLoadPos =>
      simp only [hpc] at hs
      cases hs
      exact ⟨S, T, h.still t _ (by simp [hpc, Pc.enqNo, Pc.deqNo])
        ⟨rfl, rfl⟩ (by rw [hpc]; rfl)⟩
    | deqCasPos deqpos =>
      simp only [hpc] at hs
      split_ifs at hs with he
      · cases hs
        subst he
        exact ⟨S, T, h.reserve_deq hpc⟩
      · cases hs
        exact ⟨S, T, h.still t _
          (by simp [hpc, Pc.enqNo, Pc.deqNo]) ⟨rfl, rfl⟩ (by rw [hpc]; rfl)⟩
    | deqExchange deqpos no =>
      simp only [hpc] at hs
      cases hjob : s.jobs deqpos with
      | none =>
        simp only [hjob] at hs
        cases hs
        exact ⟨S, T, h⟩
      | some job =>
        simp only [hjob] at hs
        cases hs
        exact ⟨S, _, h.take hpc hjob⟩
    | deqRelease job =>
      simp only [hpc] at hs
      cases hs
      have hpos := hx.pos (i := t) (by simp [hpc, Pc.stage])
      refine ⟨S, T, h.quiet t _ rfl rfl rfl rfl rfl rfl rfl (by simp [hpc, Pc.enqNo, Pc.deqNo])
        ⟨rfl, rfl⟩ ?_ ?_⟩ <;> simp only [State.goto]
      · exact ⟨_, _, hp.keep (by simp [hpc, Pc.stage]),
          hx.leave (by simp [hpc, Pc.stage]) (by simp [Pc.stage]), by omega⟩
      · exact ⟨_, _, hn.keep (by simp [hpc, Pc.stage]), hw.keep (by simp [hpc, Pc.stage]), hc⟩

end Ring

end PoserCore.JobQueue
