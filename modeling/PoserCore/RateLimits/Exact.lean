import PoserCore.RateLimits.Invariant

/-!
# How much the limiter admits

In every run no limit counts more than `limit` checks of a key in any `ncounts` slots
(`limiter_bounded`): an idle time that the 16-bit slot numbers mistake for a shorter one only leaves
too much in the counters.  That is also why a check can fail that should not
(`limiter_refuses_idle`).  In runs without such an idle time the result of every check is exactly
what the window says (`limiter_exact`).
-/

namespace PoserCore.RateLimits

open Lib (Machine)
open Dictionary (Key)

variable {hash : Key → UInt64} {opts : List Limit} {s s' : State} {a : Action}

theorem step_some (hs : step s a = some s') : s.now ≤ a.sec ∧ ∃ counted ok,
    s.limiter.check a.key (some a.sec) a.alloc = some (s'.limiter, counted, ok) ∧
      s'.now = a.sec ∧ s'.log = ⟨a.key, a.sec, counted, ok⟩ :: s.log := by
  unfold step at hs
  split_ifs at hs with hle
  obtain ⟨⟨self, counted, ok⟩, hc, rfl⟩ := Option.map_eq_some_iff.1 hs
  exact ⟨hle, counted, ok, hc, rfl, rfl⟩

/-! ## Never too many -/

/-- No `ncounts` consecutive slots hold more than the limit. -/
def Windows (opts : List Limit) (log : List Record) : Prop :=
  ∀ (i : ℕ) (l : Limit), opts[i]? = some l → ∀ key first,
    within l i key log first l.ncounts ≤ l.limit

/-- A check with a positive result was counted by every limit. -/
def Admitted (opts : List Limit) (log : List Record) : Prop :=
  ∀ r ∈ log, r.ok = true → ∀ (i : ℕ) (l : Limit), opts[i]? = some l → r.counted[i]? = some true

/-- The numbers of every entry also fit together and keep their ranges. -/
structure Bounded (opts : List Limit) (s : State) : Prop where
  windows : Windows opts s.log
  admitted : Admitted opts s.log
  entries : ∀ key a es, s.limiter.entries.get key = some a → s.limiter.mem a = some es →
    ∀ i l, opts[i]? = some l → (es i).total = ∑ j ∈ Finset.range maxcounts, (es i).counts j ∧
      (es i).total ≤ l.limit ∧ l.limit < 2 ^ 16 ∧ (es i).countpos < maxcounts

theorem shape_ranges {l : Limit} {e : Entry} (hl : l.Ok) (h : Shape l e) :
    e.total = ∑ j ∈ Finset.range maxcounts, e.counts j ∧ e.total ≤ l.limit ∧ l.limit < 2 ^ 16 ∧
      e.countpos < maxcounts := by
  refine ⟨?_, h.limit, hl.limit, lt_of_lt_of_le h.countpos hl.maxcounts⟩
  rw [h.total]
  refine Finset.sum_subset (Finset.range_subset_range.2 hl.maxcounts) fun j _ hj => ?_
  exact h.unused j (by simpa using hj)

theorem admitted_of_decides {R : ℕ → ℕ → Prop} {log : List Record} {r : Record}
    (h : Decides R opts log r) (hok : r.ok = true) {i : ℕ} {l : Limit} (hl : opts[i]? = some l) :
    r.counted[i]? = some true := by
  rw [h.1, List.all_eq_true] at hok
  have hi : i < r.counted.length := by
    rw [h.2.1]
    exact (List.getElem?_eq_some_iff.1 hl).1
  rw [List.getElem?_eq_getElem hi, Option.some.injEq]
  exact hok _ (List.getElem_mem hi)

/-- A counted check finds room in the window that ends with it. -/
theorem recent_lt {log : List Record} {r : Record} (h : Decides (· ≤ ·) opts log r) {i : ℕ}
    {l : Limit} (hl : opts[i]? = some l) (hc : r.counted[i]? = some true) :
    recent l i r.key log r.sec < l.limit := by
  obtain ⟨w, hw, hiff⟩ := h.2.2 i l hl
  rw [recent_eq_sum]
  exact lt_of_le_of_lt (Finset.sum_le_sum fun d hd => hw d (Finset.mem_range.1 hd)) (hiff.1 hc)

theorem window_step {log : List Record} {r : Record} (h : Decides (· ≤ ·) opts log r)
    (hlog : ∀ r' ∈ log, r'.sec ≤ r.sec) {i : ℕ} {l : Limit} (hl : opts[i]? = some l) {key : Key}
    {first : ℕ} (hwin : within l i key log first l.ncounts ≤ l.limit) :
    within l i key (r :: log) first l.ncounts ≤ l.limit := by
  rw [within, List.countP_cons, ← within]
  split_ifs with hr
  · obtain ⟨⟨rfl, hc⟩, -, hlt⟩ := of_decide_eq_true hr
    have hle : within l i r.key log first l.ncounts ≤ recent l i r.key log r.sec :=
      within_le_recent (fun r' hr' => slot_mono l (hlog r' hr')) hlt
    have := recent_lt h hl hc
    omega
  · exact hwin

/-- Everything the two results need of a state. -/
structure Good (R : ℕ → ℕ → Prop) (opts : List Limit) (s : State) : Prop where
  limits : s.limiter.limits = opts
  inv : Inv R s.limiter s.log s.now

theorem good_step {R : ℕ → ℕ → Prop} (hR : ∀ x, R x x) (hRs : ∀ x y, R x y → R (x + 1) (y + 1))
    (h : Good R opts s) (hgap : (∀ x, R 0 x) ∨ Fresh s.limiter s.log a.key a.sec)
    (hs : step s a = some s') : Good R opts s' ∧ ∃ r, r.sec = a.sec ∧ s'.log = r :: s.log ∧
      Decides R opts s.log r := by
  obtain ⟨hle, counted, ok, hc, hnow, hlog⟩ := step_some hs
  obtain ⟨hlim, hinv, hdec⟩ := check_spec hR hRs h.inv hle hgap hc
  rw [h.limits] at hlim hdec
  refine ⟨⟨hlim, ?_⟩, _, rfl, hlog, hdec⟩
  rw [hlog, hnow]
  exact hinv

theorem good_init {R : ℕ → ℕ → Prop} (hconf : Configured opts) (h : (machine hash opts).init s) :
    Good R opts s := by
  obtain rfl : s = _ := h
  exact ⟨rfl, inv_create hash hconf⟩

/-- In every run of a configured limiter, no limit counts more checks of a key than it allows in any
`ncounts` consecutive slots. -/
theorem limiter_bounded (hconf : Configured opts) (h : (machine hash opts).Reachable s) :
    Bounded opts s := by
  have hinv : Good (· ≤ ·) opts s ∧ Windows opts s.log ∧ Admitted opts s.log := by
    refine h.invariant
      (I := fun s => Good (· ≤ ·) opts s ∧ Windows opts s.log ∧ Admitted opts s.log) ?_ ?_
    · intro s hs
      refine ⟨good_init hconf hs, ?_⟩
      obtain rfl : s = _ := hs
      exact ⟨fun _ _ _ _ _ => Nat.zero_le _, fun r hr => by cases hr⟩
    · intro s a s' hi _ hs
      obtain ⟨hgood, hwin, hadm⟩ := hi
      obtain ⟨hgood', r, hsec, hlog, hdec⟩ :=
        good_step le_refl (fun x y => Nat.succ_le_succ) hgood (.inl Nat.zero_le) hs
      have hle : ∀ r' ∈ s.log, r'.sec ≤ r.sec := fun r' hr' => by
        rw [hsec]
        exact le_trans (hgood.inv.clock r' hr') (step_some hs).1
      refine ⟨hgood', fun i l hl key first => ?_, fun r' hr' => ?_⟩
      · rw [hlog]
        exact window_step hdec hle hl (hwin i l hl key first)
      · rw [hlog] at hr'
        rcases List.mem_cons.1 hr' with rfl | hmem
        · exact fun hok i l hl => admitted_of_decides hdec hok hl
        · exact hadm r' hmem
  obtain ⟨hgood, hwin, hadm⟩ := hinv
  refine ⟨hwin, hadm, fun key b es hget hmem i l hl => ?_⟩
  obtain ⟨es', sec, hmem', -, -, hf⟩ := hgood.inv.present key b hget
  obtain rfl : es = es' := Option.some.inj (hmem.symm.trans hmem')
  have hl' : s.limiter.limits[i]? = some l := by rw [hgood.limits]; exact hl
  exact shape_ranges (hgood.inv.limits l (List.mem_of_getElem? hl')) (hf i l hl').shape

/-! ## Never too few -/

/-- Every check was admitted if and only if no limit had its fill in the window that ends with it. -/
def Exact (opts : List Limit) : List Record → Prop
  | [] => True
  | r :: log => (r.ok = true ↔ ∀ i l, opts[i]? = some l → recent l i r.key log r.sec < l.limit) ∧
      Exact opts log

theorem exact_of_decides {log : List Record} {r : Record} (h : Decides (· = ·) opts log r) :
    r.ok = true ↔ ∀ i l, opts[i]? = some l → recent l i r.key log r.sec < l.limit := by
  have hiff : ∀ i l, opts[i]? = some l →
      (r.counted[i]? = some true ↔ recent l i r.key log r.sec < l.limit) := by
    intro i l hl
    obtain ⟨w, hw, hiff⟩ := h.2.2 i l hl
    rw [hiff, recent_eq_sum, Finset.sum_congr rfl fun d hd => hw d (Finset.mem_range.1 hd)]
  constructor
  · intro hok i l hl
    exact (hiff i l hl).1 (admitted_of_decides h hok hl)
  · intro hall
    rw [h.1, List.all_eq_true]
    intro b hb
    obtain ⟨i, hi, rfl⟩ := List.getElem_of_mem hb
    have hi' : i < opts.length := h.2.1 ▸ hi
    have hc := (hiff i _ (List.getElem?_eq_getElem hi')).2
      (hall i _ (List.getElem?_eq_getElem hi'))
    rw [List.getElem?_eq_getElem hi] at hc
    exact Option.some.inj hc

/-- In a run in which no idle time of a key with counters is mistaken for a shorter one, every check
returns, and its result is exact. -/
theorem limiter_exact (hconf : Configured opts)
    (h : (machine hash opts).Run (fun s a => Fresh s.limiter s.log a.key a.sec) s) :
    Exact opts s.log ∧
      ∀ a, s.now ≤ a.sec → s.limiter.mem a.alloc = none → (step s a).isSome := by
  have hinv : Good (· = ·) opts s ∧ Exact opts s.log := by
    refine h.invariant (I := fun s => Good (· = ·) opts s ∧ Exact opts s.log) ?_ ?_
    · intro s hs
      refine ⟨good_init hconf hs, ?_⟩
      obtain rfl : s = _ := hs
      exact trivial
    · intro s a s' hi hfresh hs
      obtain ⟨hgood', r, -, hlog, hdec⟩ :=
        good_step (fun _ => rfl) (fun _ _ => congrArg (· + 1)) hi.1 (.inr hfresh) hs
      refine ⟨hgood', ?_⟩
      rw [hlog]
      exact ⟨exact_of_decides hdec, hi.2⟩
  refine ⟨hinv.2, fun a hle hfree => ?_⟩
  rw [step, if_pos hle, Option.isSome_map]
  exact check_isSome hinv.1.inv hle hfree

/-! ## Fixed runs -/

/-- A test for `Fresh`. -/
def Action.test (s : State) (a : Action) : Bool :=
  match (s.limiter.entries.get a.key).bind s.limiter.mem, lastCheck s.log a.key with
  | some es, some sec₀ => s.limiter.limits.zipIdx.all fun (l, i) =>
      decide ((es i).total = 0 ∨ l.slot a.sec - l.slot sec₀ < 2 ^ 16 ∨
        l.ncounts ≤ (l.slot a.sec - l.slot sec₀) % 2 ^ 16)
  | _, _ => true

theorem test_sound {s : State} {a : Action} (h : a.test s = true) :
    Fresh s.limiter s.log a.key a.sec := by
  intro addr es sec₀ hget hmem hlast i l hl
  simp only [Action.test, hget, hmem, hlast, Option.bind_some, List.all_eq_true] at h
  exact of_decide_eq_true (h (l, i) (List.mk_mem_zipIdx_iff_getElem?.2 hl))

/-- One action in ten seconds. -/
def onceInTen : List Limit := [⟨10, 1, 1, 10⟩]

theorem configured_onceInTen : Configured onceInTen :=
  .add .nil (show addLimit [] 10 1 = some onceInTen from rfl)

/-- The second action of a key is refused, one of another key is not. -/
theorem limiter_bounded_two_keys : ∃ s : State, Bounded onceInTen s ∧
    s.log.map Record.ok = [true, false, true] := by
  have hrun : ((machine (fun _ => 0) onceInTen).exec [⟨[1], 5, 100⟩, ⟨[1], 14, 101⟩, ⟨[2], 14, 101⟩]
      ⟨.create (fun _ => 0) onceInTen, 0, []⟩).any
      (fun s => decide (s.log.map Record.ok = [true, false, true])) = true := by decide +kernel
  obtain ⟨s, hs, hlog⟩ := Machine.exists_reachable rfl hrun
  exact ⟨s, limiter_bounded configured_onceInTen hs, of_decide_eq_true hlog⟩

/-- After a long idle time that is noticed, the key may act again. -/
theorem limiter_exact_idle : ∃ s : State, (Exact onceInTen s.log ∧
    ∀ a : Action, s.now ≤ a.sec → s.limiter.mem a.alloc = none → (step s a).isSome) ∧
      s.log.map Record.ok = [true, false, true] := by
  have hrun : ((machine (fun _ => 0) onceInTen).execOk (fun s a => a.test s)
      [⟨[1], 5, 100⟩, ⟨[1], 14, 101⟩, ⟨[1], 70000, 101⟩]
      ⟨.create (fun _ => 0) onceInTen, 0, []⟩).any
      (fun s => decide (s.log.map Record.ok = [true, false, true])) = true := by decide +kernel
  obtain ⟨s, hs, hlog⟩ := Machine.exists_run rfl (fun _ _ => test_sound) hrun
  exact ⟨s, limiter_exact configured_onceInTen hs, of_decide_eq_true hlog⟩

/-- After 65536 idle slots, the only action of the key in more than 18 hours is refused. -/
theorem limiter_refuses_idle : Configured onceInTen ∧
    ∃ s : State, (machine (fun _ => 0) onceInTen).Reachable s ∧ ¬ Exact onceInTen s.log := by
  refine ⟨configured_onceInTen, ?_⟩
  have hrun : ((machine (fun _ => 0) onceInTen).exec [⟨[1], 5, 100⟩, ⟨[1], 65541, 101⟩]
      ⟨.create (fun _ => 0) onceInTen, 0, []⟩).any
      (fun s => decide (s.log = [⟨[1], 65541, [false], false⟩, ⟨[1], 5, [true], true⟩])) = true := by
    decide +kernel
  obtain ⟨s, hs, hlog⟩ := Machine.exists_reachable rfl hrun
  refine ⟨s, hs, fun hexact => ?_⟩
  rw [of_decide_eq_true hlog] at hexact
  have hok := hexact.1.2 (by
    intro i l hl
    cases i with
    | zero =>
      obtain rfl := Option.some.inj hl
      decide
    | succ i => cases hl)
  cases hok

end PoserCore.RateLimits
