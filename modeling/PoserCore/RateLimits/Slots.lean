import Mathlib.Algebra.BigOperators.Group.Finset.Piecewise
import Mathlib.Algebra.Order.BigOperators.Group.Finset
import PoserCore.Lib.Ring
import PoserCore.RateLimits.Model

/-!
# The counters of one limit

An entry holds a ring of counters, one for each of the last `ncounts` slots: `ago l e d` is the
counter of the slot `d` slots before the current one.  `refresh` moves this window forward by the
distance of the slot numbers modulo 2^16 (`refresh_spec`), whichever of its branches it takes, and
no number in an entry leaves its range on the way (`Shape`).
-/

namespace PoserCore.RateLimits

open Lib.Ring (next back)

/-- What `addLimit` makes sure of. -/
structure Limit.Ok (l : Limit) : Prop where
  res : 0 < l.res
  ncounts : 0 < l.ncounts
  maxcounts : l.ncounts ≤ maxcounts
  limit : l.limit < 2 ^ 16

theorem limit_ok {opts opts' : List Limit} {seconds limit : ℤ}
    (h : addLimit opts seconds limit = some opts') :
    ∃ l, opts' = opts ++ [l] ∧ l.Ok := by
  unfold addLimit at h
  split_ifs at h with hr
  obtain rfl := Option.some.inj h
  refine ⟨_, rfl, ?_⟩
  set sec := seconds.toNat with hsec
  have h1 : 1 ≤ sec := by omega
  have h2 : sec ≤ 65535 := by omega
  have hres : (sec + 512 - 1) / 512 ≤ 128 := by omega
  have hres' : 1 ≤ (sec + 512 - 1) / 512 := by omega
  have hmod : (sec + maxcounts - 1) / maxcounts % 2 ^ 16 = (sec + 512 - 1) / 512 := by
    rw [maxcounts, Nat.mod_eq_of_lt (by omega)]
  set res := (sec + 512 - 1) / 512 with hresdef
  have hle : sec ≤ 512 * res := by omega
  have hn : (sec + res - 1) / res ≤ 512 := by
    rw [Nat.div_le_iff_le_mul_add_pred (by omega)]
    have hcomm : res * 512 = 512 * res := Nat.mul_comm ..
    omega
  have hn' : 1 ≤ (sec + res - 1) / res := (Nat.one_le_div_iff (by omega)).2 (by omega)
  have hmod' : (sec + res - 1) / res % 2 ^ 16 = (sec + res - 1) / res :=
    Nat.mod_eq_of_lt (by omega)
  constructor
  · simp only [hmod]; omega
  · simp only [hmod, hmod']; omega
  · simp only [hmod, hmod']; exact hn
  · exact Nat.mod_lt _ (by decide)

theorem Configured.ok {opts : List Limit} (h : Configured opts) : ∀ l ∈ opts, l.Ok := by
  induction h with
  | nil => simp
  | add _ hadd ih =>
    obtain ⟨l, rfl, hl⟩ := limit_ok hadd
    intro l' hl'
    rcases List.mem_append.1 hl' with hmem | hmem
    · exact ih l' hmem
    · obtain rfl := List.mem_singleton.1 hmem
      exact hl

theorem now_lt (l : Limit) (sec : ℕ) : l.now sec < 2 ^ 16 := Nat.mod_lt _ (by decide)

/-! ## The ring of counters -/

/-- The counter of the slot `d` slots ago. -/
def ago (l : Limit) (e : Entry) (d : ℕ) : ℕ := e.counts (back l.ncounts e.countpos d)

/-- The numbers of an entry fit together and keep their ranges. -/
structure Shape (l : Limit) (e : Entry) : Prop where
  last : e.last < 2 ^ 16
  countpos : e.countpos < l.ncounts
  unused : ∀ j, l.ncounts ≤ j → e.counts j = 0
  total : e.total = ∑ j ∈ Finset.range l.ncounts, e.counts j
  limit : e.total ≤ l.limit

variable {l : Limit} {e : Entry}

theorem Shape.total_ago (h : Shape l e) : e.total = ∑ d ∈ Finset.range l.ncounts, ago l e d :=
  h.total.trans (Lib.Ring.sum_back h.countpos e.counts).symm

theorem Shape.counts_le (h : Shape l e) (j : ℕ) : e.counts j ≤ e.total := by
  rcases Nat.lt_or_ge j l.ncounts with hj | hj
  · rw [h.total]
    exact Finset.single_le_sum_of_canonicallyOrdered (f := e.counts) (Finset.mem_range.2 hj)
  · rw [h.unused j hj]
    exact Nat.zero_le _

theorem Shape.ago_eq_zero (h : Shape l e) (h0 : e.total = 0) (d : ℕ) : ago l e d = 0 := by
  have := h.counts_le (back l.ncounts e.countpos d)
  unfold ago
  omega

theorem shape_zero (hl : l.Ok) {last : ℕ} (h : last < 2 ^ 16) :
    Shape l { Entry.zero with last := last } where
  last := h
  countpos := hl.ncounts
  unused _ _ := rfl
  total := by simp [Entry.zero]
  limit := Nat.zero_le _

/-! ## Moving on -/

theorem countpos_turn (hl : l.Ok) (h : Shape l e) :
    (turn l e).countpos = next l.ncounts e.countpos := by
  have hpos := h.countpos
  have hmax : l.ncounts ≤ 512 := hl.maxcounts
  have hmod : (e.countpos + 1) % 2 ^ 16 = e.countpos + 1 := Nat.mod_eq_of_lt (by omega)
  simp only [turn, hmod, next]

theorem counts_turn (hl : l.Ok) (h : Shape l e) :
    (turn l e).counts = Function.update e.counts (next l.ncounts e.countpos) 0 := by
  rw [← countpos_turn hl h]
  rfl

theorem total_turn (hl : l.Ok) (h : Shape l e) :
    (turn l e).total = e.total - e.counts (next l.ncounts e.countpos) := by
  have hle := h.counts_le (next l.ncounts e.countpos)
  have hlim := h.limit
  have hlt := hl.limit
  have hpos := countpos_turn hl h
  simp only [turn] at hpos ⊢
  rw [hpos, show e.total + 2 ^ 16 - e.counts (next l.ncounts e.countpos)
    = e.total - e.counts (next l.ncounts e.countpos) + 2 ^ 16 by omega, Nat.add_mod_right,
    Nat.mod_eq_of_lt (by omega)]

theorem shape_turn (hl : l.Ok) (h : Shape l e) : Shape l (turn l e) where
  last := Nat.mod_lt _ (by decide)
  countpos := by
    rw [countpos_turn hl h]
    exact Lib.Ring.next_lt h.countpos
  unused := by
    intro j hj
    have hne : j ≠ next l.ncounts e.countpos := by
      have := Lib.Ring.next_lt h.countpos
      omega
    rw [counts_turn hl h, Function.update_of_ne hne]
    exact h.unused j hj
  total := by
    have hmem : next l.ncounts e.countpos ∈ Finset.range l.ncounts :=
      Finset.mem_range.2 (Lib.Ring.next_lt h.countpos)
    rw [total_turn hl h, counts_turn hl h, Finset.sum_update_of_mem hmem, h.total,
      Finset.sum_eq_add_sum_sdiff_singleton_of_mem hmem]
    omega
  limit := by
    rw [total_turn hl h]
    exact le_trans (Nat.sub_le _ _) h.limit

theorem ago_turn_zero (hl : l.Ok) (h : Shape l e) : ago l (turn l e) 0 = 0 := by
  rw [ago, counts_turn hl h, countpos_turn hl h, Lib.Ring.back_zero, Function.update_self]

theorem ago_turn_succ (hl : l.Ok) (h : Shape l e) {d : ℕ} (hd : d + 1 < l.ncounts) :
    ago l (turn l e) (d + 1) = ago l e d := by
  rw [ago, counts_turn hl h, countpos_turn hl h, Lib.Ring.back_next_succ hd,
    Function.update_of_ne (Lib.Ring.back_ne hd)]
  rfl

/-- The slots from the one numbered `last` to the one numbered `now`. -/
def gap (last now : ℕ) : ℕ := (now + 2 ^ 16 - last) % 2 ^ 16

/-- What moving an entry to the slot numbered `now` does. -/
structure Moved (l : Limit) (e : Entry) (now : ℕ) (e' : Entry) : Prop where
  shape : Shape l e'
  last : e'.last = now
  ago : ∀ d, d < l.ncounts →
    ago l e' d = if d < gap e.last now then 0 else ago l e (d - gap e.last now)

theorem rotate_moved (hl : l.Ok) {now : ℕ} (hnow : now < 2 ^ 16) (n : ℕ) :
    ∀ {e : Entry}, Shape l e → gap e.last now ≤ n → Moved l e now (rotate l now n e) := by
  have hgap0 : ∀ e : Entry, Shape l e → gap e.last now = 0 → e.last = now := by
    intro e h hg
    have := h.last
    unfold gap at hg
    omega
  induction n with
  | zero =>
    intro e h hg
    have h0 : gap e.last now = 0 := by omega
    exact ⟨h, hgap0 e h h0, fun d _ => by simp [rotate, h0]⟩
  | succ n ih =>
    intro e h hg
    rw [rotate]
    split_ifs with hlast
    · have h0 : gap e.last now = 0 := by
        unfold gap
        rw [hlast, show now + 2 ^ 16 - now = 2 ^ 16 by omega, Nat.mod_self]
      exact ⟨h, hlast, fun d _ => by simp [h0]⟩
    · -- One pass brings the entry one slot nearer.
      have hstep : gap (turn l e).last now + 1 = gap e.last now := by
        have hlt := h.last
        have hturn : (turn l e).last = (e.last + 1) % 2 ^ 16 := rfl
        unfold gap
        rw [hturn]
        omega
      obtain ⟨hshape, hlast', hago⟩ := ih (shape_turn hl h) (by omega)
      refine ⟨hshape, hlast', fun d hd => ?_⟩
      rw [hago d hd, ← hstep]
      rcases Nat.lt_trichotomy d (gap (turn l e).last now) with hlt | heq | hgt
      · rw [if_pos hlt, if_pos (by omega)]
      · rw [if_neg (by omega), if_pos (by omega), heq, Nat.sub_self, ago_turn_zero hl h]
      · rw [if_neg (by omega), if_neg (by omega),
          show d - gap (turn l e).last now = d - (gap (turn l e).last now + 1) + 1 by omega,
          ago_turn_succ hl h (by omega)]

/-- All branches of `refresh` move the window by the distance of the slot numbers modulo 2^16. -/
theorem refresh_spec (hl : l.Ok) (h : Shape l e) {now : ℕ} (hnow : now < 2 ^ 16) :
    Moved l e now (refresh l e now) := by
  have hlast := h.last
  have hmax : l.ncounts ≤ 512 := hl.maxcounts
  unfold refresh
  split_ifs with htotal hdiff
  · refine ⟨shape_zero hl hnow, rfl, fun d hd => ?_⟩
    have hgap : l.ncounts ≤ gap e.last now := by
      unfold gap
      omega
    rw [if_pos (by omega)]
    rfl
  · refine rotate_moved hl hnow _ h ?_
    exact Nat.le_of_lt (Nat.mod_lt _ (by decide))
  · have htotal : e.total = 0 := by simpa using htotal
    refine ⟨⟨hnow, h.countpos, h.unused, h.total, h.limit⟩, rfl, fun d hd => ?_⟩
    have hzero : ∀ d, ago l e d = 0 := h.ago_eq_zero htotal
    have hsame : ago l { e with last := now } d = ago l e d := rfl
    rw [hsame, hzero, hzero, ite_self]

/-! ## Counting -/

/-- The entry after one more action was counted in the current slot. -/
def Entry.count (e : Entry) : Entry :=
  { e with
    counts := Function.update e.counts e.countpos ((e.counts e.countpos + 1) % 2 ^ 16)
    total := (e.total + 1) % 2 ^ 16 }

theorem total_count (hl : l.Ok) (hroom : e.total < l.limit) : e.count.total = e.total + 1 := by
  have hlt := hl.limit
  exact Nat.mod_eq_of_lt (by omega)

theorem counts_count (hl : l.Ok) (h : Shape l e) (hroom : e.total < l.limit) :
    e.count.counts = Function.update e.counts e.countpos (e.counts e.countpos + 1) := by
  have hlt := hl.limit
  have hle := h.counts_le e.countpos
  simp only [Entry.count]
  rw [Nat.mod_eq_of_lt (by omega)]

theorem shape_count (hl : l.Ok) (h : Shape l e) (hroom : e.total < l.limit) : Shape l e.count where
  last := h.last
  countpos := h.countpos
  unused := by
    intro j hj
    have hpos := h.countpos
    rw [counts_count hl h hroom, Function.update_of_ne (by omega)]
    exact h.unused j hj
  total := by
    have hmem : e.countpos ∈ Finset.range l.ncounts := Finset.mem_range.2 h.countpos
    rw [total_count hl hroom, counts_count hl h hroom, Finset.sum_update_of_mem hmem, h.total,
      Finset.sum_eq_add_sum_sdiff_singleton_of_mem hmem]
    omega
  limit := by
    rw [total_count hl hroom]
    omega

theorem ago_count (hl : l.Ok) (h : Shape l e) (hroom : e.total < l.limit) {d : ℕ}
    (hd : d < l.ncounts) : ago l e.count d = ago l e d + if d = 0 then 1 else 0 := by
  have hpos : e.count.countpos = e.countpos := rfl
  rw [ago, ago, counts_count hl h hroom, hpos]
  by_cases hd0 : d = 0
  · subst hd0
    simp
  · have hne : back l.ncounts e.countpos d ≠ e.countpos := by
      have hcp := h.countpos
      unfold back
      split_ifs <;> omega
    rw [Function.update_of_ne hne, if_neg hd0, Nat.add_zero]

/-- A limit counts an action where the window has room, in the current slot. -/
theorem checkLimit_spec (hl : l.Ok) (h : Shape l e) (sec : ℕ) :
    Shape l (checkLimit l e sec).1 ∧ (checkLimit l e sec).1.last = l.now sec ∧
      (∀ d, d < l.ncounts → ago l (checkLimit l e sec).1 d =
        ago l (refresh l e (l.now sec)) d + if d = 0 ∧ (checkLimit l e sec).2 = true then 1 else 0) ∧
      ((checkLimit l e sec).2 = true ↔ (refresh l e (l.now sec)).total < l.limit) := by
  obtain ⟨hshape, hlast, -⟩ := refresh_spec hl h (now_lt l sec)
  unfold checkLimit
  generalize refresh l e (l.now sec) = e' at hshape hlast
  simp only
  split_ifs with hroom
  · refine ⟨shape_count hl hshape hroom, hlast, fun d hd => ?_, by simp [hroom]⟩
    simp only [and_true]
    exact ago_count hl hshape hroom hd
  · refine ⟨hshape, hlast, fun d hd => by simp, by simp [hroom]⟩

end PoserCore.RateLimits
