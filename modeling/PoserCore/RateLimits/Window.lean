import PoserCore.RateLimits.Slots

/-!
# Windows of the log

How many checks of a key a limit has counted, slot by slot (`tally`) and in the window of the last
`ncounts` slots (`recent`), in true slots that never wrap.  `tracks_refresh` compares the two views
for any relation `R`: moving the ring of an entry keeps `R` between the true counts and the counters,
provided that either a counter may be larger than the truth or no distance of slots is mistaken for
a smaller one.
-/

namespace PoserCore.RateLimits

open Dictionary (Key)

/-- The limit with this number counted the check, and it was one of this key. -/
def Record.CountedBy (r : Record) (i : ℕ) (key : Key) : Prop :=
  r.key = key ∧ r.counted[i]? = some true

instance (r : Record) (i : ℕ) (key : Key) : Decidable (r.CountedBy i key) :=
  inferInstanceAs (Decidable (_ ∧ _))

/-- The checks of a key counted in a slot. -/
def tally (l : Limit) (i : ℕ) (key : Key) (log : List Record) (slot : ℕ) : ℕ :=
  log.countP fun r => r.CountedBy i key ∧ l.slot r.sec = slot

/-- The checks of a key counted in `len` slots from `first` on. -/
def within (l : Limit) (i : ℕ) (key : Key) (log : List Record) (first len : ℕ) : ℕ :=
  log.countP fun r => r.CountedBy i key ∧ first ≤ l.slot r.sec ∧ l.slot r.sec < first + len

/-- The checks of a key counted in the slot of `sec` and the `ncounts - 1` slots before. -/
def recent (l : Limit) (i : ℕ) (key : Key) (log : List Record) (sec : ℕ) : ℕ :=
  log.countP fun r => r.CountedBy i key ∧ l.slot r.sec ≤ l.slot sec ∧
    l.slot sec < l.slot r.sec + l.ncounts

/-- The value `d` places before `T`. -/
def past (f : ℕ → ℕ) (T d : ℕ) : ℕ := if d ≤ T then f (T - d) else 0

variable {l : Limit} {e : Entry} {i : ℕ} {key : Key} {log : List Record} {sec : ℕ}

/-- A check of another key adds nothing. -/
theorem tally_cons_of_ne {r : Record} (h : r.key ≠ key) :
    tally l i key (r :: log) = tally l i key log := by
  funext slot
  unfold tally
  rw [List.countP_cons]
  simp [Record.CountedBy, h]

theorem tally_eq_zero {slot : ℕ} (h : ∀ r ∈ log, r.CountedBy i key → l.slot r.sec ≠ slot) :
    tally l i key log slot = 0 := by
  refine List.countP_eq_zero.2 fun r hr => ?_
  simpa using fun hc => h r hr hc

/-- What one more check adds to the view from `sec`. -/
theorem past_tally_cons (r : Record) (log : List Record) (d : ℕ) :
    past (tally l i key (r :: log)) (l.slot sec) d = past (tally l i key log) (l.slot sec) d +
      if d = l.slot sec - l.slot r.sec ∧ r.CountedBy i key ∧ l.slot r.sec ≤ l.slot sec then 1
      else 0 := by
  unfold past tally
  rw [List.countP_cons]
  by_cases hc : r.CountedBy i key
  · by_cases hd : d ≤ l.slot sec
    · simp only [hd, if_true, hc, true_and, decide_eq_true_eq]
      congr 1
      refine if_congr ?_ rfl rfl
      omega
    · simp only [hd, if_false, hc, true_and, Nat.zero_add]
      rw [if_neg (by omega)]
  · simp [hc]

/-- Slot by slot, the window adds up. -/
theorem recent_eq_sum (log : List Record) :
    recent l i key log sec = ∑ d ∈ Finset.range l.ncounts, past (tally l i key log) (l.slot sec) d := by
  induction log with
  | nil =>
    have hzero : ∀ d, past (tally l i key []) (l.slot sec) d = 0 := fun d => by simp [past, tally]
    simp [recent, hzero]
  | cons r log ih =>
    simp only [past_tally_cons, Finset.sum_add_distrib, ← ih, ite_and, Finset.sum_ite_eq',
      Finset.mem_range]
    rw [recent, List.countP_cons, ← recent]
    congr 1
    by_cases hc : r.CountedBy i key
    · by_cases hle : l.slot r.sec ≤ l.slot sec
      · simp only [hc, hle, true_and, decide_eq_true_eq, if_true]
        refine if_congr ?_ rfl rfl
        omega
      · simp [hle]
    · simp [hc]

/-- A window that ends with `sec` holds what was counted in any window around `sec`. -/
theorem within_le_recent {first : ℕ} (hlog : ∀ r ∈ log, l.slot r.sec ≤ l.slot sec)
    (hsec : l.slot sec < first + l.ncounts) :
    within l i key log first l.ncounts ≤ recent l i key log sec := by
  refine List.countP_mono_left fun r hr h => ?_
  simp only [decide_eq_true_eq] at h ⊢
  refine ⟨h.1, hlog r hr, ?_⟩
  omega

/-! ## The ring follows the window -/

theorem past_shift {f : ℕ → ℕ} {T T' : ℕ} (hf : ∀ s, T < s → f s = 0) (hT : T ≤ T') (d : ℕ) :
    past f T' d = if d < T' - T then 0 else past f T (d - (T' - T)) := by
  unfold past
  split_ifs with h1 h2 h3 h4
  · exact hf _ (by omega)
  · congr 1
    omega
  · omega
  · rfl
  · omega
  · rfl

/-- The relation between true counts and counters survives a refresh. -/
theorem tracks_refresh {R : ℕ → ℕ → Prop} {f : ℕ → ℕ} {sec₀ : ℕ} (hR : ∀ x, R x x) (hl : l.Ok)
    (h : Shape l e) (hlast : e.last = l.now sec₀) (hsec : sec₀ ≤ sec)
    (hf : ∀ s, l.slot sec₀ < s → f s = 0)
    (htracks : ∀ d, d < l.ncounts → R (past f (l.slot sec₀) d) (ago l e d))
    (hgap : (∀ x, R 0 x) ∨ e.total = 0 ∨ l.slot sec - l.slot sec₀ < 2 ^ 16 ∨
      l.ncounts ≤ (l.slot sec - l.slot sec₀) % 2 ^ 16) :
    ∀ d, d < l.ncounts → R (past f (l.slot sec) d) (ago l (refresh l e (l.now sec)) d) := by
  intro d hd
  have hT : l.slot sec₀ ≤ l.slot sec := Nat.div_le_div_right hsec
  have hg : gap e.last (l.now sec) = (l.slot sec - l.slot sec₀) % 2 ^ 16 := by
    rw [hlast]
    unfold gap Limit.now
    change (l.slot sec % 2 ^ 16 + 2 ^ 16 - l.slot sec₀ % 2 ^ 16) % 2 ^ 16 = _
    omega
  have hmax : l.ncounts ≤ 512 := hl.maxcounts
  rw [(refresh_spec hl h (now_lt l sec)).ago d hd, hg, past_shift hf hT]
  generalize hG : l.slot sec - l.slot sec₀ = G at hgap ⊢
  have hle : G % 2 ^ 16 ≤ G := Nat.mod_le _ _
  by_cases hdG : d < G
  · rw [if_pos hdG]
    split_ifs with hdg
    · exact hR 0
    · -- The counter belongs to a slot that is long gone.
      rcases hgap with h0 | h0 | hlt | hge
      · exact h0 _
      · rw [h.ago_eq_zero h0]
        exact hR 0
      · rw [Nat.mod_eq_of_lt hlt] at hdg
        omega
      · omega
  · have hG' : G % 2 ^ 16 = G := Nat.mod_eq_of_lt (by omega)
    rw [if_neg hdG, hG', if_neg hdG]
    exact htracks _ (by omega)

end PoserCore.RateLimits
