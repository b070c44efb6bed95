import PoserCore.RateLimits.Window

/-!
# What a check does

The invariant `Inv R` relates the counters of every key to the log by the relation `R`: with `≤` it
holds in every run, with `=` in runs in which no idle time is mistaken for a shorter one.  A key
without entries has nothing in any window (`Forgotten`), which is what makes the clean-up safe.
`check_spec` says once what a check does to it, and which limits count it.
-/

namespace PoserCore.RateLimits

open Dictionary (Key)

/-- The time of the latest check of a key. -/
def lastCheck (log : List Record) (key : Key) : Option ℕ :=
  (log.find? fun r => r.key = key).map Record.sec

/-- The counters of one limit follow the log, up to the time `sec`. -/
structure Follows (R : ℕ → ℕ → Prop) (l : Limit) (i : ℕ) (key : Key) (log : List Record) (sec : ℕ)
    (e : Entry) : Prop where
  shape : Shape l e
  last : e.last = l.now sec
  latest : ∀ r ∈ log, r.CountedBy i key → l.slot r.sec ≤ l.slot sec
  tracks : ∀ d, d < l.ncounts → R (past (tally l i key log) (l.slot sec) d) (ago l e d)

/-- Nothing that was counted is in a window any more. -/
def Forgotten (limits : List Limit) (log : List Record) (key : Key) (sec : ℕ) : Prop :=
  ∀ i l, limits[i]? = some l → ∀ r ∈ log, r.CountedBy i key →
    l.slot r.sec + l.ncounts ≤ l.slot sec

structure Inv (R : ℕ → ℕ → Prop) (rl : RateLimit) (log : List Record) (now : ℕ) : Prop where
  limits : ∀ l ∈ rl.limits, l.Ok
  entries : rl.entries.Ok
  deleter : rl.entries.deleter = .all ()
  apart : ∀ k k' a, rl.entries.get k = some a → rl.entries.get k' = some a → k = k'
  clock : ∀ r ∈ log, r.sec ≤ now
  present : ∀ k a, rl.entries.get k = some a → ∃ es sec, rl.mem a = some es ∧
    lastCheck log k = some sec ∧ sec ≤ now ∧
      ∀ i l, rl.limits[i]? = some l → Follows R l i k log sec (es i)
  absent : ∀ k, rl.entries.get k = none → Forgotten rl.limits log k now

variable {R : ℕ → ℕ → Prop} {self self' : RateLimit} {log : List Record} {now sec : ℕ} {key : Key}

theorem inv_create (hash : Key → UInt64) {opts : List Limit} (h : Configured opts) :
    Inv R (.create hash opts) [] 0 where
  limits := h.ok
  entries := Dictionary.ok_create hash _
  deleter := rfl
  apart := by
    intro k k' a hk
    rw [RateLimit.create, Dictionary.get_create] at hk
    cases hk
  clock := by simp
  present := by
    intro k a hk
    rw [RateLimit.create, Dictionary.get_create] at hk
    cases hk
  absent := by
    intro k _ i l _ r hr
    cases hr

theorem slot_mono (l : Limit) {a b : ℕ} (h : a ≤ b) : l.slot a ≤ l.slot b :=
  Nat.div_le_div_right h

/-- Time passes. -/
theorem Inv.later (h : Inv R self log now) (hsec : now ≤ sec) : Inv R self log sec where
  limits := h.limits
  entries := h.entries
  deleter := h.deleter
  apart := h.apart
  clock := fun r hr => le_trans (h.clock r hr) hsec
  present := by
    intro k a hk
    obtain ⟨es, s, hm, hlast, hs, hf⟩ := h.present k a hk
    exact ⟨es, s, hm, hlast, le_trans hs hsec, hf⟩
  absent := fun k hk i l hl r hr hc => le_trans (h.absent k hk i l hl r hr hc) (slot_mono l hsec)

/-! ## The clean-up -/

/-- An expired key has nothing in any window. -/
theorem forgotten_of_expired {limits : List Limit} {es : ℕ → Entry} {sec₀ : ℕ}
    (hf : ∀ i l, limits[i]? = some l → Follows R l i key log sec₀ (es i)) (hsec : sec₀ ≤ sec)
    (hexp : expired limits sec es = true) : Forgotten limits log key sec := by
  intro i l hl r hr hc
  obtain ⟨-, hlast, hlatest, -⟩ := hf i l hl
  have hdiff := List.all_eq_true.1 hexp (l, i) (List.mk_mem_zipIdx_iff_getElem?.2 hl)
  have hslot := hlatest r hr hc
  have hmono := slot_mono l hsec
  simp only [hlast, decide_eq_true_eq] at hdiff
  have hnow : ∀ s, l.now s = l.slot s % 2 ^ 16 := fun _ => rfl
  rw [hnow, hnow] at hdiff
  omega

theorem get_clean (h : self.entries.Ok) (k : Key) : (self.clean sec).entries.get k =
    (self.entries.get k).filter fun a => !self.matcher sec k (some a) :=
  Dictionary.get_removeAll h (self.matcher sec) k

/-- What stays in the dictionary is not freed. -/
theorem kept_clean (h : self.entries.Ok) (hdel : self.entries.deleter = .all ()) {k : Key}
    {a : Addr} (hk : (self.clean sec).entries.get k = some a) :
    self.entries.get k = some a ∧ (self.clean sec).mem a = self.mem a := by
  rw [get_clean h, Option.filter_eq_some_iff] at hk
  refine ⟨hk.1, if_neg fun hfreed => ?_⟩
  rw [Dictionary.calls_removeAll h (self.matcher sec), List.drop_left] at hfreed
  obtain ⟨e, he, hcall⟩ := List.mem_flatMap.1 hfreed
  rw [Dictionary.Dictionary.delete, hdel, List.mem_singleton, Prod.mk.injEq] at hcall
  have hm : self.matcher sec k (some a) = true := by
    have := (List.mem_filter.1 he).2
    rwa [← hcall.2] at this
  rw [hm] at hk
  cases hk.2

theorem inv_clean (h : Inv R self log sec) : Inv R (self.clean sec) log sec := by
  refine ⟨h.limits, Dictionary.ok_removeAll h.entries (self.matcher sec), ?_, ?_, h.clock, ?_, ?_⟩
  · rw [← h.deleter]
    simp only [RateLimit.clean, Dictionary.Dictionary.removeAll]
    split_ifs <;> rfl
  · intro k k' a hk hk'
    exact h.apart k k' a (kept_clean h.entries h.deleter hk).1
      (kept_clean h.entries h.deleter hk').1
  · intro k a hk
    obtain ⟨hold, hm⟩ := kept_clean h.entries h.deleter hk
    rw [hm]
    exact h.present k a hold
  · intro k hk
    cases hold : self.entries.get k with
    | none => exact h.absent k hold
    | some a =>
      obtain ⟨es, sec₀, hm, -, hsec, hf⟩ := h.present k a hold
      rw [get_clean h.entries, hold, Option.filter_eq_none_iff] at hk
      have hexp : expired self.limits sec es = true := by simpa [RateLimit.matcher, hm] using hk
      exact forgotten_of_expired hf hsec hexp

/-- The counter apart, a check begins with a clean-up or with nothing. -/
theorem countdown_cases (self : RateLimit) (sec : ℕ) : ∃ c,
    self.countdown sec = { self.clean sec with cleancount := c } ∨
      self.countdown sec = { self with cleancount := c } := by
  unfold RateLimit.countdown
  split
  · exact ⟨2000, .inl rfl⟩
  · exact ⟨_, .inr rfl⟩

theorem inv_countdown (h : Inv R self log sec) : Inv R (self.countdown sec) log sec := by
  obtain ⟨c, hc | hc⟩ := countdown_cases self sec <;> rw [hc]
  · have hclean := inv_clean h
    exact ⟨hclean.limits, hclean.entries, hclean.deleter, hclean.apart, hclean.clock,
      hclean.present, hclean.absent⟩
  · exact ⟨h.limits, h.entries, h.deleter, h.apart, h.clock, h.present, h.absent⟩

theorem kept_countdown (h : self.entries.Ok) (hdel : self.entries.deleter = .all ()) {k : Key}
    {a : Addr} (hk : (self.countdown sec).entries.get k = some a) :
    self.entries.get k = some a ∧ (self.countdown sec).mem a = self.mem a := by
  obtain ⟨c, hc | hc⟩ := countdown_cases self sec <;> rw [hc] at hk ⊢
  · exact kept_clean h hdel hk
  · exact ⟨hk, rfl⟩

theorem limits_countdown : (self.countdown sec).limits = self.limits := by
  obtain ⟨c, hc | hc⟩ := countdown_cases self sec
  · rw [hc]
    rfl
  · rw [hc]

/-- A clean-up allocates nothing. -/
theorem free_countdown {a : Addr} (h : self.mem a = none) : (self.countdown sec).mem a = none := by
  obtain ⟨c, hc | hc⟩ := countdown_cases self sec <;> rw [hc]
  · exact ite_eq_left_iff.2 fun _ => h
  · exact h

/-! ## The entries of the key -/

/-- What the loop of `PSC_RateLimit_check` finds. -/
structure Found (rl : RateLimit) (key : Key) (sec : ℕ) (rl' : RateLimit) (a : Addr)
    (es : ℕ → Entry) : Prop where
  limits : rl'.limits = rl.limits
  entries : rl'.entries.Ok
  deleter : rl'.entries.deleter = rl.entries.deleter
  get : ∀ k, rl'.entries.get k = if k = key then some a else rl.entries.get k
  mem : rl'.mem a = some es
  others : ∀ k b, k ≠ key → rl.entries.get k = some b → b ≠ a ∧ rl'.mem b = rl.mem b
  which : (rl.entries.get key = some a ∧ rl.mem a = some es) ∨
    (rl.entries.get key = none ∧ es = newEntries rl.limits sec)

theorem find_spec (h : Inv R self log sec) {alloc a : Addr}
    (hfind : self.find key sec alloc 1 = some (self', a)) : ∃ es, Found self key sec self' a es := by
  rw [RateLimit.find] at hfind
  split at hfind
  next b hb =>
    obtain ⟨rfl, rfl⟩ := Prod.mk.inj (Option.some.inj hfind)
    obtain ⟨es, -, hm, -⟩ := h.present key b hb
    refine ⟨es, rfl, h.entries, rfl, ?_, hm, ?_, .inl ⟨hb, hm⟩⟩
    · intro k
      split_ifs with hk
      · rw [hk, hb]
      · rfl
    · intro k c hk hc
      refine ⟨?_, rfl⟩
      rintro rfl
      exact hk (h.apart k key c hc hb)
  next hb =>
    split_ifs at hfind with hused
    have hfree : self.mem alloc = none := by simpa using hused
    have hget := Dictionary.get_set key (some alloc) Dictionary.Deleter.individual h.entries
    rw [RateLimit.find, hget key, if_pos rfl] at hfind
    obtain ⟨rfl, rfl⟩ := Prod.mk.inj (Option.some.inj hfind)
    refine ⟨newEntries self.limits sec, rfl, Dictionary.ok_set key (some alloc) _ h.entries, rfl,
      hget, by simp, ?_, .inr ⟨hb, rfl⟩⟩
    intro k c hk hc
    obtain ⟨es, -, hm, -⟩ := h.present k c hc
    have hne : c ≠ alloc := by
      rintro rfl
      rw [hm] at hfree
      cases hfree
    exact ⟨hne, by simp [hne]⟩

/-- With free memory the loop ends. -/
theorem find_isSome (h : Inv R self log sec) {alloc : Addr} (hfree : self.mem alloc = none) :
    (self.find key sec alloc 1).isSome := by
  rw [RateLimit.find]
  split
  · rfl
  next hb =>
    have hget := Dictionary.get_set key (some alloc) Dictionary.Deleter.individual h.entries
    rw [if_neg (by simp [hfree]), RateLimit.find, hget key, if_pos rfl]
    rfl

/-! ## The check -/

/-- For every limit with counters of this key that are not all zero, the slots since the latest
check of the key are not mistaken for fewer. -/
def Fresh (self : RateLimit) (log : List Record) (key : Key) (sec : ℕ) : Prop :=
  ∀ a es sec₀, self.entries.get key = some a → self.mem a = some es →
    lastCheck log key = some sec₀ → ∀ i l, self.limits[i]? = some l →
      (es i).total = 0 ∨ l.slot sec - l.slot sec₀ < 2 ^ 16 ∨
        l.ncounts ≤ (l.slot sec - l.slot sec₀) % 2 ^ 16

/-- The counters a check finds are, once moved to its slot, those of the window. -/
theorem tracks_found (hR : ∀ x, R x x) (h : Inv R self log sec)
    (hgap : (∀ x, R 0 x) ∨ Fresh self log key sec) {a : Addr} {es : ℕ → Entry}
    (hfound : Found self key sec self' a es) {i : ℕ} {l : Limit} (hl : self.limits[i]? = some l) :
    Shape l (es i) ∧ ∀ d, d < l.ncounts →
      R (past (tally l i key log) (l.slot sec) d) (ago l (refresh l (es i) (l.now sec)) d) := by
  have hok : l.Ok := h.limits l (List.mem_of_getElem? hl)
  rcases hfound.which with ⟨hget, hmem⟩ | ⟨hget, rfl⟩
  · obtain ⟨es', sec₀, hmem', hlast, hsec, hf⟩ := h.present key a hget
    obtain rfl : es = es' := Option.some.inj (hmem.symm.trans hmem')
    have hfl := hf i l hl
    refine ⟨hfl.shape, tracks_refresh hR hok hfl.shape hfl.last hsec ?_ hfl.tracks ?_⟩
    · intro s hs
      refine tally_eq_zero fun r hr hc => ?_
      have := hfl.latest r hr hc
      omega
    · exact hgap.imp_right fun hfresh => hfresh a es sec₀ hget hmem hlast i l hl
  · have hzero : ∀ d, d < l.ncounts → past (tally l i key log) (l.slot sec) d = 0 := by
      intro d hd
      unfold past
      split_ifs with hle
      · refine tally_eq_zero fun r hr hc => ?_
        have := h.absent key hget i l hl r hr hc
        omega
      · rfl
    have hnew : newEntries self.limits sec i = { Entry.zero with last := l.now sec } := by
      simp [newEntries, hl]
    rw [hnew]
    refine ⟨shape_zero hok (now_lt l sec), fun d hd => ?_⟩
    rw [hzero d hd]
    exact hR 0

/-- Checks of other keys leave the counters of a key alone. -/
theorem Follows.cons {l : Limit} {i : ℕ} {e : Entry} {r : Record} (h : Follows R l i key log sec e)
    (hr : r.key ≠ key) : Follows R l i key (r :: log) sec e where
  shape := h.shape
  last := h.last
  latest := by
    intro r' hr' hc
    rcases List.mem_cons.1 hr' with rfl | hmem
    · exact absurd hc.1 hr
    · exact h.latest r' hmem hc
  tracks := by
    rw [tally_cons_of_ne hr]
    exact h.tracks

theorem Forgotten.cons {limits : List Limit} {r : Record} (h : Forgotten limits log key sec)
    (hr : r.key ≠ key) : Forgotten limits (r :: log) key sec := by
  intro i l hl r' hr' hc
  rcases List.mem_cons.1 hr' with rfl | hmem
  · exact absurd hc.1 hr
  · exact h i l hl r' hmem hc

/-- The counters of the key follow the log with the new check. -/
theorem follows_check (hRs : ∀ x y, R x y → R (x + 1) (y + 1)) {l : Limit} {i : ℕ} {e : Entry}
    {r : Record} (hl : l.Ok) (hclock : ∀ r ∈ log, r.sec ≤ sec) (hshape : Shape l e)
    (htracks : ∀ d, d < l.ncounts →
      R (past (tally l i key log) (l.slot sec) d) (ago l (refresh l e (l.now sec)) d))
    (hsec : r.sec = sec) (hc : r.CountedBy i key ↔ (checkLimit l e sec).2 = true) :
    Follows R l i key (r :: log) sec (checkLimit l e sec).1 := by
  obtain ⟨hs, hlast, hago, -⟩ := checkLimit_spec hl hshape sec
  refine ⟨hs, hlast, ?_, fun d hd => ?_⟩
  · intro r' hr' _
    rcases List.mem_cons.1 hr' with rfl | hmem
    · rw [hsec]
    · exact slot_mono l (hclock r' hmem)
  · rw [past_tally_cons, hago d hd, hsec, Nat.sub_self]
    by_cases hadd : d = 0 ∧ (checkLimit l e sec).2 = true
    · rw [if_pos ⟨hadd.1, hc.2 hadd.2, le_rfl⟩, if_pos hadd]
      exact hRs _ _ (htracks d hd)
    · rw [if_neg fun h => hadd ⟨h.1, hc.1 h.2.1⟩, if_neg hadd]
      exact htracks d hd

/-- How a limit decides: by what its counters hold, which is `R`-related to the window. -/
def Decides (R : ℕ → ℕ → Prop) (limits : List Limit) (log : List Record) (r : Record) : Prop :=
  r.ok = r.counted.all id ∧ r.counted.length = limits.length ∧
    ∀ i l, limits[i]? = some l → ∃ w : ℕ → ℕ, (∀ d, d < l.ncounts →
      R (past (tally l i r.key log) (l.slot r.sec) d) (w d)) ∧
        (r.counted[i]? = some true ↔ ∑ d ∈ Finset.range l.ncounts, w d < l.limit)

section Check

variable {a : Addr} {es : ℕ → Entry}

/-- The invariant after the counters of the key have been replaced by ones that follow the log. -/
theorem inv_found (h : Inv R self log sec) (hfound : Found self key sec self' a es) {r : Record}
    (hkey : r.key = key) (hsec : r.sec = sec) {es' : ℕ → Entry}
    (hf : ∀ i l, self.limits[i]? = some l → Follows R l i key (r :: log) sec (es' i)) :
    Inv R { self' with mem := Function.update self'.mem a (some es') } (r :: log) sec := by
  have hne : ∀ k, k ≠ key → r.key ≠ k := fun k hk hr => hk (hr.symm.trans hkey)
  have hget : ∀ k, k ≠ key → self'.entries.get k = self.entries.get k := by
    intro k hk
    rw [hfound.get, if_neg hk]
  refine ⟨?_, hfound.entries, hfound.deleter.trans h.deleter, ?_, ?_, ?_, ?_⟩
  · simp only [hfound.limits]
    exact h.limits
  · intro k k' b hk hk'
    by_cases hkk : k = key
    · by_cases hkk' : k' = key
      · exact hkk.trans hkk'.symm
      · -- No other key has the address of this one.
        obtain rfl : b = a := by
          rw [hkk, hfound.get, if_pos rfl] at hk
          exact (Option.some.inj hk).symm
        exact absurd rfl (hfound.others k' b hkk' (hget k' hkk' ▸ hk')).1
    · by_cases hkk' : k' = key
      · obtain rfl : b = a := by
          rw [hkk', hfound.get, if_pos rfl] at hk'
          exact (Option.some.inj hk').symm
        exact absurd rfl (hfound.others k b hkk (hget k hkk ▸ hk)).1
      · exact h.apart k k' b (hget k hkk ▸ hk) (hget k' hkk' ▸ hk')
  · intro r' hr'
    rcases List.mem_cons.1 hr' with rfl | hmem
    · exact hsec.le
    · exact h.clock r' hmem
  · intro k b hk
    by_cases hkk : k = key
    · subst hkk
      obtain rfl : b = a := by
        rw [hfound.get, if_pos rfl] at hk
        exact (Option.some.inj hk).symm
      refine ⟨es', sec, by simp, ?_, le_rfl, ?_⟩
      · simp [lastCheck, hkey, hsec]
      · simp only [hfound.limits]
        exact hf
    · have hk' : self.entries.get k = some b := hget k hkk ▸ hk
      obtain ⟨hba, hmemb⟩ := hfound.others k b hkk hk'
      obtain ⟨es₀, sec₀, hmem, hlast, hle, hf₀⟩ := h.present k b hk'
      refine ⟨es₀, sec₀, by simpa [hba, hmemb] using hmem, ?_, hle, ?_⟩
      · simpa [lastCheck, hne k hkk] using hlast
      · simp only [hfound.limits]
        exact fun i l hl => (hf₀ i l hl).cons (hne k hkk)
  · intro k hk
    have hkk : k ≠ key := by
      rintro rfl
      rw [hfound.get, if_pos rfl] at hk
      cases hk
    simp only [hfound.limits]
    exact (h.absent k (hget k hkk ▸ hk)).cons (hne k hkk)

end Check

/-- One check, from any state and for any relation that counting keeps. -/
theorem check_spec (hR : ∀ x, R x x) (hRs : ∀ x y, R x y → R (x + 1) (y + 1))
    (h : Inv R self log now) (hsec : now ≤ sec) (hgap : (∀ x, R 0 x) ∨ Fresh self log key sec)
    {alloc : Addr} {counted : List Bool} {ok : Bool}
    (hc : self.check key (some sec) alloc = some (self', counted, ok)) :
    self'.limits = self.limits ∧ Inv R self' (⟨key, sec, counted, ok⟩ :: log) sec ∧
      Decides R self.limits log ⟨key, sec, counted, ok⟩ := by
  have hdown := inv_countdown (h.later hsec)
  have hgap' : (∀ x, R 0 x) ∨ Fresh (self.countdown sec) log key sec := by
    refine hgap.imp_right fun hfresh a es sec₀ hget hmem hlast i l hl => ?_
    obtain ⟨hget', hmem'⟩ := kept_countdown h.entries h.deleter hget
    exact hfresh a es sec₀ hget' (hmem' ▸ hmem) hlast i l (limits_countdown ▸ hl)
  simp only [RateLimit.check, Option.bind_eq_bind, Option.bind_eq_some_iff, Option.some.injEq,
    Prod.mk.injEq, Prod.exists] at hc
  obtain ⟨self₁, a, hfind, es, hmem, rfl, rfl, rfl⟩ := hc
  obtain ⟨es', hfound⟩ := find_spec hdown hfind
  obtain rfl : es = es' := Option.some.inj (hmem.symm.trans hfound.mem)
  have hlim : self₁.limits = self.limits := hfound.limits.trans limits_countdown
  have hready : ∀ i l, self.limits[i]? = some l → l.Ok ∧ Shape l (es i) ∧ ∀ d, d < l.ncounts →
      R (past (tally l i key log) (l.slot sec) d) (ago l (refresh l (es i) (l.now sec)) d) := by
    intro i l hl
    exact ⟨h.limits l (List.mem_of_getElem? hl),
      tracks_found hR hdown hgap' hfound (by rw [limits_countdown]; exact hl)⟩
  have hcounted : ∀ i l, self.limits[i]? = some l →
      (checkLimits self₁.limits es sec).2[i]? = some (checkLimit l (es i) sec).2 := by
    intro i l hl
    simp [checkLimits, hlim, hl]
  refine ⟨hlim, inv_found hdown hfound rfl rfl fun i l hl => ?_, rfl, ?_, fun i l hl => ?_⟩
  · rw [limits_countdown] at hl
    obtain ⟨hok, hshape, htracks⟩ := hready i l hl
    have hnew : (checkLimits self₁.limits es sec).1 i = (checkLimit l (es i) sec).1 := by
      simp [checkLimits, hlim, hl]
    rw [hnew]
    refine follows_check hRs hok hdown.clock hshape htracks rfl ?_
    simp only [Record.CountedBy, hcounted i l hl, true_and, Option.some.injEq]
  · simp [checkLimits, hlim]
  · obtain ⟨hok, hshape, htracks⟩ := hready i l hl
    refine ⟨_, htracks, ?_⟩
    rw [← (refresh_spec hok hshape (now_lt l sec)).shape.total_ago, hcounted i l hl,
      Option.some.injEq]
    exact (checkLimit_spec hok hshape sec).2.2.2

/-- With free memory a check returns. -/
theorem check_isSome (h : Inv R self log now) (hsec : now ≤ sec) {alloc : Addr}
    (hfree : self.mem alloc = none) : (self.check key (some sec) alloc).isSome := by
  have hdown := inv_countdown (h.later hsec)
  have hsome : ((self.countdown sec).find key sec alloc 1).isSome := find_isSome hdown (free_countdown hfree)
  obtain ⟨⟨self₁, a⟩, hfind⟩ := Option.isSome_iff_exists.1 hsome
  obtain ⟨es, hfound⟩ := find_spec hdown hfind
  simp [RateLimit.check, hfind, hfound.mem]

end PoserCore.RateLimits
