import Mathlib.Data.List.Range
import Mathlib.Tactic.SplitIfs
import PoserCore.Random.Model

/-!
# Which bytes are delivered

What `getrandom` gets fills the buffer from its start (`getLoop_spec`).  The rest is up to `prng`, and
`prng` seeds itself with its mutex locked, by calling itself: the first call never returns, and no
later one gets the mutex (`Prng.Barred`).  So the buffer is filled exactly when `getrandom` fills it
(`bytes_delivered_iff`).
-/

namespace PoserCore.Random

variable {time : UInt64} {count : ℕ} {flags : Flags} {results : List GrResult}

/-! ## `prng` -/

/-- The mutex is locked for ever, or will be. -/
def Prng.Barred (p : Prng) : Prop := p.locked = true ∨ p.seeded = false

theorem barred_init : Prng.init.Barred := .inr rfl

theorem prng_locked {p : Prng} (h : p.locked = true) (fuel : ℕ) :
    prng time (fuel + 1) p = some (.blocked, p) := by
  rw [prng, if_pos h]

theorem stir_locked (time : UInt64) {p : Prng} (h : p.locked = true) (fuel n : ℕ) :
    stir (prng time (fuel + 1)) (n + 1) p = some (.blocked, p) := by
  rw [stir, prng_locked h]
  rfl

/-- A deeper recursion than that of two calls never happens. -/
theorem prng_fuel (fuel : ℕ) (p : Prng) : prng time (fuel + 2) p = prng time 2 p := by
  cases hl : p.locked with
  | true => rw [prng_locked hl, prng_locked hl]
  | false =>
    cases hs : p.seeded with
    | true => simp [prng, hl, hs]
    | false =>
      have hstir (fuel : ℕ) := stir_locked time
        (p := { p with locked := true, seeded := true, s0 := time }) rfl fuel 99
      rw [prng, prng]
      simp [hl, hs, hstir]

theorem prng_barred (time : UInt64) {p : Prng} (h : p.Barred) :
    ∃ p', prng time 2 p = some (.blocked, p') ∧ p'.Barred := by
  by_cases hl : p.locked
  · exact ⟨p, prng_locked hl 1, h⟩
  · have hs : p.seeded = false := h.resolve_left hl
    have hstir := stir_locked time (p := { p with locked := true, seeded := true, s0 := time })
      rfl 0 99
    refine ⟨{ p with locked := true, seeded := true, s0 := time }, ?_, .inl rfl⟩
    rw [prng]
    simp [hl, hs, hstir]

theorem draw_barred (time : UInt64) {s : Fill} (h : s.prng.Barred) (n : ℕ) :
    ∃ p, draw time n s = some (.blocked, { s with prng := p }) ∧ p.Barred := by
  obtain ⟨p, hp, hb⟩ := prng_barred time h
  exact ⟨p, by rw [draw, hp]; rfl, hb⟩

/-- Something is left to fill. -/
theorem fallback_barred (time : UInt64) {s : Fill} (h : s.prng.Barred) (hpos : s.pos < count) :
    ∃ p, fallback time count s = some (.blocked, { s with prng := p }) ∧ p.Barred := by
  by_cases hb : (count - s.pos) % 8 = 0
  · obtain ⟨p, hp, hbarred⟩ := draw_barred time h 8
    obtain ⟨n, hn⟩ : ∃ n, (count - s.pos) / 8 = n + 1 := ⟨(count - s.pos) / 8 - 1, by omega⟩
    refine ⟨p, ?_, hbarred⟩
    simp [fallback, hb, hn, drawChunks, hp]
  · obtain ⟨p, hp, hbarred⟩ := draw_barred time h ((count - s.pos) % 8)
    refine ⟨p, ?_, hbarred⟩
    simp [fallback, hb, hp]

/-! ## `getrandom` -/

/-- The number of bytes `getrandom` gets before it fails with another error than `EINTR` and
`EAGAIN`. -/
def supplied : List GrResult → ℕ
  | [] => 0
  | .got bytes :: results => bytes.length + supplied results
  | .eintr :: results => supplied results
  | .eagain :: results => supplied results
  | .error :: _ => 0

/-- The answers end in enough data for `n` bytes or in an error. -/
def Ends (n : ℕ) (results : List GrResult) : Prop := n ≤ supplied results ∨ .error ∈ results

/-- What was got fills the buffer from its start. -/
structure Loop.Good (count : ℕ) (s : Loop) : Prop where
  pos_le : s.pos ≤ count
  offs : s.stores.map Store.off = List.range s.pos
  pseudo : ∀ st ∈ s.stores, st.pseudo = false

theorem good_start (flags : Flags) : (Loop.start flags).Good count where
  pos_le := Nat.zero_le _
  offs := rfl
  pseudo := List.forall_mem_nil _

theorem pos_request (s : Loop) : (s.request count flags).pos = s.pos := by
  unfold Loop.request
  dsimp only
  split_ifs <;> rfl

theorem stores_request (s : Loop) : (s.request count flags).stores = s.stores := by
  unfold Loop.request
  dsimp only
  split_ifs <;> rfl

theorem pos_took (s : Loop) (bytes : List UInt8) :
    (s.took flags bytes).pos = s.pos + bytes.length := by
  unfold Loop.took
  dsimp only
  split_ifs <;> rfl

theorem stores_took (s : Loop) (bytes : List UInt8) : (s.took flags bytes).stores =
    s.stores ++ bytes.mapIdx fun i b => ⟨s.pos + i, b, false⟩ := by
  unfold Loop.took
  dsimp only
  split_ifs <;> rfl

theorem Loop.Good.request (flags : Flags) {s : Loop} (h : s.Good count) :
    (s.request count flags).Good count where
  pos_le := (pos_request s).symm ▸ h.pos_le
  offs := by rw [stores_request, pos_request, h.offs]
  pseudo := (stores_request s).symm ▸ h.pseudo

/-- Some bytes more. -/
theorem Loop.Good.took {s : Loop} (h : s.Good count) {bytes : List UInt8}
    (hle : bytes.length ≤ count - s.pos) : (s.took flags bytes).Good count := by
  have hpos := h.pos_le
  refine ⟨by rw [pos_took]; omega, ?_, ?_⟩
  · have hnew : (bytes.mapIdx fun i b => Store.mk (s.pos + i) b false).map Store.off =
        (List.range bytes.length).map (s.pos + ·) := by
      apply List.ext_getElem
      · simp
      · simp
    rw [stores_took, List.map_append, h.offs, hnew, pos_took, List.range_add]
  · rw [stores_took]
    intro st hst
    rcases List.mem_append.1 hst with hst | hst
    · exact h.pseudo st hst
    · obtain ⟨i, hi, rfl⟩ := List.mem_mapIdx.1 hst
      rfl

/-- The loop ends, and with a full buffer exactly if there was enough. -/
theorem getLoop_spec {s : Loop} (h : s.Good count) (he : Ends (count - s.pos) results) :
    ∃ s', getLoop count flags results s = some s' ∧ s'.Good count ∧
      (count ≤ s'.pos ↔ count ≤ s.pos + supplied results) := by
  induction results generalizing s with
  | nil =>
    have hle : count ≤ s.pos := by
      have h0 : count - s.pos ≤ 0 := he.resolve_right List.not_mem_nil
      omega
    exact ⟨s, if_neg (Nat.not_lt.2 hle), h, by rw [supplied, Nat.add_zero]⟩
  | cons r results ih =>
    by_cases hlt : s.pos < count
    · have ht := h.request flags
      have hpos : (s.request count flags).pos = s.pos := pos_request s
      rw [getLoop, if_pos hlt]
      generalize s.request count flags = t at ht hpos
      cases r with
      | got bytes =>
        have hlen : (bytes.take (count - t.pos)).length = min (count - t.pos) bytes.length :=
          List.length_take
        have hend : Ends (count - (t.took flags (bytes.take (count - t.pos))).pos) results := by
          rw [pos_took, hlen]
          rcases he with he | he
          · rw [supplied] at he
            exact .inl (by omega)
          · exact .inr ((List.mem_cons.1 he).resolve_left (by simp))
        obtain ⟨s', hs', hgood, hiff⟩ := ih (ht.took (by omega)) hend
        refine ⟨s', hs', hgood, ?_⟩
        rw [hiff, pos_took, hlen, supplied]
        omega
      | eagain =>
        have hend : Ends (count - (t.took flags []).pos) results := by
          rw [pos_took, hpos]
          exact he.imp id fun he => (List.mem_cons.1 he).resolve_left (by simp)
        obtain ⟨s', hs', hgood, hiff⟩ := ih (ht.took (Nat.zero_le _)) hend
        refine ⟨s', hs', hgood, ?_⟩
        rw [hiff, pos_took, hpos]
        rfl
      | eintr =>
        have hend : Ends (count - t.pos) results := by
          rw [hpos]
          exact he.imp id fun he => (List.mem_cons.1 he).resolve_left (by simp)
        obtain ⟨s', hs', hgood, hiff⟩ := ih ht hend
        exact ⟨s', hs', hgood, by rw [hiff, hpos, supplied]⟩
      | error => exact ⟨t, rfl, ht, by rw [hpos, supplied, Nat.add_zero]⟩
    · refine ⟨s, by rw [getLoop, if_neg hlt], h, ?_⟩
      have := h.pos_le
      omega

/-! ## `PSC_Random_bytes` -/

section Calls

variable {s : Loop} {p : Prng} (hs : getLoop count flags results (.start flags) = some s)

include hs

theorem bytes_filled (hle : count ≤ s.pos) : bytes time count flags results p =
    some ⟨.returned s.pos, s.stores, s.log, s.requests, p⟩ := by
  rw [bytes, hs]
  exact if_neg (Nat.not_lt.2 hle)

theorem bytes_secure (hsec : flags.secure = true) : bytes time count flags results p =
    some ⟨.returned s.pos, s.stores, s.log, s.requests, p⟩ := by
  rw [bytes, hs]
  change (if s.pos < count then if flags.secure then some _ else _ else some _) = _
  rw [if_pos hsec, ite_self]

/-- `prng` is needed, and has never returned. -/
theorem bytes_blocked (hlt : s.pos < count) (hsec : flags.secure = false) (h : p.Barred) :
    ∃ c, bytes time count flags results p = some c ∧ c.exit = .blocked ∧ c.prng.Barred := by
  obtain ⟨p', hp', hb⟩ := fallback_barred time (s := ⟨s.pos, s.stores, p⟩) h hlt
  refine ⟨⟨.blocked, s.stores,
    if flags.logs then s.log ++ [(flags.level, .pseudo)] else s.log, s.requests, p'⟩, ?_, rfl, hb⟩
  rw [bytes, hs]
  change (if s.pos < count then if flags.secure then _ else
    (fallback time count ⟨s.pos, s.stores, p⟩).bind _ else _) = _
  rw [if_pos hlt, hsec, if_neg Bool.false_ne_true, hp']
  rfl

end Calls

/-- The call is as documented: it fills the buffer, but without numbers of `prng` if it has to be
secure. -/
structure Delivered (count : ℕ) (flags : Flags) (c : Call) : Prop where
  returned : flags.secure = false → c.exit = .returned count
  offs : flags.secure = false → (c.stores.map Store.off).Perm (List.range count)
  secure : flags.secure = true → ∀ st ∈ c.stores, st.pseudo = false

/-- A call, whatever came before it. -/
structure Args where
  time : UInt64
  count : ℕ
  flags : Flags
  results : List GrResult

/-- The static data of `prng` after a call; one that still waits for `getrandom` has not used
them. -/
def Args.statics (p : Prng) (a : Args) : Prng :=
  match bytes a.time a.count a.flags a.results p with
  | some c => c.prng
  | none => p

/-- The static data of `prng` after some calls, of any threads. -/
def after (earlier : List Args) : Prng := earlier.foldl Args.statics .init

theorem statics_barred {p : Prng} (h : p.Barred) (a : Args) : (a.statics p).Barred := by
  unfold Args.statics
  cases hs : getLoop a.count a.flags a.results (.start a.flags) with
  | none =>
    rw [bytes, hs]
    exact h
  | some s =>
    by_cases hle : a.count ≤ s.pos
    · rw [bytes_filled hs hle]
      exact h
    · cases hsec : a.flags.secure with
      | true =>
        rw [bytes_secure hs hsec]
        exact h
      | false =>
        obtain ⟨c, hc, -, hb⟩ := bytes_blocked hs (Nat.not_le.1 hle) hsec h
        rw [hc]
        exact hb

theorem after_barred (earlier : List Args) : (after earlier).Barred := by
  suffices h : ∀ p : Prng, p.Barred → (earlier.foldl Args.statics p).Barred from h _ barred_init
  intro p hp
  induction earlier generalizing p with
  | nil => exact hp
  | cons a earlier ih => exact ih _ (statics_barred hp a)

/-- The buffer is filled exactly when `getrandom` fills it: a call that needs `prng` never
returns. -/
theorem bytes_delivered_iff (earlier : List Args) (time : UInt64) (count : ℕ) (flags : Flags)
    (results : List GrResult) (h : Ends count results) :
    ∃ c, bytes time count flags results (after earlier) = some c ∧
      (Delivered count flags c ↔ flags.secure = true ∨ count ≤ supplied results) := by
  obtain ⟨s, hs, hgood, hiff⟩ := getLoop_spec (good_start flags) h
  have hstart : (Loop.start flags).pos + supplied results = supplied results := Nat.zero_add _
  rw [hstart] at hiff
  by_cases hle : count ≤ s.pos
  · refine ⟨_, bytes_filled hs hle, iff_of_true ?_ (.inr (hiff.1 hle))⟩
    obtain rfl : s.pos = count := Nat.le_antisymm hgood.pos_le hle
    exact ⟨fun _ => rfl, fun _ => hgood.offs ▸ .refl _, fun _ => hgood.pseudo⟩
  · cases hsec : flags.secure with
    | true =>
      refine ⟨_, bytes_secure hs hsec, iff_of_true ⟨?_, ?_, fun _ => hgood.pseudo⟩ (.inl rfl)⟩
      · exact fun hf => absurd (hsec.symm.trans hf) (by decide)
      · exact fun hf => absurd (hsec.symm.trans hf) (by decide)
    | false =>
      obtain ⟨c, hc, hexit, -⟩ := bytes_blocked hs (Nat.not_le.1 hle) hsec (after_barred earlier)
      refine ⟨c, hc, iff_of_false (fun hd => ?_) ?_⟩
      · cases hexit.symm.trans (hd.returned hsec)
      · rintro (hf | hsup)
        · cases hf
        · exact hle (hiff.2 hsup)

/-- Eight bytes, of which `getrandom` gets five at first. -/
theorem bytes_delivered_eight : ∃ c, bytes 0 8 ⟨false, false, false, false⟩
    [.eintr, .got [1, 2, 3, 4, 5], .eagain, .got [6, 7, 8, 9]] (after []) = some c ∧
      Delivered 8 ⟨false, false, false, false⟩ c := by
  obtain ⟨c, hc, hiff⟩ := bytes_delivered_iff [] 0 8 ⟨false, false, false, false⟩
    [.eintr, .got [1, 2, 3, 4, 5], .eagain, .got [6, 7, 8, 9]] (.inl (by decide))
  exact ⟨c, hc, hiff.2 (.inr (by decide))⟩

/-- `getrandom` fails, and the first call of `prng` waits for itself. -/
theorem bytes_not_delivered : ¬ ∀ c,
    bytes 0 8 ⟨false, false, false, false⟩ [.error] (after []) = some c →
      Delivered 8 ⟨false, false, false, false⟩ c := by
  intro h
  have hexit := (h _ rfl).returned rfl
  revert hexit
  decide

end PoserCore.Random
