import PoserCore.RateLimits.Window

/-!
# The lock of an entry

`checkLimit` with atomics, as any number of threads run it on one entry: every access to the entry
is a step of its own.  The flag that guards the entry is a field of it, and the `memset` that resets
the entry clears the flag as well, so another thread may come in before the first one is done.

Three fields of the state only keep account: how many slots the window has moved (`turns`), when in
these terms the calls returned that were counted since the last reset (`oks`), and which threads
have reset the entry in their current call (`wiped`).
-/

namespace PoserCore.RateLimits.EntryLock

open Lib (Machine)
open Lib.Ring (back)

variable {Tid : Type}

/-- Where a thread is in `checkLimit`; each constructor is named after the access that comes next
and holds what was read before.  A thread has the time of its call until it is done with it. -/
inductive Pc
  | idle
  /-- `atomic_flag_test_and_set_explicit(&e->lock, ..)` -/
  | lock (sec : ℕ)
  /-- `if (e->total)` -/
  | anyTotal (sec : ℕ)
  /-- `if (now - e->last >= self->ncounts)` -/
  | age (sec : ℕ)
  | memset (sec : ℕ)
  /-- `e->last = now` -/
  | stamp (sec : ℕ)
  /-- `e->last != now` -/
  | loop (sec : ℕ)
  /-- `++e->countpos`, and setting it to 0 at the end of the ring -/
  | loadPos (sec : ℕ)
  | storePos (sec pos : ℕ)
  | wrapPos (sec : ℕ)
  /-- `e->total -= e->counts[e->countpos]` -/
  | oldPos (sec : ℕ)
  | oldCount (sec pos : ℕ)
  | oldTotal (sec c : ℕ)
  | storeOld (sec v : ℕ)
  /-- `e->counts[e->countpos] = 0` -/
  | clearPos (sec : ℕ)
  | clearCount (sec pos : ℕ)
  /-- `++e->last` -/
  | loadLast (sec : ℕ)
  | storeLast (sec v : ℕ)
  /-- `if (e->total < self->limit)` -/
  | room
  /-- `++e->counts[e->countpos]` -/
  | pos
  | loadCount (pos : ℕ)
  | storeCount (pos v : ℕ)
  /-- `++e->total` -/
  | loadTotal
  | storeTotal (v : ℕ)
  /-- `atomic_flag_clear_explicit(&e->lock, ..)`, and returning `ok` -/
  | unlock (ok : Bool)
  deriving DecidableEq

/-- Between acquiring and releasing the flag. -/
def Pc.Inside : Pc → Prop
  | .idle | .lock _ => False
  | _ => True

structure State (Tid : Type) where
  locked : Bool
  entry : Entry
  pc : Tid → Pc
  turns : ℕ
  oks : List ℕ
  wiped : Tid → Bool

/-- A thread calls the function at some time, or performs its next step. -/
inductive Action (Tid : Type)
  | call (t : Tid) (sec : ℕ)
  | run (t : Tid)

variable [DecidableEq Tid]

def State.goto (s : State Tid) (t : Tid) (p : Pc) : State Tid :=
  { s with pc := Function.update s.pc t p }

def State.wipe (s : State Tid) (t : Tid) (b : Bool) : State Tid :=
  { s with wiped := Function.update s.wiped t b }

theorem goto_self (s : State Tid) (t : Tid) (p : Pc) : (s.goto t p).pc t = p :=
  Function.update_self ..

theorem goto_of_ne {s : State Tid} {t u : Tid} (h : u ≠ t) (p : Pc) :
    (s.goto t p).pc u = s.pc u :=
  Function.update_of_ne h ..

theorem wipe_self (s : State Tid) (t : Tid) (b : Bool) : (s.wipe t b).wiped t = b :=
  Function.update_self ..

theorem wipe_of_ne {s : State Tid} {t u : Tid} (h : u ≠ t) (b : Bool) :
    (s.wipe t b).wiped u = s.wiped u :=
  Function.update_of_ne h ..

/-- The next step of a thread. -/
def runThread (l : Limit) (s : State Tid) (t : Tid) : Option (State Tid) :=
  let e := s.entry
  match s.pc t with
  | .idle => none
  | .lock sec => some (if s.locked then s else { s with locked := true }.goto t (.anyTotal sec))
  | .anyTotal sec => some (s.goto t (if e.total ≠ 0 then .age sec else .stamp sec))
  | .age sec => some (s.goto t
      (if (l.now sec : ℤ) - e.last ≥ l.ncounts then .memset sec else .loop sec))
  | .memset sec => some (({ s with locked := false, entry := .zero, oks := [] }.wipe t true).goto t
      (.stamp sec))
  | .stamp sec => some ({ s with entry := { e with last := l.now sec } }.goto t .room)
  | .loop sec => some (s.goto t (if e.last ≠ l.now sec then .loadPos sec else .room))
  | .loadPos sec => some (s.goto t (.storePos sec ((e.countpos + 1) % 2 ^ 16)))
  | .storePos sec pos => some ({ s with entry := { e with countpos := pos } }.goto t
      (if pos = l.ncounts then .wrapPos sec else .oldPos sec))
  | .wrapPos sec => some ({ s with entry := { e with countpos := 0 } }.goto t (.oldPos sec))
  | .oldPos sec => some (s.goto t (.oldCount sec e.countpos))
  | .oldCount sec pos => some (s.goto t (.oldTotal sec (e.counts pos)))
  | .oldTotal sec c => some (s.goto t (.storeOld sec ((e.total + 2 ^ 16 - c) % 2 ^ 16)))
  | .storeOld sec v => some ({ s with entry := { e with total := v } }.goto t (.clearPos sec))
  | .clearPos sec => some (s.goto t (.clearCount sec e.countpos))
  | .clearCount sec pos => some ({ s with
      entry := { e with counts := Function.update e.counts pos 0 } }.goto t (.loadLast sec))
  | .loadLast sec => some (s.goto t (.storeLast sec ((e.last + 1) % 2 ^ 16)))
  | .storeLast sec v => some ({ s with
      entry := { e with last := v }
      turns := s.turns + 1 }.goto t (.loop sec))
  | .room => some (s.goto t (if e.total < l.limit then .pos else .unlock false))
  | .pos => some (s.goto t (.loadCount e.countpos))
  | .loadCount pos => some (s.goto t (.storeCount pos ((e.counts pos + 1) % 2 ^ 16)))
  | .storeCount pos v => some ({ s with
      entry := { e with counts := Function.update e.counts pos v } }.goto t .loadTotal)
  | .loadTotal => some (s.goto t (.storeTotal ((e.total + 1) % 2 ^ 16)))
  | .storeTotal v => some ({ s with entry := { e with total := v } }.goto t (.unlock true))
  | .unlock ok => some (({ s with
      locked := false
      oks := if ok then s.turns :: s.oks else s.oks }.wipe t false).goto t .idle)

def step (l : Limit) (s : State Tid) : Action Tid → Option (State Tid)
  | .call t sec => if s.pc t = .idle then some (s.goto t (.lock sec)) else none
  | .run t => runThread l s t

/-- A new entry, with the slot of some time. -/
def machine (Tid : Type) [DecidableEq Tid] (l : Limit) : Machine (State Tid) (Action Tid) where
  init := fun s => ∃ sec, s = ⟨false, { Entry.zero with last := l.now sec }, fun _ => .idle, 0, [],
    fun _ => false⟩
  step := step l

/-! ## What holds -/

/-- The calls counted since the last reset in a slot that the window still covers. -/
def State.covered (l : Limit) (s : State Tid) : ℕ :=
  s.oks.countP fun o => s.turns < o + l.ncounts

/-- The flag keeps all threads but one out, and `total` is right whenever all are out. -/
structure Exclusive (l : Limit) (s : State Tid) : Prop where
  one : ∀ t u, (s.pc t).Inside → (s.pc u).Inside → t = u
  total : (∀ t, ¬ (s.pc t).Inside) → s.entry.total = s.covered l

/-- No thread acquires the flag that another one cleared by its reset. -/
def Action.Apart (s : State Tid) : Action Tid → Prop
  | .run t => ∀ sec, s.pc t = .lock sec → s.locked = false → ∀ u, s.wiped u = false
  | .call _ _ => True

/-! ## The window -/

/-- The counters are the counted calls of the last `ncounts` slots. -/
structure Tracks (l : Limit) (e : Entry) (turns : ℕ) (oks : List ℕ) : Prop where
  shape : Shape l e
  past : ∀ o ∈ oks, o ≤ turns
  ago : ∀ d, d < l.ncounts → ago l e d = RateLimits.past (oks.count ·) turns d

variable {l : Limit} {e : Entry} {turns : ℕ} {oks : List ℕ}

theorem sum_past_count (oks : List ℕ) (hle : ∀ o ∈ oks, o ≤ turns) (n : ℕ) :
    ∑ d ∈ Finset.range n, past (oks.count ·) turns d =
      oks.countP fun o => turns < o + n := by
  induction oks with
  | nil => simp [past]
  | cons o oks ih =>
    have ho := hle o List.mem_cons_self
    have hcons : ∀ d, past ((o :: oks).count ·) turns d =
        past (oks.count ·) turns d + if d = turns - o then 1 else 0 := by
      intro d
      unfold past
      by_cases hd : d ≤ turns
      · have hiff : o = turns - d ↔ d = turns - o := by omega
        simp only [if_pos hd, List.count_cons, beq_iff_eq, hiff]
      · rw [if_neg hd, if_neg hd, if_neg (by omega)]
    simp only [hcons, Finset.sum_add_distrib, Finset.sum_ite_eq', Finset.mem_range]
    rw [ih fun o' ho' => hle o' (List.mem_cons_of_mem o ho'), List.countP_cons]
    congr 1
    simp only [decide_eq_true_eq]
    refine if_congr ?_ rfl rfl
    omega

theorem Tracks.total (h : Tracks l e turns oks) :
    e.total = oks.countP fun o => turns < o + l.ncounts := by
  rw [h.shape.total_ago, ← sum_past_count oks h.past]
  exact Finset.sum_congr rfl fun d hd => h.ago d (Finset.mem_range.1 hd)

theorem tracks_zero (hl : l.Ok) {last : ℕ} (h : last < 2 ^ 16) (turns : ℕ) :
    Tracks l { Entry.zero with last := last } turns [] where
  shape := shape_zero hl h
  past := by simp
  ago := by
    intro d _
    simp [RateLimits.ago, Entry.zero, RateLimits.past]

/-- The slot number has no part in it. -/
theorem Tracks.stamp (h : Tracks l e turns oks) {last : ℕ} (hlast : last < 2 ^ 16) :
    Tracks l { e with last := last } turns oks where
  shape := ⟨hlast, h.shape.countpos, h.shape.unused, h.shape.total, h.shape.limit⟩
  past := h.past
  ago := h.ago

/-- One pass of the loop moves the window by one slot. -/
theorem Tracks.turn (hl : l.Ok) (h : Tracks l e turns oks) :
    Tracks l (turn l e) (turns + 1) oks where
  shape := shape_turn hl h.shape
  past := fun o ho => Nat.le_succ_of_le (h.past o ho)
  ago := by
    intro d hd
    cases d with
    | zero =>
      have hnew : turns + 1 ∉ oks := fun hmem => Nat.not_succ_le_self turns (h.past _ hmem)
      rw [ago_turn_zero hl h.shape, RateLimits.past, if_pos (Nat.zero_le _)]
      exact (List.count_eq_zero_of_not_mem hnew).symm
    | succ d =>
      rw [ago_turn_succ hl h.shape hd, h.ago d (by omega), RateLimits.past, RateLimits.past]
      simp only [Nat.add_le_add_iff_right, Nat.add_sub_add_right]

/-- A call is counted in the current slot. -/
theorem Tracks.count (hl : l.Ok) (h : Tracks l e turns oks) (hroom : e.total < l.limit) :
    Tracks l e.count turns (turns :: oks) where
  shape := shape_count hl h.shape hroom
  past := by simpa using h.past
  ago := by
    intro d hd
    rw [ago_count hl h.shape hroom hd, h.ago d hd, RateLimits.past, RateLimits.past]
    by_cases hle : d ≤ turns
    · have hiff : turns = turns - d ↔ d = 0 := by omega
      simp only [if_pos hle, List.count_cons, beq_iff_eq, hiff]
    · simp only [if_neg hle]
      rw [if_neg (by omega)]

/-! ## Between the accesses -/

/-- An entry that moves to the next slot, whose counter is at `pos`. -/
def slide (e : Entry) (pos : ℕ) : Entry where
  last := (e.last + 1) % 2 ^ 16
  total := (e.total + 2 ^ 16 - e.counts pos) % 2 ^ 16
  countpos := pos
  counts := Function.update e.counts pos 0

/-- The counters follow the counted calls once the thread is done with the pass of the loop, or with
the counting, that it is in the middle of. -/
def Settled (l : Limit) (e : Entry) (turns : ℕ) (oks : List ℕ) : Pc → Prop
  | .loadPos _ => Tracks l (turn l e) (turns + 1) oks
  | .storePos _ pos => Tracks l (slide e (if pos = l.ncounts then 0 else pos)) (turns + 1) oks
  | .wrapPos _ => Tracks l (slide e 0) (turns + 1) oks
  | .oldPos _ => Tracks l (slide e e.countpos) (turns + 1) oks
  | .oldCount _ pos =>
      Tracks l { slide e e.countpos with total := (e.total + 2 ^ 16 - e.counts pos) % 2 ^ 16 }
        (turns + 1) oks
  | .oldTotal _ c =>
      Tracks l { slide e e.countpos with total := (e.total + 2 ^ 16 - c) % 2 ^ 16 } (turns + 1) oks
  | .storeOld _ v => Tracks l { slide e e.countpos with total := v } (turns + 1) oks
  | .clearPos _ => Tracks l { slide e e.countpos with total := e.total } (turns + 1) oks
  | .clearCount _ pos =>
      Tracks l { e with
        last := (e.last + 1) % 2 ^ 16
        counts := Function.update e.counts pos 0 } (turns + 1) oks
  | .loadLast _ => Tracks l { e with last := (e.last + 1) % 2 ^ 16 } (turns + 1) oks
  | .storeLast _ v => Tracks l { e with last := v } (turns + 1) oks
  | .pos => Tracks l e.count turns (turns :: oks)
  | .loadCount pos =>
      Tracks l { e.count with
        counts := Function.update e.counts pos ((e.counts pos + 1) % 2 ^ 16) } turns (turns :: oks)
  | .storeCount pos v =>
      Tracks l { e.count with counts := Function.update e.counts pos v } turns (turns :: oks)
  | .loadTotal => Tracks l { e with total := (e.total + 1) % 2 ^ 16 } turns (turns :: oks)
  | .storeTotal v => Tracks l { e with total := v } turns (turns :: oks)
  | .unlock true => Tracks l e turns (turns :: oks)
  | _ => Tracks l e turns oks

structure Inv (l : Limit) (s : State Tid) : Prop where
  one : ∀ t u, (s.pc t).Inside → (s.pc u).Inside → t = u
  wiped : ∀ t, s.wiped t = true → (s.pc t).Inside
  flag : s.locked = false → ∀ t, (s.pc t).Inside → s.wiped t = true
  idle : (∀ t, ¬ (s.pc t).Inside) → Tracks l s.entry s.turns s.oks
  busy : ∀ t, (s.pc t).Inside → Settled l s.entry s.turns s.oks (s.pc t)

omit [DecidableEq Tid] in
theorem Inv.exclusive {s : State Tid} (h : Inv l s) : Exclusive l s where
  one := h.one
  total := fun hidle => (h.idle hidle).total

variable {s s' : State Tid} {t : Tid} {p : Pc}

/-- The thread inside goes from one access to the next. -/
theorem Inv.move (h : Inv l s) (ht : (s.pc t).Inside) (hp : p.Inside)
    (hpc : s'.pc = Function.update s.pc t p) (hwiped : ∀ u, u ≠ t → s'.wiped u = s.wiped u)
    (hflag : s'.locked = false → s'.wiped t = true)
    (hset : Settled l s'.entry s'.turns s'.oks p) : Inv l s' := by
  have hself : s'.pc t = p := by rw [hpc, Function.update_self]
  have hother : ∀ u, (s'.pc u).Inside → u = t := by
    intro u hu
    by_contra hne
    rw [hpc, Function.update_of_ne hne] at hu
    exact hne (h.one u t hu ht)
  constructor
  case one => exact fun u v hu hv => (hother u hu).trans (hother v hv).symm
  case wiped =>
    intro u hu
    by_cases hut : u = t
    · rw [hut, hself]
      exact hp
    · rw [hwiped u hut] at hu
      exact absurd (h.one u t (h.wiped u hu) ht) hut
  case flag =>
    intro hl u hu
    rw [hother u hu]
    exact hflag hl
  case idle => exact fun hidle => absurd (hself ▸ hp) (hidle t)
  case busy =>
    intro u hu
    rw [hother u hu, hself]
    exact hset

/-- A thread that is not inside goes somewhere else outside. -/
theorem Inv.outside (h : Inv l s) (ht : ¬ (s.pc t).Inside) (hp : ¬ p.Inside) :
    Inv l (s.goto t p) := by
  have hpc : ∀ u, ((s.goto t p).pc u).Inside → u ≠ t ∧ (s.goto t p).pc u = s.pc u := by
    intro u hu
    have hne : u ≠ t := by
      rintro rfl
      rw [goto_self] at hu
      exact hp hu
    exact ⟨hne, goto_of_ne hne p⟩
  have hback : ∀ u, (s.pc u).Inside → ((s.goto t p).pc u).Inside := by
    intro u hu
    have hne : u ≠ t := by
      rintro rfl
      exact ht hu
    rw [goto_of_ne hne]
    exact hu
  constructor
  case one =>
    intro u v hu hv
    exact h.one u v ((hpc u hu).2 ▸ hu) ((hpc v hv).2 ▸ hv)
  case wiped => exact fun u hu => hback u (h.wiped u hu)
  case flag => exact fun hl u hu => h.flag hl u ((hpc u hu).2 ▸ hu)
  case idle => exact fun hidle => h.idle fun u hu => hidle u (hback u hu)
  case busy =>
    intro u hu
    have hsame := (hpc u hu).2
    rw [hsame] at hu ⊢
    exact h.busy u hu

/-- A thread acquires the flag, while nobody is inside. -/
theorem Inv.acquire (h : Inv l s) (hidle : ∀ u, ¬ (s.pc u).Inside) {sec : ℕ} :
    Inv l ({ s with locked := true }.goto t (.anyTotal sec)) := by
  have hother : ∀ u, (({ s with locked := true }.goto t (.anyTotal sec)).pc u).Inside → u = t := by
    intro u hu
    by_contra hne
    rw [goto_of_ne hne] at hu
    exact hidle u hu
  constructor
  case one => exact fun u v hu hv => (hother u hu).trans (hother v hv).symm
  case wiped => exact fun u hu => absurd (h.wiped u hu) (hidle u)
  case flag => exact fun hl => (Bool.false_ne_true hl.symm).elim
  case idle =>
    intro hout
    refine absurd ?_ (hout t)
    rw [goto_self]
    trivial
  case busy =>
    intro u hu
    rw [hother u hu, goto_self]
    exact h.idle hidle

/-- The thread inside releases the flag. -/
theorem Inv.release (h : Inv l s) (ht : (s.pc t).Inside) {oks : List ℕ}
    (htracks : Tracks l s.entry s.turns oks) :
    Inv l (({ s with locked := false, oks := oks }.wipe t false).goto t .idle) := by
  set s₁ := { s with locked := false, oks := oks }.wipe t false with hs₁
  have hnone : ∀ u, ¬ ((s₁.goto t .idle).pc u).Inside := by
    intro u hu
    by_cases hut : u = t
    · rw [hut, goto_self] at hu
      exact hu
    · rw [goto_of_ne hut] at hu
      exact hut (h.one u t hu ht)
  constructor
  case one => exact fun u v hu _ => absurd hu (hnone u)
  case wiped =>
    intro u hu
    change s₁.wiped u = true at hu
    by_cases hut : u = t
    · rw [hut, hs₁, wipe_self] at hu
      cases hu
    · rw [hs₁, wipe_of_ne hut] at hu
      exact absurd (h.one u t (h.wiped u hu) ht) hut
  case flag => exact fun _ u hu => absurd hu (hnone u)
  case idle => exact fun _ => htracks
  case busy => exact fun u hu => absurd hu (hnone u)

/-- The flag is acquired while it is clear; where nobody else cleared it, nobody is inside. -/
theorem Inv.lock (h : Inv l s) (hok : Action.Apart s (.run t)) {sec : ℕ}
    (hpc : s.pc t = .lock sec) :
    Inv l (if s.locked then s else { s with locked := true }.goto t (.anyTotal sec)) := by
  split_ifs with hlocked
  · exact h
  · have hfree : s.locked = false := by simpa using hlocked
    refine h.acquire fun u hu => ?_
    have hwiped := hok sec hpc hfree u
    rw [h.flag hfree u hu] at hwiped
    cases hwiped

/-- The reset clears the flag, the entry and the account of the counted calls. -/
theorem Inv.memset (hl : l.Ok) (h : Inv l s) (ht : (s.pc t).Inside) {sec : ℕ} :
    Inv l (({ s with locked := false, entry := .zero, oks := [] }.wipe t true).goto t
      (.stamp sec)) := by
  refine h.move (p := .stamp sec) ht trivial rfl (fun u hu => ?_) (fun _ => ?_) ?_
  · exact wipe_of_ne hu true
  · exact wipe_self _ t true
  · exact tracks_zero hl (by decide) s.turns

theorem Inv.run (hl : l.Ok) (h : Inv l s) (hok : Action.Apart s (.run t))
    (hs : runThread l s t = some s') : Inv l s' := by
  -- an access that leaves the flag alone
  have hmove : ∀ {e : Entry} {turns : ℕ} {p : Pc}, (s.pc t).Inside → p.Inside →
      Settled l e turns s.oks p → Inv l ({ s with entry := e, turns := turns }.goto t p) :=
    fun ht hp hset => h.move ht hp rfl (fun _ _ => rfl) (fun hl => h.flag hl t ht) hset
  have hset := h.busy t
  unfold runThread at hs
  cases hpc : s.pc t <;> rw [hpc] at hs hset hmove
  case idle => cases hs
  all_goals obtain rfl := Option.some.inj hs
  case lock sec => exact h.lock hok hpc
  case anyTotal sec =>
    split_ifs with htotal
    · exact hmove trivial trivial (hset trivial)
    · exact hmove trivial trivial (hset trivial)
  case age sec =>
    split_ifs with hage
    · exact hmove trivial trivial (hset trivial)
    · exact hmove trivial trivial (hset trivial)
  case memset sec => exact h.memset hl (by rw [hpc]; trivial)
  case stamp sec => exact hmove trivial trivial (Tracks.stamp (hset trivial) (now_lt l sec))
  case loop sec =>
    split_ifs with hlast
    · exact hmove trivial trivial (Tracks.turn hl (hset trivial))
    · exact hmove trivial trivial (hset trivial)
  case storePos sec pos =>
    have hnext := hset trivial
    split_ifs with hend
    · rw [Settled, if_pos hend] at hnext
      exact hmove trivial trivial hnext
    · rw [Settled, if_neg hend] at hnext
      exact hmove trivial trivial hnext
  case room =>
    split_ifs with hroom
    · exact hmove trivial trivial (Tracks.count hl (hset trivial) hroom)
    · exact hmove trivial trivial (hset trivial)
  case unlock ok =>
    have ht : (s.pc t).Inside := by rw [hpc]; trivial
    cases ok with
    | true => exact h.release ht (hset trivial)
    | false => exact h.release ht (hset trivial)
  -- every other access leaves what the thread is about to finish as it is
  all_goals exact hmove trivial trivial (hset trivial)

theorem Inv.step (hl : l.Ok) (h : Inv l s) {a : Action Tid} (hok : a.Apart s)
    (hs : (machine Tid l).step s a = some s') : Inv l s' := by
  cases a with
  | call t sec =>
    simp only [machine, EntryLock.step] at hs
    split_ifs at hs with hidle
    obtain rfl := Option.some.inj hs
    exact h.outside (by rw [hidle]; exact id) id
  | run t => exact h.run hl hok hs

theorem inv_of_run (hl : l.Ok) (h : (machine Tid l).Run Action.Apart s) : Inv l s := by
  apply h.invariant
  · rintro s ⟨sec, rfl⟩
    constructor
    case one => exact fun t u ht _ => ht.elim
    case wiped => exact fun t ht => (Bool.false_ne_true ht).elim
    case flag => exact fun _ t ht => ht.elim
    case idle => exact fun _ => tracks_zero hl (now_lt l sec) 0
    case busy => exact fun t ht => ht.elim
  · intro s a s' hi hok hs
    exact hi.step hl hok hs

/-- As long as no thread acquires the flag that another one cleared by its reset, one thread at a
time is inside, and `total` is the number of the calls counted since the last reset that the window
still covers. -/
theorem exclusive_of_run {opts : List Limit} (hconf : Configured opts) (hl : l ∈ opts)
    (h : (machine Tid l).Run Action.Apart s) : Exclusive l s :=
  (inv_of_run (hconf.ok l hl) h).exclusive

/-- And the first thread to do so is inside together with the one that reset the entry. -/
theorem Inv.not_exclusive (h : Inv l s) (hok : ¬ Action.Apart s (.run t))
    (hs : runThread l s t = some s') : ¬ Exclusive l s' := by
  intro hex
  simp only [Action.Apart, not_forall, Bool.not_eq_false] at hok
  obtain ⟨sec, hpc, hfree, u, hwiped⟩ := hok
  rw [runThread, hpc] at hs
  obtain rfl := Option.some.inj hs
  have hu := h.wiped u hwiped
  have hne : u ≠ t := by
    rintro rfl
    rw [hpc] at hu
    exact hu
  rw [hfree] at hex
  refine hne (hex.one u t ?_ ?_)
  · exact (goto_of_ne hne _).symm ▸ hu
  · exact (goto_self _ t _).symm ▸ trivial

/-! ## Fixed runs -/

/-- Ten actions in two seconds. -/
def tenInTwo : List Limit := [⟨2, 10, 1, 2⟩]

theorem configured_tenInTwo : Configured tenInTwo :=
  .add .nil (show addLimit [] 2 10 = some tenInTwo from rfl)

/-- A test for `Action.Apart`. -/
def apart (s : State Bool) : Action Bool → Bool
  | .run _ => s.locked || (!s.wiped true && !s.wiped false)
  | .call _ _ => true

theorem apart_sound {s : State Bool} {a : Action Bool} (h : apart s a = true) : a.Apart s := by
  cases a with
  | call t sec => trivial
  | run t =>
    intro sec _ hfree u
    simp only [apart, hfree, Bool.false_or, Bool.and_eq_true, Bool.not_eq_true'] at h
    cases u with
    | false => exact h.2
    | true => exact h.1

theorem init_fresh (l : Limit) : (machine Bool l).init
    ⟨false, { Entry.zero with last := l.now 0 }, fun _ => .idle, 0, [], fun _ => false⟩ :=
  ⟨0, rfl⟩

/-- Two threads, of which the second spins until the first is done. -/
theorem exclusive_of_run_two : ∃ s : State Bool, Exclusive ⟨2, 10, 1, 2⟩ s ∧ s.entry.total = 2 ∧
    ∀ t, s.pc t = .idle := by
  have hrun : ((machine Bool ⟨2, 10, 1, 2⟩).execOk apart
      ([.call true 0, .run true, .call false 0, .run false] ++ .replicate 9 (.run true) ++
        .replicate 11 (.run false))
      ⟨false, { Entry.zero with last := 0 }, fun _ => .idle, 0, [], fun _ => false⟩).any
      (fun s => decide (s.entry.total = 2 ∧ ∀ t, s.pc t = .idle)) = true := by decide +kernel
  obtain ⟨s, hs, hp⟩ := Machine.exists_run (init_fresh _) (fun _ _ => apart_sound) hrun
  exact ⟨s, exclusive_of_run configured_tenInTwo List.mem_cons_self hs, of_decide_eq_true hp⟩

/-- One thread that is let through in three slots, the first of which the window of two has left in
the end; and two threads of which the second comes in when the first resets the entry. -/
theorem exclusive_lost :
    ¬ (∀ s, (machine Bool ⟨2, 10, 1, 2⟩).Reachable s → (∀ t, ¬ (s.pc t).Inside) →
      s.entry.total = s.oks.length) ∧
    ¬ (∀ s, (machine Bool ⟨2, 10, 1, 2⟩).Reachable s → ∀ t u,
      (s.pc t).Inside → (s.pc u).Inside → t = u) := by
  constructor
  · intro hall
    have hrun : ((machine Bool ⟨2, 10, 1, 2⟩).exec
        (.call true 0 :: .replicate 10 (.run true) ++ .call true 1 :: .replicate 22 (.run true) ++
          .call true 2 :: .replicate 23 (.run true))
        ⟨false, { Entry.zero with last := 0 }, fun _ => .idle, 0, [], fun _ => false⟩).any
        (fun s => decide ((∀ t, s.pc t = .idle) ∧ s.entry.total ≠ s.oks.length)) = true := by
      decide +kernel
    obtain ⟨s, hs, hp⟩ := Machine.exists_reachable (init_fresh _) hrun
    obtain ⟨hidle, hne⟩ := of_decide_eq_true hp
    exact hne (hall s hs fun t ht => by rw [hidle t] at ht; exact ht)
  · intro hall
    have hrun : ((machine Bool ⟨2, 10, 1, 2⟩).exec
        (.call true 0 :: .replicate 10 (.run true) ++ [.call true 2, .run true, .call false 2,
          .run false, .run true, .run true, .run true, .run false])
        ⟨false, { Entry.zero with last := 0 }, fun _ => .idle, 0, [], fun _ => false⟩).any
        (fun s => decide (s.pc true = .stamp 2 ∧ s.pc false = .anyTotal 2)) = true := by
      decide +kernel
    obtain ⟨s, hs, hp⟩ := Machine.exists_reachable (init_fresh _) hrun
    obtain ⟨ht, hf⟩ := of_decide_eq_true hp
    have hsame := hall s hs true false (by rw [ht]; trivial) (by rw [hf]; trivial)
    cases hsame

end PoserCore.RateLimits.EntryLock
