import Mathlib.Tactic.FinCases
import PoserCore.SharedObj.Reclaim

/-!
# A pass of `SOM_reserve` that takes `2^32` epochs

The bound on the lives of objects does not bound the time between the two loads of the epoch in
`SOM_reserve`.  A reader that sleeps there while the 32-bit counter goes round once finds the epoch
it started with, and returns the object it read, which was destroyed long ago although no object
lived longer than two epochs.
-/

namespace PoserCore.SharedObj

open Lib

/-- Every creation advances the epoch, and every retirement sweeps. -/
def eager : Params := ⟨1, 1⟩

/-- Thread 0, registered and in `x`, has not returned from a `SOM_reserve`; thread 1 is in `y`. -/
def pair (x y : Op Unit) (l : Local) (m : Mem) (st : Obj → Status (Fin 2)) (p : Option Obj) :
    State (Fin 2) Unit where
  mem := m
  refs := fun _ => p
  loc := fun t => if t = 0 then .zero else l
  op := fun t => if t = 0 then x else y
  registered := fun t => decide (t = 0)
  status := st
  held := fun _ => none

/-- The runs of the two threads in which objects live short. -/
abbrev Short : State (Fin 2) Unit → Prop :=
  (machine (Fin 2) Unit eager).Run fun s _ => ShortLives s

theorem Short.then {s s' : State (Fin 2) Unit} {a : Action (Fin 2) Unit} (h : Short s)
    (hok : ShortLives s) (hs : step eager s a = some s') : Short s' :=
  .step h hok hs

section Steps

variable {x y : Op Unit} {l l' : Local} {m m' : Mem} {st : Obj → Status (Fin 2)} {p : Option Obj}

theorem update_second {α : Type} (a b c : α) :
    Function.update (fun t : Fin 2 => if t = 0 then a else b) 1 c =
      fun t => if t = 0 then a else c := by
  funext t
  fin_cases t <;> rfl

theorem update_first {α : Type} (a b c : α) :
    Function.update (fun t : Fin 2 => if t = 0 then a else b) 0 c =
      fun t => if t = 0 then c else b := by
  funext t
  fin_cases t <;> rfl

theorem step_create : step eager (pair x .idle l m st p) (.create 1) =
    some (pair x (.create .count) l m st p) := by
  simp [step, pair, State.goto, update_second]

theorem step_run_create {pc pc' : CreatePc} (h : pc.step eager m l = (m', l', .inl pc')) :
    step eager (pair x (.create pc) l m st p) (.run 1) = some (pair x (.create pc') l' m' st p) := by
  simp [step, runThread, pair, State.goto, update_second, h]

theorem step_run_created {pc : CreatePc} {o : Obj} (h : pc.step eager m l = (m', l', .inr o)) :
    step eager (pair x (.create pc) l m st p) (.run 1) =
      some (pair x .idle l' m' (Function.update st o .live) p) := by
  simp [step, runThread, pair, State.goto, update_second, h]

theorem step_retire {so : Obj} (hst : st so = .live) (hp : p ≠ some so) :
    step eager (pair x .idle l m st p) (.retire 1 so) =
      some (pair x (.retire (.loadEpoch so)) l m (Function.update st so (.retiring 1)) p) := by
  simp [step, pair, State.goto, update_second, hst, hp]

theorem step_run_retire {pc : RetirePc} {r : Option RetirePc} (hpc : ∀ so, pc ≠ .storeNext so)
    (h : pc.step eager m l = (m', l', r)) :
    step eager (pair x (.retire pc) l m st p) (.run 1) =
      some (pair x (afterRetire r) l' m' st p) := by
  have hop : (pair x (.retire pc) l m st p).op 1 = .retire pc := rfl
  rw [step, runThread_retire hop hpc]
  simp [pair, State.goto, update_second, h]

theorem step_run_push {so : Obj} : step eager (pair x (.retire (.storeNext so)) l m st p) (.run 1) =
    some (pair x (.retire .count) { l with retired := some so }
      { m with next := Function.update m.next so l.retired } (Function.update st so (.listed 1)) p) := by
  simp [step, runThread, pair, State.goto, update_second, RetirePc.step]

theorem step_write {q : Option Obj} (hq : ∀ o ∈ q, st o = .live) :
    step eager (pair x y l m st p) (.write () q) = some (pair x y l m st q) := by
  have hrefs : Function.update (fun _ : Unit => p) () q = fun _ => q := by
    funext r
    rfl
  rw [step]
  refine (if_pos hq).trans ?_
  simp only [pair, hrefs]

theorem step_reserve (hx : x = .idle) : step eager (pair x y l m st p) (.reserve 0 ()) =
    some (pair (.reserve () .loadEpoch) y l m st p) := by
  simp [step, pair, State.goto, update_first, hx]

theorem step_run_reserve {pc pc' : ReservePc (Option Obj)}
    (h : pc.step m .zero p = (m', .inl pc')) :
    step eager (pair (.reserve () pc) y l m st p) (.run 0) =
      some (pair (.reserve () pc') y l m' st p) := by
  simp [step, runThread, pair, State.goto, update_first, h]

end Steps

/-! ## One object after the other -/

/-- The memory after `k` objects were created and destroyed, with the reservations `r`. -/
def memAfter (r : ℕ → ℕ) (k : ℕ) : Mem where
  epoch := k + 1
  nthr := 1
  res := r
  next := fun _ => none
  created := fun o => if o < k then o + 1 else 0
  retired := fun o => if o < k then o + 2 else 0
  fresh := k
  born := fun o => if o < k then o + 1 else 0
  freed := fun o => if o < k then true else false

def statusAfter (k : ℕ) (o : Obj) : Status (Fin 2) := if o < k then .listed 1 else .raw

/-- The memory with one more object, which is live. -/
def memLive (r : ℕ → ℕ) (k : ℕ) : Mem :=
  { memAfter r (k + 1) with
    retired := Function.update (memAfter r k).retired k (wordPred (k + 1))
    freed := (memAfter r k).freed }

/-- The memory with one more object, which is retired and not destroyed. -/
def memRetired (r : ℕ → ℕ) (k : ℕ) : Mem :=
  { memAfter r (k + 1) with freed := (memAfter r k).freed }

theorem update_if {α : Type} {k : ℕ} {f : ℕ → α} {d v : α} (hv : v = f k) :
    Function.update (fun o => if o < k then f o else d) k v =
      fun o => if o < k + 1 then f o else d := by
  funext o
  rcases lt_trichotomy o k with ho | rfl | ho
  · simp [ho, ho.ne, Nat.lt_succ_of_lt ho]
  · simp [hv]
  · simp [ho.ne', not_lt.2 ho.le, not_lt.2 (Nat.succ_le_of_lt ho)]

theorem update_none (k : Obj) :
    Function.update (fun _ : Obj => (none : Option Obj)) k none = fun _ => none :=
  Function.update_eq_self ..

theorem shortLives_of_freed {x y : Op Unit} {l : Local} {m : Mem} {st : Obj → Status (Fin 2)}
    {p : Option Obj} {k : ℕ} (hfresh : m.fresh = k) (hfreed : ∀ o < k, m.freed o = true) :
    ShortLives (pair x y l m st p) := by
  intro o ho hf
  rw [show (pair x y l m st p).mem.freed o = true from hfreed o (hfresh ▸ ho)] at hf
  cases hf

theorem shortLives_of_one {x y : Op Unit} {l : Local} {m : Mem} {st : Obj → Status (Fin 2)}
    {p : Option Obj} {k : ℕ} (hfresh : m.fresh = k + 1) (hfreed : ∀ o < k, m.freed o = true)
    (hborn : m.born k = k + 1) (hepoch : m.epoch = k + 2) : ShortLives (pair x y l m st p) := by
  intro o ho hf
  have hlt : o < k + 1 := hfresh ▸ ho
  have hge : ¬ o < k := by
    intro hk
    rw [show (pair x y l m st p).mem.freed o = true from hfreed o hk] at hf
    cases hf
  obtain rfl : o = k := Nat.le_antisymm (Nat.lt_succ_iff.1 hlt) (Nat.not_lt.1 hge)
  change m.epoch < m.born o + 2 ^ 32
  omega

section Cycle

variable {x : Op Unit} {r : ℕ → ℕ} {p : Option Obj} {k : ℕ}

theorem memAfter_freed : ∀ o < k, (memAfter r k).freed o = true := fun o ho => by
  simp [memAfter, ho]

theorem shortLives_live {y : Op Unit} {l : Local} {st : Obj → Status (Fin 2)} :
    ShortLives (pair x y l (memLive r k) st p) :=
  shortLives_of_one rfl (fun o ho => memAfter_freed (r := r) o ho) (by simp [memLive, memAfter]) rfl

/-- Thread 1 creates an object. -/
theorem Short.create (h : Short (pair x .idle .zero (memAfter r k) (statusAfter k) p)) :
    Short (pair x .idle .zero (memLive r k) (Function.update (statusAfter k) k .live) p) := by
  have hfree : ∀ o < k, (memAfter r k).freed o = true := memAfter_freed
  have hborn : Function.update (memAfter r k).born k (k + 1) k = k + 1 := Function.update_self ..
  have h₁ := h.then (shortLives_of_freed rfl hfree) step_create
  have h₂ := h₁.then (shortLives_of_freed rfl hfree) (step_run_create rfl)
  have h₃ := h₂.then (shortLives_of_freed rfl hfree) (step_run_create rfl)
  have h₄ := h₃.then (shortLives_of_one rfl hfree hborn rfl) (step_run_create rfl)
  have h₅ := h₄.then (shortLives_of_one rfl hfree hborn rfl) (step_run_create rfl)
  have h₆ := h₅.then (shortLives_of_one rfl hfree hborn rfl) (step_run_created rfl)
  have hcreated : Function.update (memAfter r k).created k (k + 1) = (memAfter r (k + 1)).created :=
    update_if rfl
  have hborn' : Function.update (memAfter r k).born k (k + 1) = (memAfter r (k + 1)).born :=
    update_if rfl
  have hnext : Function.update (memAfter r k).next k none = (memAfter r (k + 1)).next :=
    update_none k
  simp only [Mem.malloc, memLive, ← hcreated, ← hborn', ← hnext] at h₆ ⊢
  exact h₆

/-- Thread 1 retires the object, and its sweep destroys it. -/
theorem Short.retire (hr : conflicts (word (k + 1)) (word (k + 2)) (word (r 0)) = false)
    (h : Short (pair x .idle .zero (memLive r k) (Function.update (statusAfter k) k .live) none)) :
    Short (pair x .idle .zero (memAfter r (k + 1)) (statusAfter (k + 1)) none) := by
  have hfree : ∀ o < k, (memAfter r k).freed o = true := memAfter_freed
  have hborn : (memAfter r (k + 1)).born k = k + 1 := by simp [memAfter]
  have h₁ := h.then shortLives_live
    (step_retire (Function.update_self ..) (fun hn => by cases hn))
  have h₂ := h₁.then (shortLives_of_one rfl hfree hborn rfl) (step_run_retire (fun _ hn => by cases hn) rfl)
  have h₃ := h₂.then (shortLives_of_one rfl hfree hborn rfl) (step_run_retire (fun _ hn => by cases hn) rfl)
  have h₄ := h₃.then (shortLives_of_one rfl hfree hborn rfl) step_run_push
  -- from here on the memory differs from the one after the sweep only in what is destroyed
  have hretired : Function.update (memLive r k).retired k (k + 2) =
      (memAfter r (k + 1)).retired := by
    simp only [memLive, Function.update_idem]
    exact update_if rfl
  have hstatus : Function.update (Function.update (Function.update (statusAfter k) k .live) k
      (.retiring 1)) k (.listed 1) = statusAfter (k + 1) := by
    simp only [Function.update_idem]
    exact update_if (f := fun _ => Status.listed 1) rfl
  have h₅ : Short (pair x (.retire .count) ⟨0, 0, 0, some k⟩ (memRetired r k) (statusAfter (k + 1))
      none) := by
    convert h₄ using 2
    · rfl
    · exact Mem.ext rfl rfl rfl (update_none k).symm rfl hretired.symm rfl rfl rfl
    · exact hstatus.symm
  have h₆ := h₅.then (shortLives_of_one rfl hfree hborn rfl) (step_run_retire (fun _ hn => by cases hn) rfl)
  have h₇ := h₆.then (shortLives_of_one rfl hfree hborn rfl) (step_run_retire (fun _ hn => by cases hn) rfl)
  have h₈ := h₇.then (shortLives_of_one rfl hfree hborn rfl) (step_run_retire (fun _ hn => by cases hn) rfl)
  have h₉ := h₈.then (shortLives_of_one rfl hfree hborn rfl) (step_run_retire (fun _ hn => by cases hn) rfl)
  have h₁₀ := h₉.then (shortLives_of_one rfl hfree hborn rfl) (step_run_retire (fun _ hn => by cases hn) rfl)
  have hcreated : (memRetired r k).created k = k + 1 := by simp [memRetired, memAfter]
  have hretd : (memRetired r k).retired k = k + 2 := by simp [memRetired, memAfter]
  have hconf : RetirePc.step eager (memRetired r k) ⟨0, 0, 0, some k⟩
      (.loadRes 1 none k none ((memRetired r k).created k) ((memRetired r k).retired k) 0) =
        (memRetired r k, ⟨0, 0, 0, some k⟩, some (.drop 1 none k none)) := by
    rw [RetirePc.step, hcreated, hretd, if_neg (by rw [show (memRetired r k).res = r from rfl, hr]; rintro ⟨⟩)]
    rfl
  have h₁₁ := h₁₀.then (shortLives_of_one rfl hfree hborn rfl) (step_run_retire (fun _ hn => by cases hn) hconf)
  have h₁₂ := h₁₁.then (shortLives_of_one rfl hfree hborn rfl) (step_run_retire (fun _ hn => by cases hn) rfl)
  have hfreed : Function.update (memAfter r k).freed k true = (memAfter r (k + 1)).freed :=
    update_if (f := fun _ => true) rfl
  convert h₁₂ using 2
  · rfl
  · rfl
  · exact Mem.ext rfl rfl rfl rfl rfl rfl rfl rfl hfreed.symm

end Cycle

/-! ## The run -/

/-- Nobody has registered, no object exists, and the epoch is 1. -/
def start : State (Fin 2) Unit :=
  { pair .idle .idle .zero { memAfter (fun _ => 0) 0 with nthr := 0 } (statusAfter 0) none with
    registered := fun _ => false }

theorem start_init : Init start := by
  constructor
  all_goals first | rfl | (intro x; first | rfl | simp [start, pair, memAfter])

theorem short_registered :
    Short (pair .idle .idle .zero (memAfter (fun _ => 0) 0) (statusAfter 0) none) := by
  have hreg : step eager start (.register 0) =
      some (pair .idle .idle .zero (memAfter (fun _ => 0) 0) (statusAfter 0) none) := by
    have hmem : { start.mem with nthr := start.mem.nthr + 1 } = memAfter (fun _ => 0) 0 := rfl
    have hloc : Function.update start.loc 0 { start.loc 0 with tid := start.mem.nthr } =
        (pair .idle .idle .zero (memAfter (fun _ => 0) 0) (statusAfter 0) none).loc := by
      funext t
      fin_cases t <;> rfl
    have hregd : Function.update start.registered 0 true =
        (pair .idle .idle .zero (memAfter (fun _ => 0) 0) (statusAfter 0) none).registered := by
      funext t
      fin_cases t <;> rfl
    simp only [step, registerThread, hmem, hloc, hregd]
    rfl
  exact Short.then (.init start_init) (fun o ho => absurd ho (Nat.not_lt_zero o)) hreg

/-- The reservation of the reader. -/
def stale : ℕ → ℕ := Function.update (fun _ => 0) 0 1

/-- The reader has read object 1 in a pass that started in epoch 1, and sleeps. -/
abbrev asleep : Op Unit := .reserve () (.check 1 (some 1))

theorem short_asleep : Short (pair asleep .idle .zero (memAfter stale 2) (statusAfter 2) none) := by
  have h₁ := short_registered.then (shortLives_of_freed rfl memAfter_freed) (step_reserve rfl)
  have h₂ := h₁.then (shortLives_of_freed rfl memAfter_freed) (step_run_reserve rfl)
  have h₃ := h₂.create.retire (by decide)
  have h₄ : Short (pair (.reserve () (.read 1)) .idle .zero (memAfter stale 1) (statusAfter 1) none) :=
    h₃.then (shortLives_of_freed rfl memAfter_freed) (step_run_reserve rfl)
  have h₅ := h₄.create
  have hlive : ∀ o ∈ some 1, Function.update (statusAfter 1) 1 .live o = .live := by
    rintro _ ⟨⟩
    rfl
  have h₆ := h₅.then shortLives_live (step_write hlive)
  have h₇ := h₆.then shortLives_live (step_run_reserve rfl)
  have h₈ := h₇.then shortLives_live (step_write (by simp : ∀ o ∈ none, _))
  exact h₈.retire (by decide)

/-- Thread 1 goes on creating and destroying objects. -/
theorem short_asleep_add (n : ℕ) (hn : n + 3 ≤ 2 ^ 32) :
    Short (pair asleep .idle .zero (memAfter stale (n + 2)) (statusAfter (n + 2)) none) := by
  induction n with
  | zero => exact short_asleep
  | succ n ih =>
    refine (ih (by omega)).create.retire ?_
    have hres : stale 0 = 1 := rfl
    rw [hres]
    unfold conflicts word
    split_ifs <;> simp only [Bool.or_eq_false_iff, Bool.and_eq_false_iff, decide_eq_false_iff_not] <;>
      omega

/-- The epoch is back at its word of the start of the pass, and the reader wakes up. -/
theorem Short.wake {k : ℕ} {st : Obj → Status (Fin 2)} (hk : word (k + 2) = word 1) (hlt : 1 < k)
    (h : Short (pair asleep .idle .zero (memLive stale k) st none)) :
    ∃ s, Short s ∧ s.held 0 = some (1, some 1) ∧ s.mem.freed 1 = true := by
  have hepoch : (memLive stale k).epoch = k + 2 := rfl
  have hstep : step eager (pair asleep .idle .zero (memLive stale k) st none) (.run 0) =
      some ({ pair asleep .idle .zero (memLive stale k) st none with
        held := Function.update (fun _ => none) 0 (some (1, some 1)) }.goto 0 .idle) := by
    simp [step, runThread, pair, State.goto, ReservePc.step, hepoch, hk]
  refine ⟨_, h.then shortLives_live hstep, rfl, ?_⟩
  exact memAfter_freed (r := stale) 1 hlt

/-- Short lives alone do not keep held objects from being destroyed. -/
theorem reclaim_unsafe : ¬ ∀ (P : Params) (s : State (Fin 2) Unit),
    (machine (Fin 2) Unit P).Run (fun s _ => ShortLives s) s → Safe s := by
  intro hall
  have h := (short_asleep_add (2 ^ 32 - 3) (by decide)).create
  obtain ⟨s, hs, hheld, hfreed⟩ := h.wake (by decide) (by decide)
  have hsafe := hall eager s hs 0 1 1 hheld
  rw [hfreed] at hsafe
  cases hsafe

end PoserCore.SharedObj
