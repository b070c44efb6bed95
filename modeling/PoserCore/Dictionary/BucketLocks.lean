import Mathlib.Data.Fin.Basic
import Mathlib.Data.Fintype.Card
import Mathlib.Logic.Function.Basic
import PoserCore.Dictionary.Model
import PoserCore.Lib.Census
import PoserCore.Lib.Machine

/-!
# The locks of a shared dictionary

Each bucket of a shared dictionary has a counter `reserved`: readers raise it, a writer takes it from
0 to -1.  Every access to a counter is one step of a thread; what a thread does inside a bucket is no
step here.  A call from a deleter or a matcher counts as one of another thread.

The counters are integers here.  They never exceed the number of threads (`reserved_le`), so an `int`
holds them.
-/

namespace PoserCore.Dictionary.BucketLocks

open Lib

variable {T : Type}

/-- Where a thread is. -/
inductive Pc
  | idle
  /-- `PSC_Dictionary_get` loads `reserved`. -/
  | getLoad (b : Fin 256)
  /-- It exchanges the `res` that it loaded for the next number. -/
  | getCas (b : Fin 256) (res : ℕ)
  | get (b : Fin 256)
  /-- `PSC_Dictionary_set` exchanges 0 for -1. -/
  | setCas (b : Fin 256)
  | set (b : Fin 256)
  /-- `PSC_Dictionary_removeAll` exchanges 0 for -1. -/
  | removeCas (b : Fin 256)
  | removeAll (b : Fin 256)
  deriving DecidableEq

structure State (T : Type) where
  reserved : Fin 256 → ℤ
  pc : T → Pc

inductive Call
  | get (b : Fin 256)
  | set (b : Fin 256)
  /-- `count` is what the call loads first. -/
  | removeAll (count : ℕ)

inductive Action (T : Type)
  | call (t : T) (c : Call)
  /-- The next access of the thread; a weak exchange may fail for no reason. -/
  | run (t : T) (spurious : Bool)

def Call.start : Call → Pc
  | .get b => .getLoad b
  | .set b => .setCas b
  | .removeAll count => if count = 0 then .idle else .removeCas 0

variable [DecidableEq T]

def State.goto (s : State T) (t : T) (p : Pc) : State T :=
  { s with pc := Function.update s.pc t p }

def State.store (s : State T) (b : Fin 256) (r : ℤ) : State T :=
  { s with reserved := Function.update s.reserved b r }

/-- The loop of `PSC_Dictionary_get` goes on with the value `res`. -/
def State.expect (s : State T) (t : T) (b : Fin 256) (res : ℤ) : State T :=
  if 0 ≤ res then s.goto t (.getCas b res.toNat) else s.goto t (.getLoad b)

/-- The weak exchange of 0 for -1; a writer that fails tries it again. -/
def State.reserve (s : State T) (t : T) (b : Fin 256) (spurious : Bool) (p : Pc) : State T :=
  if s.reserved b = 0 ∧ !spurious then (s.store b (-1)).goto t p else s

def runThread (s : State T) (t : T) (spurious : Bool) : Option (State T) :=
  match s.pc t with
  | .idle => none
  | .getLoad b => some (s.expect t b (s.reserved b))
  | .getCas b res =>
      if s.reserved b = res then some ((s.store b (res + 1)).goto t (.get b))
      else some (s.expect t b (s.reserved b))
  | .get b => some ((s.store b (s.reserved b - 1)).goto t .idle)
  | .setCas b => some (s.reserve t b spurious (.set b))
  | .set b => some ((s.store b 0).goto t .idle)
  | .removeCas b => some (s.reserve t b spurious (.removeAll b))
  | .removeAll b =>
      let s := s.store b 0
      if h : b.val + 1 < 256 then some (s.goto t (.removeCas ⟨b.val + 1, h⟩))
      else some (s.goto t .idle)

def step (s : State T) : Action T → Option (State T)
  | .call t c => if s.pc t = .idle then some (s.goto t c.start) else none
  | .run t spurious => runThread s t spurious

variable (T) in
def machine : Machine (State T) (Action T) where
  init s := s = ⟨fun _ => 0, fun _ => .idle⟩
  step := step

/-! ## Who is inside -/

/-- Inside `get` -/
def Pc.Reads (b : Fin 256) (p : Pc) : Prop := p = .get b

/-- Inside `set` or `removeAll` -/
def Pc.Writes (b : Fin 256) (p : Pc) : Prop := p = .set b ∨ p = .removeAll b

/-- The bucket a thread is inside of. -/
def Pc.at : Pc → Option (Fin 256)
  | .get b => some b
  | .set b => some b
  | .removeAll b => some b
  | _ => none

instance (b : Fin 256) (p : Pc) : Decidable (p.Reads b) := inferInstanceAs (Decidable (_ = _))

instance (b : Fin 256) (p : Pc) : Decidable (p.Writes b) := inferInstanceAs (Decidable (_ ∨ _))

/-- A bucket with the counter `r` is left to its readers, or to one writer. -/
inductive Held (b : Fin 256) (r : ℤ) (pc : T → Pc) : Prop
  | shared (n : ℕ) (hr : r = n) (readers : Census (Pc.Reads b) pc n)
      (writers : ∀ u, ¬ (pc u).Writes b)
  | owned (t : T) (hr : r = -1) (writer : (pc t).Writes b) (only : ∀ u, (pc u).Writes b → u = t)
      (readers : ∀ u, ¬ (pc u).Reads b)

section Held

variable {b : Fin 256} {r : ℤ} {pc : T → Pc} {t : T} {p : Pc}

theorem none_update {A : Pc → Prop} (h : ∀ u, ¬ A (pc u)) (hp : ¬ A p) (u : T) :
    ¬ A (Function.update pc t p u) := by
  by_cases hu : u = t
  · rw [hu, Function.update_self]
    exact hp
  · rw [Function.update_of_ne hu]
    exact h u

theorem at_of_reads (h : p.Reads b) : p.at = some b := by
  rw [h]
  rfl

theorem at_of_writes (h : p.Writes b) : p.at = some b := by
  rcases h with rfl | rfl <;> rfl

/-- A step outside of the bucket. -/
theorem Held.elsewhere (h : Held b r pc) (ht : (pc t).at ≠ some b) (hp : p.at ≠ some b) :
    Held b r (Function.update pc t p) := by
  have hreads : ¬ p.Reads b := fun h => hp (at_of_reads h)
  cases h with
  | shared n hr hreaders hw =>
    exact .shared n hr (hreaders.keep (iff_of_false hreads fun h => ht (at_of_reads h)))
      (none_update hw fun h => hp (at_of_writes h))
  | owned v hr hv honly hn =>
    have hvt : v ≠ t := by
      rintro rfl
      exact ht (at_of_writes hv)
    refine .owned v hr (by rwa [Function.update_of_ne hvt]) (fun u hu => ?_) (none_update hn hreads)
    by_cases hut : u = t
    · rw [hut, Function.update_self] at hu
      exact absurd (at_of_writes hu) hp
    · rw [Function.update_of_ne hut] at hu
      exact honly u hu

/-- A reader comes in. -/
theorem Held.read {n : ℕ} (h : Held b n pc) (ht : ¬ (pc t).Reads b) :
    Held b (n + 1) (Function.update pc t (.get b)) := by
  cases h with
  | shared m hr hreaders hw =>
    obtain rfl : n = m := by exact_mod_cast hr
    exact .shared (n + 1) (by push_cast; rfl) (hreaders.enter ht rfl)
      (none_update hw (by simp [Pc.Writes]))
  | owned v hr => omega

/-- A reader leaves. -/
theorem Held.unread (h : Held b r pc) (ht : (pc t).Reads b) (hp : ¬ p.Reads b)
    (hp' : ¬ p.Writes b) : Held b (r - 1) (Function.update pc t p) := by
  cases h with
  | shared n hr hreaders hw =>
    have hpos := hreaders.pos ht
    exact .shared (n - 1) (by omega) (hreaders.leave ht hp) (none_update hw hp')
  | owned v hr hv honly hn => exact absurd ht (hn t)

/-- A writer comes in. -/
theorem Held.write (h : Held b 0 pc) (hp : ¬ p.Reads b) (hp' : p.Writes b) :
    Held b (-1) (Function.update pc t p) := by
  cases h with
  | shared n hr hreaders hw =>
    obtain rfl : n = 0 := by exact_mod_cast hr.symm
    have hnone (u : T) : ¬ (pc u).Reads b := fun hu => Nat.lt_irrefl 0 (hreaders.pos hu)
    refine .owned t rfl (by rw [Function.update_self]; exact hp') (fun u hu => ?_)
      (none_update hnone hp)
    by_contra hne
    rw [Function.update_of_ne hne] at hu
    exact hw u hu
  | owned v hr => omega

/-- A writer leaves. -/
theorem Held.unwrite (h : Held b r pc) (ht : (pc t).Writes b) (hp : ¬ p.Reads b)
    (hp' : ¬ p.Writes b) : Held b 0 (Function.update pc t p) := by
  cases h with
  | shared n hr hreaders hw => exact absurd ht (hw t)
  | owned v hr hv honly hn =>
    have hreaders : ∀ u, ¬ (Function.update pc t p u).Reads b := none_update hn hp
    refine .shared 0 rfl (.of_forall_not hreaders) fun u hu => ?_
    by_cases hut : u = t
    · rw [hut, Function.update_self] at hu
      exact hp' hu
    · rw [Function.update_of_ne hut] at hu
      exact hut ((honly u hu).trans (honly t ht).symm)

end Held

/-! ## Every bucket -/

/-- Every bucket is left to its readers, or to one writer. -/
def Inv (s : State T) : Prop := ∀ b, Held b (s.reserved b) s.pc

section Steps

variable {s s' : State T} {t : T} {b : Fin 256} {p : Pc}

/-- A step outside of all buckets. -/
theorem Inv.goto (h : Inv s) (ht : (s.pc t).at = none) (hp : p.at = none) : Inv (s.goto t p) :=
  fun b => (h b).elsewhere (by simp [ht]) (by simp [hp])

/-- A step at one bucket does not concern the others. -/
theorem Inv.store (h : Inv s) {r : ℤ} (hb : Held b r (Function.update s.pc t p))
    (ht : ∀ b' ∈ (s.pc t).at, b' = b) (hp : ∀ b' ∈ p.at, b' = b) :
    Inv ((s.store b r).goto t p) := by
  intro b'
  change Held b' (Function.update s.reserved b r b') (Function.update s.pc t p)
  by_cases hb' : b' = b
  · subst hb'
    rw [Function.update_self]
    exact hb
  · rw [Function.update_of_ne hb']
    exact (h b').elsewhere (fun h => hb' (ht b' h)) fun h => hb' (hp b' h)

theorem Inv.expect (h : Inv s) (ht : (s.pc t).at = none) (res : ℤ) : Inv (s.expect t b res) := by
  unfold State.expect
  split_ifs
  · exact h.goto ht rfl
  · exact h.goto ht rfl

theorem Inv.reserve (h : Inv s) (ht : (s.pc t).at = none) (hp : p.Writes b) (spurious : Bool) :
    Inv (s.reserve t b spurious p) := by
  unfold State.reserve
  split_ifs with hfree
  · have hb := h b
    rw [hfree.1] at hb
    have hat := at_of_writes hp
    have hreads : ¬ p.Reads b := by
      rcases hp with rfl | rfl
      · exact Pc.noConfusion
      · exact Pc.noConfusion
    refine h.store (hb.write hreads hp) (by simp [ht]) ?_
    simp [hat]
  · exact h

/-- A writer stores 0 and goes on outside. -/
theorem Inv.release (h : Inv s) (ht : (s.pc t).Writes b) (hp : p.at = none) :
    Inv ((s.store b 0).goto t p) := by
  have hat := at_of_writes ht
  refine h.store ((h b).unwrite ht (fun hr => ?_) fun hw => ?_) ?_ ?_
  · rw [at_of_reads hr] at hp
    cases hp
  · rw [at_of_writes hw] at hp
    cases hp
  · simp [hat]
  · simp [hp]

theorem Inv.run (h : Inv s) {spurious : Bool} (hs : runThread s t spurious = some s') : Inv s' := by
  unfold runThread at hs
  cases hpc : s.pc t <;> rw [hpc] at hs
  case idle => cases hs
  case getLoad b =>
    obtain rfl := Option.some.inj hs
    exact h.expect (by rw [hpc]; rfl) _
  case getCas b res =>
    have hat : (s.pc t).at = none := by rw [hpc]; rfl
    dsimp only at hs
    split_ifs at hs with hres
    · obtain rfl := Option.some.inj hs
      have hb := h b
      rw [hres] at hb
      refine h.store (hb.read ?_) (by simp [hat]) (by simp [Pc.at])
      rw [hpc]
      exact Pc.noConfusion
    · obtain rfl := Option.some.inj hs
      exact h.expect hat _
  case get b =>
    obtain rfl := Option.some.inj hs
    refine h.store ((h b).unread hpc Pc.noConfusion ?_) (by simp [hpc, Pc.at]) (by simp [Pc.at])
    simp [Pc.Writes]
  case setCas b =>
    obtain rfl := Option.some.inj hs
    exact h.reserve (by rw [hpc]; rfl) (.inl rfl) spurious
  case set b =>
    obtain rfl := Option.some.inj hs
    exact h.release (.inl hpc) rfl
  case removeCas b =>
    obtain rfl := Option.some.inj hs
    exact h.reserve (by rw [hpc]; rfl) (.inr rfl) spurious
  case removeAll b =>
    dsimp only at hs
    split_ifs at hs
    · obtain rfl := Option.some.inj hs
      exact h.release (.inr hpc) rfl
    · obtain rfl := Option.some.inj hs
      exact h.release (.inr hpc) rfl

theorem Inv.step (h : Inv s) {a : Action T} (hs : (machine T).step s a = some s') : Inv s' := by
  cases a with
  | call t c =>
    simp only [machine, BucketLocks.step] at hs
    split_ifs at hs with hidle
    obtain rfl := Option.some.inj hs
    apply h.goto
    · rw [hidle]
      rfl
    · unfold Call.start
      cases c with
      | get b => rfl
      | set b => rfl
      | removeAll count =>
        dsimp only
        split_ifs
        · rfl
        · rfl
  | run t spurious => exact h.run hs

theorem inv_of_reachable (h : (machine T).Reachable s) : Inv s := by
  apply h.invariant
  · rintro s rfl b
    exact .shared 0 rfl (.of_forall_not fun _ => Pc.noConfusion) fun _ => by simp [Pc.Writes]
  · exact fun s a s' hi _ hs => hi.step hs

end Steps

/-! ## The locks -/

/-- Writers are alone in their bucket, and the counter tells who is inside. -/
structure Exclusive (s : State T) : Prop where
  alone : ∀ b t u, (s.pc t).Writes b → u ≠ t → ¬ (s.pc u).Writes b ∧ ¬ (s.pc u).Reads b
  writer : ∀ b, s.reserved b = -1 ↔ ∃ t, (s.pc t).Writes b
  readers : ∀ b, (∀ t, ¬ (s.pc t).Writes b) →
    ∃ n : ℕ, Census (Pc.Reads b) s.pc n ∧ s.reserved b = n
  idle : (∀ t, s.pc t = .idle) → ∀ b, s.reserved b = 0

/-- For any number of threads and in every interleaving, the buckets are locked as they should be. -/
theorem buckets_exclusive {s : State T} (h : (machine T).Reachable s) : Exclusive s := by
  have hinv := inv_of_reachable h
  constructor
  case alone =>
    intro b t u ht hne
    cases hinv b with
    | shared n hr hreaders hw => exact absurd ht (hw t)
    | owned v hr hv honly hn => exact ⟨fun hu => hne ((honly u hu).trans (honly t ht).symm), hn u⟩
  case writer =>
    intro b
    cases hinv b with
    | shared n hr hreaders hw =>
      refine iff_of_false (by omega) ?_
      rintro ⟨t, ht⟩
      exact hw t ht
    | owned v hr hv honly hn => exact iff_of_true hr ⟨v, hv⟩
  case readers =>
    intro b hnone
    cases hinv b with
    | shared n hr hreaders hw => exact ⟨n, hreaders, hr⟩
    | owned v hr hv honly hn => exact absurd hv (hnone v)
  case idle =>
    intro hidle b
    cases hinv b with
    | shared n hr hreaders hw =>
      have hn : ¬ 0 < n := by
        intro hpos
        obtain ⟨S, hS, rfl⟩ := hreaders
        obtain ⟨t, ht⟩ := Finset.card_pos.1 hpos
        have hreads := (hS t).1 ht
        rw [hidle t] at hreads
        exact Pc.noConfusion hreads
      omega
    | owned v hr hv honly hn =>
      rw [hidle v] at hv
      simp [Pc.Writes] at hv

/-- No counter exceeds the number of threads. -/
theorem reserved_le [Fintype T] {s : State T} (h : (machine T).Reachable s) (b : Fin 256) :
    -1 ≤ s.reserved b ∧ s.reserved b ≤ Fintype.card T := by
  cases inv_of_reachable h b with
  | shared n hr hreaders hw =>
    obtain ⟨S, -, rfl⟩ := hreaders
    have hcard := S.card_le_univ
    omega
  | owned v hr hv honly hn => omega

/-- Two readers, and a writer that waits for them. -/
theorem buckets_exclusive_three :
    ∃ s : State (Fin 3), Exclusive s ∧ s.reserved 5 = 2 ∧ s.pc 2 = .setCas 5 := by
  have hrun : ((machine (Fin 3)).exec
      [.call 0 (.get 5), .run 0 false, .call 1 (.get 5), .run 1 false, .run 0 false, .run 1 false,
        .run 1 false, .call 2 (.set 5), .run 2 false]
      ⟨fun _ => 0, fun _ => .idle⟩).any
      (fun s => decide (s.reserved 5 = 2 ∧ s.pc 2 = .setCas 5)) = true := by decide +kernel
  obtain ⟨s, hs, hp⟩ := Machine.exists_reachable rfl hrun
  exact ⟨s, buckets_exclusive hs, of_decide_eq_true hp⟩

end PoserCore.Dictionary.BucketLocks
