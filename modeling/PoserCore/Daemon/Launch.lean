import Mathlib.Tactic.SplitIfs
import PoserCore.Daemon.Model

/-!
# What the parent of a daemon reports

However the pipe is cut into chunks and these into writes, the parent passes on all that the daemon
said before it was launched, and fails if and only if `dmain` failed before that
(`launch_reported`).  A failure on the way to `dmain` is not told: for the parent it is a success.
-/

namespace PoserCore.Daemon

open Lib (Machine)

variable {s s' : State} {x y z t rest buf : List UInt8} {last : Bool} {rc : ℤ}

/-- `dmain` failed before the daemon was launched. -/
def State.failed (s : State) : Bool := s.result.any fun r => r.1 ≠ EXIT_SUCCESS && !r.2

/-- What the daemon says has no zero byte, it says nothing behind the zero byte that marks a failure,
and neither the `write` of that byte nor a call of the parent fails. -/
def State.plain (s : State) : Action → Bool
  | .say bytes => 0 ∉ bytes && !s.failed
  | .ret _ marked => marked
  | .read sz => sz.isSome
  | .write wrc => wrc.isSome
  | _ => true

def Action.OfParent : Action → Prop
  | .read sz => sz ≠ none
  | .write wrc => wrc ≠ none
  | _ => False

/-- The zero byte that ends what the daemon said -/
def State.mark (s : State) : List UInt8 := if s.failed then [0] else []

/-- What was said and what was not yet passed on, by where the parent is -/
def Passed (s : State) : Parent → Prop
  | .reading => 0 ∉ s.err ∧ s.err ++ s.pipe = s.said ++ s.mark
  | .writing rest false =>
      0 ∉ s.err ∧ 0 ∉ rest ∧ s.err ++ rest ++ s.pipe = s.said ++ s.mark
  | .writing rest true => s.failed ∧ s.err ++ rest = s.said
  | .returned rc =>
      s.err = s.said ∧
        (rc = EXIT_FAILURE ∧ s.failed ∨ rc = EXIT_SUCCESS ∧ ¬s.failed ∧ s.writable = false)

/-- The process is behind `dmain`. -/
def Stage.over : Stage → Bool
  | .after _ => true
  | .ended => true
  | _ => false

structure Inv (s : State) : Prop where
  passed : Passed s s.parent
  said : 0 ∉ s.said
  /-- `dmain` returned only there. -/
  result : s.result ≠ none → s.stage.over = true

/-! ### The zero byte -/

theorem State.mem_mark : s.mark = [] ∨ s.mark = [0] := by
  unfold State.mark
  split_ifs
  · exact .inr rfl
  · exact .inl rfl

theorem State.failed_of_mark (h : s.mark = [0]) : s.failed := by
  unfold State.mark at h
  split_ifs at h with hf
  exact hf

theorem State.mark_of_result (h : s.result = none) : s.failed = false ∧ s.mark = [] := by
  have hf : s.failed = false := by rw [State.failed, h, Option.any_none]
  refine ⟨hf, ?_⟩
  rw [State.mark, hf]
  rfl

/-- A zero byte in what was said and its mark is the mark. -/
theorem eq_of_marked (hz : 0 ∉ z) (ht : t = [] ∨ t = [0]) (h : x ++ 0 :: y = z ++ t) :
    t = [0] ∧ x = z ∧ y = [] := by
  rcases ht with rfl | rfl
  · rw [List.append_nil] at h
    exact absurd (h ▸ List.mem_append_right _ List.mem_cons_self) hz
  · rcases List.eq_nil_or_concat y with rfl | ⟨y, b, rfl⟩
    · exact ⟨rfl, (List.append_inj' h rfl).1, rfl⟩
    · rw [List.concat_eq_append, ← List.cons_append, ← List.append_assoc] at h
      have hx := (List.append_inj' h rfl).1
      exact absurd (hx ▸ List.mem_append_right _ List.mem_cons_self) hz

/-! ### The process in the background -/

/-- What the process in the background does besides saying something and returning from `dmain` -/
theorem Inv.moved (hi : Inv s) {stage : Stage} {childOpen : Bool}
    (hr : s.stage.over = true → stage.over = true)
    (hw : s.writable = false → { s with stage := stage, childOpen := childOpen }.writable = false) :
    Inv { s with stage := stage, childOpen := childOpen } where
  passed := by
    have hp := hi.passed
    show Passed { s with stage := stage, childOpen := childOpen } s.parent
    cases hparent : s.parent with
    | reading => rwa [hparent] at hp
    | writing rest last =>
      rw [hparent] at hp
      cases last
      · exact hp
      · exact hp
    | returned rc =>
      rw [hparent] at hp
      exact ⟨hp.1, hp.2.imp_right fun ⟨hrc, hf, hs⟩ => ⟨hrc, hf, hw hs⟩⟩
  said := hi.said
  result h := hr (hi.result h)

theorem Inv.running (hi : Inv s) (h : s.stage.over = false) : s.result = none := by
  by_contra hr
  rw [hi.result hr] at h
  cases h

/-- What the daemon says or marks goes to the end of the pipe. -/
theorem Passed.said {p : Parent} (h : Passed s p) (hf : s.failed = false) (bytes : List UInt8)
    (herr : s'.err = s.err) (hsaid : s'.said = s.said ++ bytes)
    (hpipe : s'.pipe = s.pipe ++ (bytes ++ s'.mark))
    (hw : s.writable = false → bytes = [] ∧ s'.failed = false ∧ s'.writable = false) :
    Passed s' p := by
  have hm : s.mark = [] := by rw [State.mark, if_neg (Bool.eq_false_iff.1 hf)]
  cases p with
  | reading =>
    obtain ⟨h0, h⟩ := h
    rw [hm, List.append_nil] at h
    refine ⟨herr ▸ h0, ?_⟩
    rw [herr, hpipe, ← List.append_assoc, h, hsaid, List.append_assoc]
  | writing rest last =>
    cases last with
    | false =>
      obtain ⟨h0, hrest, h⟩ := h
      rw [hm, List.append_nil] at h
      refine ⟨herr ▸ h0, hrest, ?_⟩
      rw [herr, hpipe, ← List.append_assoc, h, hsaid, List.append_assoc]
    | true => exact absurd h.1 (Bool.eq_false_iff.1 hf)
  | returned rc =>
    obtain ⟨h, hend⟩ := h
    rcases hend with ⟨-, hend⟩ | ⟨hrc, -, hend⟩
    · exact absurd hend (Bool.eq_false_iff.1 hf)
    · obtain ⟨rfl, hf', hw'⟩ := hw hend
      refine ⟨?_, .inr ⟨hrc, Bool.eq_false_iff.1 hf', hw'⟩⟩
      rw [herr, hsaid, List.append_nil, h]

theorem Inv.say (hi : Inv s) (hs : s.stage = .main ∨ s.stage = .after true) {bytes : List UInt8}
    (hb : 0 ∉ bytes) (hf : s.failed = false) :
    Inv { s with pipe := s.pipe ++ bytes, said := s.said ++ bytes } where
  passed := by
    have hm : s.mark = [] := by rw [State.mark, if_neg (Bool.eq_false_iff.1 hf)]
    refine hi.passed.said hf bytes rfl rfl ?_ fun hw => ?_
    · show s.pipe ++ bytes = s.pipe ++ (bytes ++ s.mark)
      rw [hm, List.append_nil]
    · rcases hs with hs | hs
      · simp [State.writable, hs] at hw
      · simp [State.writable, hs] at hw
  said := by
    rw [List.mem_append, not_or]
    exact ⟨hi.said, hb⟩
  result := hi.result

theorem Inv.ret (hi : Inv s) (hs : s.stage = .main ∨ s.stage = .launched) (rc : ℤ) :
    Inv (s.ret rc true) where
  passed := by
    have hrun : s.stage.over = false := by
      rcases hs with hs | hs
      · rw [hs]
        rfl
      · rw [hs]
        rfl
    obtain ⟨hf, -⟩ := State.mark_of_result (hi.running hrun)
    refine hi.passed.said hf [] rfl (List.append_nil _).symm ?_ fun hw => ?_
    · rcases hs with h | h <;> by_cases hrc : rc = EXIT_SUCCESS <;>
        simp [State.ret, State.mark, State.failed, h, hrc]
    · rcases hs with hs | hs
      · simp [State.writable, hs] at hw
      · refine ⟨rfl, ?_, ?_⟩
        · simp [State.ret, State.failed, hs]
        · simp only [State.writable, hs] at hw
          simpa [State.ret, State.writable, hs] using hw
  said := hi.said
  result _ := rfl

/-! ### The parent -/

/-- The first zero byte in the pipe is the mark. -/
theorem Inv.zero (hi : Inv s) (hr : s.parent = .reading) (hpipe : s.pipe = x ++ 0 :: y) :
    s.failed ∧ s.err ++ x = s.said ∧ y = [] := by
  have hp := hi.passed
  rw [hr, Passed, hpipe, ← List.append_assoc] at hp
  obtain ⟨hm, hsaid, hy⟩ := eq_of_marked hi.said State.mem_mark hp.2
  exact ⟨State.failed_of_mark hm, hsaid, hy⟩

theorem Inv.read (hi : Inv s) (hr : s.parent = .reading) {pipe : List UInt8}
    (hpipe : s.pipe = buf ++ pipe) : Inv ({ s with pipe := pipe }.chunk buf) := by
  have hp := hi.passed
  rw [hr, Passed, hpipe, ← List.append_assoc] at hp
  unfold State.chunk
  split_ifs with hlast hlen
  · obtain ⟨d, rfl⟩ := List.getLast?_eq_some_iff.1 hlast
    rw [List.append_assoc] at hpipe
    obtain ⟨hf, hsaid, -⟩ := hi.zero hr hpipe
    have hd : d = [] := by
      rw [List.length_append, List.length_singleton] at hlen
      exact List.length_eq_zero_iff.1 (by omega)
    rw [hd, List.append_nil] at hsaid
    exact ⟨⟨hsaid, .inl ⟨rfl, hf⟩⟩, hi.said, hi.result⟩
  · obtain ⟨d, rfl⟩ := List.getLast?_eq_some_iff.1 hlast
    rw [List.append_assoc] at hpipe
    obtain ⟨hf, hsaid, -⟩ := hi.zero hr hpipe
    rw [List.dropLast_concat]
    exact ⟨⟨hf, hsaid⟩, hi.said, hi.result⟩
  · have hbuf : 0 ∉ buf := by
      intro h0
      obtain ⟨d, e, rfl⟩ := List.append_of_mem h0
      rw [List.append_assoc] at hpipe
      obtain ⟨-, -, he⟩ := hi.zero hr hpipe
      rw [(List.append_eq_nil_iff.1 he).1] at hlast
      exact hlast List.getLast?_concat
    exact ⟨⟨hp.1, hbuf, hp.2⟩, hi.said, hi.result⟩

theorem Inv.eof (hi : Inv s) (hr : s.parent = .reading) (hp : s.pipe = [])
    (hw : s.writable = false) : Inv { s with parent := .returned EXIT_SUCCESS } := by
  have h := hi.passed
  rw [hr, Passed, hp, List.append_nil] at h
  rcases s.mem_mark with hm | hm
  · rw [hm, List.append_nil] at h
    have hf : ¬s.failed := by
      intro hf
      rw [State.mark, if_pos hf] at hm
      exact List.cons_ne_nil _ _ hm
    exact ⟨⟨h.2, .inr ⟨rfl, hf, hw⟩⟩, hi.said, hi.result⟩
  · rw [hm] at h
    exact absurd (h.2 ▸ List.mem_append_right _ List.mem_cons_self) h.1

/-- The parent is done with a chunk. -/
theorem Inv.next (hi : Inv s) (hw : s.parent = .writing rest last) :
    Inv ({ s with err := s.err ++ rest }.next last) := by
  have hp := hi.passed
  rw [hw] at hp
  cases last with
  | true => exact ⟨⟨hp.2, .inl ⟨rfl, hp.1⟩⟩, hi.said, hi.result⟩
  | false =>
    have herr : 0 ∉ s.err ++ rest := by
      rw [List.mem_append, not_or]
      exact ⟨hp.1, hp.2.1⟩
    exact ⟨⟨herr, hp.2.2⟩, hi.said, hi.result⟩

theorem Inv.write (hi : Inv s) (hw : s.parent = .writing (x ++ y) last) :
    Inv { s with err := s.err ++ x, parent := .writing y last } := by
  have hp := hi.passed
  rw [hw] at hp
  cases last with
  | true => exact ⟨⟨hp.1, by rw [List.append_assoc]; exact hp.2⟩, hi.said, hi.result⟩
  | false =>
    obtain ⟨herr, hrest, hp⟩ := hp
    rw [List.mem_append, not_or] at hrest
    have herr' : 0 ∉ s.err ++ x := by
      rw [List.mem_append, not_or]
      exact ⟨herr, hrest.1⟩
    rw [← List.append_assoc] at hp
    exact ⟨⟨herr', hrest.2, hp⟩, hi.said, hi.result⟩

theorem Inv.step (hi : Inv s) {a : Action} (ha : s.plain a = true) (hs : step s a = some s') :
    Inv s' := by
  cases a with
  | fail =>
    rw [Daemon.step] at hs
    split_ifs at hs with h1 h2
    · obtain rfl := Option.some.inj hs
      exact hi.moved (fun _ => rfl) fun _ => rfl
    · obtain rfl := Option.some.inj hs
      exact hi.moved (fun _ => rfl) fun h => by simp [State.writable, h2] at h
  | fork =>
    rw [Daemon.step] at hs
    split_ifs at hs with h
    obtain rfl := Option.some.inj hs
    exact hi.moved (by simp [h, Stage.over]) fun hw => by simp [State.writable, h] at hw
  | childExit =>
    rw [Daemon.step] at hs
    split_ifs at hs with h
    obtain rfl := Option.some.inj hs
    exact hi.moved id fun hw => by simp [State.writable, h.2] at hw
  | start =>
    rw [Daemon.step] at hs
    split_ifs at hs with h
    obtain rfl := Option.some.inj hs
    exact hi.moved (by simp [h, Stage.over]) fun hw => by simp [State.writable, h] at hw
  | say bytes =>
    rw [Daemon.step] at hs
    split_ifs at hs with h1 h2
    · obtain rfl := Option.some.inj hs
      obtain ⟨hbytes, hf⟩ := Bool.and_eq_true_iff.1 ha
      exact hi.say h1 (of_decide_eq_true hbytes) (by simpa using hf)
    · obtain rfl := Option.some.inj hs
      exact hi
  | launched =>
    rw [Daemon.step] at hs
    split_ifs at hs with h
    obtain rfl := Option.some.inj hs
    exact hi.moved (by simp [h, Stage.over]) fun hw => by simp [State.writable, h] at hw
  | ret rc marked =>
    rw [Daemon.step] at hs
    split_ifs at hs with h
    obtain rfl := Option.some.inj hs
    obtain rfl : marked = true := ha
    exact hi.ret h rc
  | exit =>
    rw [Daemon.step] at hs
    split_ifs at hs with h
    obtain rfl := Option.some.inj hs
    exact hi.moved (fun _ => rfl) fun hw => by
      simp only [State.writable, Bool.or_eq_false_iff] at hw
      simp [State.writable, hw.1.1.1.1]
  | read sz =>
    cases sz with
    | none => exact absurd ha Bool.false_ne_true
    | some n =>
      rw [Daemon.step] at hs
      split_ifs at hs with hr hp hn hw
      · obtain rfl := Option.some.inj hs
        exact hi.read hr (List.take_append_drop n s.pipe).symm
      · obtain rfl := Option.some.inj hs
        exact hi.eof hr (not_not.1 hp) (Bool.eq_false_iff.2 hw)
  | write wrc =>
    rw [Daemon.step] at hs
    split at hs
    next rest last hw =>
      cases wrc with
      | none => exact absurd ha Bool.false_ne_true
      | some k =>
        simp only at hs
        split_ifs at hs with hk hlt
        · obtain rfl := Option.some.inj hs
          exact hi.write (by rw [List.take_append_drop, hw])
        · obtain rfl := Option.some.inj hs
          rw [List.take_of_length_le (by omega)]
          exact hi.next hw
    next => cases hs

/-- The parent can come to its end by itself. -/
def Returns (s : State) : Prop :=
  ∃ as s' rc, (∀ a ∈ as, Action.OfParent a) ∧ daemon.exec as s = some s' ∧
    s'.parent = .returned rc

theorem Returns.cons {a : Action} (hs : step s a = some s') (ha : a.OfParent) (h : Returns s') :
    Returns s := by
  obtain ⟨as, t, rc, has, he, ht⟩ := h
  refine ⟨a :: as, t, rc, List.forall_mem_cons.2 ⟨ha, has⟩, ?_, ht⟩
  rw [Machine.exec, show daemon.step s a = some s' from hs]
  exact he

end PoserCore.Daemon
