import PoserCore.Connection.Receiver

/-!
# Data that is being handled

While a chunk is marked, only two places of the code write to the read buffer: the end of
`raisereceivedevents`, which moves what is left to the start of the buffer no matter what is being
handled, and the `doread` of a TLS connection, which `writeConnection` and
`PSC_Connection_confirmDataReceived` call without a look at the marks.  `Keeps` says of a step that
neither reaches a marked chunk; where all steps do, the chunks stay as they were.
-/

namespace PoserCore.Connection.Receive

open Lib (Machine)
open Lib.Buffer

/-- The bytes of the chunk are in the memory, where they were when it was marked. -/
def Chunk.In (c : Chunk) (m : ℕ → UInt8) : Prop := slice m c.start c.bytes.length = c.bytes

instance (c : Chunk) (m : ℕ → UInt8) : Decidable (c.In m) := inferInstanceAs (Decidable (_ = _))

/-- The step does not write into a marked chunk: what is moved to the start of the buffer, with the
NUL behind it, ends before the chunk (or is there already and ends after it), and what is read lands
behind the chunk or ends before it. -/
def Keeps (s : Conn) : Act → Prop
  | .loop => s.compacts → ∀ c ∈ s.held,
      s.left < c.start ∨ s.rdbufpos = 0 ∧ c.start + c.bytes.length ≤ s.rdbufused
  | .readData bs => ∀ c ∈ s.held,
      c.start + c.bytes.length ≤ s.rdbufused ∨ s.rdbufused + bs.length < c.start
  | _ => True

instance (s : Conn) (a : Act) : Decidable (Keeps s a) := by
  cases a <;> unfold Keeps <;> infer_instance

/-- The number of open marks and the marked chunks. -/
def Conn.marks (self : Conn) : ℕ × List Chunk := (self.args.handling, self.held)

variable {s s' : Conn}

/-! ## What the steps keep -/

/-- A write to other places leaves a chunk as it is. -/
theorem Chunk.In.store {c : Chunk} {m : ℕ → UInt8} {off : ℕ} {xs : List UInt8} (hc : c.In m)
    (ha : c.start + c.bytes.length ≤ off ∨ off + xs.length ≤ c.start) : c.In (store m off xs) := by
  refine (slice_congr fun i hi hi' => ?_).trans hc
  rcases ha with ha | ha
  · exact store_of_lt (by omega)
  · exact store_of_ge (by omega)

/-- Moving nothing anywhere is no move. -/
theorem store_slice_self (m : ℕ → UInt8) (off len : ℕ) : store m off (slice m off len) = m := by
  funext i
  unfold store
  split_ifs with hi
  · rfl
  · rcases Nat.lt_or_ge (i - off) len with hl | hl
    · rw [getElem?_slice hl, Option.getD_some]
      congr 1
      omega
    · rw [List.getElem?_eq_none (by simpa using hl), Option.getD_none]

theorem in_compact {c : Chunk} (hmem : c ∈ s.held) (hk : Keeps s .loop) (hc : c.In s.rdbuf) :
    c.In s.compact.rdbuf := by
  unfold Conn.compact
  split
  · next hcomp =>
    rcases hk hcomp c hmem with hleft | ⟨hpos, hend⟩
    · refine (hc.store (.inr ?_)).store (.inr ?_)
      · rw [length_slice]
        omega
      · exact hleft
    · dsimp only
      rw [hpos, store_slice_self]
      refine hc.store (.inl ?_)
      unfold Conn.left
      omega
  · exact hc

theorem in_append {c : Chunk} {bs : List UInt8} {rest : List Frame} (hmem : c ∈ s.held)
    (hk : Keeps s (.readData bs)) (hc : c.In s.rdbuf) : c.In (s.append bs rest).rdbuf := by
  rcases hk c hmem with h | h
  · exact (hc.store (.inl h)).store (.inl (by omega))
  · exact (hc.store (.inr (by omega))).store (.inr h)

/-- A chunk holds what is in the buffer when it is marked. -/
theorem in_chunk (s : Conn) : s.chunk.In s.rdbuf := by
  unfold Chunk.In Conn.chunk
  cases s.args.text with
  | some off => rw [length_slice]
  | none => rw [length_slice]

/-! ## Runs -/

/-- There are marked chunks exactly while something is being handled, and they are intact. -/
structure Handled (s : Conn) : Prop where
  marked : s.held = [] ↔ s.args.handling = 0
  intact : ∀ c ∈ s.held, c.In s.rdbuf

theorem Handled.of_eq (h : Handled s) (hm : s'.marks = s.marks)
    (hb : s.held ≠ [] → s'.rdbuf = s.rdbuf) : Handled s' := by
  obtain ⟨hn, hh⟩ := Prod.mk.inj hm
  refine ⟨by rw [hn, hh]; exact h.marked, fun c hc => ?_⟩
  rw [hh] at hc
  rw [hb (List.ne_nil_of_mem hc)]
  exact h.intact c hc

theorem Handled.pass (h : Handled s) (hk : Keeps s .loop) : Handled s.pass := by
  obtain ⟨-, -, -, hn, hh, -⟩ := by simpa only [Conn.context, Prod.mk.injEq] using context_pass s
  refine ⟨by rw [hn, hh]; exact h.marked, fun c hc => ?_⟩
  rw [hh] at hc
  -- with a chunk marked the loop ends at once
  have hleave : s.pass = s.leave := by
    unfold Conn.pass
    rw [if_pos (.inl fun h0 => List.ne_nil_of_mem hc (h.marked.2 h0))]
  rw [hleave]
  exact in_compact hc hk (h.intact c hc)

theorem Handled.append {bs : List UInt8} {rest : List Frame} (h : Handled s)
    (hk : Keeps s (.readData bs)) : Handled (s.append bs rest) :=
  ⟨h.marked, fun c hc => in_append hc hk (h.intact c hc)⟩

theorem Handled.afterRead {again : Bool} {rest : List Frame} (h : Handled s) :
    Handled (s.afterRead again rest) := by
  unfold Conn.afterRead
  dsimp only
  split
  · exact h.of_eq rfl fun _ => rfl
  · exact h.of_eq rfl fun _ => rfl

theorem Handled.markHandling (h : Handled s) : Handled s.markHandling := by
  refine ⟨by simp [Conn.markHandling], fun c hc => ?_⟩
  rcases List.mem_append.1 hc with hc | hc
  · exact h.intact c hc
  · rw [List.mem_singleton.1 hc]
    exact in_chunk s

theorem Handled.confirmDataReceived (h : Handled s) : Handled s.confirmDataReceived := by
  unfold Conn.confirmDataReceived
  split
  · exact h
  · next hn =>
    dsimp only
    split
    · next hn' => exact ⟨iff_of_false (mt h.marked.1 hn) hn', h.intact⟩
    · next hn' => exact ⟨iff_of_true rfl (Decidable.not_not.1 hn'), fun _ hc => nomatch hc⟩

theorem Handled.receiveBinary {expected : ℕ} (h : Handled s) : Handled (s.receiveBinary expected) := by
  unfold Conn.receiveBinary
  split
  · exact h
  · exact h.of_eq rfl fun _ => rfl

theorem Handled.step {a : Act} (h : Handled s) (hk : Keeps s a) (hs : s.step a = some s') :
    Handled s' := by
  have same {t : Conn} (hm : t.marks = s.marks) (hb : t.rdbuf = s.rdbuf) : Handled t :=
    h.of_eq hm fun _ => hb
  cases a with
  | readyRead =>
    simp only [Conn.step] at hs
    split at hs
    · split at hs <;> cases hs
      · exact same rfl rfl
      · exact same rfl rfl
    · cases hs
  | readyWrite =>
    simp only [Conn.step] at hs
    split at hs <;> cases hs
    exact same rfl rfl
  | readData bs =>
    simp only [Conn.step] at hs
    split at hs
    · split at hs <;> cases hs
      exact h.append hk
    · cases hs
  | readBlocks want =>
    simp only [Conn.step] at hs
    split at hs <;> cases hs
    exact same rfl rfl
  | readFails =>
    simp only [Conn.step] at hs
    split at hs <;> cases hs
    exact same rfl rfl
  | loop =>
    simp only [Conn.step] at hs
    split at hs
    · split at hs <;> cases hs
      exact h.pass hk
    · cases hs
  | handlersReturn =>
    simp only [Conn.step] at hs
    split at hs <;> cases hs
    exact same rfl rfl
  | proceed =>
    simp only [Conn.step] at hs
    split at hs <;> cases hs
    · exact h.afterRead
    · split
      · exact same rfl rfl
      · exact same rfl rfl
  | receiveBinary expected =>
    simp only [Conn.step] at hs
    split at hs <;> cases hs
    exact h.receiveBinary
  | receiveText locator =>
    simp only [Conn.step] at hs
    split at hs <;> cases hs
    exact same rfl rfl
  | receiveLine =>
    simp only [Conn.step] at hs
    split at hs <;> cases hs
    exact same rfl rfl
  | markHandling =>
    simp only [Conn.step] at hs
    split at hs <;> cases hs
    exact h.markHandling
  | confirmDataReceived =>
    simp only [Conn.step] at hs
    split at hs <;> cases hs
    exact h.confirmDataReceived
  | close =>
    simp only [Conn.step] at hs
    split at hs <;> cases hs
    exact same rfl rfl

theorem Handled.create (tls : Bool) (rdbufsz : ℕ) (mem : ℕ → UInt8) :
    Handled (.create tls rdbufsz mem) :=
  ⟨iff_of_true rfl rfl, fun _ hc => nomatch hc⟩

/-- In every run in which no step writes into a marked chunk there are marked chunks exactly while
something is being handled, and each holds what it held when it was marked.  A run ends where a
confirmation in a handler left `rdbufpos` behind `rdbufused`. -/
theorem handled_intact {tls : Bool} {rdbufsz : ℕ} (h : (machine tls rdbufsz).Run Keeps s) :
    (s.held = [] ↔ s.args.handling = 0) ∧ ∀ c ∈ s.held, c.In s.rdbuf := by
  have hinv : Handled s := by
    refine h.invariant (I := Handled) ?_ fun _ _ _ hi hk hs => hi.step hk hs
    rintro _ ⟨mem, rfl⟩
    exact .create ..
  exact ⟨hinv.marked, hinv.intact⟩

/-- Nine bytes arrive where messages of four are expected.  The second message is marked, and the one
byte left is moved to the start of the buffer, where the first message was. -/
theorem handled_intact_second : ∃ s, (machine false 12).Run Keeps s ∧
    s.held = [⟨4, [101, 102, 103, 104]⟩] ∧ s.rdbufused = 1 ∧
    (s.held = [] ↔ s.args.handling = 0) ∧ ∀ c ∈ s.held, c.In s.rdbuf := by
  have hrun : ((machine false 12).execOk (fun s a => decide (Keeps s a))
      [.receiveBinary 4, .readyRead, .readData [97, 98, 99, 100, 101, 102, 103, 104, 105],
        .loop, .handlersReturn, .loop, .markHandling, .handlersReturn, .loop]
      (.create false 12 fun _ => 0)).any
        (fun s => decide (s.held = [⟨4, [101, 102, 103, 104]⟩] ∧ s.rdbufused = 1)) = true := by
    decide +kernel
  obtain ⟨s, hs, hend⟩ := Machine.exists_run (init_create _ _) (fun _ _ => of_decide_eq_true) hrun
  obtain ⟨hheld, hused⟩ := of_decide_eq_true hend
  exact ⟨s, hs, hheld, hused, handled_intact hs⟩

/-- Two lines arrive at once.  The first is marked as being handled, and what is left, the second, is
moved over it. -/
theorem handled_overwritten : ∃ s, (machine false 8).Reachable s ∧
    s.args.handling = 1 ∧ ∃ c ∈ s.held, ¬ c.In s.rdbuf := by
  have hrun : ((machine false 8).exec
      [.receiveLine, .readyRead, .readData [97, 10, 98, 10], .loop, .markHandling, .handlersReturn,
        .loop]
      (.create false 8 fun _ => 0)).any
        (fun s => decide (s.args.handling = 1 ∧ ∃ c ∈ s.held, ¬ c.In s.rdbuf)) = true := by
    decide +kernel
  obtain ⟨s, hs, hend⟩ := Machine.exists_reachable (init_create _ _) hrun
  exact ⟨s, hs, of_decide_eq_true hend⟩

end PoserCore.Connection.Receive
