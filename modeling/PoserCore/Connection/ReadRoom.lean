import PoserCore.Connection.Receiver

/-!
# Room for the next read

`raisereceivedevents` leaves room in the read buffer whenever nothing is being handled: it takes
everything, or moves to the start what has to wait for more, and that is less than a buffer
(`Roomy.step`).  `readConnection` and the loop of `doread` only read then.  But
`PSC_Connection_confirmDataReceived` and, where TLS waits to write, `writeConnection` call `doread`
without a look at the marks, and then the buffer may be full (`reads_have_room`).
-/

namespace PoserCore.Connection.Receive

open Lib (Machine)

/-- Wherever `doread` is about to read, there is room, and nothing is being handled. -/
def Reads (s : Conn) : Prop :=
  ∀ rest, s.frames = .reading :: rest → s.rdbufused < s.rdbufsz ∧ s.args.handling = 0

/-- The confirmation of data that has TLS read again, and what goes on with a read that waited to
write, come while nothing is being handled: no handler that ran before has marked anything since. -/
def Checked (s : Conn) : Act → Prop
  | .readyWrite => s.tlsReadSt = .write → s.args.handling = 0
  | .proceed => ∀ rest, s.frames = .confirming :: rest → s.tlsReadagain = true →
      s.args.handling = 0
  | _ => True

variable {s s' : Conn} {rest : List Frame}

/-! ## What the loop leaves -/

/-- The function on top is neither in the loop of `raisereceivedevents` nor in its handlers. -/
def Conn.atRest (self : Conn) : Bool :=
  match self.frames with
  | .looping :: _ | .handlers _ :: _ => false
  | _ => true

/-- Where nothing is being handled and no events are raised, there is room; and nothing runs on top of
a function that is about to read. -/
structure Roomy (s : Conn) : Prop where
  size : 1 ≤ s.rdbufsz
  below : .reading ∉ s.frames.tail
  expect : s.rdexpect ≤ s.rdbufsz
  used : s.rdbufused ≤ s.rdbufsz
  room : s.atRest = true → s.args.handling = 0 → s.rdbufused < s.rdbufsz

theorem compact_used_le (s : Conn) : s.compact.rdbufused ≤ s.rdbufused := by
  unfold Conn.compact
  split
  · exact Nat.sub_le ..
  · exact Nat.le_refl _

theorem compact_expect (s : Conn) :
    s.compact.rdexpect = s.rdexpect ∧ s.compact.rdbufsz = s.rdbufsz := by
  unfold Conn.compact
  split <;> exact ⟨rfl, rfl⟩

theorem compact_of_compacts (h : s.compacts = true) : s.compact.rdbufused = s.left := by
  unfold Conn.compact
  rw [if_pos h]

/-- The end of `raisereceivedevents` -/
theorem Roomy.leave (hsize : 1 ≤ s.rdbufsz) (hbelow : .reading ∉ s.frames.tail)
    (hexpect : s.rdexpect ≤ s.rdbufsz) (hused : s.rdbufused ≤ s.rdbufsz)
    (hroom : s.args.handling = 0 → s.compact.rdbufused < s.rdbufsz) : Roomy s.leave := by
  obtain ⟨he, hsz⟩ := compact_expect s
  have hhandling : s.compact.args.handling = s.args.handling := by
    unfold Conn.compact
    split <;> rfl
  constructor
  · exact Nat.le_trans hsize (Nat.le_of_eq hsz.symm)
  · exact fun hmem => hbelow (List.mem_of_mem_tail hmem)
  · change s.compact.rdexpect ≤ s.compact.rdbufsz
    rw [he, hsz]
    exact hexpect
  · change s.compact.rdbufused ≤ s.compact.rdbufsz
    rw [hsz]
    exact Nat.le_trans (compact_used_le s) hused
  · intro _ hzero
    change s.compact.rdbufused < s.compact.rdbufsz
    rw [hsz]
    exact hroom (hhandling.symm.trans hzero)

theorem Roomy.raising (hsize : 1 ≤ s.rdbufsz) (hbelow : .reading ∉ s.frames.tail)
    (hexpect : s.rdexpect ≤ s.rdbufsz) (hused : s.rdbufused ≤ s.rdbufsz)
    (hrest : s.atRest = false) : Roomy s :=
  ⟨hsize, hbelow, hexpect, hused, fun h => absurd (hrest.symm.trans h) Bool.false_ne_true⟩

/-- A text that has to wait is moved, or was at the start of a buffer that is not full. -/
theorem compact_text {locator : Locator} (hloc : s.rdlocator = some locator)
    (hne : s.rdbufused ≠ 0) (hused : s.rdbufused ≤ s.rdbufsz) (hlen : s.textLength locator = none) :
    s.compact.rdbufused < s.rdbufsz := by
  have hcomp : s.compacts = true := by simp [Conn.compacts, hloc, hne]
  have hwait : s.rdbufpos ≠ 0 ∨ s.rdbufused < s.rdbufsz := by
    unfold Conn.textLength at hlen
    split at hlen
    · cases hlen
    · split_ifs at hlen with h
      exact h
  rw [compact_of_compacts hcomp]
  unfold Conn.left
  omega

/-- Binary data that has to wait is less than what is expected. -/
theorem compact_binary (hne : s.rdbufused ≠ 0) (hexpect : s.rdexpect ≤ s.rdbufsz)
    (hlen : s.binaryLength = none) : s.compact.rdbufused < s.rdbufsz := by
  have hlt : s.left < s.rdexpect := by
    unfold Conn.binaryLength at hlen
    split_ifs at hlen with h0 hgt
    exact hgt
  have hcomp : s.compacts = true := by simp [Conn.compacts, hlt, hne]
  rw [compact_of_compacts hcomp]
  omega

theorem Roomy.pass (h : Roomy s) : Roomy s.pass := by
  have hempty : ∀ t : Conn, t.rdbufused = 0 → t.compact.rdbufused = 0 := fun t h0 =>
    Nat.le_zero.1 (h0 ▸ compact_used_le t)
  unfold Conn.pass
  by_cases hstop : s.args.handling ≠ 0 ∨ s.rdbufused = 0
  · rw [if_pos hstop]
    refine Roomy.leave h.size h.below h.expect h.used fun hzero => ?_
    rw [hempty s (hstop.resolve_left (not_not_intro hzero))]
    exact h.size
  rw [if_neg hstop]
  have hne : s.restoreText.rdbufused ≠ 0 := by
    unfold Conn.restoreText
    split <;> exact fun h0 => hstop (.inr h0)
  have ht : Roomy s.restoreText := by
    unfold Conn.restoreText
    split
    · exact h
    · exact ⟨h.size, h.below, h.expect, h.used, h.room⟩
  generalize s.restoreText = t at hne ht
  obtain ⟨hsize, hbelow, hexpect, hused, -⟩ := ht
  dsimp only
  split
  · next locator hloc =>
    split
    · refine Roomy.leave hsize hbelow hexpect (Nat.zero_le _) fun _ => ?_
      rw [hempty _ rfl]
      exact hsize
    · split
      · exact Roomy.raising hsize hbelow hexpect hused rfl
      · next hlen => exact Roomy.leave hsize hbelow hexpect hused fun _ =>
          compact_text hloc hne hused hlen
  · split
    · exact Roomy.raising hsize hbelow hexpect hused rfl
    · next hlen => exact Roomy.leave hsize hbelow hexpect hused fun _ =>
          compact_binary hne hexpect hlen

/-! ## Steps -/

/-- Back to what waits below, or on to the next function, with the buffer as it is -/
theorem Roomy.same (h : Roomy s) (hbelow : .reading ∉ s'.frames.tail)
    (hexpect : s'.rdexpect ≤ s'.rdbufsz) (hsz : s'.rdbufsz = s.rdbufsz)
    (hused : s'.rdbufused = s.rdbufused)
    (hrest : s'.atRest = true → s'.args.handling = 0 → s.atRest = true ∧ s.args.handling = 0) :
    Roomy s' := by
  refine ⟨by rw [hsz]; exact h.size, hbelow, hexpect, by rw [hused, hsz]; exact h.used,
    fun hr hz => ?_⟩
  rw [hused, hsz]
  exact h.room (hrest hr hz).1 (hrest hr hz).2

theorem atRest_of_frames {f : Frame} (hf : s.frames = f :: rest) (hloop : f ≠ .looping)
    (hraise : ∀ len, f ≠ .handlers len) : s.atRest = true := by
  unfold Conn.atRest
  rw [hf]
  split
  · next h => exact absurd (List.cons.inj h).1 hloop
  · next h => exact absurd (List.cons.inj h).1 (hraise _)
  · rfl

theorem atRest_of_nil (hf : s.frames = []) : s.atRest = true := by
  unfold Conn.atRest
  rw [hf]

theorem not_mem_rest (h : Roomy s) {f : Frame} (hf : s.frames = f :: rest) : .reading ∉ rest := by
  have := h.below
  rwa [hf] at this

/-- The function on top returns, or reads. -/
theorem Roomy.return (h : Roomy s) {f : Frame} (hf : s.frames = f :: rest) (hloop : f ≠ .looping)
    (hraise : ∀ len, f ≠ .handlers len)
    (hframes : s'.frames = rest ∨ s'.frames = .reading :: rest) (hexpect : s'.rdexpect = s.rdexpect)
    (hsz : s'.rdbufsz = s.rdbufsz) (hused : s'.rdbufused = s.rdbufused)
    (hhandling : s'.args.handling = s.args.handling) : Roomy s' := by
  have hrest := not_mem_rest h hf
  refine h.same ?_ (by rw [hexpect, hsz]; exact h.expect) hsz hused fun _ hz =>
    ⟨atRest_of_frames hf hloop hraise, hhandling.symm.trans hz⟩
  rcases hframes with hf' | hf'
  · rw [hf']
    exact fun hmem => hrest (List.mem_of_mem_tail hmem)
  · rw [hf']
    exact hrest

/-- Where code of the user runs, nothing is about to read. -/
theorem not_mem_atUser (h : Roomy s) (huser : s.atUser = true) : .reading ∉ s.frames := by
  unfold Conn.atUser at huser
  split at huser
  · next hf =>
    rw [hf]
    exact List.not_mem_nil
  · next len rest hf =>
    rw [hf]
    exact fun hmem => not_mem_rest h hf ((List.mem_cons.1 hmem).resolve_left Frame.noConfusion)
  · cases huser

theorem Roomy.confirmDataReceived (h : Roomy s) (huser : s.atUser = true) :
    Roomy s.confirmDataReceived := by
  unfold Conn.confirmDataReceived
  split_ifs with hzero
  · exact h
  · simp only
    split_ifs with hone
    · exact ⟨h.size, h.below, h.expect, h.used, fun _ h0 => absurd h0 hone⟩
    · refine Roomy.raising h.size ?_ h.expect h.used rfl
      exact fun hmem =>
        not_mem_atUser h huser ((List.mem_cons.1 hmem).resolve_left Frame.noConfusion)

theorem Roomy.receiveBinary (h : Roomy s) (expected : ℕ) : Roomy (s.receiveBinary expected) := by
  unfold Conn.receiveBinary
  split_ifs with hbig
  · exact h
  · exact h.same h.below (Nat.le_of_not_lt hbig) rfl rfl fun hr hz => ⟨hr, hz⟩

/-- The transport delivers data. -/
theorem Roomy.append (h : Roomy s) (hf : s.frames = .reading :: rest) {bs : List UInt8}
    (hlen : bs.length ≤ s.rdbufsz - s.rdbufused) : Roomy (s.append bs rest) := by
  have hrest := not_mem_rest h hf
  refine Roomy.raising h.size ?_ h.expect ?_ rfl
  · intro hmem
    have hmem' : Frame.reading ∈
        (if s.tls then [Frame.tlsRead (bs.length = s.rdbufsz - s.rdbufused)] else []) ++ rest :=
      hmem
    refine (List.mem_append.1 hmem').elim (fun hm => ?_) hrest
    split_ifs at hm
    · exact Frame.noConfusion (List.mem_singleton.1 hm)
    · cases hm
  · have := h.used
    change s.rdbufused + bs.length ≤ s.rdbufsz
    omega

theorem Roomy.advance (h : Roomy s) (len : ℕ) : Roomy (s.advance len) := by
  refine Roomy.raising h.size h.below h.expect ?_ rfl
  unfold Conn.advance
  simp only
  split_ifs
  · exact Nat.zero_le _
  · exact h.used

theorem Roomy.step {a : Act} (h : Roomy s) (hs : s.step a = some s') : Roomy s' := by
  cases a with
  | readyRead =>
    simp only [Conn.step] at hs
    split_ifs at hs with hidle hzero
    all_goals
      obtain rfl := Option.some.inj hs
      exact h.same (by simp [hidle.1, Conn.doread]) h.expect rfl rfl fun _ hz =>
        ⟨atRest_of_nil hidle.1, hz⟩
  | readyWrite =>
    simp only [Conn.step] at hs
    split_ifs at hs with hidle
    obtain rfl := Option.some.inj hs
    exact h.same List.not_mem_nil h.expect rfl rfl fun _ hz => ⟨atRest_of_nil hidle.1, hz⟩
  | readData bs =>
    simp only [Conn.step] at hs
    split at hs
    · next rest hf =>
      split_ifs at hs with hlen
      obtain rfl := Option.some.inj hs
      exact h.append hf hlen.2
    · cases hs
  | readBlocks want =>
    simp only [Conn.step] at hs
    split at hs
    · next rest hf =>
      obtain rfl := Option.some.inj hs
      exact h.return hf Frame.noConfusion (fun _ => Frame.noConfusion) (.inl rfl) rfl rfl rfl rfl
    · cases hs
  | readFails =>
    simp only [Conn.step] at hs
    split at hs
    · next rest hf =>
      obtain rfl := Option.some.inj hs
      exact h.return hf Frame.noConfusion (fun _ => Frame.noConfusion) (.inl rfl) rfl rfl rfl rfl
    · cases hs
  | loop =>
    simp only [Conn.step] at hs
    split at hs
    · split_ifs at hs with hpos
      obtain rfl := Option.some.inj hs
      exact h.pass
    · cases hs
  | handlersReturn =>
    simp only [Conn.step] at hs
    split at hs
    · obtain rfl := Option.some.inj hs
      exact h.advance _
    · cases hs
  | proceed =>
    simp only [Conn.step] at hs
    split at hs
    · next again rest hf =>
      obtain rfl := Option.some.inj hs
      unfold Conn.afterRead
      simp only
      split_ifs
      · exact h.return hf Frame.noConfusion (fun _ => Frame.noConfusion) (.inr rfl) rfl rfl rfl rfl
      · exact h.return hf Frame.noConfusion (fun _ => Frame.noConfusion) (.inl rfl) rfl rfl rfl rfl
    · next rest hf =>
      obtain rfl := Option.some.inj hs
      split_ifs
      · exact h.return hf Frame.noConfusion (fun _ => Frame.noConfusion) (.inr rfl) rfl rfl rfl rfl
      · exact h.return hf Frame.noConfusion (fun _ => Frame.noConfusion) (.inl rfl) rfl rfl rfl rfl
    · cases hs
  | receiveBinary expected =>
    simp only [Conn.step] at hs
    split_ifs at hs with huser
    obtain rfl := Option.some.inj hs
    exact h.receiveBinary expected
  | receiveText locator =>
    simp only [Conn.step] at hs
    split_ifs at hs with huser
    obtain rfl := Option.some.inj hs
    exact h.same h.below h.expect rfl rfl fun hr hz => ⟨hr, hz⟩
  | receiveLine =>
    simp only [Conn.step] at hs
    split_ifs at hs with huser
    obtain rfl := Option.some.inj hs
    exact h.same h.below h.expect rfl rfl fun hr hz => ⟨hr, hz⟩
  | markHandling =>
    simp only [Conn.step] at hs
    split at hs
    · obtain rfl := Option.some.inj hs
      exact ⟨h.size, h.below, h.expect, h.used, fun _ hz => absurd hz (Nat.succ_ne_zero _)⟩
    · cases hs
  | confirmDataReceived =>
    simp only [Conn.step] at hs
    split_ifs at hs with huser
    obtain rfl := Option.some.inj hs
    exact h.confirmDataReceived huser
  | close =>
    simp only [Conn.step] at hs
    split_ifs at hs with huser
    obtain rfl := Option.some.inj hs
    exact h.same h.below h.expect rfl rfl fun hr hz => ⟨hr, hz⟩

/-! ## Where a read begins -/

theorem not_reading_of_mem {l : List Frame} (h : .reading ∉ l) (hf : l = .reading :: rest) :
    False :=
  h (hf ▸ List.mem_cons_self)

/-- The loop of `raisereceivedevents` does not lead to a read. -/
theorem frames_pass (s : Conn) : s.pass.frames = s.frames.tail ∨
    ∃ len, s.pass.frames = .handlers len :: s.frames.tail := by
  have hrestore : s.restoreText.frames = s.frames := by
    unfold Conn.restoreText
    split <;> rfl
  unfold Conn.pass
  split
  · exact .inl rfl
  · rw [← hrestore]
    generalize s.restoreText = t
    dsimp only
    split
    · split
      · exact .inl rfl
      · split
        · exact .inr ⟨_, rfl⟩
        · exact .inl rfl
    · split
      · exact .inr ⟨_, rfl⟩
      · exact .inl rfl

/-- A step after which `doread` is about to read has it checked that nothing is handled, or is one of
the two that do not. -/
theorem handling_of_reading {a : Act} (h : Roomy s) (hc : Checked s a) (hs : s.step a = some s')
    (hf : s'.frames = .reading :: rest) : s'.args.handling = 0 := by
  have huser : ∀ {t : Conn}, s.atUser = true → t.frames = s.frames → t.frames = .reading :: rest →
      False := fun hu ht hr => not_reading_of_mem (not_mem_atUser h hu) (ht.symm.trans hr)
  cases a with
  | readyRead =>
    simp only [Conn.step] at hs
    split_ifs at hs with hidle hzero
    · obtain rfl := Option.some.inj hs
      rw [hidle.1] at hf
      cases hf
    · obtain rfl := Option.some.inj hs
      exact not_not.1 hzero
  | readyWrite =>
    simp only [Conn.step] at hs
    split_ifs at hs with hidle
    obtain rfl := Option.some.inj hs
    exact hc hidle.2.2
  | readData bs =>
    simp only [Conn.step] at hs
    split at hs
    · split_ifs at hs
      obtain rfl := Option.some.inj hs
      cases hf
    · cases hs
  | readBlocks want =>
    simp only [Conn.step] at hs
    split at hs
    · next rest' hf' =>
      obtain rfl := Option.some.inj hs
      exact (not_reading_of_mem (not_mem_rest h hf') hf).elim
    · cases hs
  | readFails =>
    simp only [Conn.step] at hs
    split at hs
    · next rest' hf' =>
      obtain rfl := Option.some.inj hs
      exact (not_reading_of_mem (not_mem_rest h hf') hf).elim
    · cases hs
  | loop =>
    simp only [Conn.step] at hs
    split at hs
    · split_ifs at hs
      obtain rfl := Option.some.inj hs
      rcases frames_pass s with htail | ⟨len, hraise⟩
      · exact (not_reading_of_mem h.below (htail.symm.trans hf)).elim
      · cases hraise.symm.trans hf
    · cases hs
  | handlersReturn =>
    simp only [Conn.step] at hs
    split at hs
    · obtain rfl := Option.some.inj hs
      cases hf
    · cases hs
  | proceed =>
    simp only [Conn.step] at hs
    split at hs
    · next again rest' hf' =>
      obtain rfl := Option.some.inj hs
      unfold Conn.afterRead at hf ⊢
      simp only at hf ⊢
      split_ifs at hf ⊢ with hread
      · exact hread.2
      · exact (not_reading_of_mem (not_mem_rest h hf') hf).elim
    · next rest' hf' =>
      obtain rfl := Option.some.inj hs
      split_ifs at hf ⊢ with hagain
      · exact hc rest' hf' hagain
      · exact (not_reading_of_mem (not_mem_rest h hf') hf).elim
    · cases hs
  | receiveBinary expected =>
    simp only [Conn.step] at hs
    split_ifs at hs with hu
    obtain rfl := Option.some.inj hs
    refine (huser hu ?_ hf).elim
    unfold Conn.receiveBinary
    split <;> rfl
  | receiveText locator =>
    simp only [Conn.step] at hs
    split_ifs at hs with hu
    obtain rfl := Option.some.inj hs
    exact (huser hu rfl hf).elim
  | receiveLine =>
    simp only [Conn.step] at hs
    split_ifs at hs with hu
    obtain rfl := Option.some.inj hs
    exact (huser hu rfl hf).elim
  | markHandling =>
    simp only [Conn.step] at hs
    split at hs
    · next len rest' hf' =>
      obtain rfl := Option.some.inj hs
      cases hf'.symm.trans hf
    · cases hs
  | confirmDataReceived =>
    simp only [Conn.step] at hs
    split_ifs at hs with hu
    obtain rfl := Option.some.inj hs
    unfold Conn.confirmDataReceived at hf
    split at hf
    · exact (huser hu rfl hf).elim
    · dsimp only at hf
      split at hf
      · exact (huser hu rfl hf).elim
      · cases hf
  | close =>
    simp only [Conn.step] at hs
    split_ifs at hs with hu
    obtain rfl := Option.some.inj hs
    exact (huser hu rfl hf).elim

theorem reads_iff {a : Act} (h : Roomy s) (hs : s.step a = some s') : Reads s' ↔ Checked s a := by
  constructor
  · intro hr
    cases a with
    | readyWrite =>
      intro _
      simp only [Conn.step] at hs
      split_ifs at hs with hidle
      obtain rfl := Option.some.inj hs
      exact (hr [] rfl).2
    | proceed =>
      intro rest hf hagain
      simp only [Conn.step, hf, hagain, if_true] at hs
      obtain rfl := Option.some.inj hs
      exact (hr rest rfl).2
    | _ => trivial
  · intro hc rest hf
    have hzero := handling_of_reading h hc hs hf
    have hrest := atRest_of_frames hf Frame.noConfusion fun _ => Frame.noConfusion
    exact ⟨(h.step hs).room hrest hzero, hzero⟩

/-! ## Runs -/

theorem roomy_of_reachable {tls : Bool} {rdbufsz : ℕ} (hsz : 1 ≤ rdbufsz)
    (h : (machine tls rdbufsz).Reachable s) : Roomy s := by
  apply h.invariant
  · rintro _ ⟨mem, rfl⟩
    exact ⟨hsz, List.not_mem_nil, Nat.zero_le _, Nat.zero_le _, fun _ _ => hsz⟩
  · intro s a s' hi _ hs
    exact hi.step hs

/-- In every run in which the two calls of `doread` that do not look at the marks come while nothing is
being handled, all reads have room and come while nothing is being handled; and the next step keeps
it so if and only if it is one of these. -/
theorem reads_have_room {tls : Bool} {rdbufsz : ℕ} (hsz : 1 ≤ rdbufsz)
    (h : (machine tls rdbufsz).Run Checked s) :
    Reads s ∧ ∀ a s', s.step a = some s' → (Reads s' ↔ Checked s a) := by
  have hroomy := roomy_of_reachable hsz h.reachable
  refine ⟨?_, fun a s' hs => reads_iff hroomy hs⟩
  cases h with
  | init h =>
    obtain ⟨mem, rfl⟩ := h
    intro rest hf
    cases hf
  | step hrun hok hs => exact (reads_iff (roomy_of_reachable hsz hrun.reachable) hs).2 hok

/-- A sound test for `Checked` -/
def checkedTest (s : Conn) : Act → Bool
  | .readyWrite => s.args.handling = 0
  | .proceed =>
    match s.frames with
    | .confirming :: _ => s.args.handling = 0
    | _ => true
  | _ => true

theorem checked_of_test (s : Conn) (a : Act) (h : checkedTest s a = true) : Checked s a := by
  cases a with
  | readyWrite => exact fun _ => of_decide_eq_true h
  | proceed =>
    intro rest hf _
    simp only [checkedTest, hf] at h
    exact of_decide_eq_true h
  | _ => trivial

/-- Four bytes fill the buffer and are marked, and their confirmation has TLS read again. -/
theorem reads_have_room_confirmed : ∃ s, (machine true 4).Run Checked s ∧ s.frames = [.reading] ∧
    Reads s := by
  have hrun : ((machine true 4).execOk checkedTest
      [.readyRead, .readData [97, 98, 99, 100], .loop, .markHandling, .handlersReturn, .loop,
        .proceed, .confirmDataReceived, .loop, .proceed]
      (.create true 4 fun _ => 0)).any (fun s => decide (s.frames = [.reading])) = true := by
    decide +kernel
  obtain ⟨s, hs, hend⟩ := Machine.exists_run (init_create _ _) checked_of_test hrun
  exact ⟨s, hs, of_decide_eq_true hend, (reads_have_room (by decide) hs).1⟩

/-- Three messages of two bytes fill the buffer.  The first is marked, and after its confirmation the
second is: the third is left where it is, and the buffer is full when TLS reads again. -/
theorem reads_full : ∃ s, (machine true 6).Reachable s ∧ s.frames = [.reading] ∧
    s.rdbufused = s.rdbufsz ∧ s.args.handling = 1 ∧ ¬ Reads s := by
  have hrun : ((machine true 6).exec
      [.receiveBinary 2, .readyRead, .readData [97, 98, 99, 100, 101, 102], .loop, .markHandling,
        .handlersReturn, .loop, .proceed, .confirmDataReceived, .loop, .markHandling,
        .handlersReturn, .loop, .proceed]
      (.create true 6 fun _ => 0)).any (fun s => decide (s.frames = [.reading] ∧
        s.rdbufused = s.rdbufsz ∧ s.args.handling = 1)) = true := by
    decide +kernel
  obtain ⟨s, hs, hend⟩ := Machine.exists_reachable (init_create _ _) hrun
  obtain ⟨hframes, hfull, hmarked⟩ := of_decide_eq_true hend
  refine ⟨s, hs, hframes, hfull, hmarked, fun hr => ?_⟩
  exact Nat.lt_irrefl _ (hfull ▸ (hr [] hframes).1)

end PoserCore.Connection.Receive
