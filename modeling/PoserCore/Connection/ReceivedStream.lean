import PoserCore.Connection.Unread

/-!
# The received stream

When nobody confirms inside a handler, the data of the events and the NULs skipped in text mode, in
their order, are the bytes that were read, up to those that are still unread.  `Moves` says what a
step does with the queue of unread bytes; the theorem is an induction over runs from it.
-/

namespace PoserCore.Connection.Receive

open Lib (Machine)
open Lib.Buffer

variable {s s' : Conn} {a : Act} {rest : List Frame}

/-- Confirmations come from outside of the handlers, and locators return nothing or a position after
the start and not past the end. -/
def Orderly (s : Conn) : Act → Prop
  | .confirmDataReceived => s.frames = []
  | .receiveText locator => Locates locator
  | _ => True

/-! ## The line locator -/

theorem strstr_le {str pat : List UInt8} {i : ℕ} (h : strstr str pat = some i) :
    i + pat.length ≤ str.length := by
  induction str generalizing i with
  | nil =>
    unfold strstr at h
    split at h
    · next hp =>
      obtain rfl := Option.some.inj h
      simp [hp]
    · cases h
  | cons c cs ih =>
    unfold strstr at h
    split at h
    · next hp =>
      obtain rfl := Option.some.inj h
      have hpre : pat <+: c :: cs := List.isPrefixOf_iff_prefix.1 hp
      simpa using hpre.length_le
    · obtain ⟨j, hj, rfl⟩ := Option.map_eq_some_iff.1 h
      have := ih hj
      simp only [List.length_cons]
      omega

theorem strchr_lt {str : List UInt8} {c : UInt8} {i : ℕ} (h : strchr str c = some i) :
    i < str.length := by
  obtain ⟨hi, -⟩ := List.findIdx?_eq_some_iff_getElem.1 h
  exact hi

theorem locates_locateeol : Locates locateeol := by
  intro str len h
  unfold locateeol at h
  split at h
  · next i hi =>
    obtain rfl := Option.some.inj h
    have := strstr_le hi
    simp only [List.length_cons, List.length_nil] at this
    omega
  · split at h
    · next i hi =>
      obtain rfl := Option.some.inj h
      exact ⟨Nat.succ_pos i, strchr_lt hi⟩
    · obtain ⟨i, hi, rfl⟩ := Option.map_eq_some_iff.1 h
      exact ⟨Nat.succ_pos i, strchr_lt hi⟩

/-! ## Steps on the queue -/

/-- Nothing is being handled, and `raisereceivedevents` has taken what it could. -/
def Conn.rests (self : Conn) : Bool :=
  decide (self.args.handling = 0) &&
    match self.frames with
    | .looping :: _ => false
    | .handlers _ :: _ => false
    | _ => true

/-- What a step does with the queue. -/
inductive Moves (s s' : Conn) : Prop
  | reads (bs : List UInt8) (hreceived : s'.received = s.received ++ bs) (hlog : s'.log = s.log)
      (hunread : s'.unread = s.unread ++ bs) (hrests : s'.rests = false)
  | passes (hreceived : s'.received = s.received) (hpass : Pass s s')
      (hhandling : s'.args.handling = s.args.handling)
  | idles (hreceived : s'.received = s.received) (hlog : s'.log = s.log)
      (hunread : s'.unread = s.unread)
      (hrests : s'.rests = true → s.rests = true ∧ s'.rdbufpos = s.rdbufpos)

/-- The parts of the state that the queue is read off, but for the frames. -/
def Conn.content (self : Conn) : ℕ × ℕ × ℕ × (ℕ → UInt8) × UInt8 × List UInt8 × List Item :=
  (self.rdbufsz, self.rdbufused, self.rdbufpos, self.rdbuf, self.rdtextsave, self.received, self.log)

theorem unread_of_content (hc : s'.content = s.content) (hfront : s'.front = s.front) :
    s'.unread = s.unread := by
  obtain ⟨-, hused, -, hbuf, hsave, -⟩ := by
    simpa only [Conn.content, Prod.mk.injEq] using hc
  unfold Conn.unread Conn.mended
  rw [hfront, hused, hbuf, hsave]

/-- A step that changes neither the buffer nor the front of the queue. -/
theorem Layout.idles (h : Layout s) (hc : s'.content = s.content) (hfront : s'.front = s.front)
    (hw : ∀ f ∈ s'.frames.tail, f.waits) (hl : ∀ locator ∈ s'.rdlocator, Locates locator)
    (hr : s'.rests = true → s.rests = true) : Layout s' ∧ Moves s s' := by
  obtain ⟨hsz, hused, hpos, hbuf, hsave, hrec, hlog⟩ := by
    simpa only [Conn.content, Prod.mk.injEq] using hc
  refine ⟨⟨?_, ?_, ?_, ?_, hw, hl⟩,
    .idles hrec hlog (unread_of_content hc hfront) fun h' => ⟨hr h', hpos⟩⟩
  · rw [hused, hsz]
    exact h.used_le
  · rw [hfront, hused]
    exact h.front_le
  · rw [hused, hbuf]
    exact h.terminated
  · rw [hsave, hfront, hused]
    exact h.saved

/-- A step between frames that are no handlers. -/
theorem Layout.goes (h : Layout s) (hc : s'.content = s.content)
    (hloc : s'.rdlocator = s.rdlocator) (hf : s.front = s.rdbufpos) (hf' : s'.front = s'.rdbufpos)
    (hw : ∀ f ∈ s'.frames.tail, f.waits) (hr : s'.rests = true → s.rests = true) :
    Layout s' ∧ Moves s s' := by
  have hpos : s'.rdbufpos = s.rdbufpos := by
    obtain ⟨-, -, hpos, -⟩ := by simpa only [Conn.content, Prod.mk.injEq] using hc
    exact hpos
  refine h.idles hc ?_ hw ?_ hr
  · rw [hf', hpos, hf]
  · rw [hloc]
    exact h.locates

theorem Layout.waits_of_cons {f : Frame} (h : Layout s) (hf : s.frames = f :: rest) :
    ∀ g ∈ rest, g.waits := by
  have hw := h.waits
  rw [hf] at hw
  exact hw

theorem handling_of_rests (h : s.rests = true) : s.args.handling = 0 := by
  unfold Conn.rests at h
  exact of_decide_eq_true (Bool.and_eq_true_iff.1 h).1

/-- Outside of the loop only the marks decide whether a connection rests. -/
theorem rests_of_outside
    (hf : s.frames = [] ∨ ∃ f rest, s.frames = f :: rest ∧ (f = .reading ∨ f.waits))
    (hh : s'.args.handling = s.args.handling) (hr : s'.rests = true) : s.rests = true := by
  have h0 : s.args.handling = 0 := hh ▸ handling_of_rests hr
  unfold Conn.rests
  rw [decide_eq_true h0, Bool.true_and]
  rcases hf with hf | ⟨f, rest, hf, hw⟩
  · rw [hf]
  · cases f with
    | reading => rw [hf]
    | tlsRead again => rw [hf]
    | confirming => rw [hf]
    | looping => simp [Frame.waits] at hw
    | handlers len => simp [Frame.waits] at hw

/-- A frame outside of the loop is done, and the ones below it go on. -/
theorem Layout.returns {f : Frame} (h : Layout s) (hf : s.frames = f :: rest)
    (hout : f = .reading ∨ f.waits) (hf' : s'.frames = rest) (hc : s'.content = s.content)
    (hloc : s'.rdlocator = s.rdlocator) (hh : s'.args.handling = s.args.handling) :
    Layout s' ∧ Moves s s' := by
  have hw : ∀ g ∈ s'.frames, g.waits := hf' ▸ h.waits_of_cons hf
  have hfront : s.front = s.rdbufpos := by
    rw [Conn.front, hf]
    cases f with
    | handlers len => simp [Frame.waits] at hout
    | _ => rfl
  exact h.goes hc hloc hfront (front_of_waits hw) (fun g hm => hw g (List.mem_of_mem_tail hm))
    (rests_of_outside (.inr ⟨f, rest, hf, hout⟩) hh)

theorem Layout.step (h : Layout s) (ho : Orderly s a) (hs : s.step a = some s') :
    Layout s' ∧ Moves s s' := by
  cases a with
  | readyRead =>
    simp only [Conn.step] at hs
    split at hs
    · next hg =>
      have hfront : s.front = s.rdbufpos := by rw [Conn.front, hg.1]
      split at hs <;> cases hs
      · exact h.goes rfl rfl hfront hfront h.waits id
      · exact h.goes rfl rfl hfront rfl (by simp [Conn.doread])
          (rests_of_outside (.inl hg.1) rfl)
    · cases hs
  | readyWrite =>
    simp only [Conn.step] at hs
    split at hs <;> cases hs
    next hg =>
    have hfront : s.front = s.rdbufpos := by rw [Conn.front, hg.1]
    exact h.goes rfl rfl hfront rfl (by simp [Conn.doread])
      (rests_of_outside (.inl hg.1) rfl)
  | readData bs =>
    simp only [Conn.step] at hs
    split at hs
    · next hf =>
      split at hs <;> cases hs
      next hbs =>
      exact ⟨h.append hf hbs.2, .reads bs rfl rfl (h.unread_append hf) (Bool.and_false _)⟩
    · cases hs
  | readBlocks want =>
    simp only [Conn.step] at hs
    split at hs <;> cases hs
    next hf => exact h.returns hf (.inl rfl) rfl rfl rfl rfl
  | readFails =>
    simp only [Conn.step] at hs
    split at hs <;> cases hs
    next hf => exact h.returns hf (.inl rfl) rfl rfl rfl rfl
  | loop =>
    simp only [Conn.step] at hs
    split at hs
    · next hf =>
      split at hs <;> cases hs
      obtain ⟨-, -, hrec, hhand, -⟩ := by
        simpa only [Conn.context, Prod.mk.injEq] using context_pass s
      have hpass := h.pass hf
      exact ⟨hpass.1, .passes hrec hpass.2 hhand⟩
    · cases hs
  | handlersReturn =>
    simp only [Conn.step] at hs
    split at hs <;> cases hs
    next len rest hf =>
    refine ⟨h.advance hf, .idles rfl rfl (unread_advance hf) fun hr => ?_⟩
    have hlooping : (s.advance len).rests = false := Bool.and_false _
    rw [hlooping] at hr
    cases hr
  | proceed =>
    simp only [Conn.step] at hs
    split at hs <;> cases hs
    · next again rest hf =>
      have hw := h.waits_of_cons hf
      have hfront : s.front = s.rdbufpos := by rw [Conn.front, hf]
      unfold Conn.afterRead
      dsimp only
      split
      · exact h.goes rfl rfl hfront rfl hw
          (rests_of_outside (.inr ⟨_, _, hf, .inr rfl⟩) rfl)
      · exact h.returns hf (.inr rfl) rfl rfl rfl rfl
    · next rest hf =>
      have hw := h.waits_of_cons hf
      have hfront : s.front = s.rdbufpos := by rw [Conn.front, hf]
      split
      · exact h.goes rfl rfl hfront rfl hw
          (rests_of_outside (.inr ⟨_, _, hf, .inr rfl⟩) rfl)
      · exact h.returns hf (.inr rfl) rfl rfl rfl rfl
  | receiveBinary expected =>
    simp only [Conn.step] at hs
    split at hs <;> cases hs
    unfold Conn.receiveBinary
    split
    · exact h.idles rfl rfl h.waits h.locates id
    · exact h.idles rfl rfl h.waits (fun _ hm => by cases hm) id
  | receiveText locator =>
    simp only [Conn.step] at hs
    split at hs <;> cases hs
    refine h.idles rfl rfl h.waits (fun l hl => ?_) id
    obtain rfl := Option.some.inj hl
    exact ho
  | receiveLine =>
    simp only [Conn.step] at hs
    split at hs <;> cases hs
    refine h.idles rfl rfl h.waits (fun l hl => ?_) id
    obtain rfl := Option.some.inj hl
    exact locates_locateeol
  | markHandling =>
    simp only [Conn.step] at hs
    split at hs <;> cases hs
    refine h.idles rfl rfl h.waits h.locates fun hr => ?_
    have hmarked : s.markHandling.args.handling = s.args.handling + 1 := rfl
    rw [handling_of_rests hr] at hmarked
    cases hmarked
  | confirmDataReceived =>
    simp only [Conn.step] at hs
    split at hs <;> cases hs
    have hf : s.frames = [] := ho
    have hfront : s.front = s.rdbufpos := by rw [Conn.front, hf]
    unfold Conn.confirmDataReceived
    split
    · exact h.idles rfl rfl h.waits h.locates id
    · dsimp only
      split
      · next hn => exact h.goes rfl rfl hfront hfront h.waits fun hr => absurd (handling_of_rests hr) hn
      · refine h.goes rfl rfl hfront rfl (by simp [hf, Frame.waits]) fun hr => ?_
        have hlooping := (Bool.and_eq_true_iff.1 hr).2
        cases hlooping
  | close =>
    simp only [Conn.step] at hs
    split at hs <;> cases hs
    exact h.idles rfl rfl h.waits h.locates id

theorem Layout.create (tls : Bool) (rdbufsz : ℕ) (mem : ℕ → UInt8) :
    Layout (.create tls rdbufsz mem) where
  used_le := Nat.zero_le _
  front_le := Nat.le_refl 0
  terminated h := absurd rfl h
  saved h := absurd rfl h
  waits _ hm := by cases hm
  locates _ hm := by cases hm

/-! ## Runs -/

/-- The bytes of the stream that an item accounts for. -/
def Item.bytes : Item → List UInt8
  | .binary _ data => data
  | .text data => data
  | .skipped nuls => List.replicate nuls 0

/-- The items account for the stream up to the unread bytes, and data of an expected size has it. -/
structure Streams (s : Conn) : Prop where
  stream : s.log.flatMap Item.bytes ++ s.unread = s.received
  sized : ∀ expected data, .binary expected data ∈ s.log → expected ≠ 0 → data.length = expected

/-- New items that are the front of the queue. -/
theorem Streams.takes {items : List Item} (h : Streams s) (hrec : s'.received = s.received)
    (hlog : s'.log = s.log ++ items) (hunread : items.flatMap Item.bytes ++ s'.unread = s.unread)
    (hsized : ∀ expected data, .binary expected data ∈ items → expected ≠ 0 →
      data.length = expected) : Streams s' := by
  refine ⟨?_, fun expected data hm hne => ?_⟩
  · rw [hrec, hlog, List.flatMap_append, List.append_assoc, hunread]
    exact h.stream
  · rw [hlog] at hm
    rcases List.mem_append.1 hm with hm | hm
    · exact h.sized expected data hm hne
    · exact hsized expected data hm hne

theorem Streams.same (h : Streams s) (hrec : s'.received = s.received) (hlog : s'.log = s.log)
    (hunread : s'.unread = s.unread) : Streams s' := by
  refine ⟨?_, hlog ▸ h.sized⟩
  rw [hrec, hlog, hunread]
  exact h.stream

theorem Streams.pass (h : Streams s) (hrec : s'.received = s.received) (hp : Pass s s') :
    Streams s' := by
  have hskip := eq_replicate_append_stripped s.unread
  cases hp with
  | stops _ _ hlog hunread _ =>
    exact h.same hrec hlog hunread
  | waitsText locator _ _ _ hlog hunread _ =>
    refine h.takes hrec hlog ?_ (by simp)
    rw [hunread]
    simpa [Item.bytes] using hskip.symm
  | text locator len _ _ _ _ hlog hunread =>
    rw [List.append_assoc] at hlog
    refine h.takes hrec hlog ?_ (by simp)
    rw [hunread]
    simpa [Item.bytes] using hskip.symm
  | waitsBinary _ _ hlog hunread =>
    exact h.same hrec hlog hunread
  | binary len _ hcond _ hlog hunread =>
    refine h.takes hrec hlog ?_ fun expected data hm hne => ?_
    · rw [hunread]
      simp [Item.bytes]
    · obtain ⟨rfl, rfl⟩ := by simpa using hm
      have hlen := binaryLen_le hcond
      rw [List.length_take, Nat.min_eq_left hlen.1, hlen.2 hne]

theorem Streams.moves (h : Streams s) (hm : Moves s s') : Streams s' := by
  cases hm with
  | reads bs hrec hlog hunread _ =>
    refine ⟨?_, hlog ▸ h.sized⟩
    rw [hrec, hlog, hunread, ← List.append_assoc, h.stream]
  | passes hrec hpass _ => exact h.pass hrec hpass
  | idles hrec hlog hunread _ => exact h.same hrec hlog hunread

/-- In every run in which nobody confirms inside a handler, the data of the events and the NULs
skipped in text mode, in their order, and then the bytes still unread in the buffer are the bytes
that were received; and data of an expected size has that size. -/
theorem received_stream {tls : Bool} {rdbufsz : ℕ} (h : (machine tls rdbufsz).Run Orderly s) :
    s.log.flatMap Item.bytes ++ s.unread = s.received ∧
      ∀ expected data, .binary expected data ∈ s.log → expected ≠ 0 → data.length = expected := by
  have hinv : Layout s ∧ Streams s := by
    refine h.invariant (I := fun s => Layout s ∧ Streams s) ?_ ?_
    · rintro _ ⟨mem, rfl⟩
      exact ⟨.create .., rfl, fun _ _ hm => by cases hm⟩
    · rintro s a s' ⟨hlayout, hstreams⟩ ho hs
      obtain ⟨hlayout', hmoves⟩ := hlayout.step ho hs
      exact ⟨hlayout', hstreams.moves hmoves⟩
  exact ⟨hinv.2.stream, hinv.2.sized⟩

/-- A test for steps without locators of the user. -/
def Act.orderly (s : Conn) : Act → Bool
  | .confirmDataReceived => s.frames = []
  | .receiveText _ => false
  | _ => true

theorem orderly_sound (h : a.orderly s = true) : Orderly s a := by
  cases a with
  | confirmDataReceived => simpa [Orderly, Act.orderly] using h
  | receiveText locator => cases h
  | _ => trivial

/-- A line is marked as being handled and the mode switched to two bytes; confirmed from outside,
the next two bytes are delivered, and the mode is switched back before a NUL. -/
theorem received_stream_switched : ∃ s : Conn,
    (s.log = [.skipped 0, .text [97, 10], .binary 2 [98, 10], .skipped 1] ∧
      s.received = [97, 10, 98, 10, 0, 99]) ∧
    s.log.flatMap Item.bytes ++ s.unread = s.received ∧
      ∀ expected data, .binary expected data ∈ s.log → expected ≠ 0 → data.length = expected := by
  have hrun : ((machine false 8).execOk (fun s a => a.orderly s)
      [.receiveLine, .readyRead, .readData [97, 10, 98, 10, 0, 99], .loop, .markHandling,
        .receiveBinary 2, .handlersReturn, .loop, .confirmDataReceived, .loop, .receiveLine,
        .handlersReturn, .loop, .proceed]
      (.create false 8 fun _ => 0)).any (fun s =>
        decide (s.log = [.skipped 0, .text [97, 10], .binary 2 [98, 10], .skipped 1] ∧
          s.received = [97, 10, 98, 10, 0, 99])) = true := by
    decide +kernel
  obtain ⟨s, hs, hend⟩ := Machine.exists_run (init_create _ _) (fun _ _ => orderly_sound) hrun
  exact ⟨s, of_decide_eq_true hend, received_stream hs⟩

end PoserCore.Connection.Receive
