import PoserCore.Connection.Lines

/-!
# Line mode and packet boundaries

A connection in line mode delivers the strings of the stream, no matter how the stream is split into
reads, exactly for the regular streams.  In one direction an invariant says that what was delivered
and the strings of what is unread are the strings of the stream, for every way it may go on.  In the
other, a stream is fed string by string; where it is not regular, one or two reads deliver something
else than its strings.
-/

namespace PoserCore.Connection.Receive

open Lib (Machine)

variable {tls : Bool} {n : ℕ} {s s' : Conn} {a : Act} {rest : List Frame}
variable {v w f body : List UInt8}

/-- A connection that receives lines from the start. -/
def lineMachine (tls : Bool) (rdbufsz : ℕ) : Machine Conn Act where
  init s := ∃ mem, s = (Conn.create tls rdbufsz mem).receiveLine
  step := Conn.step

theorem init_receiveLine (tls : Bool) (rdbufsz : ℕ) :
    (lineMachine tls rdbufsz).init (Conn.create tls rdbufsz fun _ => 0).receiveLine := ⟨_, rfl⟩

/-- The mode stays, and confirmations come from outside of the handlers. -/
def LineOnly (s : Conn) : Act → Prop
  | .receiveBinary _ => False
  | .receiveText _ => False
  | .confirmDataReceived => s.frames = []
  | _ => True

theorem LineOnly.orderly (h : LineOnly s a) : Orderly s a := by
  cases a with
  | confirmDataReceived => exact h
  | receiveText locator => exact h.elim
  | _ => trivial

def Item.string? : Item → Option (List UInt8)
  | .text data => some data
  | _ => none

/-- The strings delivered so far. -/
def Conn.delivered (self : Conn) : List (List UInt8) := self.log.filterMap Item.string?

/-- No function of the connection is running and nothing is being handled. -/
def Conn.Idle (self : Conn) : Prop := self.frames = [] ∧ self.args.handling = 0

/-- No string can be taken from what has arrived. -/
def Stuck (n : ℕ) (w : List UInt8) : Prop :=
  stripped w = [] ∨ textLen locateeol n (stripped w) = none

/-! ## What every run keeps -/

/-- However the stream goes on, its strings are those delivered and those of what is unread and what
follows; and a connection that rests has taken all it could. -/
structure Follows (n : ℕ) (s : Conn) : Prop where
  layout : Layout s
  size : s.rdbufsz = n
  mode : s.rdlocator = some locateeol
  strings : ∀ f, Regular n (s.received ++ f) →
    lines n (s.received ++ f) = s.delivered ++ lines n (s.unread ++ f) ∧ Regular n (s.unread ++ f)
  settled : s.rests = true → s.rdbufpos = 0 ∧ Stuck n s.unread

theorem step_mode (ho : LineOnly s a) (hm : s.rdlocator = some locateeol)
    (hs : s.step a = some s') : s'.rdbufsz = s.rdbufsz ∧ s'.rdlocator = some locateeol := by
  cases a with
  | receiveBinary expected => cases ho
  | receiveText locator => cases ho
  | loop =>
    simp only [Conn.step] at hs
    split at hs
    · split at hs <;> cases hs
      obtain ⟨hsz, hloc, -⟩ := by simpa only [Conn.context, Prod.mk.injEq] using context_pass s
      exact ⟨hsz, hloc.trans hm⟩
    · cases hs
  | readyRead =>
    simp only [Conn.step] at hs
    split at hs
    · split at hs <;> cases hs
      · exact ⟨rfl, hm⟩
      · exact ⟨rfl, hm⟩
    · cases hs
  | readData bs =>
    simp only [Conn.step] at hs
    split at hs
    · split at hs <;> cases hs
      exact ⟨rfl, hm⟩
    · cases hs
  | proceed =>
    simp only [Conn.step] at hs
    split at hs <;> cases hs
    · unfold Conn.afterRead
      dsimp only
      split
      · exact ⟨rfl, hm⟩
      · exact ⟨rfl, hm⟩
    · split
      · exact ⟨rfl, hm⟩
      · exact ⟨rfl, hm⟩
  | receiveLine =>
    simp only [Conn.step] at hs
    split at hs <;> cases hs
    exact ⟨rfl, rfl⟩
  | confirmDataReceived =>
    simp only [Conn.step] at hs
    split at hs <;> cases hs
    unfold Conn.confirmDataReceived
    split
    · exact ⟨rfl, hm⟩
    · dsimp only
      split
      · exact ⟨rfl, hm⟩
      · exact ⟨rfl, hm⟩
  | _ =>
    simp only [Conn.step] at hs
    split at hs <;> cases hs
    exact ⟨rfl, hm⟩

theorem stripped_append_stripped (w f : List UInt8) :
    stripped (stripped w ++ f) = stripped (w ++ f) := by
  by_cases h : stripped w = []
  · rw [h, stripped_append_nil h]
    rfl
  · rw [stripped_append h, stripped_append (by rwa [stripped_stripped]), stripped_stripped]

theorem head_stripped (w : List UInt8) : (stripped w).head? ≠ some 0 := by
  by_cases h : stripped w = []
  · rw [h]
    exact fun h => nomatch h
  · obtain ⟨c, t, hw, hc⟩ := exists_cons_of_stripped h
    rw [hw]
    simpa using hc

theorem stuck_nil : Stuck n [] := .inl rfl

theorem Stuck.stripped (h : Stuck n w) : Stuck n (stripped w) := by
  unfold Stuck
  rw [stripped_stripped]
  exact h

theorem Follows.length_unread_le (h : Follows n s) : (stripped s.unread).length ≤ n := by
  have hle := length_stripped_le s.unread
  have hused := h.layout.used_le
  rw [length_unread] at hle
  rw [h.size] at hused
  omega

/-- Taking the next string keeps the strings of the stream together. -/
theorem Follows.strings_text {len : ℕ} (h : Follows n s) (hne : stripped s.unread ≠ [])
    (hcond : textLen locateeol n (stripped s.unread) = some len)
    (hrec : s'.received = s.received)
    (hdel : s'.delivered = s.delivered ++ [(stripped s.unread).take len])
    (hunread : s'.unread = (stripped s.unread).drop len) (f : List UInt8)
    (hr : Regular n (s'.received ++ f)) :
    lines n (s'.received ++ f) = s'.delivered ++ lines n (s'.unread ++ f) ∧
      Regular n (s'.unread ++ f) := by
  rw [hrec] at hr ⊢
  obtain ⟨hlines, hreg⟩ := h.strings f hr
  rw [lines_congr (stripped_append_stripped s.unread f).symm] at hlines
  rw [regular_congr (stripped_append_stripped s.unread f).symm] at hreg
  rcases next_of_regular (head_stripped _) hne h.length_unread_le hreg with
    ⟨len', -, htext, hfirst, hnext⟩ | ⟨hnone, -⟩
  · obtain rfl := Option.some.inj (hcond.symm.trans htext)
    rw [hlines, hdel, hunread, hfirst, List.append_assoc]
    exact ⟨rfl, hnext⟩
  · rw [hcond] at hnone
    cases hnone

theorem Follows.pass (h : Follows n s) (hlayout : Layout s') (hsize : s'.rdbufsz = n)
    (hmode : s'.rdlocator = some locateeol) (hrec : s'.received = s.received)
    (hhand : s'.args.handling = s.args.handling) (hp : Pass s s') : Follows n s' := by
  cases hp with
  | stops hcond _ hlog hunread hpos =>
    refine ⟨hlayout, hsize, hmode, ?_, fun hr => ⟨hpos (by rw [h.mode]; rfl), ?_⟩⟩
    · unfold Conn.delivered
      rw [hrec, hlog, hunread]
      exact h.strings
    · rcases hcond with hcond | hnil
      · exact absurd (hhand ▸ handling_of_rests hr) hcond
      · rw [hunread, hnil]
        exact stuck_nil
  | waitsText locator hloc hcond _ hlog hunread hpos =>
    obtain rfl := Option.some.inj (hloc.symm.trans h.mode)
    rw [h.size] at hcond
    have hdel : s'.delivered = s.delivered := by
      unfold Conn.delivered
      rw [hlog, List.filterMap_append]
      exact List.append_nil _
    refine ⟨hlayout, hsize, hmode, fun f hr => ?_, fun _ => ⟨hpos, ?_⟩⟩
    · rw [hrec] at hr ⊢
      rw [hdel, hunread, lines_congr (stripped_append_stripped _ _),
        regular_congr (stripped_append_stripped _ _)]
      exact h.strings f hr
    · rw [hunread]
      exact Stuck.stripped hcond
  | text locator len hloc hne hcond hframes hlog hunread =>
    obtain rfl := Option.some.inj (hloc.symm.trans h.mode)
    rw [h.size] at hcond
    have hdel : s'.delivered = s.delivered ++ [(stripped s.unread).take len] := by
      unfold Conn.delivered
      rw [hlog, List.append_assoc, List.filterMap_append]
      rfl
    refine ⟨hlayout, hsize, hmode, h.strings_text hne hcond hrec hdel hunread, fun hr => ?_⟩
    unfold Conn.rests at hr
    rw [hframes, Bool.and_false] at hr
    cases hr
  | waitsBinary hloc =>
    rw [h.mode] at hloc
    cases hloc
  | binary len hloc =>
    rw [h.mode] at hloc
    cases hloc

theorem Follows.step (h : Follows n s) (ho : LineOnly s a) (hs : s.step a = some s') :
    Follows n s' := by
  obtain ⟨hlayout, hmoves⟩ := h.layout.step ho.orderly hs
  obtain ⟨hsize, hmode⟩ := step_mode ho h.mode hs
  rw [h.size] at hsize
  cases hmoves with
  | reads bs hrec hlog hunread hrests =>
    refine ⟨hlayout, hsize, hmode, fun f hr => ?_, fun hr => ?_⟩
    · unfold Conn.delivered
      rw [hrec, List.append_assoc] at hr ⊢
      rw [hlog, hunread, List.append_assoc]
      exact h.strings (bs ++ f) hr
    · rw [hrests] at hr
      cases hr
  | passes hrec hpass hhand => exact h.pass hlayout hsize hmode hrec hhand hpass
  | idles hrec hlog hunread hrests =>
    refine ⟨hlayout, hsize, hmode, fun f hr => ?_, fun hr => ?_⟩
    · unfold Conn.delivered
      rw [hrec] at hr ⊢
      rw [hlog, hunread]
      exact h.strings f hr
    · obtain ⟨hold, hpos⟩ := hrests hr
      rw [hpos, hunread]
      exact h.settled hold

theorem follows_of_run (h : (lineMachine tls n).Run LineOnly s) : Follows n s := by
  refine h.invariant (I := Follows n) ?_ fun _ _ _ hi ho hs => hi.step ho hs
  rintro _ ⟨mem, rfl⟩
  have hlayout := Layout.create tls n mem
  refine ⟨⟨hlayout.used_le, hlayout.front_le, hlayout.terminated, hlayout.saved, hlayout.waits, ?_⟩,
    rfl, rfl, fun f hr => ⟨rfl, hr⟩, fun _ => ⟨rfl, .inl rfl⟩⟩
  intro locator hl
  obtain rfl := Option.some.inj hl
  exact locates_locateeol

theorem rests_of_idle (h : s.Idle) : s.rests = true := by
  unfold Conn.rests
  rw [h.1, h.2]
  rfl

/-- What is stuck in the buffer holds no string of a regular stream. -/
theorem lines_stuck (hn : (stripped w).length ≤ n) (hr : Regular n w) (hs : Stuck n w) :
    lines n w = [] := by
  by_cases hnil : stripped w = []
  · exact lines_nil_of_stripped hnil
  have hnone := hs.resolve_left hnil
  rw [regular_congr (stripped_stripped w).symm, ← List.append_nil (stripped w)] at hr
  rcases next_of_regular (head_stripped w) hnil hn hr with ⟨len, -, htext, -⟩ | ⟨-, hlines⟩
  · rw [hnone] at htext
    cases htext
  · rwa [lines_congr (stripped_stripped w)] at hlines

/-- Of a regular stream an idle connection has delivered the strings. -/
theorem delivered_eq_lines (h : (lineMachine tls n).Run LineOnly s) (hi : s.Idle)
    (hr : Regular n s.received) : s.delivered = lines n s.received := by
  have hf := follows_of_run h
  obtain ⟨hlines, hreg⟩ := hf.strings [] (by rwa [List.append_nil])
  rw [List.append_nil, List.append_nil] at hlines
  rw [List.append_nil] at hreg
  rw [hlines, lines_stuck hf.length_unread_le hreg (hf.settled (rests_of_idle hi)).2,
    List.append_nil]

/-! ## Feeding a stream -/

/-- From `w` in the buffer the loop takes the strings `outs` and leaves `left`. -/
inductive Settles (n : ℕ) : List UInt8 → List (List UInt8) → List UInt8 → Prop
  | stuck {w : List UInt8} (h : Stuck n w) : Settles n w [] (stripped w)
  | takes {w left : List UInt8} {outs : List (List UInt8)} {len : ℕ} (hne : stripped w ≠ [])
      (h : textLen locateeol n (stripped w) = some len)
      (hs : Settles n ((stripped w).drop len) outs left) :
      Settles n w ((stripped w).take len :: outs) left

/-- `s'` is reached from `s` by steps that read nothing: the strings `outs` are delivered, `left` is
unread, and the functions `rest` are running. -/
structure Reaches (tls : Bool) (n : ℕ) (s : Conn) (outs : List (List UInt8)) (left : List UInt8)
    (rest : List Frame) (s' : Conn) : Prop where
  run : (lineMachine tls n).Run LineOnly s'
  frames : s'.frames = rest
  handling : s'.args.handling = s.args.handling
  received : s'.received = s.received
  delivered : s'.delivered = s.delivered ++ outs
  unread : s'.unread = left
  deleteScheduled : s'.deleteScheduled = s.deleteScheduled

theorem loop_step (h : Layout s) (hf : s.frames = .looping :: rest) :
    s.step .loop = some s.pass := by
  have hpos : s.rdbufpos ≤ s.rdbufused := front_of_looping hf ▸ h.front_le
  simp only [Conn.step, hf]
  rw [if_neg (by omega)]

/-- A pass in line mode, when nothing is being handled. -/
theorem pass_line (h : (lineMachine tls n).Run LineOnly s) (hf : s.frames = .looping :: rest)
    (hh : s.args.handling = 0) :
    Stuck n s.unread ∧ Reaches tls n s [] (stripped s.unread) rest s.pass ∨
    ∃ len, stripped s.unread ≠ [] ∧ textLen locateeol n (stripped s.unread) = some len ∧
      Reaches tls n s [(stripped s.unread).take len] ((stripped s.unread).drop len)
        (.handlers len :: rest) s.pass := by
  have hfol := follows_of_run h
  have hrun : (lineMachine tls n).Run LineOnly s.pass :=
    .step (a := .loop) h trivial (loop_step hfol.layout hf)
  obtain ⟨-, -, hrec, hhand, -, hdel⟩ := by
    simpa only [Conn.context, Prod.mk.injEq] using context_pass s
  cases (hfol.layout.pass hf).2 with
  | stops hcond hframes hlog hunread _ =>
    have hnil : s.unread = [] := hcond.resolve_left fun hne => hne hh
    rw [hf] at hframes
    refine .inl ⟨hnil ▸ stuck_nil, hrun, hframes, hhand, hrec, ?_, ?_, hdel⟩
    · rw [Conn.delivered, hlog, List.append_nil]
      rfl
    · rw [hunread, hnil]
      rfl
  | waitsText locator hloc hcond hframes hlog hunread _ =>
    obtain rfl := Option.some.inj (hloc.symm.trans hfol.mode)
    rw [hfol.size] at hcond
    rw [hf] at hframes
    refine .inl ⟨hcond, hrun, hframes, hhand, hrec, ?_, hunread, hdel⟩
    rw [Conn.delivered, hlog, List.filterMap_append]
    rfl
  | text locator len hloc hne hcond hframes hlog hunread =>
    obtain rfl := Option.some.inj (hloc.symm.trans hfol.mode)
    rw [hfol.size] at hcond
    rw [hf] at hframes
    refine .inr ⟨len, hne, hcond, hrun, hframes, hhand, hrec, ?_, hunread, hdel⟩
    rw [Conn.delivered, hlog, List.append_assoc, List.filterMap_append]
    rfl
  | waitsBinary hloc =>
    rw [hfol.mode] at hloc
    cases hloc
  | binary len hloc =>
    rw [hfol.mode] at hloc
    cases hloc

/-- The loop takes what it can, with handlers that do nothing. -/
theorem exists_reaches {outs : List (List UInt8)} {left : List UInt8} (hs : Settles n w outs left)
    (h : (lineMachine tls n).Run LineOnly s) (hf : s.frames = .looping :: rest)
    (hh : s.args.handling = 0) (hw : s.unread = w) : ∃ s', Reaches tls n s outs left rest s' := by
  induction hs generalizing s with
  | stuck hstuck =>
    subst hw
    rcases pass_line h hf hh with ⟨-, hpass⟩ | ⟨len, hne, htext, -⟩
    · exact ⟨_, hpass⟩
    · rw [hstuck.resolve_left hne] at htext
      cases htext
  | @takes w left outs len hne htext _ ih =>
    subst hw
    rcases pass_line h hf hh with ⟨hstuck, -⟩ | ⟨len', -, htext', hpass⟩
    · rw [hstuck.resolve_left hne] at htext
      cases htext
    · obtain rfl : len' = len := Option.some.inj (htext'.symm.trans htext)
      have hstep : s.pass.step .handlersReturn = some (s.pass.advance len') := by
        simp only [Conn.step, hpass.frames]
      have hframes : (s.pass.advance len').frames = .looping :: rest := by
        simp only [Conn.advance, hpass.frames, List.tail_cons]
      obtain ⟨s', hs'⟩ := ih (.step (a := .handlersReturn) hpass.run trivial hstep) hframes
        (hpass.handling.trans hh) ((unread_advance hpass.frames).trans hpass.unread)
      refine ⟨s', hs'.run, hs'.frames, hs'.handling.trans hpass.handling,
        hs'.received.trans hpass.received, ?_, hs'.unread,
        hs'.deleteScheduled.trans hpass.deleteScheduled⟩
      have hdel : (s.pass.advance len').delivered = s.pass.delivered := rfl
      rw [hs'.delivered, hdel, hpass.delivered, List.append_assoc]
      rfl

/-- An idle connection that has received `p` and delivered `ds`, with `left` in its buffer. -/
structure Holds (tls : Bool) (n : ℕ) (p : List UInt8) (ds : List (List UInt8)) (left : List UInt8)
    (s : Conn) : Prop where
  run : (lineMachine tls n).Run LineOnly s
  idle : s.Idle
  alive : s.deleteScheduled = false
  received : s.received = p
  delivered : s.delivered = ds
  unread : s.unread = left

theorem holds_create (tls : Bool) (n : ℕ) :
    Holds tls n [] [] [] (Conn.create tls n fun _ => 0).receiveLine :=
  ⟨.init (init_receiveLine tls n), ⟨rfl, rfl⟩, rfl, rfl, rfl, rfl⟩

/-- The loop of `doread` over a TLS connection ends, if need be with a read that blocks. -/
theorem exists_holds {p left : List UInt8} {ds : List (List UInt8)} {again : Bool}
    (h : (lineMachine tls n).Run LineOnly s) (hf : s.frames = [.tlsRead again])
    (hh : s.args.handling = 0) (ha : s.deleteScheduled = false) (hrec : s.received = p)
    (hdel : s.delivered = ds) (hunread : s.unread = left) : ∃ s', Holds tls n p ds left s' := by
  have hfront : s.front = s.rdbufpos := by rw [Conn.front, hf]
  have hstep : s.step .proceed = some (s.afterRead again []) := by simp only [Conn.step, hf]
  have hrun : (lineMachine tls n).Run LineOnly (s.afterRead again []) :=
    .step (a := .proceed) h trivial hstep
  unfold Conn.afterRead at hrun
  dsimp only at hrun
  split at hrun
  · refine ⟨{ s.doread [] with frames := [], tlsReadSt := if s.tls then .read else s.tlsReadSt },
      .step (a := .readBlocks .read) hrun trivial rfl, ⟨rfl, hh⟩, ha, hrec, hdel, ?_⟩
    refine Eq.trans (unread_of_content ?_ ?_) hunread
    · rfl
    · exact hfront.symm
  · refine ⟨_, hrun, ⟨rfl, hh⟩, ha, hrec, hdel, ?_⟩
    refine Eq.trans (unread_of_content ?_ ?_) hunread
    · rfl
    · exact hfront.symm

/-- A read into an empty buffer. -/
theorem Holds.read {p bs left : List UInt8} {ds outs : List (List UInt8)}
    (h : Holds tls n p ds [] s) (hbs : bs ≠ []) (hn : bs.length ≤ n) (hs : Settles n bs outs left) :
    ∃ s', Holds tls n (p ++ bs) (ds ++ outs) left s' := by
  have hfol := follows_of_run h.run
  obtain ⟨hframes, hhand⟩ := h.idle
  have hused : s.rdbufused = 0 := by
    have hlen := congrArg List.length h.unread
    rw [length_unread, Conn.front, hframes] at hlen
    dsimp only at hlen
    rw [(hfol.settled (rests_of_idle h.idle)).1] at hlen
    exact hlen
  have hready : s.step .readyRead = some (s.doread []) := by
    simp [Conn.step, hframes, h.alive, hhand]
  have hrun₁ : (lineMachine tls n).Run LineOnly (s.doread []) :=
    .step (a := .readyRead) h.run trivial hready
  have hdata : (s.doread []).step (.readData bs) = some ((s.doread []).append bs []) := by
    refine if_pos ⟨List.length_pos_of_ne_nil hbs, ?_⟩
    show bs.length ≤ s.rdbufsz - s.rdbufused
    rw [hfol.size, hused]
    exact hn
  have hrun₂ : (lineMachine tls n).Run LineOnly ((s.doread []).append bs []) :=
    .step (a := .readData bs) hrun₁ trivial hdata
  have hunread : ((s.doread []).append bs []).unread = bs := by
    rw [(follows_of_run hrun₁).layout.unread_append rfl,
      unread_of_used_eq_zero (s := s.doread []) hused, List.nil_append]
  obtain ⟨s', hs'⟩ := exists_reaches hs hrun₂ rfl hhand hunread
  have hrec : s'.received = p ++ bs := by
    rw [hs'.received, ← h.received]
    rfl
  have hdel : s'.delivered = ds ++ outs := by
    rw [hs'.delivered, ← h.delivered]
    rfl
  have hhand' : s'.args.handling = 0 := hs'.handling.trans hhand
  have halive : s'.deleteScheduled = false := hs'.deleteScheduled.trans h.alive
  have hrest := hs'.frames
  dsimp only [Conn.doread] at hrest
  cases htls : s.tls with
  | false =>
    simp only [htls] at hrest
    exact ⟨s', hs'.run, ⟨hrest, hhand'⟩, halive, hrec, hdel, hs'.unread⟩
  | true =>
    simp only [htls] at hrest
    exact exists_holds hs'.run hrest hhand' halive hrec hdel hs'.unread

/-! ## Streams that are not regular -/

/-- One message and nothing behind it. -/
theorem settles_whole (hne : w ≠ []) (hw : w.head? ≠ some 0)
    (h : textLen locateeol n w = some w.length) : Settles n w [w] [] := by
  have hself := stripped_eq_self hw
  have hrest : Settles n ((stripped w).drop w.length) [] [] := by
    rw [hself, List.drop_length]
    exact .stuck stuck_nil
  have htakes : Settles n w ((stripped w).take w.length :: []) [] :=
    .takes (by rwa [hself]) (by rwa [hself]) hrest
  rwa [hself, List.take_length] at htakes

/-- A message, and a NUL as the last byte of the buffer. -/
theorem settles_nul (hb : ∀ c ∈ body, inside c = true) (hne : body ≠ [])
    (hn : body.length + 1 = n) : Settles n (body ++ [0]) [body] [] := by
  have hself := stripped_body hb (absurd · hne) (c := 0) []
  have hrest : Settles n ((stripped (body ++ [0])).drop body.length) [] [] := by
    rw [hself, List.drop_left]
    exact .stuck (.inl rfl)
  have htakes := Settles.takes (w := body ++ [0]) (by simp [hself]) (by
    rw [hself, textLen_nul hb, if_neg (by omega)]) hrest
  rwa [hself, List.take_left] at htakes

theorem textLen_last (h0 : 0 ∉ body) (hl : lf ∉ body) :
    textLen locateeol n (body ++ [lf]) = some (body ++ [lf]).length := by
  have hstr : cstring (body ++ [lf]) = body ++ [lf] := by
    rw [cstring_append_of_not_mem h0]
    rfl
  unfold textLen
  rw [hstr, locateeol_last hl, List.length_append]
  rfl

/-- The property in question: of every part of the stream that it has received, an idle connection
has delivered the strings. -/
def LinesOf (tls : Bool) (n : ℕ) (stream : List UInt8) : Prop :=
  ∀ s, (lineMachine tls n).Run LineOnly s → s.Idle → s.received <+: stream →
    s.delivered = lines n s.received

section

variable {stream p t : List UInt8} {ds : List (List UInt8)}

/-- What a read delivers are the strings of what is read, where strings begin there. -/
theorem LinesOf.outs_eq {bs left : List UInt8} {outs : List (List UInt8)}
    (hall : LinesOf tls n stream) (h : Holds tls n p ds [] s) (hbs : bs ≠ []) (hn : bs.length ≤ n)
    (hs : Settles n bs outs left) (hpre : p ++ bs <+: stream)
    (hl : lines n (p ++ bs) = ds ++ lines n bs) : outs = lines n bs := by
  obtain ⟨s', hs'⟩ := h.read hbs hn hs
  have hdel := hall s' hs'.run hs'.idle (by rwa [hs'.received])
  rw [hs'.delivered, hs'.received, hl] at hdel
  exact List.append_cancel_left hdel

/-- Strings begin where `p` ends, for all that follows of the stream. -/
def Begins (n : ℕ) (p : List UInt8) (ds : List (List UInt8)) (t : List UInt8) : Prop :=
  ∀ x, x <+: t → lines n (p ++ x) = ds ++ lines n x

theorem Begins.append {bs : List UInt8} {outs : List (List UInt8)} (h : Begins n p ds (bs ++ t))
    (hl : ∀ x, x <+: t → lines n (bs ++ x) = outs ++ lines n x) :
    Begins n (p ++ bs) (ds ++ outs) t := by
  intro x hx
  rw [List.append_assoc, h (bs ++ x) ((List.prefix_append_right_inj bs).2 hx), hl x hx,
    List.append_assoc]

theorem head_body {c : UInt8} (hb : ∀ c ∈ body, inside c = true) (hc : c ≠ 0) :
    (body ++ c :: t).head? ≠ some 0 := by
  rw [← stripped_body hb (fun _ => hc)]
  exact head_stripped _

variable (hall : LinesOf tls n stream) (h : Holds tls n p ds [] s)
  (hb : ∀ c ∈ body, inside c = true)
include hall h hb

/-- A NUL before the buffer is full is not noticed. -/
theorem LinesOf.nul_last (hne : body ≠ []) (hn : body.length < n) (hpre : p ++ (body ++ 0 :: t) <+: stream)
    (hbeg : Begins n p ds (body ++ 0 :: t)) : body.length + 1 = n := by
  by_contra hlt
  have hself := stripped_body hb (absurd · hne) (c := 0) []
  have hstuck : Settles n (body ++ [0]) [] (body ++ [0]) := by
    have hs : Stuck n (body ++ [0]) := by
      refine .inr ?_
      rw [hself, textLen_nul hb, if_pos (by omega)]
    have := Settles.stuck hs
    rwa [hself] at this
  have hpart : body ++ [0] <+: body ++ 0 :: t := by
    rw [List.prefix_append_right_inj]
    exact ⟨t, rfl⟩
  have houts := hall.outs_eq h (by simp) (by simp; omega) hstuck
    (((List.prefix_append_right_inj p).2 hpart).trans hpre) (hbeg _ hpart)
  rw [lines_nul hb hne hn] at houts
  cases houts

/-- A CR LF may arrive in two parts. -/
theorem LinesOf.no_crlf (hn : body.length + 2 ≤ n)
    (hpre : p ++ (body ++ cr :: lf :: t) <+: stream)
    (hbeg : Begins n p ds (body ++ cr :: lf :: t)) : False := by
  have hfirst : Settles n (body ++ [cr]) [body ++ [cr]] [] := by
    refine settles_whole (by simp) (head_body hb (by decide)) ?_
    rw [textLen_cr hb (by simp [cstring]), List.length_append]
    rfl
  have hsecond : Settles n [lf] [[lf]] [] := by
    refine settles_whole (by simp) (by decide) ?_
    rw [← List.nil_append [lf]]
    exact textLen_last List.not_mem_nil List.not_mem_nil
  obtain ⟨s₁, hs₁⟩ := h.read (by simp) (by simp; omega) hfirst
  obtain ⟨s₂, hs₂⟩ := hs₁.read (by simp) (by simp; omega) hsecond
  have hpart : body ++ [cr, lf] <+: body ++ cr :: lf :: t := by
    rw [List.prefix_append_right_inj]
    exact ⟨t, rfl⟩
  have hrec : p ++ (body ++ [cr]) ++ [lf] = p ++ (body ++ [cr, lf]) := by simp
  have hdel := hall s₂ hs₂.run hs₂.idle (by
    rw [hs₂.received, hrec]
    exact ((List.prefix_append_right_inj p).2 hpart).trans hpre)
  rw [hs₂.delivered, hs₂.received, hrec, hbeg _ hpart, lines_crlf hb hn] at hdel
  have hlen := congrArg List.length hdel
  simp [lines_nil_of_stripped (n := n) (w := []) rfl] at hlen

/-- An LF in the buffer hides a CR before it. -/
theorem LinesOf.no_lf_after_cr (hn : body.length < n) (hhead : t.head? = some lf → n < body.length + 2)
    (hpre : p ++ (body ++ cr :: t) <+: stream) (hbeg : Begins n p ds (body ++ cr :: t)) :
    lf ∉ cstring (t.take (n - (body.length + 1))) := by
  intro hm
  obtain ⟨x, y, hxy, hx⟩ := List.eq_append_cons_of_mem hm
  obtain ⟨z, hz⟩ := cstring_isPrefix (t.take (n - (body.length + 1)))
  obtain ⟨hlb, -, h0b⟩ := not_mem_of_inside hb
  have h0x : 0 ∉ x := fun h0 =>
    ne_zero_of_mem_cstring (w := t.take (n - (body.length + 1))) (by rw [hxy]; simp [h0]) rfl
  have hlen := List.length_take_le (n - (body.length + 1)) t
  rw [← hz, hxy] at hlen
  simp only [List.length_append, List.length_cons] at hlen
  -- all up to the LF in one read
  have ht : t = x ++ lf :: (y ++ z ++ t.drop (n - (body.length + 1))) := by
    have hsplit := List.take_append_drop (n - (body.length + 1)) t
    rw [← hz, hxy] at hsplit
    rw [← List.cons_append, ← List.cons_append, ← List.append_assoc, ← List.append_assoc]
    exact hsplit.symm
  have hwhole : Settles n (body ++ cr :: x ++ [lf]) [body ++ cr :: x ++ [lf]] [] := by
    refine settles_whole (by simp) ?_ (textLen_last ?_ ?_)
    · rw [List.append_assoc]
      exact head_body hb (by decide)
    · simp [h0b, h0x, cr]
    · simp [hlb, hx, show lf ≠ cr by decide]
  have hpart : body ++ cr :: x ++ [lf] <+: body ++ cr :: t := by
    rw [List.append_assoc, List.prefix_append_right_inj, List.cons_append, ht]
    exact ⟨y ++ z ++ t.drop (n - (body.length + 1)), by simp⟩
  have houts := hall.outs_eq h (by simp) (by simp; omega) hwhole
    (((List.prefix_append_right_inj p).2 hpart).trans hpre) (hbeg _ hpart)
  have hhead' : (x ++ [lf]).head? = some lf → n < body.length + 2 := by
    intro hl
    refine hhead ?_
    rw [ht]
    cases x with
    | nil => rfl
    | cons c x => exact hl
  rw [List.append_assoc, List.cons_append, lines_cr hb hn hhead'] at houts
  have hsame := congrArg List.length (List.cons.inj houts).1
  simp at hsame

end

section

variable {stream p t : List UInt8} {ds : List (List UInt8)}

/-- A stream whose strings are delivered however it arrives is regular: it is fed one string at a
time, or one NUL. -/
theorem LinesOf.regular (hall : LinesOf tls n stream) (h : Holds tls n p ds [] s)
    (hpre : p ++ t <+: stream) (hbeg : Begins n p ds t) : Regular n t := by
  rcases Nat.eq_zero_or_pos n with rfl | hpos
  · exact regular_zero t
  induction hk : t.length using Nat.strong_induction_on generalizing t p ds s with
  | _ k ih =>
    subst hk
    -- after a part that is delivered whole the rest is fed
    have go (bs u : List UInt8) (outs : List (List UInt8)) (ht : t = bs ++ u) (hbs : bs ≠ [])
        (hn : bs.length ≤ n) (hs : Settles n bs outs [])
        (hl : ∀ x, x <+: u → lines n (bs ++ x) = outs ++ lines n x) : Regular n u := by
      subst ht
      obtain ⟨s', hs'⟩ := h.read hbs hn hs
      refine ih u.length ?_ hs' (by rwa [List.append_assoc]) (hbeg.append hl) rfl
      have := List.length_pos_of_ne_nil hbs
      rw [List.length_append]
      omega
    rcases begins n t with ⟨hin, hlen⟩ | ⟨body, u, ht, hb, hlen⟩ | ⟨body, c, u, ht, hb, hlen, hc⟩
    · by_cases hs : stripped t = []
      · exact regular_of_stripped hs
      · refine regular_none ?_
        rw [stripped_eq_self fun h0 => ?_]
        · exact firstEnd_none hin hlen
        · obtain ⟨u, rfl⟩ := List.head?_eq_some_iff.1 h0
          exact (inside_iff.1 (hin 0 List.mem_cons_self)).1 rfl
    · have hne : body ≠ [] := List.ne_nil_of_length_pos (by omega)
      have hself := stripped_full (t := []) hb hne
      rw [ht, regular_full hb hlen hpos]
      refine go body u [body] ht hne (by omega) (settles_whole hne ?_ ?_) fun x _ => lines_full hb hlen hpos
      · rw [← List.append_nil body, ← hself]
        exact head_stripped _
      · rw [textLen_inside hb, if_neg (by omega)]
    · rw [ht] at hpre hbeg ⊢
      rcases hc with rfl | rfl | rfl
      · by_cases hne : body = []
        · subst hne
          rw [List.nil_append, regular_cons_nul]
          exact go [0] u [] ht (by simp) hpos (.stuck (.inl rfl)) fun x _ => lines_cons_nul x
        · have hlast := hall.nul_last h hb hne hlen hpre hbeg
          rw [regular_nul hb hne hlen]
          refine ⟨hlast, go (body ++ [0]) u [body] (by simp [ht]) (by simp) (by simp; omega)
            (settles_nul hb hne hlast) fun x _ => ?_⟩
          rw [List.append_assoc]
          exact lines_nul hb hne hlen
      · rw [regular_lf hb hlen]
        obtain ⟨hl, -, h0⟩ := not_mem_of_inside hb
        refine go (body ++ [lf]) u [body ++ [lf]] (by simp [ht]) (by simp) (by simp; omega)
          (settles_whole (by simp) (head_body hb (by decide)) (textLen_last h0 hl)) fun x _ => ?_
        rw [List.append_assoc]
        exact lines_lf hb hlen
      · have hhead : u.head? = some lf → n < body.length + 2 := by
          intro hu
          by_contra hle
          obtain ⟨u', rfl⟩ := List.head?_eq_some_iff.1 hu
          exact hall.no_crlf h hb (by omega) hpre hbeg
        rw [regular_cr hb hlen hhead]
        refine ⟨hall.no_lf_after_cr h hb hlen hhead hpre hbeg,
          go (body ++ [cr]) u [body ++ [cr]] (by simp [ht]) (by simp) (by simp; omega)
            (settles_whole (by simp) (head_body hb (by decide)) ?_) fun x hx => ?_⟩
        · rw [textLen_cr hb (by simp [cstring]), List.length_append]
          rfl
        · rw [List.append_assoc]
          refine lines_cr hb hlen fun (hl : x.head? = some lf) => hhead ?_
          obtain ⟨y, rfl⟩ := hx
          rw [List.head?_append, hl]
          rfl

end

/-- A connection in line mode delivers the strings of a stream, in whatever parts the stream arrives
and whatever the handlers mark, if and only if the stream is regular. -/
theorem lines_iff_regular (tls : Bool) (n : ℕ) (stream : List UInt8) :
    (∀ s, (lineMachine tls n).Run LineOnly s → s.Idle → s.received <+: stream →
      s.delivered = lines n s.received) ↔ Regular n stream := by
  constructor
  · intro hall
    exact LinesOf.regular hall (holds_create tls n) List.prefix_rfl fun _ _ => rfl
  · intro hreg s hs hi hpre
    obtain ⟨f, rfl⟩ := hpre
    exact delivered_eq_lines hs hi hreg.of_append

def Act.lineOnly (s : Conn) : Act → Bool
  | .receiveBinary _ => false
  | .receiveText _ => false
  | .confirmDataReceived => s.frames = []
  | _ => true

theorem lineOnly_sound (h : a.lineOnly s = true) : LineOnly s a := by
  cases a with
  | receiveBinary expected => cases h
  | receiveText locator => cases h
  | confirmDataReceived => simpa [LineOnly, Act.lineOnly] using h
  | _ => trivial

/-- A line that ends with CR LF is one string when it arrives at once, and two when it arrives in two
parts that are split between CR and LF. -/
theorem lines_split : ∃ s t : Conn,
    ((lineMachine false 8).Run LineOnly s ∧ s.Idle) ∧
    ((lineMachine false 8).Run LineOnly t ∧ t.Idle) ∧
    s.received = t.received ∧ s.delivered = [[97, cr, lf]] ∧ t.delivered = [[97, cr], [lf]] := by
  have hone : ((lineMachine false 8).execOk (fun s a => a.lineOnly s)
      [.readyRead, .readData [97, cr, lf], .loop, .handlersReturn, .loop]
      (Conn.create false 8 fun _ => 0).receiveLine).any (fun s =>
        decide ((s.frames = [] ∧ s.args.handling = 0) ∧ s.received = [97, cr, lf] ∧
          s.delivered = [[97, cr, lf]])) = true := by
    decide +kernel
  have htwo : ((lineMachine false 8).execOk (fun s a => a.lineOnly s)
      [.readyRead, .readData [97, cr], .loop, .handlersReturn, .loop,
        .readyRead, .readData [lf], .loop, .handlersReturn, .loop]
      (Conn.create false 8 fun _ => 0).receiveLine).any (fun s =>
        decide ((s.frames = [] ∧ s.args.handling = 0) ∧ s.received = [97, cr, lf] ∧
          s.delivered = [[97, cr], [lf]])) = true := by
    decide +kernel
  obtain ⟨s, hs, hend⟩ := Machine.exists_run (init_receiveLine _ _) (fun _ _ => lineOnly_sound) hone
  obtain ⟨t, ht, hend'⟩ := Machine.exists_run (init_receiveLine _ _) (fun _ _ => lineOnly_sound) htwo
  obtain ⟨hidle, hrec, hdel⟩ := of_decide_eq_true hend
  obtain ⟨hidle', hrec', hdel'⟩ := of_decide_eq_true hend'
  exact ⟨s, t, ⟨hs, hidle⟩, ⟨ht, hidle'⟩, hrec.trans hrec'.symm, hdel, hdel'⟩

end PoserCore.Connection.Receive
