import Mathlib.Data.List.TakeWhile
import PoserCore.Connection.Receiver

/-!
# The read buffer as a queue

What the read buffer is for: a queue of received bytes, appended to by `doread` and taken from by
`raisereceivedevents`.  `unread` reads the queue off the buffer, with the character back in its place
that the terminator of a text replaced, and each operation is stated on it; `Layout` is what the
offsets keep when nobody confirms inside a handler.  `Pass` says all that a pass of the loop can do,
in terms of the queue alone.
-/

namespace PoserCore.Connection.Receive

open Lib (Machine)
open Lib.Buffer

/-- The offset of the next byte to be taken, which is behind the data of a running event. -/
def Conn.front (self : Conn) : ℕ :=
  match self.frames with
  | .handlers len :: _ => self.rdbufpos + len
  | _ => self.rdbufpos

/-- The buffer with the replaced character back in its place. -/
def Conn.mended (self : Conn) : ℕ → UInt8 :=
  if self.rdtextsave = 0 then self.rdbuf else store self.rdbuf self.front [self.rdtextsave]

/-- The bytes that were received and not yet taken. -/
def Conn.unread (self : Conn) : List UInt8 :=
  slice self.mended self.front (self.rdbufused - self.front)

/-- The locator returns a position after the start of the string and not past its end, or none. -/
def Locates (locator : Locator) : Prop :=
  ∀ str len, locator str = some len → 0 < len ∧ len ≤ str.length

def Frame.waits : Frame → Bool
  | .tlsRead _ => true
  | .confirming => true
  | _ => false

structure Layout (s : Conn) : Prop where
  used_le : s.rdbufused ≤ s.rdbufsz
  front_le : s.front ≤ s.rdbufused
  terminated : s.rdbufused ≠ 0 → s.rdbuf s.rdbufused = 0
  saved : s.rdtextsave ≠ 0 → s.front < s.rdbufused
  waits : ∀ f ∈ s.frames.tail, f.waits
  locates : ∀ locator ∈ s.rdlocator, Locates locator

/-! ## C strings in the buffer -/

/-- The C string at the start of some bytes, or all of them. -/
def cstring (w : List UInt8) : List UInt8 := w.takeWhile (· ≠ 0)

theorem cstring_isPrefix (w : List UInt8) : cstring w <+: w := List.takeWhile_prefix _

theorem length_cstring_le (w : List UInt8) : (cstring w).length ≤ w.length :=
  (cstring_isPrefix w).length_le

theorem ne_zero_of_mem_cstring {w : List UInt8} {c : UInt8} (h : c ∈ cstring w) : c ≠ 0 := by
  simpa using List.mem_takeWhile_imp h

/-- A string ends at its first NUL. -/
theorem cstring_append_nul (w v : List UInt8) : cstring (w ++ 0 :: v) = cstring w := by
  induction w with
  | nil => simp [cstring]
  | cons c w ih =>
    unfold cstring at ih ⊢
    rw [List.cons_append, List.takeWhile_cons, List.takeWhile_cons, ih]

/-- With a NUL behind a range, the string at its start is that of its bytes. -/
theorem cstr_eq_cstring {m : ℕ → UInt8} {off len bound : ℕ} (hlen : off + len < bound)
    (hnul : m (off + len) = 0) : cstr m off bound = cstring (slice m off len) := by
  have hsplit : bound - off = len + ((bound - off - len - 1) + 1) := by omega
  unfold cstr
  rw [hsplit, slice_add, slice_succ, hnul]
  exact cstring_append_nul _ _

/-- Where a text is cut, it ends. -/
theorem cstr_store_nul {m : ℕ → UInt8} {off len n bound : ℕ} (hn : off + n < bound)
    (hlen : len ≤ n) (hstr : len ≤ (cstring (slice m off n)).length) :
    cstr (store m (off + len) [0]) off bound = slice m off len := by
  have hnul : store m (off + len) [0] (off + len) = 0 := by simp [store]
  rw [cstr_eq_cstring (by omega) hnul, slice_store_before (Nat.le_refl _)]
  have htake : slice m off len = (cstring (slice m off n)).take len := by
    rw [← take_slice hlen, List.prefix_iff_eq_take.1 (cstring_isPrefix (slice m off n)),
      List.take_take, Nat.min_eq_left hstr]
  refine List.takeWhile_eq_self_iff.2 fun c hc => ?_
  rw [htake] at hc
  simpa using ne_zero_of_mem_cstring (List.mem_of_mem_take hc)

/-! ## Reading the queue -/

variable {s : Conn} {rest : List Frame}

theorem length_unread (s : Conn) : s.unread.length = s.rdbufused - s.front := length_slice

theorem unread_of_used_eq_zero (h : s.rdbufused = 0) : s.unread = [] := by
  unfold Conn.unread
  rw [h, Nat.zero_sub, slice_zero]

theorem front_of_looping (hf : s.frames = .looping :: rest) : s.front = s.rdbufpos := by
  rw [Conn.front, hf]

theorem front_of_waits (hf : ∀ f ∈ s.frames, f.waits) : s.front = s.rdbufpos := by
  unfold Conn.front
  split
  · next hcons => cases hf _ (hcons ▸ List.mem_cons_self)
  · rfl

/-- At the head of the loop, with no character replaced, the queue is what is left in the buffer. -/
theorem unread_eq_slice (hf : s.front = s.rdbufpos) (hs : s.rdtextsave = 0) :
    s.unread = slice s.rdbuf s.rdbufpos s.left := by
  unfold Conn.unread Conn.left
  rw [Conn.mended, if_pos hs, hf]

/-! ## The pieces of a pass -/

theorem restoreText_eq (hf : s.front = s.rdbufpos) :
    s.restoreText = { s with rdbuf := s.mended, rdtextsave := 0 } := by
  unfold Conn.restoreText Conn.mended
  split
  · next hs => rw [← hs]
  · rw [hf]

theorem unread_restoreText (hf : s.front = s.rdbufpos) : s.restoreText.unread = s.unread := by
  rw [restoreText_eq hf]
  rfl

theorem Layout.restoreText (h : Layout s) (hf : s.front = s.rdbufpos) : Layout s.restoreText := by
  rw [restoreText_eq hf]
  refine ⟨h.used_le, h.front_le, fun hu => ?_, fun hs => absurd rfl hs, h.waits, h.locates⟩
  unfold Conn.mended
  dsimp only
  split
  · exact h.terminated hu
  · next hs =>
    rw [store_of_ge (h.saved hs)]
    exact h.terminated hu

theorem nuls_eq (hf : s.front = s.rdbufpos) (hs : s.rdtextsave = 0) :
    s.nuls = (s.unread.takeWhile (· = 0)).length := by
  rw [unread_eq_slice hf hs, Conn.nuls]

theorem nuls_le (s : Conn) : s.nuls ≤ s.left := by
  unfold Conn.nuls
  exact (List.takeWhile_prefix _).length_le.trans (by rw [length_slice])

theorem unread_skipNuls (hf : s.frames = .looping :: rest) (hs : s.rdtextsave = 0) :
    s.skipNuls.unread = s.unread.dropWhile (· = 0) := by
  have hpos := front_of_looping hf
  have hdrop : s.skipNuls.unread = s.unread.drop s.nuls := by
    rw [unread_eq_slice hpos hs, drop_slice (nuls_le s),
      unread_eq_slice (s := s.skipNuls) (front_of_looping hf) hs]
    unfold Conn.left Conn.skipNuls
    rw [Nat.sub_sub]
  have hsplit := s.unread.takeWhile_append_dropWhile (p := (· = 0))
  rw [hdrop, nuls_eq hpos hs]
  nth_rewrite 2 [← hsplit]
  exact List.drop_left

theorem Layout.skipNuls (h : Layout s) (hf : s.frames = .looping :: rest)
    (hs : s.rdtextsave = 0) : Layout s.skipNuls := by
  have hpos : s.rdbufpos ≤ s.rdbufused := front_of_looping hf ▸ h.front_le
  have hnuls := nuls_le s
  refine ⟨h.used_le, ?_, h.terminated, fun hn => absurd hs hn, h.waits, h.locates⟩
  rw [front_of_looping (s := s.skipNuls) hf]
  unfold Conn.left at hnuls
  simp only [Conn.skipNuls]
  omega

/-- The length of the next text in the queue `w`, whose first byte is no NUL. -/
def textLen (locator : Locator) (rdbufsz : ℕ) (w : List UInt8) : Option ℕ :=
  match locator (cstring w) with
  | some len => some len
  | none => if w.length < rdbufsz then none else some (cstring w).length

/-- The length of the next binary data in the queue `w`. -/
def binaryLen (expected : ℕ) (w : List UInt8) : Option ℕ :=
  if expected ≠ 0 then if expected > w.length then none else some expected else some w.length

theorem textLen_le {locator : Locator} {rdbufsz len : ℕ} {w : List UInt8} (hl : Locates locator)
    (h : textLen locator rdbufsz w = some len) : len ≤ (cstring w).length := by
  unfold textLen at h
  split at h
  · next hloc =>
    obtain rfl := Option.some.inj h
    exact (hl _ _ hloc).2
  · split at h
    · cases h
    · exact Nat.le_of_eq (Option.some.inj h).symm

theorem binaryLen_le {expected len : ℕ} {w : List UInt8} (h : binaryLen expected w = some len) :
    len ≤ w.length ∧ (expected ≠ 0 → len = expected) := by
  unfold binaryLen at h
  split at h
  · split at h
    · cases h
    · obtain rfl := Option.some.inj h
      exact ⟨by omega, fun _ => rfl⟩
  · next h0 =>
    obtain rfl := Option.some.inj h
    exact ⟨Nat.le_refl _, fun hne => absurd hne h0⟩

theorem left_eq (hf : s.front = s.rdbufpos) : s.left = s.unread.length := by
  rw [length_unread, hf, Conn.left]

/-- With a byte left, the string there is that of the queue. -/
theorem Layout.str_eq (h : Layout s) (hf : s.front = s.rdbufpos) (hs : s.rdtextsave = 0)
    (hlt : s.rdbufpos < s.rdbufused) : s.str s.rdbufpos = cstring s.unread := by
  have hle := h.used_le
  have hend : s.rdbufpos + s.left = s.rdbufused := Nat.add_sub_of_le (Nat.le_of_lt hlt)
  rw [unread_eq_slice hf hs, Conn.str]
  refine cstr_eq_cstring (by omega) ?_
  rw [hend]
  exact h.terminated (by omega)

theorem Layout.textLength_eq (h : Layout s) (hf : s.front = s.rdbufpos) (hs : s.rdtextsave = 0)
    (hlt : s.rdbufpos < s.rdbufused) {locator : Locator} (hl : Locates locator) :
    s.textLength locator = textLen locator s.rdbufsz s.unread := by
  have hle := h.used_le
  have hleft : s.unread.length = s.rdbufused - s.rdbufpos := by rw [length_unread, hf]
  unfold Conn.textLength textLen
  rw [h.str_eq hf hs hlt]
  cases hloc : locator (cstring s.unread) with
  | some len =>
    have hlen := (hl _ _ hloc).2
    have hcs := length_cstring_le s.unread
    have hcap : ¬ len > s.left := by
      rw [left_eq hf]
      omega
    dsimp only
    rw [if_neg hcap]
  | none =>
    dsimp only
    rw [hleft]
    refine if_congr ?_ rfl rfl
    omega

theorem binaryLength_eq (hf : s.front = s.rdbufpos) :
    s.binaryLength = binaryLen s.rdexpect s.unread := by
  unfold Conn.binaryLength binaryLen
  rw [left_eq hf]

/-! ## Events -/

theorem mended_cutText {len : ℕ} (hf : s.frames = .handlers len :: rest) :
    (s.cutText len).mended = s.rdbuf := by
  have hfront : (s.cutText len).front = s.rdbufpos + len := by
    unfold Conn.front Conn.cutText
    rw [hf]
  funext i
  unfold Conn.mended
  rw [hfront]
  unfold Conn.cutText
  dsimp only
  rcases Nat.lt_trichotomy i (s.rdbufpos + len) with hi | rfl | hi
  · split
    · exact store_of_lt hi
    · rw [store_of_lt hi, store_of_lt hi]
  · split
    · next h0 => simp [store, h0]
    · simp [store]
  · split
    · exact store_of_ge hi
    · rw [store_of_ge hi, store_of_ge hi]

/-- With a text raised, what is behind it is left. -/
theorem unread_raiseText {len : ℕ} (hf : s.front = s.rdbufpos) (hs : s.rdtextsave = 0)
    (hlen : len ≤ s.left) : (s.raiseText len).unread = s.unread.drop len := by
  have hmend : (s.raiseText len).mended = s.rdbuf :=
    mended_cutText (s := { s with frames := .handlers len :: s.frames.tail }) rfl
  rw [unread_eq_slice hf hs, drop_slice hlen]
  unfold Conn.unread
  rw [hmend]
  unfold Conn.left
  rw [Nat.sub_sub]
  rfl

/-- The text of the event is what was in front. -/
theorem Layout.raiseText_log (h : Layout s) (hf : s.front = s.rdbufpos) (hs : s.rdtextsave = 0)
    (hlt : s.rdbufpos < s.rdbufused) {len : ℕ} (hlen : len ≤ (cstring s.unread).length) :
    (s.raiseText len).log = s.log ++ [.text (s.unread.take len)] := by
  have hle := h.used_le
  have hleft : len ≤ s.left := by
    rw [left_eq hf]
    exact hlen.trans (length_cstring_le _)
  have hend : s.rdbufpos + s.left = s.rdbufused := Nat.add_sub_of_le (Nat.le_of_lt hlt)
  have hstr : (s.cutText len).str s.rdbufpos = s.unread.take len := by
    rw [unread_eq_slice hf hs] at hlen ⊢
    rw [take_slice hleft]
    exact cstr_store_nul (n := s.left) (by
      show s.rdbufpos + s.left < s.rdbufsz + 1
      omega) hleft hlen
  exact congrArg (fun d => s.log ++ [.text d]) hstr

theorem Layout.raiseText (h : Layout s) (hlt : s.rdbufpos < s.rdbufused) {len : ℕ}
    (hlen : len ≤ s.left) : Layout (s.raiseText len) := by
  have hend : s.rdbufpos + len ≤ s.rdbufused := by
    unfold Conn.left at hlen
    omega
  refine ⟨h.used_le, hend, fun hu => ?_, fun hsave => ?_, h.waits, h.locates⟩
  · rcases Nat.lt_or_eq_of_le hend with hl | he
    · exact (store_of_ge hl).trans (h.terminated hu)
    · show store s.rdbuf (s.rdbufpos + len) [0] s.rdbufused = 0
      rw [he]
      simp [store]
  · refine Nat.lt_of_le_of_ne hend fun he => hsave ?_
    show s.rdbuf (s.rdbufpos + len) = 0
    rw [show s.rdbufpos + len = s.rdbufused from he]
    exact h.terminated (by omega)

theorem unread_raiseBinary {len : ℕ} (hf : s.front = s.rdbufpos) (hs : s.rdtextsave = 0)
    (hlen : len ≤ s.left) : (s.raiseBinary len).unread = s.unread.drop len := by
  rw [unread_eq_slice hf hs, drop_slice hlen]
  unfold Conn.unread Conn.left
  rw [Conn.mended, if_pos (show (s.raiseBinary len).rdtextsave = 0 from hs), Nat.sub_sub]
  rfl

theorem raiseBinary_log {len : ℕ} (hf : s.front = s.rdbufpos) (hs : s.rdtextsave = 0)
    (hlen : len ≤ s.left) :
    (s.raiseBinary len).log = s.log ++ [.binary s.rdexpect (s.unread.take len)] := by
  rw [unread_eq_slice hf hs, take_slice hlen]
  rfl

theorem Layout.raiseBinary (h : Layout s) (hf : s.front = s.rdbufpos) (hs : s.rdtextsave = 0)
    {len : ℕ} (hlen : len ≤ s.left) : Layout (s.raiseBinary len) := by
  have hfront := hf ▸ h.front_le
  refine ⟨h.used_le, ?_, h.terminated, fun hn => absurd hs hn, h.waits, h.locates⟩
  show s.rdbufpos + len ≤ s.rdbufused
  unfold Conn.left at hlen
  omega

/-! ## The end of the loop -/

theorem moved_apply {i : ℕ} (hi : i < s.left) :
    store (store s.rdbuf 0 (slice s.rdbuf s.rdbufpos s.left)) s.left [0] i =
      s.rdbuf (s.rdbufpos + i) := by
  rw [store_of_lt hi, store, if_neg (Nat.not_lt_zero i), Nat.sub_zero, getElem?_slice hi,
    Option.getD_some]

theorem Layout.leave_front (h : Layout s) : s.leave.front = s.leave.rdbufpos :=
  front_of_waits (s := s.leave) h.waits

theorem Layout.leave (h : Layout s) (hf : s.front = s.rdbufpos) : Layout s.leave := by
  have hused := h.used_le
  have hpos := hf ▸ h.front_le
  have hsave := h.saved
  have hfront := h.leave_front
  have hwaits : ∀ f ∈ s.frames.tail.tail, f.waits := fun f hm => h.waits f (List.mem_of_mem_tail hm)
  unfold Conn.leave Conn.compact at hfront ⊢
  split at hfront
  · next hc =>
    rw [if_pos hc]
    rw [hf] at hsave
    refine ⟨?_, ?_, fun _ => by simp [store], fun hs => ?_, hwaits, h.locates⟩
    · exact (Nat.sub_le _ _).trans hused
    · rw [hfront]
      exact Nat.zero_le _
    · rw [hfront]
      exact Nat.sub_pos_of_lt (hsave hs)
  · next hc =>
    rw [if_neg hc]
    rw [hf] at hsave
    refine ⟨hused, ?_, h.terminated, fun hs => ?_, hwaits, h.locates⟩
    · rw [hfront]
      exact hpos
    · rw [hfront]
      exact hsave hs

/-- In text mode what is left is at the start of the buffer. -/
theorem Layout.leave_pos (h : Layout s) (hf : s.front = s.rdbufpos) (hm : s.rdlocator.isSome) :
    s.leave.rdbufpos = 0 := by
  have hpos := hf ▸ h.front_le
  unfold Conn.leave Conn.compact
  split
  · rfl
  · next hc =>
    have hused : s.rdbufused = 0 := by simpa [Conn.compacts, hm] using hc
    exact Nat.le_zero.1 (hused ▸ hpos)

theorem Layout.unread_leave (h : Layout s) (hf : s.front = s.rdbufpos) :
    s.leave.unread = s.unread := by
  have hfront := h.leave_front
  unfold Conn.unread Conn.mended
  rw [hfront, hf]
  unfold Conn.leave Conn.compact
  split
  · refine slice_shift fun i hi => ?_
    have hi : i < s.left := hi
    dsimp only
    rw [Nat.zero_add]
    split
    · exact moved_apply hi
    · -- the replaced character is in front before and after the move
      rcases Nat.eq_zero_or_pos i with rfl | hpos
      · simp [store]
      · rw [store_of_ge hpos, moved_apply hi, store_of_ge (by simpa using Nat.succ_le_of_lt hpos)]
  · rfl

/-! ## Returning from the handlers, and reading -/

theorem Layout.advance_used {len : ℕ} (h : Layout s) (hf : s.frames = .handlers len :: rest) :
    s.rdbufpos + len ≤ s.rdbufused := by
  have hle := h.front_le
  rw [Conn.front, hf] at hle
  exact hle

theorem Layout.advance {len : ℕ} (h : Layout s) (hf : s.frames = .handlers len :: rest) :
    Layout (s.advance len) := by
  have hused := h.used_le
  have hend := h.advance_used hf
  have hsave := h.saved
  rw [Conn.front, hf] at hsave
  dsimp only at hsave
  unfold Conn.advance
  dsimp only
  split
  · next he =>
    refine ⟨Nat.zero_le _, Nat.le_refl 0, fun h0 => absurd rfl h0, fun hs => ?_, h.waits, h.locates⟩
    have := hsave hs
    omega
  · next he =>
    exact ⟨hused, hend, h.terminated, hsave, h.waits, h.locates⟩

theorem unread_advance {len : ℕ} (hf : s.frames = .handlers len :: rest) :
    (s.advance len).unread = s.unread := by
  have hfront : s.front = s.rdbufpos + len := by rw [Conn.front, hf]
  by_cases he : s.rdbufpos + len = s.rdbufused
  · have hnone : s.unread = [] := by
      refine List.eq_nil_of_length_eq_zero ?_
      rw [length_unread, hfront]
      omega
    rw [hnone]
    refine unread_of_used_eq_zero ?_
    simp only [Conn.advance, if_pos he]
  · unfold Conn.unread Conn.mended
    rw [hfront]
    simp only [Conn.advance, if_neg he, Conn.front]

theorem Layout.append {bs : List UInt8} (h : Layout s) (hf : s.frames = .reading :: rest)
    (hbs : bs.length ≤ s.rdbufsz - s.rdbufused) : Layout (s.append bs rest) := by
  have hused := h.used_le
  have hfront : s.front = s.rdbufpos := by rw [Conn.front, hf]
  have hle := h.front_le
  have hsave := h.saved
  have hwaits := h.waits
  rw [hfront] at hle hsave
  rw [hf] at hwaits
  refine ⟨?_, ?_, fun _ => by simp [Conn.append, store], fun hs => ?_, ?_, h.locates⟩
  · show s.rdbufused + bs.length ≤ s.rdbufsz
    omega
  · show s.rdbufpos ≤ s.rdbufused + bs.length
    omega
  · have := hsave hs
    show s.rdbufpos < s.rdbufused + bs.length
    omega
  · intro f hm
    rcases List.mem_append.1 hm with hm | hm
    · cases htls : s.tls <;> simp only [htls] at hm
      · cases hm
      · rw [List.mem_singleton.1 hm]
        rfl
    · exact hwaits f hm

theorem Layout.unread_append {bs : List UInt8} (h : Layout s) (hf : s.frames = .reading :: rest) :
    (s.append bs rest).unread = s.unread ++ bs := by
  have hfront : s.front = s.rdbufpos := by rw [Conn.front, hf]
  have hle := h.front_le
  have hsave := h.saved
  have hsplit : s.rdbufused + bs.length - s.rdbufpos = (s.rdbufused - s.rdbufpos) + bs.length := by
    rw [hfront] at hle
    omega
  rw [hfront] at hle hsave
  have hend : s.rdbufpos + (s.rdbufused - s.rdbufpos) = s.rdbufused := Nat.add_sub_of_le hle
  show slice (if s.rdtextsave = 0 then _ else store _ s.rdbufpos [s.rdtextsave]) s.rdbufpos
    (s.rdbufused + bs.length - s.rdbufpos) = _
  rw [hsplit, slice_add, hend]
  unfold Conn.unread Conn.mended
  rw [hfront]
  congr 1
  · refine slice_congr fun i hi hi' => ?_
    have hput : store (store s.rdbuf s.rdbufused bs) (s.rdbufused + bs.length) [0] i =
        s.rdbuf i := by
      rw [store_of_lt (by omega), store_of_lt (by omega)]
    split
    · exact hput
    · exact store_congr hput
  · have hbs : slice (s.append bs rest).rdbuf s.rdbufused bs.length = bs :=
      (slice_store_before (Nat.le_refl _)).trans (slice_store s.rdbuf s.rdbufused bs)
    refine Eq.trans (slice_congr fun i hi _ => ?_) hbs
    split
    · rfl
    · next hs =>
      have hlt := hsave hs
      exact store_of_ge (Nat.lt_of_lt_of_le hlt hi)

/-! ## A pass of the loop -/

/-- The queue without its leading NULs. -/
def stripped (w : List UInt8) : List UInt8 := w.dropWhile (· = 0)

/-- The number of leading NULs. -/
def leading (w : List UInt8) : ℕ := (w.takeWhile (· = 0)).length

theorem eq_replicate_append_stripped (w : List UInt8) :
    w = List.replicate (leading w) 0 ++ stripped w := by
  have hzero : w.takeWhile (· = 0) = List.replicate (leading w) 0 :=
    List.eq_replicate_of_mem fun c hc => by simpa using List.mem_takeWhile_imp hc
  rw [← hzero]
  exact List.takeWhile_append_dropWhile.symm

/-- What a pass of the loop can do: end because something is being handled or nothing is left, end
because the next message is not complete, or enter the handlers with the next message. -/
inductive Pass (s s' : Conn) : Prop
  | stops (hcond : s.args.handling ≠ 0 ∨ s.unread = []) (hframes : s'.frames = s.frames.tail)
      (hlog : s'.log = s.log) (hunread : s'.unread = s.unread)
      (hpos : s.rdlocator.isSome → s'.rdbufpos = 0)
  | waitsText (locator : Locator) (hmode : s.rdlocator = some locator)
      (hcond : stripped s.unread = [] ∨ textLen locator s.rdbufsz (stripped s.unread) = none)
      (hframes : s'.frames = s.frames.tail) (hlog : s'.log = s.log ++ [.skipped (leading s.unread)])
      (hunread : s'.unread = stripped s.unread) (hpos : s'.rdbufpos = 0)
  | text (locator : Locator) (len : ℕ) (hmode : s.rdlocator = some locator)
      (hne : stripped s.unread ≠ [])
      (hcond : textLen locator s.rdbufsz (stripped s.unread) = some len)
      (hframes : s'.frames = .handlers len :: s.frames.tail)
      (hlog : s'.log = s.log ++ [.skipped (leading s.unread)] ++
        [.text ((stripped s.unread).take len)])
      (hunread : s'.unread = (stripped s.unread).drop len)
  | waitsBinary (hmode : s.rdlocator = none) (hframes : s'.frames = s.frames.tail)
      (hlog : s'.log = s.log) (hunread : s'.unread = s.unread)
  | binary (len : ℕ) (hmode : s.rdlocator = none) (hcond : binaryLen s.rdexpect s.unread = some len)
      (hframes : s'.frames = .handlers len :: s.frames.tail)
      (hlog : s'.log = s.log ++ [.binary s.rdexpect (s.unread.take len)])
      (hunread : s'.unread = s.unread.drop len)

theorem leave_log (s : Conn) : s.leave.log = s.log := by
  unfold Conn.leave Conn.compact
  split <;> rfl

theorem Layout.reset (h : Layout s) (hf : s.frames = .looping :: rest) (hs : s.rdtextsave = 0) :
    Layout { s with rdbufused := 0, rdbufpos := 0 } := by
  have hfront : ({ s with rdbufused := 0, rdbufpos := 0 } : Conn).front = 0 := front_of_looping hf
  exact ⟨Nat.zero_le _, Nat.le_of_eq hfront, fun h0 => absurd rfl h0, fun hn => absurd hs hn,
    h.waits, h.locates⟩

/-- The loop in text mode, after the replaced character is back in its place. -/
theorem Layout.pass_text (h : Layout s) (hf : s.frames = .looping :: rest) (hs : s.rdtextsave = 0)
    {locator : Locator} (hmode : s.rdlocator = some locator) :
    let t := s.skipNuls
    let s' := if t.rdbufpos = t.rdbufused then
        ({ t with rdbufused := 0, rdbufpos := 0 } : Conn).leave
      else
        match t.textLength locator with
        | some len => t.raiseText len
        | none => t.leave
    Layout s' ∧ Pass s s' := by
  intro t s'
  have ht : Layout t := h.skipNuls hf hs
  have hft : t.frames = .looping :: rest := hf
  have hfront : t.front = t.rdbufpos := front_of_looping hft
  have hunread : t.unread = stripped s.unread := unread_skipNuls hf hs
  have hlog : t.log = s.log ++ [.skipped (leading s.unread)] := by
    show s.log ++ [.skipped s.nuls] = _
    rw [nuls_eq (front_of_looping hf) hs, leading]
  have hpos : t.rdbufpos ≤ t.rdbufused := hfront ▸ ht.front_le
  by_cases hall : t.rdbufpos = t.rdbufused
  · have hnone : stripped s.unread = [] := by
      refine List.eq_nil_of_length_eq_zero ?_
      rw [← hunread, length_unread, hfront, hall, Nat.sub_self]
    have hreset := ht.reset hft hs
    have hrfront : ({ t with rdbufused := 0, rdbufpos := 0 } : Conn).front = 0 :=
      front_of_looping hft
    have heq : s' = ({ t with rdbufused := 0, rdbufpos := 0 } : Conn).leave := if_pos hall
    rw [heq]
    refine ⟨hreset.leave hrfront, .waitsText locator hmode (.inl hnone) rfl ?_ ?_
      (hreset.leave_pos hrfront (Option.isSome_iff_exists.2 ⟨locator, hmode⟩))⟩
    · rw [leave_log]
      exact hlog
    · rw [hreset.unread_leave hrfront, hnone]
      exact unread_of_used_eq_zero rfl
  · have hlt : t.rdbufpos < t.rdbufused := Nat.lt_of_le_of_ne hpos hall
    have hlocates : Locates locator := h.locates locator hmode
    have hlen : t.textLength locator = textLen locator s.rdbufsz (stripped s.unread) := by
      rw [ht.textLength_eq hfront hs hlt hlocates, hunread]
      rfl
    have heq : s' = match t.textLength locator with
        | some len => t.raiseText len
        | none => t.leave := if_neg hall
    rw [heq, hlen]
    cases hnext : textLen locator s.rdbufsz (stripped s.unread) with
    | none =>
      refine ⟨ht.leave hfront, .waitsText locator hmode (.inr hnext) rfl ?_ ?_
        (ht.leave_pos hfront (Option.isSome_iff_exists.2 ⟨locator, hmode⟩))⟩
      · rw [leave_log]
        exact hlog
      · rw [ht.unread_leave hfront, hunread]
    | some len =>
      have hle : len ≤ (cstring t.unread).length := hunread ▸ textLen_le hlocates hnext
      have hleft : len ≤ t.left := by
        rw [left_eq hfront]
        exact hle.trans (length_cstring_le _)
      have hne : stripped s.unread ≠ [] := by
        refine List.ne_nil_of_length_pos ?_
        rw [← hunread, length_unread, hfront]
        exact Nat.sub_pos_of_lt hlt
      refine ⟨ht.raiseText hlt hleft, .text locator len hmode hne hnext rfl ?_ ?_⟩
      · rw [ht.raiseText_log hfront hs hlt hle, hlog, hunread]
      · rw [unread_raiseText hfront hs hleft, hunread]

/-- The loop in binary mode, after the replaced character is back in its place. -/
theorem Layout.pass_binary (h : Layout s) (hf : s.frames = .looping :: rest)
    (hs : s.rdtextsave = 0) (hmode : s.rdlocator = none) :
    let s' := match s.binaryLength with
      | some len => s.raiseBinary len
      | none => s.leave
    Layout s' ∧ Pass s s' := by
  intro s'
  have hfront : s.front = s.rdbufpos := front_of_looping hf
  have heq : s' = match binaryLen s.rdexpect s.unread with
      | some len => s.raiseBinary len
      | none => s.leave := by
    rw [← binaryLength_eq hfront]
  rw [heq]
  cases hnext : binaryLen s.rdexpect s.unread with
  | none =>
    exact ⟨h.leave hfront, .waitsBinary hmode rfl (leave_log s) (h.unread_leave hfront)⟩
  | some len =>
    have hleft : len ≤ s.left := by
      rw [left_eq hfront]
      exact (binaryLen_le hnext).1
    exact ⟨h.raiseBinary hfront hs hleft,
      .binary len hmode hnext rfl (raiseBinary_log hfront hs hleft)
        (unread_raiseBinary hfront hs hleft)⟩

/-- Putting the replaced character back does not change what a pass does. -/
theorem Pass.of_restoreText {s' : Conn} (hf : s.front = s.rdbufpos) (h : Pass s.restoreText s') :
    Pass s s' := by
  have hu := unread_restoreText hf
  rw [restoreText_eq hf] at h hu
  cases h with
  | stops hcond hframes hlog hunread hpos =>
    rw [hu] at hcond hunread
    exact .stops hcond hframes hlog hunread hpos
  | waitsText locator hmode hcond hframes hlog hunread hpos =>
    rw [hu] at hcond hlog hunread
    exact .waitsText locator hmode hcond hframes hlog hunread hpos
  | text locator len hmode hne hcond hframes hlog hunread =>
    rw [hu] at hne hcond hlog hunread
    exact .text locator len hmode hne hcond hframes hlog hunread
  | waitsBinary hmode hframes hlog hunread =>
    rw [hu] at hunread
    exact .waitsBinary hmode hframes hlog hunread
  | binary len hmode hcond hframes hlog hunread =>
    rw [hu] at hcond hlog hunread
    exact .binary len hmode hcond hframes hlog hunread

theorem Layout.pass (h : Layout s) (hf : s.frames = .looping :: rest) :
    Layout s.pass ∧ Pass s s.pass := by
  have hfront : s.front = s.rdbufpos := front_of_looping hf
  by_cases hcond : s.args.handling ≠ 0 ∨ s.rdbufused = 0
  · have heq : s.pass = s.leave := if_pos hcond
    rw [heq]
    exact ⟨h.leave hfront, .stops (hcond.imp_right unread_of_used_eq_zero) rfl (leave_log s)
      (h.unread_leave hfront) (h.leave_pos hfront)⟩
  · have ht := h.restoreText hfront
    have hframes : s.restoreText.frames = .looping :: rest := by
      rw [restoreText_eq hfront]
      exact hf
    have hs : s.restoreText.rdtextsave = 0 := by rw [restoreText_eq hfront]
    unfold Conn.pass
    rw [if_neg hcond]
    dsimp only
    split
    · next hmode =>
      have hpass := ht.pass_text hframes hs hmode
      exact ⟨hpass.1, hpass.2.of_restoreText hfront⟩
    · next hmode =>
      have hpass := ht.pass_binary hframes hs hmode
      exact ⟨hpass.1, hpass.2.of_restoreText hfront⟩

end PoserCore.Connection.Receive
