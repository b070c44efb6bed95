import Mathlib.Order.Basic
import PoserCore.Connection.Sender

/-!
# The byte stream that is sent

As long as nothing fails, what the transport took, the unsent part of the staging buffer and the
unread parts of the queued records are together the buffers of all accepted calls, in their order
(`sent_stream`).
-/

namespace PoserCore.Connection.Send

open Lib (Machine)
open Lib.Buffer (slice store)

/-- The staged bytes that are not written yet. -/
def Conn.unsent (s : Conn) : List UInt8 := slice s.wrbuf s.wrbufpos (s.wrbuflen - s.wrbufpos)

/-- The bytes of the records in the queue. -/
def queued (rs : List WriteRecord) : List UInt8 := rs.flatMap WriteRecord.rest

/-- No byte is lost, repeated or moved, and nothing is stored outside of the buffer. -/
structure Stream (s : Conn) : Prop where
  bytes : s.wire ++ s.unsent ++ queued s.writerecs = s.calls.flatMap Prod.fst
  wrbufpos : s.wrbufpos ≤ s.wrbuflen
  wrbuflen : s.wrbuflen ≤ wrbufsz
  records : ∀ r ∈ s.writerecs, r.wrbufpos ≤ r.wrbuf.length
  outside : ∀ i, wrbufsz ≤ i → s.wrbuf i = 0

/-! ## Staging -/

theorem chunklen_le (r : WriteRecord) {n : ℕ} (h : n ≤ wrbufsz) : n + r.chunklen n ≤ wrbufsz := by
  unfold WriteRecord.chunklen
  split_ifs <;> omega

theorem chunklen_le_rest (r : WriteRecord) (n : ℕ) (h : n ≤ wrbufsz) :
    r.chunklen n ≤ r.wrbuf.length - r.wrbufpos := by
  unfold WriteRecord.chunklen
  split_ifs <;> omega

theorem length_chunk (r : WriteRecord) {n : ℕ} (h : n ≤ wrbufsz) :
    (r.rest.take (r.chunklen n)).length = r.chunklen n := by
  rw [List.length_take, WriteRecord.rest, List.length_drop]
  have := chunklen_le_rest r n h
  omega

/-- What staging keeps. -/
structure Staged (rs : List WriteRecord) (st : Staging) (st' : Staging) (rs' : List WriteRecord) :
    Prop where
  bytes : slice st'.wrbuf 0 st'.wrbuflen ++ queued rs' = slice st.wrbuf 0 st.wrbuflen ++ queued rs
  wrbuflen : st'.wrbuflen ≤ wrbufsz
  records : ∀ r ∈ rs', r.wrbufpos ≤ r.wrbuf.length
  outside : ∀ i, wrbufsz ≤ i → st'.wrbuf i = st.wrbuf i

section Copy

variable {st : Staging} (r : WriteRecord) (h : st.wrbuflen ≤ wrbufsz)
include h

theorem wrbuflen_copy : (st.copy r).wrbuflen = st.wrbuflen + r.chunklen st.wrbuflen := by
  have := chunklen_le r h
  unfold wrbufsz at this
  exact Nat.mod_eq_of_lt (by omega)

theorem wrbuflen_copy_le : (st.copy r).wrbuflen ≤ wrbufsz :=
  (wrbuflen_copy r h).trans_le (chunklen_le r h)

/-- One record staged. -/
theorem slice_copy : slice (st.copy r).wrbuf 0 (st.copy r).wrbuflen =
    slice st.wrbuf 0 st.wrbuflen ++ r.rest.take (r.chunklen st.wrbuflen) := by
  have := Lib.Buffer.slice_store_append st.wrbuf 0 st.wrbuflen
    (r.rest.take (r.chunklen st.wrbuflen))
  rw [Nat.zero_add, length_chunk r h] at this
  rw [wrbuflen_copy r h]
  exact this

theorem copy_outside {i : ℕ} (hi : wrbufsz ≤ i) : (st.copy r).wrbuf i = st.wrbuf i := by
  refine Lib.Buffer.store_of_ge ?_
  have := chunklen_le r h
  rw [length_chunk r h]
  omega

end Copy

theorem wrbuf_note (st : Staging) (r : WriteRecord) : (st.note r).wrbuf = st.wrbuf := by
  unfold Staging.note
  split_ifs <;> rfl

theorem wrbuflen_note (st : Staging) (r : WriteRecord) : (st.note r).wrbuflen = st.wrbuflen := by
  unfold Staging.note
  split_ifs <;> rfl

theorem stage_spec (rs : List WriteRecord) : ∀ {st : Staging}, st.wrbuflen ≤ wrbufsz →
    (∀ r ∈ rs, r.wrbufpos ≤ r.wrbuf.length) →
      Staged rs st (stage rs st).1 (stage rs st).2 := by
  induction rs with
  | nil =>
    intro st hlen _
    exact ⟨rfl, hlen, by simp [stage], fun _ _ => rfl⟩
  | cons r rs ih =>
    intro st hlen hrs
    have hrest := chunklen_le_rest r st.wrbuflen hlen
    have hr : r.wrbufpos ≤ r.wrbuf.length := hrs r (by simp)
    have hrs' : ∀ r' ∈ rs, r'.wrbufpos ≤ r'.wrbuf.length :=
      fun r' hr' => hrs r' (List.mem_cons_of_mem _ hr')
    unfold stage
    split_ifs with hroom hdone
    · -- The record does not fit: its rest stays at the head of the queue.
      refine ⟨?_, wrbuflen_copy_le r hlen, ?_, fun i hi => copy_outside r hlen hi⟩
      · have hsplit : r.rest.take (r.chunklen st.wrbuflen) ++
            r.wrbuf.drop (r.wrbufpos + r.chunklen st.wrbuflen) = r.rest := by
          rw [WriteRecord.rest, ← List.drop_drop, List.take_append_drop]
        rw [slice_copy r hlen, queued, queued, List.flatMap_cons, List.flatMap_cons,
          List.append_assoc, ← List.append_assoc (List.take _ _)]
        exact congrArg (fun x => slice st.wrbuf 0 st.wrbuflen ++ (x ++ _)) hsplit
      · intro r' hr'
        rcases List.mem_cons.1 hr' with rfl | hmem
        · simp only
          omega
        · exact hrs' r' hmem
    · -- The whole record fits, and the loop goes on behind it.
      have hall : r.rest.take (r.chunklen st.wrbuflen) = r.rest := by
        refine List.take_of_length_le ?_
        rw [WriteRecord.rest, List.length_drop]
        omega
      have hih := ih ((wrbuflen_note (st.copy r) r).trans_le (wrbuflen_copy_le r hlen)) hrs'
      refine ⟨hih.bytes.trans ?_, hih.wrbuflen, hih.records, fun i hi => ?_⟩
      · rw [wrbuf_note, wrbuflen_note, slice_copy r hlen, hall, queued, queued, List.flatMap_cons,
          List.append_assoc]
      · rw [hih.outside i hi, wrbuf_note, copy_outside r hlen hi]
    · exact ⟨rfl, hlen, hrs, fun _ _ => rfl⟩

/-! ## Steps -/

theorem init_create (type : ConnectionType) (tls c t : Bool) :
    machine.init (.create type tls c t) := ⟨type, tls, c, t, rfl⟩

variable {s s' : Conn}

theorem stream_create (type : ConnectionType) (tls c t : Bool) : Stream (.create type tls c t) where
  bytes := rfl
  wrbufpos := Nat.le_refl _
  wrbuflen := Nat.zero_le _
  records := by simp [Conn.create]
  outside := fun _ _ => rfl

theorem stream_sendAsync (h : Stream s) (buf : List UInt8) (id : Option Id) :
    Stream (s.sendAsync buf id) := by
  unfold Conn.sendAsync
  split_ifs
  · refine ⟨?_, h.wrbufpos, h.wrbuflen, ?_, h.outside⟩
    · have hnew : queued (s.writerecs ++ [⟨buf, id, 0, s.calls.length⟩]) =
          queued s.writerecs ++ buf := by simp [queued, WriteRecord.rest]
      rw [hnew, ← List.append_assoc]
      exact (congrArg (· ++ buf) h.bytes).trans (by simp)
    · intro r hr
      rcases List.mem_append.1 hr with hmem | hmem
      · exact h.records r hmem
      · obtain rfl := List.mem_singleton.1 hmem
        exact Nat.zero_le _
  · exact h

theorem stream_fill (h : Stream s) : Stream s.fill := by
  unfold Conn.fill
  split_ifs with hfill
  · have hlen : (⟨s.wrbuf, s.wrbuflen, []⟩ : Staging).wrbuflen ≤ wrbufsz := h.wrbuflen
    have hst := stage_spec s.writerecs hlen h.records
    have hpos : s.wrbufpos = 0 := by
      have := h.wrbufpos
      omega
    refine ⟨?_, by simp [hpos], hst.wrbuflen, hst.records,
      fun i hi => (hst.outside i hi).trans (h.outside i hi)⟩
    have hold := h.bytes
    simp only [Conn.unsent, hpos, hfill.2, Nat.sub_zero, Lib.Buffer.slice_zero, List.append_nil]
      at hold ⊢
    have hbytes := hst.bytes
    simp only [hfill.2, Lib.Buffer.slice_zero, List.nil_append] at hbytes
    rw [← hold, List.append_assoc, hbytes]
  · exact h

theorem failed_close (s : Conn) : s.close.failed = s.failed := by
  unfold Conn.close
  split_ifs <;> rfl

theorem failed_fail (s : Conn) : s.fail.failed = true := failed_close _

theorem failed_fill (s : Conn) : s.fill.failed = s.failed := by
  unfold Conn.fill
  split_ifs <;> rfl

/-- A write that took `n` of the staged bytes. -/
theorem stream_wrote (h : Stream s) {n notno : ℕ} (hn : n ≤ s.wrbuflen - s.wrbufpos) :
    Stream { s with
      wire := s.wire ++ slice s.wrbuf s.wrbufpos n
      wrbufpos := (s.wrbufpos + n) % 2 ^ 16
      control := .notifying notno } := by
  have hpos := h.wrbufpos
  have hlen := h.wrbuflen
  have hmod : (s.wrbufpos + n) % 2 ^ 16 = s.wrbufpos + n := by
    unfold wrbufsz at hlen
    exact Nat.mod_eq_of_lt (by omega)
  refine ⟨?_, by simp only [hmod]; omega, hlen, h.records, h.outside⟩
  have hsplit : s.unsent =
      slice s.wrbuf s.wrbufpos n ++ slice s.wrbuf (s.wrbufpos + n) (s.wrbuflen - (s.wrbufpos + n)) := by
    rw [← Lib.Buffer.slice_add, Conn.unsent]
    congr 1
    omega
  rw [← h.bytes, hsplit]
  simp only [Conn.unsent, hmod, List.append_assoc]

theorem stream_dowrite (h : s.failed = false → Stream s) {res : WriteResult}
    (hs : s.dowrite res = some s') (hf : s'.failed = false) : Stream s' := by
  unfold Conn.dowrite at hs
  simp only at hs
  split_ifs at hs with hfault
  · obtain rfl := Option.some.inj hs
    have hst := stream_fill (h ((failed_fill s).symm.trans hf))
    exact ⟨hst.bytes, hst.wrbufpos, hst.wrbuflen, hst.records, hst.outside⟩
  · cases res with
    | wrote n =>
      simp only at hs
      split_ifs at hs with hn
      obtain rfl := Option.some.inj hs
      exact stream_wrote (stream_fill (h ((failed_fill s).symm.trans hf))) hn
    | wouldBlock =>
      obtain rfl := Option.some.inj hs
      exact stream_fill (h ((failed_fill s).symm.trans hf))
    | failed =>
      obtain rfl := Option.some.inj hs
      rw [failed_fail] at hf
      cases hf

theorem stream_written (h : Stream s) : Stream s.written := by
  unfold Conn.written
  split_ifs with hpart
  · exact ⟨h.bytes, h.wrbufpos, h.wrbuflen, h.records, h.outside⟩
  · have hempty : s.unsent = [] := by
      have : s.wrbuflen - s.wrbufpos = 0 := by omega
      rw [Conn.unsent, this, Lib.Buffer.slice_zero]
    refine ⟨?_, Nat.le_refl _, Nat.zero_le _, h.records, h.outside⟩
    have hold := h.bytes
    rw [hempty] at hold
    exact hold

theorem stream_notify (h : Stream s) (notno : ℕ) : Stream (s.notify notno) := by
  unfold Conn.notify
  split
  · split_ifs
    · exact ⟨h.bytes, h.wrbufpos, h.wrbuflen, h.records, h.outside⟩
    · exact ⟨h.bytes, h.wrbufpos, h.wrbuflen, h.records, h.outside⟩
    · exact stream_written h
  · exact stream_written h

theorem failed_notify (s : Conn) (notno : ℕ) : (s.notify notno).failed = s.failed := by
  unfold Conn.notify Conn.written
  split <;> split_ifs <;> rfl

/-- A step that leaves the bytes alone. -/
structure SameBytes (s s' : Conn) : Prop where
  failed : s'.failed = s.failed
  wire : s'.wire = s.wire
  wrbuf : s'.wrbuf = s.wrbuf
  wrbuflen : s'.wrbuflen = s.wrbuflen
  wrbufpos : s'.wrbufpos = s.wrbufpos
  writerecs : s'.writerecs = s.writerecs
  calls : s'.calls = s.calls

theorem Stream.same (h : Stream s) (hs : SameBytes s s') : Stream s' where
  bytes := by
    rw [Conn.unsent, hs.wire, hs.wrbuf, hs.wrbuflen, hs.wrbufpos, hs.writerecs, hs.calls]
    exact h.bytes
  wrbufpos := by rw [hs.wrbufpos, hs.wrbuflen]; exact h.wrbufpos
  wrbuflen := by rw [hs.wrbuflen]; exact h.wrbuflen
  records := by rw [hs.writerecs]; exact h.records
  outside := by rw [hs.wrbuf]; exact h.outside

theorem same_close (s : Conn) : SameBytes s s.close := by
  unfold Conn.close
  split_ifs <;> exact ⟨rfl, rfl, rfl, rfl, rfl, rfl, rfl⟩

theorem same_deleteConnection (s : Conn) (shutdown : Bool) :
    SameBytes s (s.deleteConnection shutdown) := by
  unfold Conn.deleteConnection
  split_ifs <;> exact ⟨rfl, rfl, rfl, rfl, rfl, rfl, rfl⟩

theorem same_destroyStep (hs : s.destroyStep = some s') : SameBytes s s' := by
  unfold Conn.destroyStep at hs
  split at hs
  · split at hs <;> obtain rfl := Option.some.inj hs <;> exact ⟨rfl, rfl, rfl, rfl, rfl, rfl, rfl⟩
  · split at hs
    · obtain rfl := Option.some.inj hs
      exact ⟨rfl, rfl, rfl, rfl, rfl, rfl, rfl⟩
    · split_ifs at hs <;> obtain rfl := Option.some.inj hs <;>
        exact ⟨rfl, rfl, rfl, rfl, rfl, rfl, rfl⟩
  · obtain rfl := Option.some.inj hs
    exact ⟨rfl, rfl, rfl, rfl, rfl, rfl, rfl⟩
  · cases hs

theorem stream_step {a : Action} (h : s.failed = false → Stream s) (hs : step s a = some s')
    (hf : s'.failed = false) : Stream s' := by
  have hsame : SameBytes s s' → Stream s' := fun hk => (h (hk.failed.symm.trans hf)).same hk
  unfold step at hs
  split_ifs at hs with hend
  unfold perform at hs
  cases a with
  | sendAsync buf id =>
    obtain rfl := Option.some.inj hs
    have hkeep : (s.sendAsync buf id).failed = s.failed := by
      unfold Conn.sendAsync
      split_ifs <;> rfl
    exact stream_sendAsync (h (hkeep.symm.trans hf)) buf id
  | close =>
    obtain rfl := Option.some.inj hs
    exact hsame (same_close s)
  | deleteLater =>
    simp only at hs
    split_ifs at hs <;> obtain rfl := Option.some.inj hs <;>
      exact hsame ⟨rfl, rfl, rfl, rfl, rfl, rfl, rfl⟩
  | dowrite res =>
    simp only at hs
    split_ifs at hs
    exact stream_dowrite h hs hf
  | notify =>
    simp only at hs
    split at hs
    · obtain rfl := Option.some.inj hs
      exact stream_notify (h ((failed_notify s _).symm.trans hf)) _
    · cases hs
  | readFailed =>
    simp only at hs
    split_ifs at hs
    obtain rfl := Option.some.inj hs
    rw [failed_fail] at hf
    cases hf
  | deleteConnection shutdown =>
    simp only at hs
    split_ifs at hs
    obtain rfl := Option.some.inj hs
    exact hsame (same_deleteConnection s shutdown)
  | destroy =>
    simp only at hs
    split_ifs at hs
    obtain rfl := Option.some.inj hs
    exact hsame ⟨rfl, rfl, rfl, rfl, rfl, rfl, rfl⟩
  | destroyStep =>
    simp only at hs
    split_ifs at hs
    exact hsame (same_destroyStep hs)
  | progress c t h' =>
    obtain rfl := Option.some.inj hs
    exact hsame ⟨rfl, rfl, rfl, rfl, rfl, rfl, rfl⟩

/-- In every run in which nothing fails, whatever the writes take. -/
theorem sent_stream {s : Conn} (h : machine.Reachable s) (hf : s.failed = false) : Stream s := by
  refine h.invariant (I := fun s => s.failed = false → Stream s) ?_
    (fun _ _ _ hi _ hs hf => stream_step hi hs hf) hf
  rintro _ ⟨type, tls, c, t, rfl⟩ _
  exact stream_create type tls c t

/-- Two records staged together, the second written in two parts around a third call. -/
theorem sent_stream_three : ∃ s : Conn, Stream s ∧ s.wire = [1, 2, 3] ∧ s.unsent = [4, 5] ∧
    queued s.writerecs = [6] := by
  have hrun : (machine.exec [.sendAsync [1, 2] none, .sendAsync [3, 4, 5] (some 9),
      .dowrite (.wrote 1), .notify, .sendAsync [6] none, .dowrite .wouldBlock, .dowrite (.wrote 2),
      .notify] (.create .socket false false false)).any (fun s => decide (s.failed = false ∧
        s.wire = [1, 2, 3] ∧ s.unsent = [4, 5] ∧ queued s.writerecs = [6])) = true := by
    decide +kernel
  obtain ⟨s, hs, hend⟩ := Machine.exists_reachable (init_create _ _ _ _) hrun
  obtain ⟨hf, hend⟩ := of_decide_eq_true hend
  exact ⟨s, sent_stream hs hf, hend⟩

end PoserCore.Connection.Send
