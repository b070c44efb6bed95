import Mathlib.Data.List.Induction
import Mathlib.Data.List.Nodup
import PoserCore.Connection.Staging

/-!
# The `dataSent` events

Every accepted call with an id is in exactly one place: its event was raised, a notification waits
for its bytes to be written, or its record is in the queue (`Inv.account`).  The code leaves this
path in a few places, which `Action.Ok` excludes:

* without TLS, a notification is not marked as done when the write that made it due took only a
  part of the buffer, so the next write raises it again;
* a failed write or read drops the queue with the ids in it;
* a buffer with nothing to write but notifications is filled anew, which overwrites them;
* `PSC_Connection_destroy` raises the events of a connection that is to be deleted and then leaves it
  as it is;
* a handler of the `closed` event raised by `PSC_Connection_destroy` can still send.

`dataSent_once` says that apart from these every event is raised exactly once, and not before its
last byte is written.
-/

namespace PoserCore.Connection.Send

open Lib (Machine)
open Lib.Buffer (slice store)

/-- The calls with an id, numbered. -/
def expected (calls : List (List UInt8 × Option Id)) : List (ℕ × Id) :=
  calls.zipIdx.filterMap fun c => c.1.2.map fun i => (c.2, i)

def Raised.key (r : Raised) : ℕ × Id := (r.call, r.id)

/-- The notifications whose events have still to be raised. -/
def Conn.notices (s : Conn) : List WriteNotifyRecord :=
  match s.control with
  | .notifying n | .flushNotify n => s.writenotify.drop n
  | .idle | .fault => s.writenotify
  | .flushRecs _ | .closed | .gone => []

/-- The records whose events have still to be raised. -/
def Conn.owed (s : Conn) : List WriteRecord :=
  match s.control with
  | .flushRecs n => s.writerecs.drop n
  | .closed | .gone => []
  | _ => s.writerecs

/-- The condition under which the code meets its own purpose. -/
def Action.Ok (s : Conn) : Action → Prop
  | .sendAsync _ id => s.control = .closed → s.accepts = true → id = none
  | .dowrite res =>
      (s.wrbuflen = 0 → s.wrbufpos = 0 ∧ (s.writerecs ≠ [] → ∀ n ∈ s.writenotify, n.id = none)) ∧
        match res with
        | .wrote n => s.tls = true ∨
            if s.wrbuflen = 0 then n = min wrbufsz (queued s.writerecs).length ∨ NoIdWithin n s.writerecs
            else n = s.wrbuflen - s.wrbufpos ∨
              ∀ m ∈ s.writenotify, m.id ≠ none → s.wrbufpos + n < m.wrbufpos
        | .wouldBlock => True
        | .failed =>
            if s.wrbuflen = 0 then NoIdBeyond wrbufsz s.writerecs
            else ∀ r ∈ s.writerecs, r.id = none
  | .readFailed => ∀ r ∈ s.writerecs, r.id = none
  | .destroyStep => ∀ n, s.control = .flushRecs n → s.writerecs.length ≤ n → s.deleteScheduled = 1 →
      (∀ n ∈ s.writenotify, n.id = none) ∧ ∀ r ∈ s.writerecs, r.id = none
  | _ => True

/-! ## The invariant -/

/-- In the loop of `dowrite` over the notifications. -/
structure Notifying (s : Conn) (k : ℕ) : Prop where
  wrbufpos : s.wrbufpos ≤ s.wrbuflen
  bound : ∀ n ∈ s.writenotify, n.wrbufpos ≤ s.wrbuflen
  done : s.wrbufpos < s.wrbuflen → ∀ n ∈ s.writenotify.take k, n.id = none
  plain : s.tls = false → s.wrbufpos < s.wrbuflen →
    ∀ n ∈ s.writenotify.drop k, n.id ≠ none → s.wrbufpos < n.wrbufpos

structure Inv (s : Conn) : Prop where
  account : (s.raised.map Raised.key ++ noteIds s.notices ++ recIds s.owed).Perm (expected s.calls)
  wrbuflen : s.wrbuflen ≤ wrbufsz
  wrbufpos : s.wrbuflen ≠ 0 → s.wrbufpos ≤ s.wrbuflen
  records : ∀ r ∈ s.writerecs, r.wrbufpos ≤ r.wrbuf.length
  recno : ∀ n, s.control = .flushRecs n → n ≤ s.writerecs.length
  fails : s.failed = true → s.deleteScheduled ≠ 0 ∨ 0 < s.closing
  bound : s.wrbuflen ≠ 0 ∨ s.failed = false → ∀ n ∈ s.writenotify, n.wrbufpos ≤ s.wrbuflen
  notifying : ∀ k, s.control = .notifying k → Notifying s k
  control : s.control ≠ .fault
  places : s.failed = false → ∃ base, s.wire.length = base + s.wrbufpos ∧
    Queue s.calls (base + s.wrbuflen) s.writerecs ∧ ∀ n ∈ s.writenotify, Noted s.calls base n
  log : ∀ r ∈ s.raised, r.ending = false → endOf s.calls r.call ≤ r.sent

variable {s s' : Conn}

theorem inv_create (type : ConnectionType) (tls c t : Bool) : Inv (.create type tls c t) where
  account := List.Perm.refl _
  wrbuflen := Nat.zero_le _
  wrbufpos := fun _ => Nat.le_refl _
  records := by simp [Conn.create]
  recno := by simp [Conn.create]
  fails := by simp [Conn.create]
  bound := by simp [Conn.create]
  notifying := by simp [Conn.create]
  control := by simp [Conn.create]
  places := fun _ => ⟨0, rfl, trivial, by simp [Conn.create]⟩
  log := by simp [Conn.create]

theorem mem_expected {calls : List (List UInt8 × Option Id)} {x : ℕ × Id} (h : x ∈ expected calls) :
    x.1 < calls.length := by
  obtain ⟨⟨c, k⟩, hmem, hx⟩ := List.mem_filterMap.1 h
  obtain ⟨i, -, rfl⟩ := Option.map_eq_some_iff.1 hx
  exact (List.getElem?_eq_some_iff.1 (List.mk_mem_zipIdx_iff_getElem?.1 hmem)).1

theorem expected_append (calls : List (List UInt8 × Option Id)) (buf : List UInt8)
    (id : Option Id) : expected (calls ++ [(buf, id)]) =
      expected calls ++ (id.map fun i => (calls.length, i)).toList := by
  unfold expected
  rw [List.zipIdx_append, List.filterMap_append]
  cases id <;> simp

theorem call_lt (h : Inv s) {r : Raised} (hr : r ∈ s.raised) : r.call < s.calls.length := by
  have hmem : r.key ∈ s.raised.map Raised.key ++ noteIds s.notices ++ recIds s.owed :=
    List.mem_append_left _ (List.mem_append_left _ (List.mem_map_of_mem hr))
  exact mem_expected (h.account.subset hmem)

/-! ## Calls of the owner -/

theorem recIds_append (rs : List WriteRecord) (buf : List UInt8) (id : Option Id) (k : ℕ) :
    recIds (rs ++ [⟨buf, id, 0, k⟩]) = recIds rs ++ (id.map fun i => (k, i)).toList := by
  unfold recIds
  rw [List.filterMap_append]
  cases id <;> simp

theorem inv_sendAsync (h : Inv s) (hst : s.failed = false → Stream s) (hend : s.control ≠ .gone)
    {buf : List UInt8} {id : Option Id} (hok : (Action.sendAsync buf id).Ok s) :
    Inv (s.sendAsync buf id) := by
  unfold Conn.sendAsync
  split_ifs with hacc
  · refine ⟨?_, h.wrbuflen, h.wrbufpos, ?_, ?_, h.fails, h.bound,
      fun k hk => ⟨(h.notifying k hk).1, (h.notifying k hk).2, (h.notifying k hk).3,
        (h.notifying k hk).4⟩, h.control, fun hf => ?_, fun r hr hr' => ?_⟩
    · -- The new record is owed, unless the records are done with; then it has no id.
      have howed : recIds ({ s with
          writerecs := s.writerecs ++ [⟨buf, id, 0, s.calls.length⟩]
          calls := s.calls ++ [(buf, id)] } : Conn).owed =
          recIds s.owed ++ (id.map fun i => (s.calls.length, i)).toList := by
        cases hc : s.control with
        | flushRecs n =>
          simp only [Conn.owed, hc]
          rw [List.drop_append_of_le_length (h.recno n hc), recIds_append]
        | closed =>
          obtain rfl := hok hc hacc
          simp [Conn.owed, hc]
        | gone => exact absurd hc hend
        | idle | notifying _ | flushNotify _ | fault =>
          simp only [Conn.owed, hc]
          exact recIds_append ..
      rw [howed, expected_append, ← List.append_assoc]
      exact h.account.append_right _
    · intro r hr
      rcases List.mem_append.1 hr with hmem | hmem
      · exact h.records r hmem
      · obtain rfl := List.mem_singleton.1 hmem
        exact Nat.zero_le _
    · intro n hn
      have := h.recno n hn
      simp only [List.length_append, List.length_singleton]
      omega
    · obtain ⟨base, hwire, hq, hns⟩ := h.places hf
      refine ⟨base, hwire, hq.append ?_, fun n hn => (hns n hn).append _⟩
      have hstream := hst hf
      have hpos := hstream.wrbufpos
      have htotal := congrArg List.length hstream.bytes
      rw [List.length_append, List.length_append, Conn.unsent, Lib.Buffer.length_slice] at htotal
      omega
    · rw [endOf_append _ (call_lt h hr)]
      exact h.log r hr hr'
  · exact h

/-- What the timers, the closing calls and the scheduled deletion do not touch. -/
theorem Inv.same (h : Inv s) {c t x : Bool} {deleteScheduled closing : ℕ}
    (hf : s.failed = true → deleteScheduled ≠ 0 ∨ 0 < closing) :
    Inv { s with
      connectTimer := c
      tlsConnectTimer := t
      tlsShutdownSt := x
      deleteScheduled := deleteScheduled
      closing := closing } where
  account := h.account
  wrbuflen := h.wrbuflen
  wrbufpos := h.wrbufpos
  records := h.records
  recno := h.recno
  fails := hf
  bound := h.bound
  notifying k hk :=
    have hn := h.notifying k hk
    ⟨hn.wrbufpos, hn.bound, hn.done, hn.plain⟩
  control := h.control
  places := h.places
  log := h.log

theorem inv_close (h : Inv s) : Inv s.close := by
  unfold Conn.close
  split_ifs
  · exact h.same fun _ => .inr (Nat.succ_pos _)
  · exact h

/-! ## Writing -/

theorem notices_idle (h : s.control = .idle) : s.notices = s.writenotify := by
  simp [Conn.notices, h]

theorem owed_idle (h : s.control = .idle) : s.owed = s.writerecs := by
  simp [Conn.owed, h]

/-- A failure drops a queue without ids. -/
theorem inv_fail (h : Inv s) (hc : s.control = .idle) (hids : recIds s.writerecs = []) :
    Inv s.fail := by
  have hacc := h.account
  rw [notices_idle hc, owed_idle hc, hids] at hacc
  unfold Conn.fail Conn.close
  split_ifs with hdel
  · refine ⟨?_, Nat.zero_le _, by simp, by simp, by simp [hc], fun _ => .inr (Nat.succ_pos _),
      by simp, by simp [hc], h.control, by simp, h.log⟩
    simpa [Conn.notices, Conn.owed, hc, recIds] using hacc
  · refine ⟨?_, Nat.zero_le _, by simp, by simp, by simp [hc], fun _ => .inl hdel,
      by simp, by simp [hc], h.control, by simp, h.log⟩
    simpa [Conn.notices, Conn.owed, hc, recIds] using hacc

/-- The staging buffer before a write. -/
structure Filled (s : Conn) : Prop extends Inv s where
  idle : s.control = .idle
  within : s.wrbufpos ≤ s.wrbuflen
  positions : ∀ n ∈ s.writenotify, n.wrbufpos ≤ s.wrbuflen

theorem filled_fill (h : Inv s) (hrest : s.atRest = true) (hwr : s.writable = true)
    (hok : s.wrbuflen = 0 →
      s.wrbufpos = 0 ∧ (s.writerecs ≠ [] → ∀ n ∈ s.writenotify, n.id = none)) :
    Filled s.fill := by
  obtain ⟨hc, hclosing⟩ : s.control = .idle ∧ s.closing = 0 := by simpa [Conn.atRest] using hrest
  unfold Conn.fill
  split_ifs with hfill
  · obtain ⟨hpos, hnone⟩ := hok hfill.2
    have hlen0 : (⟨s.wrbuf, s.wrbuflen, []⟩ : Staging).wrbuflen ≤ wrbufsz := h.wrbuflen
    have hst := stage_spec s.writerecs hlen0 h.records
    have hids := stage_ids hlen0 h.records
    have hbnd := stage_positions hlen0 h.records
    have hall : ∀ n ∈ (stage s.writerecs ⟨s.wrbuf, s.wrbuflen, []⟩).1.writenotify,
        n.wrbufpos ≤ (stage s.writerecs ⟨s.wrbuf, s.wrbuflen, []⟩).1.wrbuflen := by
      intro n hn
      rcases hbnd.2 n hn with hold | hnew
      · cases hold
      · exact hnew.2
    refine ⟨⟨?_, hst.wrbuflen, by simp [hpos], hst.records, by simp [hc], h.fails, fun _ => hall,
      by simp [hc], h.control, fun hf => ?_, h.log⟩, hc, by simp [hpos], hall⟩
    · -- What leaves the queue is noted; there was nothing to overwrite.
      have hacc := h.account
      rw [notices_idle hc, owed_idle hc, noteIds_eq_nil.2 (hnone hfill.1), List.append_nil] at hacc
      simp only [Conn.notices, Conn.owed, hc, List.append_assoc]
      rw [hids]
      exact hacc
    · obtain ⟨base, hwire, hq, -⟩ := h.places hf
      have hplaces := stage_places hlen0 h.records hq (by simp)
      exact ⟨base, hwire, hplaces.1, hplaces.2⟩
  · have hbound : s.wrbuflen ≠ 0 ∨ s.failed = false := by
      by_cases hlen : s.wrbuflen = 0
      · -- Nothing to send: only a connection that has not failed gets here.
        have hnil : s.writerecs = [] := by
          by_contra hne
          exact hfill ⟨hne, hlen⟩
        have hdel : s.deleteScheduled = 0 := by
          have : s.tls = true ∧ s.deleteScheduled = 0 := by
            simpa [Conn.writable, hnil, hlen] using hwr
          exact this.2
        refine .inr (Bool.eq_false_iff.2 fun hf => ?_)
        rcases h.fails hf with hd | hcl
        · exact hd hdel
        · omega
      · exact .inl hlen
    refine ⟨h, hc, ?_, h.bound hbound⟩
    by_cases hlen : s.wrbuflen = 0
    · rw [(hok hlen).1]
      exact Nat.zero_le _
    · exact h.wrbufpos hlen

theorem take_first (ns : List WriteNotifyRecord) : ∀ n ∈ ns.take (firstNotify ns), n.id = none := by
  induction ns with
  | nil => simp
  | cons m ns ih =>
    intro n hn
    unfold firstNotify at hn
    split_ifs at hn with hm
    · rcases List.mem_cons.1 hn with rfl | hmem
      · simpa using hm
      · exact ih n hmem
    · cases hn

theorem noteIds_take_drop {ns : List WriteNotifyRecord} {k : ℕ} (h : ∀ n ∈ ns.take k, n.id = none) :
    noteIds (ns.drop k) = noteIds ns := by
  conv_rhs => rw [← List.take_append_drop k ns, noteIds_append, noteIds_eq_nil.2 h]
  rfl

/-- A write that took `n` bytes: all, or too few to make a notification due, or with TLS. -/
theorem inv_wrote (h : Filled s) {n : ℕ} (hn : n ≤ s.wrbuflen - s.wrbufpos)
    (hok : s.tls = true ∨ n = s.wrbuflen - s.wrbufpos ∨
      ∀ m ∈ s.writenotify, m.id ≠ none → s.wrbufpos + n < m.wrbufpos) :
    Inv { s with
      wire := s.wire ++ slice s.wrbuf s.wrbufpos n
      wrbufpos := (s.wrbufpos + n) % 2 ^ 16
      control := .notifying (firstNotify s.writenotify) } := by
  have hle := h.within
  have hlen := h.wrbuflen
  have hmod : (s.wrbufpos + n) % 2 ^ 16 = s.wrbufpos + n := by
    unfold wrbufsz at hlen
    exact Nat.mod_eq_of_lt (by omega)
  simp only [hmod]
  refine ⟨?_, hlen, fun _ => by simp only; omega, h.records, by simp, h.fails, h.bound, ?_, by simp,
    fun hf => ?_, h.log⟩
  · have hacc := h.account
    rw [notices_idle h.idle, owed_idle h.idle] at hacc
    simpa [Conn.notices, Conn.owed, noteIds_take_drop (take_first _)] using hacc
  · intro k hk
    obtain rfl : firstNotify s.writenotify = k := by simpa using hk
    refine ⟨by simp only; omega, h.positions, fun _ => take_first _, ?_⟩
    intro htls hpart m hm hid
    rcases hok with htls' | hall | hnone
    · cases htls'.symm.trans htls
    · simp only at hpart
      omega
    · exact hnone m (List.mem_of_mem_drop hm) hid
  · obtain ⟨base, hwire, hq, hns⟩ := h.places hf
    refine ⟨base, ?_, hq, hns⟩
    simp only [List.length_append, Lib.Buffer.length_slice, hwire, Nat.add_assoc]

/-- The condition on the queue is one on the staged notifications. -/
theorem wrote_fill (h : Inv s) {n : ℕ}
    (hpos : s.wrbuflen = 0 → s.wrbufpos = 0)
    (hok : s.tls = true ∨
      if s.wrbuflen = 0 then n = min wrbufsz (queued s.writerecs).length ∨ NoIdWithin n s.writerecs
      else n = s.wrbuflen - s.wrbufpos ∨
        ∀ m ∈ s.writenotify, m.id ≠ none → s.wrbufpos + n < m.wrbufpos)
    (hn : n ≤ s.fill.wrbuflen - s.fill.wrbufpos) :
    s.fill.tls = true ∨ n = s.fill.wrbuflen - s.fill.wrbufpos ∨
      ∀ m ∈ s.fill.writenotify, m.id ≠ none → s.fill.wrbufpos + n < m.wrbufpos := by
  unfold Conn.fill at hn ⊢
  split_ifs at hn ⊢ with hfill
  · obtain ⟨hne, hlen⟩ := hfill
    have hlen0 : (⟨s.wrbuf, s.wrbuflen, []⟩ : Staging).wrbuflen ≤ wrbufsz := h.wrbuflen
    have htotal := stage_length hlen0 h.records
    simp only [hlen, Nat.zero_add] at htotal
    rw [if_pos hlen] at hok
    simp only [hpos hlen, hlen, Nat.sub_zero, htotal, Nat.zero_add]
    refine hok.imp_right (Or.imp_right fun hwithin m hm _ => ?_)
    rcases stage_within hlen0 h.records hwithin m (by simpa [hlen] using hm) with hold | hlt
    · cases hold
    · simpa [hlen] using hlt
  · by_cases hlen : s.wrbuflen = 0
    · -- Nothing is staged and nothing is written.
      exact .inr (.inl (by omega))
    · rwa [if_neg hlen] at hok

theorem inv_dowrite (h : Inv s) (hrest : s.atRest = true) (hwr : s.writable = true)
    {res : WriteResult} (hok : (Action.dowrite res).Ok s) (hs : s.dowrite res = some s') :
    Inv s' := by
  obtain ⟨hstate, hres⟩ := hok
  have hfilled := filled_fill h hrest hwr hstate
  unfold Conn.dowrite at hs
  simp only at hs
  rw [if_neg (by have := hfilled.within; omega)] at hs
  cases res with
  | wrote n =>
    simp only at hs
    split_ifs at hs with hn
    obtain rfl := Option.some.inj hs
    exact inv_wrote hfilled hn (wrote_fill h (fun hlen => (hstate hlen).1) hres hn)
  | wouldBlock =>
    obtain rfl := Option.some.inj hs
    exact hfilled.toInv
  | failed =>
    obtain rfl := Option.some.inj hs
    refine inv_fail hfilled.toInv hfilled.idle ?_
    simp only at hres
    unfold Conn.fill
    split_ifs with hfill
    · rw [if_pos hfill.2] at hres
      refine stage_beyond h.wrbuflen h.records ?_
      simpa [hfill.2] using hres
    · split_ifs at hres with hlen
      · have hnil : s.writerecs = [] := by
          by_contra hne
          exact hfill ⟨hne, hlen⟩
        rw [hnil]
        rfl
      · exact recIds_eq_nil.2 hres

/-! ## Raising -/

theorem noteIds_drop {ns : List WriteNotifyRecord} {k : ℕ} {n : WriteNotifyRecord}
    (h : ns[k]? = some n) :
    noteIds (ns.drop k) = (n.id.map fun i => (n.call, i)).toList ++ noteIds (ns.drop (k + 1)) := by
  obtain ⟨hk, rfl⟩ := List.getElem?_eq_some_iff.1 h
  rw [List.drop_eq_getElem_cons hk]
  unfold noteIds
  rw [List.filterMap_cons]
  cases ns[k].id <;> rfl

theorem recIds_drop {rs : List WriteRecord} {k : ℕ} {r : WriteRecord} (h : rs[k]? = some r) :
    recIds (rs.drop k) = (r.id.map fun i => (r.call, i)).toList ++ recIds (rs.drop (k + 1)) := by
  obtain ⟨hk, rfl⟩ := List.getElem?_eq_some_iff.1 h
  rw [List.drop_eq_getElem_cons hk]
  unfold recIds
  rw [List.filterMap_cons]
  cases rs[k].id <;> rfl

/-- An event adds the key of its notification. -/
theorem keys_raise (s : Conn) (n : WriteNotifyRecord) (ending : Bool) :
    (s.raise n ending).raised.map Raised.key =
      s.raised.map Raised.key ++ (n.id.map fun i => (n.call, i)).toList := by
  unfold Conn.raise
  cases n.id <;> simp [Raised.key]

theorem log_raise (h : Inv s) {n : WriteNotifyRecord} {ending : Bool}
    (hn : ending = false → endOf s.calls n.call ≤ s.wire.length) :
    ∀ r ∈ (s.raise n ending).raised, r.ending = false → endOf s.calls r.call ≤ r.sent := by
  intro r hr hr'
  unfold Conn.raise at hr
  rcases List.mem_append.1 hr with hold | hnew
  · exact h.log r hold hr'
  · obtain ⟨i, -, rfl⟩ := Option.map_eq_some_iff.1 (Option.mem_toList.1 hnew)
    exact hn hr'

/-- Marking a notification as done changes no other and none of the places. -/
theorem mem_set_done {ns : List WriteNotifyRecord} {k : ℕ} {n m : WriteNotifyRecord}
    (hn : ns[k]? = some n) (hm : m ∈ ns.set k { n with id := none }) :
    ∃ m' ∈ ns, m.call = m'.call ∧ m.wrbufpos = m'.wrbufpos := by
  rcases List.mem_or_eq_of_mem_set hm with hmem | rfl
  · exact ⟨m, hmem, rfl, rfl⟩
  · exact ⟨n, List.mem_of_getElem? hn, rfl, rfl⟩

/-- One pass of the loop in `dowrite`. -/
theorem inv_notify_due (h : Inv s) {k : ℕ} (hc : s.control = .notifying k) {n : WriteNotifyRecord}
    (hn : s.writenotify[k]? = some n) (hdue : n.wrbufpos ≤ s.wrbufpos) {ns : List WriteNotifyRecord}
    (hns : ns = if s.tls then s.writenotify.set k { n with id := none } else s.writenotify) :
    Inv { s.raise n s.failed with control := .notifying (k + 1), writenotify := ns } := by
  obtain ⟨hpos, hbound, hdone, hplain⟩ := h.notifying k hc
  have hmem : ∀ m ∈ ns, ∃ m' ∈ s.writenotify, m.call = m'.call ∧ m.wrbufpos = m'.wrbufpos := by
    intro m hm
    rw [hns] at hm
    split_ifs at hm
    · exact mem_set_done hn hm
    · exact ⟨m, hm, rfl, rfl⟩
  have hdrop : ns.drop (k + 1) = s.writenotify.drop (k + 1) := by
    rw [hns]
    split_ifs
    · exact List.drop_set_of_lt (by omega)
    · rfl
  have hk : k < s.writenotify.length := (List.getElem?_eq_some_iff.1 hn).1
  have hbound' : ∀ m ∈ ns, m.wrbufpos ≤ s.wrbuflen := by
    intro m hm
    obtain ⟨m', hm', -, hp⟩ := hmem m hm
    rw [hp]
    exact hbound m' hm'
  refine ⟨?_, h.wrbuflen, h.wrbufpos, h.records, by simp, h.fails, fun _ => hbound', ?_, by simp,
    fun hf => ?_, ?_⟩
  · have hacc := h.account
    simp only [Conn.notices, Conn.owed, hc] at hacc ⊢
    rw [keys_raise, hdrop]
    rw [noteIds_drop hn] at hacc
    simpa [Conn.raise, List.append_assoc] using hacc
  · intro j hj
    obtain rfl : k + 1 = j := by simpa using hj
    refine ⟨hpos, hbound', fun hpart m hm => ?_, fun htls hpart m hm => ?_⟩
    · -- With TLS the notification is marked; otherwise it has no id, as no part makes one due.
      rw [hns] at hm
      simp only at hpart
      split_ifs at hm with htls
      · rw [List.take_succ_eq_append_getElem (by simpa using hk), List.take_set_of_le (by omega)] at hm
        rcases List.mem_append.1 hm with hold | hnew
        · exact hdone hpart m hold
        · rw [List.mem_singleton.1 hnew, List.getElem_set_self]
      · rw [List.take_succ_eq_append_getElem hk] at hm
        rcases List.mem_append.1 hm with hold | hnew
        · exact hdone hpart m hold
        · have hget : s.writenotify[k] = n := (List.getElem?_eq_some_iff.1 hn).2
          rw [List.mem_singleton.1 hnew, hget]
          by_contra hid
          have hhead : n ∈ s.writenotify.drop k := by
            rw [List.drop_eq_getElem_cons hk, hget]
            exact List.mem_cons_self
          have := hplain (by simpa using htls) hpart n hhead hid
          omega
    · rw [hdrop] at hm
      refine hplain htls hpart m ?_
      rw [List.drop_eq_getElem_cons hk]
      exact List.mem_cons_of_mem _ hm
  · obtain ⟨base, hwire, hq, hnoted⟩ := h.places hf
    refine ⟨base, hwire, hq, fun m hm => ?_⟩
    obtain ⟨m', hm', hcall, hp⟩ := hmem m hm
    have := hnoted m' hm'
    exact ⟨hcall ▸ this.1, by rw [hcall, hp]; exact this.2⟩
  · refine log_raise h fun hf => ?_
    obtain ⟨base, hwire, -, hnoted⟩ := h.places hf
    rw [(hnoted n (List.mem_of_getElem? hn)).2, hwire]
    omega

/-- The end of that loop, with no notification left that is due. -/
theorem inv_written (h : Inv s) {k : ℕ} (hc : s.control = .notifying k)
    (hend : ∀ n, s.writenotify[k]? = some n → s.wrbufpos < n.wrbufpos) : Inv s.written := by
  obtain ⟨hpos, hbound, hdone, -⟩ := h.notifying k hc
  have hacc := h.account
  simp only [Conn.notices, Conn.owed, hc] at hacc
  unfold Conn.written
  split_ifs with hpart
  · refine ⟨?_, h.wrbuflen, h.wrbufpos, h.records, by simp, h.fails, h.bound, by simp, by simp,
      h.places, h.log⟩
    rw [noteIds_take_drop (hdone hpart)] at hacc
    exact hacc
  · -- All is written, so all notifications were due.
    have hlast : s.writenotify.length ≤ k := by
      by_contra hk
      have hget := List.getElem?_eq_getElem (Nat.lt_of_not_le hk)
      have hlt := hend _ hget
      have hle := hbound _ (List.mem_of_getElem? hget)
      omega
    refine ⟨?_, Nat.zero_le _, by simp, h.records, by simp, h.fails, by simp, by simp, by simp,
      fun hf => ?_, h.log⟩
    · rw [List.drop_of_length_le hlast] at hacc
      exact hacc
    · obtain ⟨base, hwire, hq, -⟩ := h.places hf
      exact ⟨base + s.wrbuflen, by simp only [hwire]; omega, by simpa using hq, by simp⟩

theorem inv_notify (h : Inv s) {k : ℕ} (hc : s.control = .notifying k) : Inv (s.notify k) := by
  unfold Conn.notify
  split
  next n hn =>
    split_ifs with hdue htls
    · exact inv_notify_due h hc hn hdue (by rw [if_pos htls])
    · exact inv_notify_due h hc hn hdue (by rw [if_neg htls])
    · refine inv_written h hc fun n' hn' => ?_
      obtain rfl : n = n' := Option.some.inj (hn.symm.trans hn')
      omega
  next hn =>
    refine inv_written h hc fun n' hn' => ?_
    rw [hn] at hn'
    cases hn'

/-! ## The end -/

theorem inv_deleteConnection (h : Inv s) (hc : s.control = .idle) (shutdown : Bool) :
    Inv (s.deleteConnection shutdown) := by
  have hacc := h.account
  rw [notices_idle hc, owed_idle hc] at hacc
  unfold Conn.deleteConnection
  split_ifs with hpending hshut
  · exact h
  · exact h.same h.fails
  · exact ⟨hacc, h.wrbuflen, h.wrbufpos, h.records, by simp, fun _ => .inl (by simp), h.bound,
      by simp, by simp, h.places, h.log⟩

theorem inv_destroy (h : Inv s) (hc : s.control = .idle) :
    Inv { s with control := .flushNotify 0 } := by
  have hacc := h.account
  rw [notices_idle hc, owed_idle hc] at hacc
  exact ⟨hacc, h.wrbuflen, h.wrbufpos, h.records, by simp, h.fails, h.bound, by simp, by simp,
    h.places, h.log⟩

theorem inv_destroyStep (h : Inv s) (hok : Action.destroyStep.Ok s)
    (hs : s.destroyStep = some s') : Inv s' := by
  have hacc := h.account
  unfold Conn.destroyStep at hs
  split at hs
  next k hc =>
    simp only [Conn.notices, Conn.owed, hc] at hacc
    split at hs
    next n hn =>
      obtain rfl := Option.some.inj hs
      refine ⟨?_, h.wrbuflen, h.wrbufpos, h.records, by simp, h.fails, h.bound, by simp, by simp,
        h.places, log_raise h (by simp)⟩
      simp only [Conn.notices, Conn.owed]
      rw [keys_raise]
      rw [noteIds_drop hn] at hacc
      simpa [Conn.raise, List.append_assoc] using hacc
    next hn =>
      obtain rfl := Option.some.inj hs
      refine ⟨?_, h.wrbuflen, h.wrbufpos, h.records, by simp, h.fails, h.bound, by simp, by simp,
        h.places, h.log⟩
      rw [List.drop_of_length_le (List.getElem?_eq_none_iff.1 hn)] at hacc
      exact hacc
  next k hc =>
    simp only [Conn.notices, Conn.owed, hc] at hacc
    split at hs
    next r hr =>
      obtain rfl := Option.some.inj hs
      refine ⟨?_, h.wrbuflen, h.wrbufpos, h.records, ?_, h.fails, h.bound, by simp, by simp,
        h.places, log_raise h (by simp)⟩
      · simp only [Conn.notices, Conn.owed]
        rw [keys_raise]
        rw [recIds_drop hr] at hacc
        simpa [Conn.raise, noteIds, List.append_assoc] using hacc
      · intro j hj
        obtain rfl : k + 1 = j := by simpa using hj
        exact (List.getElem?_eq_some_iff.1 hr).1
    next hr =>
      have hlast := List.getElem?_eq_none_iff.1 hr
      rw [List.drop_of_length_le hlast] at hacc
      split_ifs at hs with h0 h1
      · obtain rfl := Option.some.inj hs
        exact ⟨hacc, h.wrbuflen, h.wrbufpos, h.records, by simp, h.fails, h.bound, by simp, by simp,
          h.places, h.log⟩
      · obtain rfl := Option.some.inj hs
        obtain ⟨hns, hrs⟩ := hok k hc hlast h1
        refine ⟨?_, h.wrbuflen, h.wrbufpos, h.records, by simp, h.fails, h.bound, by simp, by simp,
          h.places, h.log⟩
        simp only [Conn.notices, Conn.owed, noteIds_eq_nil.2 hns, recIds_eq_nil.2 hrs]
        exact hacc
      · obtain rfl := Option.some.inj hs
        exact ⟨hacc, h.wrbuflen, h.wrbufpos, h.records, by simp, h.fails, h.bound, by simp, by simp,
          h.places, h.log⟩
  next hc =>
    obtain rfl := Option.some.inj hs
    simp only [Conn.notices, Conn.owed, hc] at hacc
    exact ⟨hacc, h.wrbuflen, h.wrbufpos, h.records, by simp, h.fails, h.bound, by simp, by simp,
      h.places, h.log⟩
  next => cases hs

/-! ## Runs -/

theorem inv_step {a : Action} (h : Inv s) (hst : s.failed = false → Stream s) (hok : a.Ok s)
    (hs : step s a = some s') : Inv s' := by
  unfold step at hs
  split_ifs at hs with hend
  have hgone : s.control ≠ .gone := fun hc => hend (.inl hc)
  unfold perform at hs
  cases a with
  | sendAsync buf id =>
    obtain rfl := Option.some.inj hs
    exact inv_sendAsync h hst hgone hok
  | close =>
    obtain rfl := Option.some.inj hs
    exact inv_close h
  | deleteLater =>
    simp only at hs
    split_ifs at hs with hcl hdel
    · obtain rfl := Option.some.inj hs
      exact h.same (fun _ => .inl Nat.one_ne_zero)
    · obtain rfl := Option.some.inj hs
      exact h.same (fun _ => .inl hdel)
  | dowrite res =>
    simp only at hs
    split_ifs at hs with hready
    obtain ⟨hrest, hwr⟩ := Bool.and_eq_true_iff.1 hready
    exact inv_dowrite h hrest hwr hok hs
  | notify =>
    simp only at hs
    split at hs
    next k hc hcl =>
      obtain rfl := Option.some.inj hs
      exact inv_notify h hc
    next => cases hs
  | readFailed =>
    simp only at hs
    split_ifs at hs with hrest
    obtain rfl := Option.some.inj hs
    have hc : s.control = .idle := by simpa using (Bool.and_eq_true_iff.1 hrest).1
    exact inv_fail h hc (recIds_eq_nil.2 hok)
  | deleteConnection shutdown =>
    simp only at hs
    split_ifs at hs with hready
    obtain rfl := Option.some.inj hs
    have hrest := (Bool.and_eq_true_iff.1 hready).1
    have hc : s.control = .idle := by simpa using (Bool.and_eq_true_iff.1 hrest).1
    exact inv_deleteConnection h hc shutdown
  | destroy =>
    simp only at hs
    split_ifs at hs with hrest
    obtain rfl := Option.some.inj hs
    have hc : s.control = .idle := by simpa using (Bool.and_eq_true_iff.1 hrest).1
    exact inv_destroy h hc
  | destroyStep =>
    simp only at hs
    split_ifs at hs
    exact inv_destroyStep h hok hs
  | progress c t x =>
    obtain rfl := Option.some.inj hs
    exact h.same h.fails

/-- The events are those of the calls with an id: none twice, and each once in the end; and none
before its last byte was written, while the connection works. -/
structure Sent (s : Conn) : Prop where
  nodup : (s.raised.map Raised.key).Nodup
  calls : ∀ r ∈ s.raised, r.key ∈ expected s.calls
  once : s.control = .gone → (s.raised.map Raised.key).Perm (expected s.calls)
  written : ∀ r ∈ s.raised, r.ending = false → endOf s.calls r.call ≤ r.sent

theorem nodup_expected (calls : List (List UInt8 × Option Id)) : (expected calls).Nodup := by
  induction calls using List.reverseRecOn with
  | nil => exact List.nodup_nil
  | append_singleton calls c ih =>
    obtain ⟨buf, id⟩ := c
    rw [expected_append]
    refine List.nodup_append.2 ⟨ih, ?_, ?_⟩
    · cases id <;> simp
    · intro x hx y hy
      obtain ⟨i, -, rfl⟩ := Option.map_eq_some_iff.1 (Option.mem_toList.1 hy)
      rintro rfl
      exact Nat.lt_irrefl _ (mem_expected hx)

/-- In every run that keeps to the condition, whatever the writes take and the handlers do. -/
theorem dataSent_once (h : machine.Run (fun s a => a.Ok s) s) : Sent s := by
  have hinv : Inv s ∧ (s.failed = false → Stream s) := by
    refine h.invariant (I := fun s => Inv s ∧ (s.failed = false → Stream s)) ?_ ?_
    · rintro _ ⟨type, tls, c, t, rfl⟩
      exact ⟨inv_create type tls c t, fun _ => stream_create type tls c t⟩
    · intro s a s' hi hok hs
      exact ⟨inv_step hi.1 hi.2 hok hs, stream_step hi.2 hs⟩
  have hacc := hinv.1.account
  have hnodup := hacc.nodup_iff.2 (nodup_expected s.calls)
  rw [List.append_assoc] at hnodup hacc
  refine ⟨(List.nodup_append.1 hnodup).1, fun r hr => ?_, fun hgone => ?_, hinv.1.log⟩
  · exact hacc.subset (List.mem_append_left _ (List.mem_map_of_mem hr))
  · simpa [Conn.notices, Conn.owed, hgone, noteIds, recIds] using hacc

/-- A test for `NoIdWithin`. -/
def noIdWithin : ℕ → List WriteRecord → Bool
  | _, [] => true
  | n, r :: rs =>
      decide (n < r.rest.length) || (r.id.isNone && noIdWithin (n - r.rest.length) rs)

theorem noIdWithin_sound : ∀ {rs : List WriteRecord} {n : ℕ}, noIdWithin n rs = true →
    NoIdWithin n rs
  | [], _, _ => trivial
  | r :: rs, n, h => by
      simp only [noIdWithin, Bool.or_eq_true, decide_eq_true_eq, Bool.and_eq_true,
        Option.isNone_iff_eq_none] at h
      exact h.imp_right fun hr => ⟨hr.1, noIdWithin_sound hr.2⟩

/-- A test for `Action.Ok` that leaves out failures. -/
def Action.test (s : Conn) : Action → Bool
  | .sendAsync _ id => decide (s.control ≠ .closed) || id.isNone
  | .dowrite res =>
      decide (s.wrbuflen = 0 → s.wrbufpos = 0 ∧
        (s.writerecs = [] ∨ ∀ n ∈ s.writenotify, n.id = none)) &&
        match res with
        | .wrote n => s.tls ||
            if s.wrbuflen = 0 then
              decide (n = min wrbufsz (queued s.writerecs).length) || noIdWithin n s.writerecs
            else decide (n = s.wrbuflen - s.wrbufpos ∨
              ∀ m ∈ s.writenotify, m.id ≠ none → s.wrbufpos + n < m.wrbufpos)
        | .wouldBlock => true
        | .failed => false
  | .readFailed => false
  | .destroyStep => decide (s.deleteScheduled ≠ 1)
  | _ => true

theorem test_sound {s : Conn} {a : Action} (h : a.test s = true) : a.Ok s := by
  cases a with
  | sendAsync buf id =>
    simp only [Action.test, Bool.or_eq_true, decide_eq_true_eq, Option.isNone_iff_eq_none] at h
    exact fun hc _ => h.resolve_left fun hne => hne hc
  | dowrite res =>
    obtain ⟨hstate, hres⟩ := Bool.and_eq_true_iff.1 h
    refine ⟨fun hlen => ?_, ?_⟩
    · obtain ⟨hpos, hids⟩ := of_decide_eq_true hstate hlen
      exact ⟨hpos, fun hne => hids.resolve_left hne⟩
    · cases res with
      | wrote n =>
        simp only [Bool.or_eq_true] at hres ⊢
        refine hres.imp_right fun hw => ?_
        split_ifs at hw ⊢ with hlen
        · rw [Bool.or_eq_true, decide_eq_true_eq] at hw
          exact hw.imp_right noIdWithin_sound
        · exact of_decide_eq_true hw
      | wouldBlock => trivial
      | failed => cases hres
  | destroyStep => exact fun n _ _ hdel => absurd hdel (of_decide_eq_true h)
  | readFailed => cases h
  | close | deleteLater | notify | deleteConnection _ | destroy | progress _ _ _ => trivial

/-- A call written in two parts, and one that is still queued when the connection is destroyed. -/
theorem dataSent_once_two : ∃ s : Conn, Sent s ∧ s.control = .gone ∧
    s.raised.map Raised.key = [(0, 9), (1, 8)] := by
  have hrun : (machine.execOk (fun s a => a.test s) [.sendAsync [1, 2, 3] (some 9),
      .dowrite (.wrote 2), .notify, .dowrite .wouldBlock, .dowrite (.wrote 1), .notify, .notify,
      .sendAsync [4] (some 8), .destroy, .destroyStep, .destroyStep, .destroyStep, .destroyStep]
      (.create .socket false false false)).any (fun s => decide (s.control = .gone ∧
        s.raised.map Raised.key = [(0, 9), (1, 8)])) = true := by decide +kernel
  obtain ⟨s, hs, hend⟩ := Machine.exists_run (init_create _ _ _ _) (fun _ _ => test_sound) hrun
  exact ⟨s, dataSent_once hs, of_decide_eq_true hend⟩

/-- Two calls in one buffer: the write of the first byte raises the event of the first call, and so
does the write of the second byte. -/
theorem dataSent_twice : ∃ s : Conn, machine.Reachable s ∧ s.control = .gone ∧
    s.raised.map Raised.key = [(0, 9), (0, 9), (1, 8)] ∧ ¬ Sent s := by
  have hrun : (machine.exec [.sendAsync [1] (some 9), .sendAsync [2] (some 8),
      .dowrite (.wrote 1), .notify, .notify, .dowrite (.wrote 1), .notify, .notify, .notify, .close,
      .deleteLater, .deleteConnection false, .destroyStep, .destroyStep]
      (.create .socket false false false)).any (fun s => decide (s.control = .gone ∧
        s.raised.map Raised.key = [(0, 9), (0, 9), (1, 8)])) = true := by decide +kernel
  obtain ⟨s, hs, hend⟩ := Machine.exists_reachable (init_create _ _ _ _) hrun
  obtain ⟨hgone, hkeys⟩ := of_decide_eq_true hend
  refine ⟨s, hs, hgone, hkeys, fun hsent => ?_⟩
  have hnodup := hsent.nodup
  rw [hkeys] at hnodup
  simp at hnodup

end PoserCore.Connection.Send
