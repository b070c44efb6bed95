import PoserCore.Connection.SentStream

/-!
# What staging does to notifications

`stage_rule` is the induction over the staging loop: a record finds the buffer full, is cut at its
end, or fits.  The facts below follow from it: every id goes on to a notification or stays in the
queue, a notification stands where its record ends, and which records stay or end early is a matter
of their lengths alone.
-/

namespace PoserCore.Connection.Send

open Lib.Buffer (slice store)

/-- The notification of a record that ends at `pos`, if it has an id. -/
def notes (r : WriteRecord) (pos : ℕ) : List WriteNotifyRecord :=
  if r.id.isSome then [⟨r.id, pos, r.call⟩] else []

theorem writenotify_note (st : Staging) (r : WriteRecord) :
    (st.note r).writenotify = st.writenotify ++ notes r st.wrbuflen := by
  unfold Staging.note notes
  split_ifs <;> simp

theorem length_rest (r : WriteRecord) : r.rest.length = r.wrbuf.length - r.wrbufpos := by
  simp [WriteRecord.rest]

theorem chunklen_eq (r : WriteRecord) (n : ℕ) :
    r.chunklen n = if wrbufsz < r.rest.length + n then wrbufsz - n else r.rest.length := by
  unfold WriteRecord.chunklen
  rw [length_rest]

/-- Induction over the staging loop. -/
theorem stage_rule {P : List WriteRecord → Staging → Staging → List WriteRecord → Prop}
    (nil : ∀ st, P [] st st [])
    (full : ∀ r rs st, st.wrbuflen = wrbufsz → P (r :: rs) st st (r :: rs))
    (part : ∀ r rs st st' r', st.wrbuflen < wrbufsz → wrbufsz < r.rest.length + st.wrbuflen →
      st'.wrbuflen = wrbufsz → st'.writenotify = st.writenotify → r'.id = r.id → r'.call = r.call →
        r'.rest.length + (wrbufsz - st.wrbuflen) = r.rest.length → P (r :: rs) st st' (r' :: rs))
    (fit : ∀ r rs st st' stEnd rsEnd, st.wrbuflen < wrbufsz →
      r.rest.length + st.wrbuflen ≤ wrbufsz → st'.wrbuflen = st.wrbuflen + r.rest.length →
        st'.writenotify = st.writenotify ++ notes r st'.wrbuflen → P rs st' stEnd rsEnd →
          P (r :: rs) st stEnd rsEnd)
    (rs : List WriteRecord) : ∀ {st : Staging}, st.wrbuflen ≤ wrbufsz →
      (∀ r ∈ rs, r.wrbufpos ≤ r.wrbuf.length) → P rs st (stage rs st).1 (stage rs st).2 := by
  induction rs with
  | nil => exact fun _ _ => nil _
  | cons r rs ih =>
    intro st hlen hrs
    have hr : r.wrbufpos ≤ r.wrbuf.length := hrs r (by simp)
    have hcopy := wrbuflen_copy r hlen
    have hrest := length_rest r
    rw [chunklen_eq] at hcopy
    unfold stage
    split_ifs with hroom hdone
    · have hbig : wrbufsz < r.rest.length + st.wrbuflen := by
        by_contra hsmall
        rw [chunklen_eq, if_neg hsmall] at hdone
        omega
      rw [if_pos hbig] at hcopy
      refine part r rs st _ _ hroom hbig (hcopy.trans (by omega)) rfl rfl rfl ?_
      rw [length_rest, chunklen_eq, if_pos hbig]
      simp only
      omega
    · have hsmall : ¬ wrbufsz < r.rest.length + st.wrbuflen := by
        intro hbig
        rw [chunklen_eq, if_pos hbig] at hdone
        omega
      rw [if_neg hsmall] at hcopy
      have hnote := wrbuflen_note (st.copy r) r
      refine fit r rs st _ _ _ hroom (by omega) (hnote.trans hcopy) ?_
        (ih (by omega) fun r' hr' => hrs r' (List.mem_cons_of_mem _ hr'))
      rw [writenotify_note, hnote]
      rfl
    · exact full r rs st (by omega)

/-! ## Ids -/

/-- The calls that await a notification, with their ids. -/
def noteIds (ns : List WriteNotifyRecord) : List (ℕ × Id) :=
  ns.filterMap fun n => n.id.map fun i => (n.call, i)

def recIds (rs : List WriteRecord) : List (ℕ × Id) :=
  rs.filterMap fun r => r.id.map fun i => (r.call, i)

theorem noteIds_append (ns ms : List WriteNotifyRecord) :
    noteIds (ns ++ ms) = noteIds ns ++ noteIds ms := List.filterMap_append

theorem noteIds_notes (r : WriteRecord) (pos : ℕ) (rs : List WriteRecord) :
    noteIds (notes r pos) ++ recIds rs = recIds (r :: rs) := by
  unfold noteIds notes recIds
  cases hid : r.id with
  | none => simp [hid]
  | some i => simp [hid]

theorem noteIds_eq_nil {ns : List WriteNotifyRecord} :
    noteIds ns = [] ↔ ∀ n ∈ ns, n.id = none := by
  simp [noteIds, List.filterMap_eq_nil_iff]

theorem recIds_eq_nil {rs : List WriteRecord} : recIds rs = [] ↔ ∀ r ∈ rs, r.id = none := by
  simp [recIds, List.filterMap_eq_nil_iff]

/-- Every id goes on to a notification or stays. -/
theorem stage_ids {rs : List WriteRecord} {st : Staging} (hlen : st.wrbuflen ≤ wrbufsz)
    (hrs : ∀ r ∈ rs, r.wrbufpos ≤ r.wrbuf.length) :
    noteIds (stage rs st).1.writenotify ++ recIds (stage rs st).2 =
      noteIds st.writenotify ++ recIds rs := by
  refine stage_rule (P := fun rs st st' rs' =>
    noteIds st'.writenotify ++ recIds rs' = noteIds st.writenotify ++ recIds rs)
    (fun _ => rfl) (fun _ _ _ _ => rfl) ?_ ?_ rs hlen hrs
  · intro r rs st st' r' _ _ _ hns hid hcall _
    have hhead : recIds (r' :: rs) = recIds (r :: rs) := by
      unfold recIds
      rw [List.filterMap_cons, List.filterMap_cons, hid, hcall]
    rw [hns, hhead]
  · intro r rs st st' stEnd rsEnd _ _ _ hns ih
    rw [ih, hns, noteIds_append, List.append_assoc, noteIds_notes]

/-- No record with an id ends within the first `n` bytes of the queue. -/
def NoIdWithin : ℕ → List WriteRecord → Prop
  | _, [] => True
  | n, r :: rs => n < r.rest.length ∨ (r.id = none ∧ NoIdWithin (n - r.rest.length) rs)

/-- Every record with an id ends within the first `room` bytes of the queue, where nothing starts
at their very end. -/
def NoIdBeyond : ℕ → List WriteRecord → Prop
  | _, [] => True
  | room, r :: rs =>
      if room = 0 ∨ room < r.rest.length then ∀ r' ∈ r :: rs, r'.id = none
      else NoIdBeyond (room - r.rest.length) rs

theorem stage_beyond {rs : List WriteRecord} {st : Staging} (hlen : st.wrbuflen ≤ wrbufsz)
    (hrs : ∀ r ∈ rs, r.wrbufpos ≤ r.wrbuf.length) (h : NoIdBeyond (wrbufsz - st.wrbuflen) rs) :
    recIds (stage rs st).2 = [] := by
  refine stage_rule (P := fun rs st _ rs' => NoIdBeyond (wrbufsz - st.wrbuflen) rs → recIds rs' = [])
    (fun _ _ => rfl) ?_ ?_ ?_ rs hlen hrs h
  · intro r rs st hfull h
    rw [NoIdBeyond, if_pos (.inl (by omega))] at h
    exact recIds_eq_nil.2 h
  · intro r rs st st' r' hroom hbig _ _ hid _ _ h
    rw [NoIdBeyond, if_pos (.inr (by omega))] at h
    refine recIds_eq_nil.2 fun x hx => ?_
    rcases List.mem_cons.1 hx with rfl | hmem
    · exact hid.trans (h r (by simp))
    · exact h x (List.mem_cons_of_mem _ hmem)
  · intro r rs st st' stEnd rsEnd hroom hfits hlen' _ ih h
    rw [NoIdBeyond, if_neg (by omega)] at h
    refine ih ?_
    rwa [hlen', ← Nat.sub_sub]

/-- As much is staged as there is and fits. -/
theorem stage_length {rs : List WriteRecord} {st : Staging} (hlen : st.wrbuflen ≤ wrbufsz)
    (hrs : ∀ r ∈ rs, r.wrbufpos ≤ r.wrbuf.length) :
    (stage rs st).1.wrbuflen = min wrbufsz (st.wrbuflen + (queued rs).length) := by
  have hcons : ∀ (r : WriteRecord) rs, (queued (r :: rs)).length =
      r.rest.length + (queued rs).length := fun r rs => by simp [queued]
  refine stage_rule (P := fun rs st st' _ => st.wrbuflen ≤ wrbufsz →
    st'.wrbuflen = min wrbufsz (st.wrbuflen + (queued rs).length)) ?_ ?_ ?_ ?_ rs hlen hrs hlen
  · intro st hlen
    have hnil : (queued []).length = 0 := rfl
    omega
  · intro r rs st hfull _
    omega
  · intro r rs st st' r' _ hbig hfull _ _ _ _ _
    rw [hcons]
    omega
  · intro r rs st st' stEnd rsEnd _ hfits hlen' _ ih _
    rw [ih (by omega), hcons]
    omega

/-! ## Positions -/

/-- A new notification has an id and stands between the bytes staged before and all that are
staged. -/
theorem stage_positions {rs : List WriteRecord} {st : Staging} (hlen : st.wrbuflen ≤ wrbufsz)
    (hrs : ∀ r ∈ rs, r.wrbufpos ≤ r.wrbuf.length) : st.wrbuflen ≤ (stage rs st).1.wrbuflen ∧
      ∀ n ∈ (stage rs st).1.writenotify, n ∈ st.writenotify ∨
        (st.wrbuflen ≤ n.wrbufpos ∧ n.wrbufpos ≤ (stage rs st).1.wrbuflen) := by
  refine stage_rule (P := fun rs st st' _ => st.wrbuflen ≤ st'.wrbuflen ∧
    ∀ n ∈ st'.writenotify, n ∈ st.writenotify ∨
      (st.wrbuflen ≤ n.wrbufpos ∧ n.wrbufpos ≤ st'.wrbuflen)) ?_ ?_ ?_ ?_ rs hlen hrs
  · exact fun st => ⟨Nat.le_refl _, fun n hn => .inl hn⟩
  · exact fun r rs st _ => ⟨Nat.le_refl _, fun n hn => .inl hn⟩
  · intro r rs st st' r' hroom _ hfull hns _ _ _
    exact ⟨by omega, fun n hn => .inl (hns ▸ hn)⟩
  · intro r rs st st' stEnd rsEnd _ _ hlen' hns ih
    refine ⟨by omega, fun n hn => ?_⟩
    rcases ih.2 n hn with hmem | hpos
    · rw [hns] at hmem
      rcases List.mem_append.1 hmem with hold | hnew
      · exact .inl hold
      · unfold notes at hnew
        split_ifs at hnew
        · obtain rfl := List.mem_singleton.1 hnew
          exact .inr ⟨by simp only; omega, ih.1⟩
        · cases hnew
    · exact .inr ⟨by omega, hpos.2⟩

/-- Where no record with an id ends within `n` bytes, no notification stands there. -/
theorem stage_within {rs : List WriteRecord} {st : Staging} (hlen : st.wrbuflen ≤ wrbufsz)
    (hrs : ∀ r ∈ rs, r.wrbufpos ≤ r.wrbuf.length) {n : ℕ} (h : NoIdWithin n rs) :
    ∀ m ∈ (stage rs st).1.writenotify, m ∈ st.writenotify ∨ st.wrbuflen + n < m.wrbufpos := by
  intro m hm
  have hrule := stage_rule (P := fun rs st st' _ => ∀ m ∈ st'.writenotify, m ∈ st.writenotify ∨
    (st.wrbuflen ≤ m.wrbufpos ∧ ∀ n, NoIdWithin n rs → st.wrbuflen + n < m.wrbufpos))
    (fun st m hm => .inl hm) (fun r rs st _ m hm => .inl hm)
    (fun r rs st st' r' _ _ _ hns _ _ _ m hm => .inl (hns ▸ hm)) ?_ rs hlen hrs m hm
  · exact hrule.imp_right fun hpos => hpos.2 n h
  · intro r rs st st' stEnd rsEnd _ _ hlen' hns ih m hm
    rcases ih m hm with hmem | ⟨hge, hwithin⟩
    · rw [hns] at hmem
      rcases List.mem_append.1 hmem with hold | hnew
      · exact .inl hold
      · unfold notes at hnew
        split_ifs at hnew with hid
        · -- The notification of the record itself.
          obtain rfl := List.mem_singleton.1 hnew
          refine .inr ⟨by simp only; omega, fun n hn => ?_⟩
          rcases hn with hlt | ⟨hnone, -⟩
          · simp only
            omega
          · simp [hnone] at hid
        · cases hnew
    · refine .inr ⟨by omega, fun n hn => ?_⟩
      rcases hn with hlt | ⟨-, hrest⟩
      · omega
      · have := hwithin _ hrest
        omega

/-! ## Places in the stream -/

/-- Where in the stream the data of a call ends. -/
def endOf (calls : List (List UInt8 × Option Id)) (k : ℕ) : ℕ :=
  ((calls.take (k + 1)).flatMap Prod.fst).length

/-- The records of a queue whose data starts at `base` in the stream. -/
def Queue (calls : List (List UInt8 × Option Id)) : ℕ → List WriteRecord → Prop
  | _, [] => True
  | base, r :: rs => r.call < calls.length ∧ endOf calls r.call = base + r.rest.length ∧
      Queue calls (base + r.rest.length) rs

/-- A notification of a staging buffer whose data starts at `base`. -/
def Noted (calls : List (List UInt8 × Option Id)) (base : ℕ) (n : WriteNotifyRecord) : Prop :=
  n.call < calls.length ∧ endOf calls n.call = base + n.wrbufpos

variable {calls : List (List UInt8 × Option Id)}

theorem endOf_append (c : List UInt8 × Option Id) {k : ℕ} (h : k < calls.length) :
    endOf (calls ++ [c]) k = endOf calls k := by
  rw [endOf, endOf, List.take_append_of_le_length (by omega)]

theorem endOf_last (c : List UInt8 × Option Id) :
    endOf (calls ++ [c]) calls.length = (calls.flatMap Prod.fst).length + c.1.length := by
  rw [endOf, List.take_of_length_le (by simp)]
  simp

theorem Noted.append {base : ℕ} {n : WriteNotifyRecord} (h : Noted calls base n)
    (c : List UInt8 × Option Id) : Noted (calls ++ [c]) base n :=
  ⟨by simpa using Nat.lt_succ_of_lt h.1, (endOf_append c h.1).trans h.2⟩

/-- A new call is put at the end of the queue and of the stream. -/
theorem Queue.append {rs : List WriteRecord} {base : ℕ} (h : Queue calls base rs)
    {buf : List UInt8} {id : Option Id}
    (hend : base + (queued rs).length = (calls.flatMap Prod.fst).length) :
    Queue (calls ++ [(buf, id)]) base (rs ++ [⟨buf, id, 0, calls.length⟩]) := by
  induction rs generalizing base with
  | nil =>
    have hbase : base = (calls.flatMap Prod.fst).length := by simpa [queued] using hend
    refine ⟨by simp, ?_, trivial⟩
    simp only [endOf_last, hbase, length_rest, Nat.sub_zero]
  | cons r rs ih =>
    obtain ⟨hcall, hplace, hrest⟩ := h
    refine ⟨by simpa using Nat.lt_succ_of_lt hcall, (endOf_append _ hcall).trans hplace, ih hrest ?_⟩
    rw [← hend, queued, queued, List.flatMap_cons, List.length_append, Nat.add_assoc]

theorem stage_places {rs : List WriteRecord} {st : Staging} {base : ℕ}
    (hlen : st.wrbuflen ≤ wrbufsz) (hrs : ∀ r ∈ rs, r.wrbufpos ≤ r.wrbuf.length)
    (hq : Queue calls (base + st.wrbuflen) rs) (hn : ∀ n ∈ st.writenotify, Noted calls base n) :
    Queue calls (base + (stage rs st).1.wrbuflen) (stage rs st).2 ∧
      ∀ n ∈ (stage rs st).1.writenotify, Noted calls base n := by
  refine stage_rule (P := fun rs st st' rs' => Queue calls (base + st.wrbuflen) rs →
    (∀ n ∈ st.writenotify, Noted calls base n) → Queue calls (base + st'.wrbuflen) rs' ∧
      ∀ n ∈ st'.writenotify, Noted calls base n) ?_ ?_ ?_ ?_ rs hlen hrs hq hn
  · exact fun st hq hn => ⟨hq, hn⟩
  · exact fun r rs st _ hq hn => ⟨hq, hn⟩
  · intro r rs st st' r' hroom _ hfull hns _ hcall hrest hq hn
    obtain ⟨hlt, hplace, htail⟩ := hq
    have hsum : base + st'.wrbuflen + r'.rest.length = base + st.wrbuflen + r.rest.length := by omega
    refine ⟨⟨hcall ▸ hlt, ?_, ?_⟩, hns ▸ hn⟩
    · rw [hcall, hplace, hsum]
    · rw [hsum]
      exact htail
  · intro r rs st st' stEnd rsEnd _ _ hlen' hns ih hq hn
    obtain ⟨hlt, hplace, htail⟩ := hq
    refine ih (by rw [hlen', ← Nat.add_assoc]; exact htail) fun n hmem => ?_
    rw [hns] at hmem
    rcases List.mem_append.1 hmem with hold | hnew
    · exact hn n hold
    · unfold notes at hnew
      split_ifs at hnew
      · obtain rfl := List.mem_singleton.1 hnew
        exact ⟨hlt, by rw [hplace, hlen', Nat.add_assoc]⟩
      · cases hnew

end PoserCore.Connection.Send
