import PoserCore.Json.Serialize

/-!
# The serializer and a buffer of the caller

`PSC_JsonSerializer_serializeTo` runs the functions of the serializer on a buffer that cannot grow.
Whatever they write to a growing buffer is one text, and on any buffer they do what `serappend` does
with this text (`emits_serialize`), so that the caller gets the document or the start of it
(`serializeTo_agrees`).
-/

namespace PoserCore.Json

variable {F : Type} {env : Env F}

/-- The terminating NUL, if there is room for it. -/
def Writer.terminate (w : Writer) : List UInt8 :=
  if w.buf.length < w.bufsz then w.buf ++ [0] else w.buf

/-- `PSC_JsonSerializer_serializeTo`: the bytes written to the buffer, one after the other from its
start on, and the number returned. -/
def serializeTo (env : Env F) (nodes : List (Node F)) (fuel bufsz : ℕ) (value : Ptr) :
    Option (List UInt8 × ℕ) :=
  match serialize env nodes fuel ⟨[], bufsz, false⟩ (some value) with
  | .done w => some (w.terminate, w.terminate.length)
  | .full w => some (w.terminate, w.terminate.length + 1)
  | _ => none

/-! ## One text for all buffers -/

/-- On a growing buffer `f` completes with a text written, which is what it appends to every buffer,
or it ends with neither -1 nor a result. -/
def Emits (f : Writer → Outcome) : Prop :=
  ∀ w, w.bufowned = true → f w = .fault ∨ f w = .fuel ∨
    ∃ w' s, f w = .done w' ∧ w'.buf = w.buf ++ s ∧ w'.bufowned = true ∧ ∀ v, f v = serappend v s

theorem emits_append (s : List UInt8) : Emits fun w => serappend w s := by
  intro w hw
  obtain ⟨w', hrun, hbuf, hown⟩ := serappend_owned hw s
  exact .inr (.inr ⟨w', s, hrun, hbuf, hown, fun v => rfl⟩)

theorem emits_done : Emits .done := emits_append []

theorem emits_fault : Emits fun _ => .fault := fun _ _ => .inl rfl

theorem emits_fuel : Emits fun _ => .fuel := fun _ _ => .inr (.inl rfl)

theorem Emits.andThen {f g : Writer → Outcome} (hf : Emits f) (hg : Emits g) :
    Emits fun w => (f w).andThen g := by
  intro w hw
  dsimp only
  rcases hf w hw with hrun | hrun | ⟨t, s, hrun, hbuf, hown, hs⟩
  · exact .inl (by rw [hrun]; rfl)
  · exact .inr (.inl (by rw [hrun]; rfl))
  · have hgo : (f w).andThen g = g t := by rw [hrun]; rfl
    rw [hgo]
    rcases hg t hown with hrun' | hrun' | ⟨w', s', hrun', hbuf', hown', hs'⟩
    · exact .inl hrun'
    · exact .inr (.inl hrun')
    · refine .inr (.inr ⟨w', s ++ s', hrun', by rw [hbuf', hbuf, List.append_assoc], hown',
        fun v => ?_⟩)
      rw [hs, serappend_append, ← funext hs']

theorem emits_scalar (x : Scalar F) : Emits fun w => serializeScalar env w x := by
  cases x with
  | null => exact emits_append _
  | bool b => cases b <;> exact emits_append _
  | integer v => exact emits_append _
  | float v => exact emits_append _
  | string s => exact emits_append _

section Loops

variable {ser : Writer → Option Ptr → Outcome}

theorem emits_items (hser : ∀ p, Emits fun w => ser w p) (i : ℕ) (items : List (Option Ptr)) :
    Emits (serializeItems ser i items) := by
  induction items generalizing i with
  | nil => exact emits_done
  | cons item items ih => exact (emits_append _).andThen ((hser item).andThen (ih (i + 1)))

theorem emits_members (hser : ∀ p, Emits fun w => ser w p) (keys : Option (List Key))
    (values : Dictionary.Dictionary Ptr Unit) (n i : ℕ) :
    Emits (serializeMembers ser keys values n i) := by
  induction n generalizing i with
  | zero => exact emits_done
  | succ n ih =>
    show Emits fun w => _
    simp only [serializeMembers]
    cases keys.bind fun keys => keys[i]? with
    | none => exact emits_fault
    | some key =>
      exact (emits_append _).andThen ((emits_append _).andThen ((emits_append _).andThen
        ((hser _).andThen (ih (i + 1)))))

end Loops

theorem emits_serialize (nodes : List (Node F)) (n : ℕ) (p : Option Ptr) :
    Emits fun w => serialize env nodes n w p := by
  induction n generalizing p with
  | zero => exact emits_fuel
  | succ n ih =>
    cases p with
    | none => exact emits_fault
    | some p =>
      simp only [serialize]
      cases nodes[p]? with
      | none => exact emits_fault
      | some x =>
        cases x with
        | scalar x => exact emits_scalar x
        | array values =>
          refine (emits_append _).andThen ?_
          cases values with
          | none => exact emits_fault
          | some items => exact (emits_items ih 0 items).andThen (emits_append _)
        | object keys values =>
          refine (emits_append _).andThen ?_
          cases values with
          | none => exact emits_fault
          | some values => exact (emits_members ih keys values _ 0).andThen (emits_append _)

/-! ## Buffers that cannot grow -/

/-- The buffer takes the text as far as it leaves room for a NUL. -/
theorem serappend_fixed {buf : List UInt8} {bufsz : ℕ} (hlt : buf.length < bufsz) (s : List UInt8) :
    serappend ⟨buf, bufsz, false⟩ s =
      if buf.length + s.length < bufsz then .done ⟨buf ++ s, bufsz, false⟩
      else .full ⟨buf ++ s.take (bufsz - 1 - buf.length), bufsz, false⟩ := by
  induction s generalizing buf with
  | nil =>
    rw [if_pos (by simpa using hlt), List.append_nil]
    rfl
  | cons c s ih =>
    rw [serappend, appendChr, List.length_cons]
    by_cases hroom : bufsz ≤ buf.length + 1
    · have hfull : bufsz - 1 - buf.length = 0 := by omega
      rw [if_pos ⟨rfl, hroom⟩, if_neg (by omega), hfull, List.take_zero, List.append_nil]
    · have hne : buf.length ≠ bufsz := by omega
      have hlen : (buf ++ [c]).length = buf.length + 1 := by simp
      have hlast : bufsz - 1 - buf.length = bufsz - 1 - (buf.length + 1) + 1 := by omega
      have hstep : serappend ⟨buf ++ [c], bufsz, false⟩ s = _ := ih (by omega)
      have hsum : buf.length + 1 + s.length = buf.length + (s.length + 1) := by omega
      rw [hlen, List.append_assoc, List.append_assoc, hsum] at hstep
      rw [if_neg fun h => hroom h.2, if_neg hne, hlast, List.take_succ_cons]
      exact hstep

/-- Without any room nothing is written. -/
theorem serappend_zero (s : List UInt8) (hs : s ≠ []) :
    serappend ⟨[], 0, false⟩ s = .full ⟨[], 0, false⟩ := by
  cases s with
  | nil => exact absurd rfl hs
  | cons c s => rfl

/-- Every value has a text. -/
theorem serialize_zero (hformat : ∀ x, env.format x ≠ []) (nodes : List (Node F)) (n : ℕ) (p : Ptr)
    {w : Writer} : serialize env nodes n ⟨[], 0, false⟩ (some p) ≠ .done w := by
  intro h
  cases n with
  | zero => cases h
  | succ n =>
    rw [serialize] at h
    cases hx : nodes[p]? with
    | none =>
      rw [hx] at h
      cases h
    | some x =>
      rw [hx] at h
      cases x with
      | scalar x =>
        have hscalar {s : List UInt8} (hs : s ≠ []) : serappend ⟨[], 0, false⟩ s ≠ .done w := by
          rw [serappend_zero s hs]
          intro h
          cases h
        have hdigits (v : Int64) : formatInteger v ≠ [] := by
          unfold formatInteger
          split_ifs
          · exact List.cons_ne_nil _ _
          · exact Lib.Strtol.print_ne_nil 10 _
        cases x with
        | null => exact hscalar (by decide) h
        | bool b => cases b <;> exact hscalar (by decide) h
        | integer v => exact hscalar (hdigits v) h
        | float v => exact hscalar (hformat v) h
        | string s => exact hscalar (by simp) h
      | array values => cases h
      | object keys values => cases h

/-- In a buffer of its own size the caller gets the document, in a smaller one the start of it. -/
theorem serializeTo_agrees (hformat : ∀ x, env.format x ≠ []) {nodes : List (Node F)} {fuel : ℕ}
    {value : Ptr} {doc : List UInt8} (h : jsonSerialize env nodes fuel value = some (doc ++ [0]))
    (bufsz : ℕ) : ∃ written n, serializeTo env nodes fuel bufsz value = some (written, n) ∧
      written.length ≤ bufsz ∧
      (written, n) = if doc.length + 1 ≤ bufsz then (doc ++ [0], doc.length + 1)
        else if 0 < bufsz then (doc.take (bufsz - 1) ++ [0], bufsz + 1)
        else ([], 1) := by
  -- the document is the text of the value
  have htext : ∀ v, serialize env nodes fuel v (some value) = serappend v doc := by
    rw [jsonSerialize] at h
    obtain hrun | hrun | ⟨w, s, hrun, hbuf, -, hs⟩ :=
      @emits_serialize F env nodes fuel (some value) .empty rfl
    · simp only [hrun] at h
      cases h
    · simp only [hrun] at h
      cases h
    · simp only [hrun] at h
      have hdoc : doc = w.buf := (List.append_cancel_right (Option.some.inj h)).symm
      rw [hdoc, hbuf]
      exact hs
  rw [serializeTo, htext]
  cases bufsz with
  | zero =>
    have hne : doc ≠ [] := by
      rintro rfl
      exact serialize_zero hformat nodes fuel value (htext _)
    rw [serappend_zero doc hne]
    exact ⟨[], 1, rfl, le_rfl, by simp⟩
  | succ bufsz =>
    rw [serappend_fixed (Nat.succ_pos _), List.length_nil, Nat.zero_add]
    by_cases hfit : doc.length + 1 ≤ bufsz + 1
    · have hlt : doc.length < bufsz + 1 := hfit
      refine ⟨doc ++ [0], doc.length + 1, ?_, by simpa using hfit, by rw [if_pos hfit]⟩
      simp [hlt, Writer.terminate]
    · have hlt : ¬ doc.length < bufsz + 1 := hfit
      have hlen : (doc.take bufsz).length = bufsz := List.length_take_of_le (by omega)
      refine ⟨doc.take bufsz ++ [0], bufsz + 1 + 1, ?_, by simp [hlen], ?_⟩
      · simp [hlt, Writer.terminate, hlen]
      · rw [if_neg hfit, if_pos (Nat.succ_pos _), Nat.add_sub_cancel]

/-- The document `[null]` in a buffer of four bytes. -/
theorem serializeTo_agrees_four :
    let env : Env Unit := ⟨fun _ => 0, fun _ => (), fun _ => [Lib.Strtol.zero]⟩
    ∃ written n, serializeTo env [.array (some [some 1]), .scalar .null] 2 4 0 = some (written, n) ∧
      written.length ≤ 4 ∧ (written, n) = ([lbracket, 0x6e, 0x75, 0], 5) := by
  intro env
  have h : jsonSerialize env [.array (some [some 1]), .scalar .null] 2 0 =
      some ((lbracket :: litNull ++ [rbracket]) ++ [0]) := by
    decide +kernel
  exact serializeTo_agrees (fun _ => List.cons_ne_nil _ _) h 4

end PoserCore.Json
