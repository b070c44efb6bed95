import PoserCore.Connection.ReceivedStream

/-!
# Lines of a byte stream

`lines` is what line mode is for: the strings of a stream, each of which ends after the first of the
terminators CR LF, CR and LF, before the first NUL, or when it fills the read buffer, whichever comes
first.  It looks at the stream alone.  The code looks for CR LF first, then LF, then CR in all it has
received, and not at a NUL before the buffer is full; `Regular` are the streams where this makes no
difference, for any way they arrive, and `next_of_regular` says so for what is in the buffer.
-/

namespace PoserCore.Connection.Receive

/-! ## The strings of a stream -/

/-- Bytes that end no string. -/
def inside (c : UInt8) : Bool := c ≠ 0 && c ≠ cr && c ≠ lf

/-- How a string ends. -/
inductive Ending
  | full
  | nul
  | lf
  | crlf
  | cr
  deriving DecidableEq

/-- How the first string of a stream ends and its length, if the stream goes that far. -/
def firstEnd (rdbufsz : ℕ) (w : List UInt8) : Option (Ending × ℕ) :=
  let i := (w.takeWhile inside).length
  if rdbufsz ≤ i then some (.full, rdbufsz)
  else
    match w.drop i with
    | [] => none
    | c :: rest =>
      if c = 0 then some (.nul, i)
      else if c = lf then some (.lf, i + 1)
      else if rest.head? = some lf ∧ i + 2 ≤ rdbufsz then some (.crlf, i + 2)
      else some (.cr, i + 1)

theorem length_stripped_le (w : List UInt8) : (stripped w).length ≤ w.length :=
  (List.dropWhile_suffix _).length_le

theorem length_drop_lt {w : List UInt8} {len : ℕ} (h : stripped w ≠ []) :
    ((stripped w).drop (len + 1)).length < w.length := by
  have hpos := List.length_pos_of_ne_nil h
  have hle := length_stripped_le w
  rw [List.length_drop]
  omega

/-- The strings of a stream; NULs in front of a string do not count. -/
def lines (rdbufsz : ℕ) (w : List UInt8) : List (List UInt8) :=
  if stripped w = [] then []
  else
    match firstEnd rdbufsz (stripped w) with
    | some (_, len + 1) =>
      (stripped w).take (len + 1) :: lines rdbufsz ((stripped w).drop (len + 1))
    | _ => []
termination_by w.length
decreasing_by exact length_drop_lt ‹_›

/-- What the stream `w` must be like for its first string to be found however it arrives: no CR LF,
no LF in the same buffer behind a CR, and a NUL only as the last byte of the buffer. -/
def Ending.fits (rdbufsz : ℕ) (w : List UInt8) (len : ℕ) : Ending → Prop
  | .full => True
  | .nul => len + 1 = rdbufsz
  | .lf => True
  | .crlf => False
  | .cr => Receive.lf ∉ cstring ((w.take rdbufsz).drop len)

/-- All strings of the stream are found however it arrives. -/
def Regular (rdbufsz : ℕ) (w : List UInt8) : Prop :=
  if stripped w = [] then True
  else
    match firstEnd rdbufsz (stripped w) with
    | some (e, len + 1) =>
      e.fits rdbufsz (stripped w) (len + 1) ∧ Regular rdbufsz ((stripped w).drop (len + 1))
    | _ => True
termination_by w.length
decreasing_by exact length_drop_lt ‹_›

variable {n len : ℕ} {v w f body : List UInt8} {e : Ending}

/-! ## Leading NULs -/

theorem stripped_nul (w : List UInt8) : stripped (0 :: w) = stripped w := by simp [stripped]

theorem stripped_of_ne {c : UInt8} (h : c ≠ 0) : stripped (c :: w) = c :: w := by
  simp [stripped, h]

theorem stripped_append_nil (h : stripped w = []) : stripped (w ++ f) = stripped f := by
  induction w with
  | nil => rfl
  | cons c w ih =>
    by_cases hc : c = 0
    · subst hc
      rw [stripped_nul] at h
      rw [List.cons_append, stripped_nul, ih h]
    · rw [stripped_of_ne hc] at h
      cases h

theorem stripped_append (h : stripped w ≠ []) : stripped (w ++ f) = stripped w ++ f := by
  induction w with
  | nil => exact absurd rfl h
  | cons c w ih =>
    by_cases hc : c = 0
    · subst hc
      rw [stripped_nul] at h ⊢
      rw [List.cons_append, stripped_nul, ih h]
    · rw [stripped_of_ne hc, List.cons_append, stripped_of_ne hc]

/-- The first byte of a string is no NUL. -/
theorem exists_cons_of_stripped (h : stripped w ≠ []) :
    ∃ c t, stripped w = c :: t ∧ c ≠ 0 := by
  induction w with
  | nil => exact absurd rfl h
  | cons c w ih =>
    by_cases hc : c = 0
    · subst hc
      rw [stripped_nul] at h ⊢
      exact ih h
    · exact ⟨c, w, stripped_of_ne hc, hc⟩

theorem stripped_stripped (w : List UInt8) : stripped (stripped w) = stripped w := by
  by_cases h : stripped w = []
  · rw [h]
    rfl
  · obtain ⟨c, t, hw, hc⟩ := exists_cons_of_stripped h
    rw [hw, stripped_of_ne hc]

theorem lines_congr (h : stripped v = stripped w) : lines n v = lines n w := by
  rw [lines, lines]
  simp only [h]

theorem regular_congr (h : stripped v = stripped w) : Regular n v ↔ Regular n w := by
  rw [Regular, Regular]
  simp only [h]

theorem lines_nil_of_stripped (h : stripped w = []) : lines n w = [] := by
  rw [lines, if_pos h]

theorem lines_none (h : firstEnd n (stripped w) = none) : lines n w = [] := by
  rw [lines, h]
  split <;> rfl

theorem regular_of_stripped (h : stripped w = []) : Regular n w := by
  rw [Regular, if_pos h]
  trivial

theorem regular_none (h : firstEnd n (stripped w) = none) : Regular n w := by
  rw [Regular, h]
  split <;> trivial

/-- The first string and the strings behind it. -/
theorem lines_some (hw : stripped w = w) (hne : w ≠ []) (h : firstEnd n w = some (e, len))
    (hlen : 0 < len) : lines n w = w.take len :: lines n (w.drop len) := by
  obtain ⟨len, rfl⟩ := Nat.exists_eq_add_of_lt hlen
  rw [Nat.zero_add] at h ⊢
  rw [lines, if_neg (by rwa [hw])]
  simp only [hw, h]

theorem regular_some (hw : stripped w = w) (hne : w ≠ []) (h : firstEnd n w = some (e, len))
    (hlen : 0 < len) : Regular n w ↔ e.fits n w len ∧ Regular n (w.drop len) := by
  obtain ⟨len, rfl⟩ := Nat.exists_eq_add_of_lt hlen
  rw [Nat.zero_add] at h ⊢
  rw [Regular, if_neg (by rwa [hw])]
  simp only [hw, h]

/-! ## How a stream begins -/

theorem inside_iff {c : UInt8} : inside c = true ↔ c ≠ 0 ∧ c ≠ cr ∧ c ≠ lf := by
  simp [inside, and_assoc]

theorem takeWhile_inside {c : UInt8} {t : List UInt8} (hb : ∀ c ∈ body, inside c = true)
    (hc : inside c = false) : (body ++ c :: t).takeWhile inside = body := by
  rw [List.takeWhile_append_of_pos hb, List.takeWhile_cons_of_neg (by simp [hc]), List.append_nil]

/-- A stream is a string without an end, or one that fills the buffer, or one that ends at a NUL, CR
or LF before. -/
theorem begins (n : ℕ) (w : List UInt8) :
    (∀ c ∈ w, inside c = true) ∧ w.length < n ∨
    (∃ body t, w = body ++ t ∧ (∀ c ∈ body, inside c = true) ∧ body.length = n) ∨
    ∃ body c t, w = body ++ c :: t ∧ (∀ c ∈ body, inside c = true) ∧ body.length < n ∧
      (c = 0 ∨ c = lf ∨ c = cr) := by
  have hall : ∀ c ∈ w.takeWhile inside, inside c = true := fun c hc => List.mem_takeWhile_imp hc
  have hsplit : w.takeWhile inside ++ w.dropWhile inside = w := List.takeWhile_append_dropWhile
  rcases Nat.lt_or_ge (w.takeWhile inside).length n with hlt | hge
  · cases hd : w.dropWhile inside with
    | nil =>
      rw [hd, List.append_nil] at hsplit
      rw [hsplit] at hall hlt
      exact .inl ⟨hall, hlt⟩
    | cons c t =>
      have hc : inside c = false := by
        have := List.head?_dropWhile_not inside w
        rw [hd] at this
        simpa using this
      refine .inr (.inr ⟨_, c, t, by rw [← hd, hsplit], hall, hlt, ?_⟩)
      by_cases h0 : c = 0
      · exact .inl h0
      · by_cases hl : c = lf
        · exact .inr (.inl hl)
        · by_cases hr : c = cr
          · exact .inr (.inr hr)
          · rw [inside_iff.2 ⟨h0, hr, hl⟩] at hc
            cases hc
  · refine .inr (.inl ⟨w.take n, w.drop n, (List.take_append_drop n w).symm, fun c hc => ?_, ?_⟩)
    · refine hall c ?_
      have hpre : w.take n <+: w.takeWhile inside :=
        List.prefix_of_prefix_length_le (List.take_prefix n w) (List.takeWhile_prefix _)
          ((List.length_take_le n w).trans hge)
      exact hpre.subset hc
    · have := (List.takeWhile_prefix inside (l := w)).length_le
      rw [List.length_take]
      omega

theorem firstEnd_none (hw : ∀ c ∈ w, inside c = true) (hn : w.length < n) : firstEnd n w = none := by
  have htake : w.takeWhile inside = w := List.takeWhile_eq_self_iff.2 hw
  unfold firstEnd
  rw [htake, if_neg (Nat.not_le_of_lt hn), List.drop_length]

theorem firstEnd_full (hb : ∀ c ∈ body, inside c = true) (hn : body.length = n) (t : List UInt8) :
    firstEnd n (body ++ t) = some (.full, n) := by
  unfold firstEnd
  rw [if_pos]
  rw [List.takeWhile_append_of_pos hb, List.length_append, hn]
  exact Nat.le_add_right _ _

theorem firstEnd_nul (hb : ∀ c ∈ body, inside c = true) (hn : body.length < n) (t : List UInt8) :
    firstEnd n (body ++ 0 :: t) = some (.nul, body.length) := by
  unfold firstEnd
  rw [takeWhile_inside hb rfl, if_neg (Nat.not_le_of_lt hn), List.drop_left]
  rfl

theorem firstEnd_lf (hb : ∀ c ∈ body, inside c = true) (hn : body.length < n) (t : List UInt8) :
    firstEnd n (body ++ lf :: t) = some (.lf, body.length + 1) := by
  unfold firstEnd
  rw [takeWhile_inside hb rfl, if_neg (Nat.not_le_of_lt hn), List.drop_left]
  rfl

theorem firstEnd_crlf (hb : ∀ c ∈ body, inside c = true) (hn : body.length + 2 ≤ n)
    (t : List UInt8) : firstEnd n (body ++ cr :: lf :: t) = some (.crlf, body.length + 2) := by
  unfold firstEnd
  rw [takeWhile_inside hb rfl, if_neg (by omega), List.drop_left]
  simp only [List.head?_cons, true_and, if_pos hn]
  rfl

theorem firstEnd_cr (hb : ∀ c ∈ body, inside c = true) (hn : body.length < n) {t : List UInt8}
    (ht : t.head? = some lf → n < body.length + 2) :
    firstEnd n (body ++ cr :: t) = some (.cr, body.length + 1) := by
  have hno : ¬ (t.head? = some lf ∧ body.length + 2 ≤ n) := fun h => by
    have := ht h.1
    omega
  unfold firstEnd
  rw [takeWhile_inside hb rfl, if_neg (Nat.not_le_of_lt hn), List.drop_left]
  simp only [if_neg hno]
  rfl

/-! ## What the locator finds -/

theorem strchr_eq_none {c : UInt8} (h : c ∉ w) : strchr w c = none := by
  refine List.findIdx?_eq_none_iff.2 fun x hx => ?_
  rw [decide_eq_false_iff_not]
  rintro rfl
  exact h hx

theorem strchr_append {c : UInt8} (h : c ∉ body) (t : List UInt8) :
    strchr (body ++ c :: t) c = some body.length := by
  have hnone := strchr_eq_none h
  unfold strchr at hnone ⊢
  rw [List.findIdx?_append, hnone]
  simp [List.findIdx?_cons]

theorem strstr_eq_some {pat : List UInt8} {i : ℕ} (h : strstr w pat = some i) :
    ∃ x z, w = x ++ pat ++ z ∧ x.length = i := by
  induction w generalizing i with
  | nil =>
    unfold strstr at h
    split at h
    · next hp =>
      obtain rfl := Option.some.inj h
      exact ⟨[], [], by simp [hp], rfl⟩
    · cases h
  | cons c cs ih =>
    unfold strstr at h
    split at h
    · next hp =>
      obtain rfl := Option.some.inj h
      obtain ⟨z, hz⟩ := List.isPrefixOf_iff_prefix.1 hp
      exact ⟨[], z, hz.symm, rfl⟩
    · obtain ⟨j, hj, rfl⟩ := Option.map_eq_some_iff.1 h
      obtain ⟨x, z, rfl, rfl⟩ := ih hj
      exact ⟨c :: x, z, rfl, rfl⟩

/-- Without an LF there is no CR LF. -/
theorem strstr_eq_none (h : lf ∉ w) : strstr w [cr, lf] = none := by
  cases hs : strstr w [cr, lf] with
  | none => rfl
  | some i =>
    obtain ⟨x, z, rfl, -⟩ := strstr_eq_some hs
    exact absurd (by simp) h

theorem locateeol_none (hl : lf ∉ w) (hr : cr ∉ w) : locateeol w = none := by
  unfold locateeol
  rw [strstr_eq_none hl, strchr_eq_none hl, strchr_eq_none hr]
  rfl

theorem locateeol_lf (hl : lf ∉ body) (hs : strstr (body ++ lf :: w) [cr, lf] = none) :
    locateeol (body ++ lf :: w) = some (body.length + 1) := by
  unfold locateeol
  rw [hs, strchr_append hl]

theorem locateeol_cr (hl : lf ∉ body) (hr : cr ∉ body) (hw : lf ∉ w) :
    locateeol (body ++ cr :: w) = some (body.length + 1) := by
  have hlf : lf ∉ body ++ cr :: w := by
    rw [List.mem_append, List.mem_cons]
    rintro (h | h | h)
    · exact hl h
    · exact absurd h (by decide)
    · exact hw h
  unfold locateeol
  rw [strstr_eq_none hlf, strchr_eq_none hlf, strchr_append hr]
  rfl

/-- Up to the first LF, the locator takes all. -/
theorem locateeol_last (hl : lf ∉ body) : locateeol (body ++ [lf]) = some (body.length + 1) := by
  cases hs : strstr (body ++ [lf]) [cr, lf] with
  | none => exact locateeol_lf hl hs
  | some i =>
    obtain ⟨x, z, hx, rfl⟩ := strstr_eq_some hs
    unfold locateeol
    rw [hs]
    -- the LF behind the CR is the last byte
    have hz : z = [] := by
      rcases List.eq_nil_or_concat z with rfl | ⟨z', c, rfl⟩
      · rfl
      · have hlast : body = x ++ [cr, lf] ++ z' := by
          rw [List.concat_eq_append, ← List.append_assoc] at hx
          exact (List.append_inj' hx rfl).1
        exact absurd (by rw [hlast]; simp) hl
    have hlen := congrArg List.length hx
    rw [hz] at hlen
    simp only [List.length_append, List.length_cons, List.length_nil] at hlen
    refine congrArg some ?_
    omega

/-! ## Strings of inside bytes -/

theorem not_mem_of_inside (hb : ∀ c ∈ body, inside c = true) : lf ∉ body ∧ cr ∉ body ∧ 0 ∉ body :=
  ⟨fun h => (inside_iff.1 (hb _ h)).2.2 rfl, fun h => (inside_iff.1 (hb _ h)).2.1 rfl,
    fun h => (inside_iff.1 (hb _ h)).1 rfl⟩

theorem cstring_of_not_mem (h : 0 ∉ w) : cstring w = w :=
  List.takeWhile_eq_self_iff.2 fun c hc => by
    rw [decide_eq_true_eq]
    rintro rfl
    exact h hc

theorem cstring_append_of_not_mem (h : 0 ∉ v) (w : List UInt8) :
    cstring (v ++ w) = v ++ cstring w :=
  List.takeWhile_append_of_pos fun c hc => by
    rw [decide_eq_true_eq]
    rintro rfl
    exact h hc

/-- Only inside bytes are a message when they fill the buffer. -/
theorem textLen_inside (hb : ∀ c ∈ w, inside c = true) :
    textLen locateeol n w = if w.length < n then none else some w.length := by
  obtain ⟨hl, hr, h0⟩ := not_mem_of_inside hb
  unfold textLen
  rw [cstring_of_not_mem h0, locateeol_none hl hr]

/-! ## The first string and the rest -/

theorem stripped_eq_self (h : w.head? ≠ some 0) : stripped w = w := by
  cases w with
  | nil => rfl
  | cons c w => exact stripped_of_ne fun hc => h (by rw [hc]; rfl)

theorem stripped_body {c : UInt8} (hb : ∀ c ∈ body, inside c = true) (hc : body = [] → c ≠ 0)
    (t : List UInt8) : stripped (body ++ c :: t) = body ++ c :: t := by
  cases body with
  | nil => exact stripped_of_ne (hc rfl)
  | cons d body => exact stripped_of_ne (inside_iff.1 (hb d List.mem_cons_self)).1

theorem take_body (body : List UInt8) (c : UInt8) (t : List UInt8) :
    (body ++ c :: t).take (body.length + 1) = body ++ [c] := by
  have hsplit : body ++ c :: t = body ++ [c] ++ t := by simp
  rw [hsplit, List.take_left' (by simp)]

theorem drop_body (body : List UInt8) (c : UInt8) (t : List UInt8) :
    (body ++ c :: t).drop (body.length + 1) = t := by
  have hsplit : body ++ c :: t = body ++ [c] ++ t := by simp
  rw [hsplit, List.drop_left' (by simp)]

theorem lines_cons_nul (w : List UInt8) : lines n (0 :: w) = lines n w := lines_congr (stripped_nul w)

theorem regular_cons_nul (w : List UInt8) : Regular n (0 :: w) ↔ Regular n w :=
  regular_congr (stripped_nul w)

section

variable (hb : ∀ c ∈ body, inside c = true)
include hb

theorem stripped_full {t : List UInt8} (hne : body ≠ []) : stripped (body ++ t) = body ++ t := by
  cases body with
  | nil => exact absurd rfl hne
  | cons c body => exact stripped_of_ne (inside_iff.1 (hb c List.mem_cons_self)).1

theorem lines_full {t : List UInt8} (hn : body.length = n) (hpos : 0 < n) :
    lines n (body ++ t) = body :: lines n t := by
  have hne : body ≠ [] := List.ne_nil_of_length_pos (hn ▸ hpos)
  rw [lines_some (stripped_full hb hne) (by simp [hne]) (firstEnd_full hb hn t) hpos,
    List.take_left' hn, List.drop_left' hn]

theorem regular_full {t : List UInt8} (hn : body.length = n) (hpos : 0 < n) :
    Regular n (body ++ t) ↔ Regular n t := by
  have hne : body ≠ [] := List.ne_nil_of_length_pos (hn ▸ hpos)
  rw [regular_some (stripped_full hb hne) (by simp [hne]) (firstEnd_full hb hn t) hpos,
    List.drop_left' hn]
  exact and_iff_right trivial

theorem lines_nul {t : List UInt8} (hne : body ≠ []) (hn : body.length < n) :
    lines n (body ++ 0 :: t) = body :: lines n t := by
  rw [lines_some (stripped_body hb (absurd · hne) t) (by simp) (firstEnd_nul hb hn t)
    (List.length_pos_of_ne_nil hne), List.take_left, List.drop_left, lines_cons_nul]

theorem regular_nul {t : List UInt8} (hne : body ≠ []) (hn : body.length < n) :
    Regular n (body ++ 0 :: t) ↔ body.length + 1 = n ∧ Regular n t := by
  rw [regular_some (stripped_body hb (absurd · hne) t) (by simp) (firstEnd_nul hb hn t)
    (List.length_pos_of_ne_nil hne), List.drop_left, regular_cons_nul]
  rfl

theorem lines_lf {t : List UInt8} (hn : body.length < n) :
    lines n (body ++ lf :: t) = (body ++ [lf]) :: lines n t := by
  rw [lines_some (stripped_body hb (fun _ => by decide) t) (by simp) (firstEnd_lf hb hn t)
    (Nat.succ_pos _), take_body, drop_body]

theorem regular_lf {t : List UInt8} (hn : body.length < n) :
    Regular n (body ++ lf :: t) ↔ Regular n t := by
  rw [regular_some (stripped_body hb (fun _ => by decide) t) (by simp) (firstEnd_lf hb hn t)
    (Nat.succ_pos _), drop_body]
  exact and_iff_right trivial

theorem lines_crlf {t : List UInt8} (hn : body.length + 2 ≤ n) :
    lines n (body ++ cr :: lf :: t) = (body ++ [cr, lf]) :: lines n t := by
  have hsplit : body ++ cr :: lf :: t = body ++ [cr, lf] ++ t := by simp
  rw [lines_some (stripped_body hb (fun _ => by decide) _) (by simp) (firstEnd_crlf hb hn t)
    (Nat.succ_pos _), hsplit, List.take_left' (by simp), List.drop_left' (by simp)]

theorem not_regular_crlf {t : List UInt8} (hn : body.length + 2 ≤ n) :
    ¬ Regular n (body ++ cr :: lf :: t) := by
  rw [regular_some (stripped_body hb (fun _ => by decide) _) (by simp) (firstEnd_crlf hb hn t)
    (Nat.succ_pos _)]
  exact fun h => h.1

theorem lines_cr {t : List UInt8} (hn : body.length < n)
    (ht : t.head? = some lf → n < body.length + 2) :
    lines n (body ++ cr :: t) = (body ++ [cr]) :: lines n t := by
  rw [lines_some (stripped_body hb (fun _ => by decide) t) (by simp) (firstEnd_cr hb hn ht)
    (Nat.succ_pos _), take_body, drop_body]

/-- After a string that ends with CR no LF may follow in the buffer. -/
theorem regular_cr {t : List UInt8} (hn : body.length < n)
    (ht : t.head? = some lf → n < body.length + 2) :
    Regular n (body ++ cr :: t) ↔
      lf ∉ cstring (t.take (n - (body.length + 1))) ∧ Regular n t := by
  rw [regular_some (stripped_body hb (fun _ => by decide) t) (by simp) (firstEnd_cr hb hn ht)
    (Nat.succ_pos _), drop_body, Ending.fits, List.drop_take, drop_body]

/-- A CR in a regular stream is not followed by LF in the buffer. -/
theorem Regular.head_of_cr {t : List UInt8} (h : Regular n (body ++ cr :: t)) :
    t.head? = some lf → n < body.length + 2 := by
  intro ht
  by_contra hle
  cases t with
  | nil => cases ht
  | cons c t =>
    obtain rfl := Option.some.inj ht
    exact not_regular_crlf hb (by omega) h

end

/-! ## Regular streams -/

theorem regular_zero (w : List UInt8) : Regular 0 w := by
  rw [Regular]
  split
  · trivial
  · have hfull : firstEnd 0 (stripped w) = some (.full, 0) := by
      unfold firstEnd
      rw [if_pos (Nat.zero_le _)]
    rw [hfull]
    trivial

theorem cstring_mono (h : v <+: w) : cstring v <+: cstring w := by
  obtain ⟨f, rfl⟩ := h
  by_cases h0 : 0 ∈ v
  · obtain ⟨x, z, rfl⟩ := List.append_of_mem h0
    have heq : cstring (x ++ 0 :: z ++ f) = cstring (x ++ 0 :: z) := by
      rw [List.append_assoc, List.cons_append, cstring_append_nul, cstring_append_nul]
    exact ⟨[], by rw [List.append_nil, heq]⟩
  · rw [cstring_append_of_not_mem h0, cstring_of_not_mem h0]
    exact List.prefix_append _ _

/-- No CR LF can be in the buffer, not even behind the first string. -/
theorem Regular.no_crlf {x z : List UInt8} (h0 : 0 ∉ x) (hn : x.length + 2 ≤ n)
    (h : Regular n (x ++ Receive.cr :: lf :: z)) : False := by
  induction hk : x.length using Nat.strong_induction_on generalizing x with
  | _ k ih =>
    rcases begins (x.length + 1) x with ⟨hall, -⟩ | ⟨body, t, hx, -, hlen⟩ |
      ⟨body, c, t, rfl, hb, -, hc⟩
    · exact not_regular_crlf hall hn h
    · have := congrArg List.length hx
      rw [List.length_append] at this
      omega
    · have hlen : (body ++ c :: t).length = body.length + 1 + t.length := by
        rw [List.length_append, List.length_cons]
        omega
      have ht : 0 ∉ t := fun hm => h0 (by simp [hm])
      rw [List.append_assoc, List.cons_append] at h
      refine ih t.length (by omega) ht (by omega) ?_ rfl
      rcases hc with rfl | rfl | rfl
      · exact absurd (by simp) h0
      · exact (regular_lf hb (by omega)).1 h
      · exact ((regular_cr hb (by omega) (h.head_of_cr hb)).1 h).2

/-- A prefix of a regular stream is regular. -/
theorem Regular.of_append (h : Regular n (w ++ f)) : Regular n w := by
  rcases Nat.eq_zero_or_pos n with rfl | hpos
  · exact regular_zero w
  induction hk : w.length using Nat.strong_induction_on generalizing w with
  | _ k ih =>
    by_cases hs : stripped w = []
    · exact regular_of_stripped hs
    obtain ⟨d, u, hd, hd0⟩ := exists_cons_of_stripped hs
    have hle := length_stripped_le w
    rw [regular_congr (stripped_stripped w).symm]
    have h : Regular n (stripped w ++ f) := by
      refine (regular_congr ?_).1 h
      rw [stripped_append hs, stripped_append (by rwa [stripped_stripped]), stripped_stripped]
    rcases begins n (stripped w) with ⟨hall, hlen⟩ | ⟨body, t, hw, hb, hlen⟩ |
      ⟨body, c, t, hw, hb, hlen, hc⟩
    · refine regular_none ?_
      rw [stripped_stripped]
      exact firstEnd_none hall hlen
    · rw [hw] at h hle ⊢
      rw [List.length_append] at hle
      rw [List.append_assoc, regular_full hb hlen hpos] at h
      exact (regular_full hb hlen hpos).2 (ih t.length (by omega) h rfl)
    · rw [hw] at h hle ⊢
      rw [List.length_append, List.length_cons] at hle
      rw [List.append_assoc, List.cons_append] at h
      rcases hc with rfl | rfl | rfl
      · have hne : body ≠ [] := by
          rintro rfl
          rw [hw] at hd
          exact hd0 (List.cons.inj hd).1.symm
        rw [regular_nul hb hne hlen] at h ⊢
        exact ⟨h.1, ih t.length (by omega) h.2 rfl⟩
      · rw [regular_lf hb hlen] at h ⊢
        exact ih t.length (by omega) h rfl
      · have hhead : t.head? = some lf → n < body.length + 2 := by
          intro ht
          refine h.head_of_cr hb ?_
          rw [List.head?_append, ht]
          rfl
        rw [regular_cr hb hlen (h.head_of_cr hb)] at h
        rw [regular_cr hb hlen hhead]
        have hpre : t.take (n - (body.length + 1)) <+: (t ++ f).take (n - (body.length + 1)) := by
          rw [List.take_append]
          exact List.prefix_append _ _
        exact ⟨fun hm => h.1 ((cstring_mono hpre).subset hm), ih t.length (by omega) h.2 rfl⟩

/-! ## The code on regular streams -/

theorem textLen_nul (hb : ∀ c ∈ body, inside c = true) :
    textLen locateeol n (body ++ [0]) = if body.length + 1 < n then none else some body.length := by
  obtain ⟨hl, hr, h0⟩ := not_mem_of_inside hb
  unfold textLen
  rw [cstring_append_nul, cstring_of_not_mem h0, locateeol_none hl hr, List.length_append]
  rfl

theorem textLen_lf (hb : ∀ c ∈ body, inside c = true)
    (hs : strstr (cstring (body ++ lf :: w)) [cr, lf] = none) :
    textLen locateeol n (body ++ lf :: w) = some (body.length + 1) := by
  obtain ⟨hl, -, h0⟩ := not_mem_of_inside hb
  have hstr : cstring (body ++ lf :: w) = body ++ lf :: cstring w := by
    rw [cstring_append_of_not_mem h0]
    rfl
  unfold textLen
  rw [hstr] at hs ⊢
  rw [locateeol_lf hl hs]

theorem textLen_cr (hb : ∀ c ∈ body, inside c = true) (hw : lf ∉ cstring w) :
    textLen locateeol n (body ++ cr :: w) = some (body.length + 1) := by
  obtain ⟨hl, hr, h0⟩ := not_mem_of_inside hb
  have hstr : cstring (body ++ cr :: w) = body ++ cr :: cstring w := by
    rw [cstring_append_of_not_mem h0]
    rfl
  unfold textLen
  rw [hstr, locateeol_cr hl hr hw]

/-- With `v` in the buffer the code takes the first string of the stream `v ++ f`, and what follows
it is regular. -/
def TakesFirst (n : ℕ) (v f : List UInt8) : Prop :=
  ∃ len, 0 < len ∧ textLen locateeol n v = some len ∧
    lines n (v ++ f) = v.take len :: lines n (v.drop len ++ f) ∧ Regular n (v.drop len ++ f)

section

variable (hb : ∀ c ∈ body, inside c = true)
include hb

theorem takesFirst_full (hn : body.length = n) (hpos : 0 < n) (h : Regular n (body ++ f)) :
    TakesFirst n body f := by
  refine ⟨body.length, by omega, ?_, ?_, ?_⟩
  · rw [textLen_inside hb, if_neg (by omega)]
  · rw [lines_full hb hn hpos, List.take_length, List.drop_length, List.nil_append]
  · rw [List.drop_length, List.nil_append]
    exact (regular_full hb hn hpos).1 h

theorem takesFirst_nul (hne : body ≠ []) (hn : (body ++ 0 :: v).length ≤ n)
    (h : Regular n (body ++ 0 :: (v ++ f))) : TakesFirst n (body ++ 0 :: v) f := by
  rw [List.length_append, List.length_cons] at hn
  rw [regular_nul hb hne (by omega)] at h
  obtain rfl : v = [] := List.eq_nil_of_length_eq_zero (by omega)
  refine ⟨body.length, List.length_pos_of_ne_nil hne, ?_, ?_, ?_⟩
  · rw [textLen_nul hb, if_neg (by omega)]
  · rw [List.append_assoc, List.take_left, List.drop_left, List.cons_append,
      lines_nul hb hne (by omega), lines_cons_nul]
  · rw [List.drop_left]
    exact (regular_cons_nul _).2 h.2

theorem takesFirst_lf (hn : (body ++ lf :: v).length ≤ n)
    (h : Regular n (body ++ lf :: (v ++ f))) : TakesFirst n (body ++ lf :: v) f := by
  have hlen : body.length < n := by
    rw [List.length_append, List.length_cons] at hn
    omega
  refine ⟨body.length + 1, Nat.succ_pos _, textLen_lf hb ?_, ?_, ?_⟩
  · cases hs : strstr (cstring (body ++ lf :: v)) [cr, lf] with
    | none => rfl
    | some i =>
      -- a CR LF in the buffer is one in the stream
      obtain ⟨x, z, hx, -⟩ := strstr_eq_some hs
      obtain ⟨y, hy⟩ := cstring_isPrefix (body ++ lf :: v)
      have h0 : 0 ∉ x := fun hm =>
        ne_zero_of_mem_cstring (w := body ++ lf :: v) (by rw [hx]; simp [hm]) rfl
      have hlen' := congrArg List.length hy
      rw [hx] at hlen'
      simp only [List.length_append, List.length_cons, List.length_nil] at hlen' hn
      have hall : body ++ lf :: (v ++ f) = x ++ cr :: lf :: (z ++ y ++ f) := by
        have hassoc : body ++ lf :: (v ++ f) = body ++ lf :: v ++ f := by simp
        rw [hassoc, ← hy, hx]
        simp
      rw [hall] at h
      exact (h.no_crlf h0 (by omega)).elim
  · rw [List.append_assoc, List.cons_append, lines_lf hb hlen, take_body, drop_body]
  · rw [drop_body]
    exact (regular_lf hb hlen).1 h

theorem takesFirst_cr (hn : (body ++ cr :: v).length ≤ n)
    (h : Regular n (body ++ cr :: (v ++ f))) : TakesFirst n (body ++ cr :: v) f := by
  rw [List.length_append, List.length_cons] at hn
  have hlen : body.length < n := by omega
  have hhead := h.head_of_cr hb
  rw [regular_cr hb hlen hhead] at h
  have hpre : v <+: (v ++ f).take (n - (body.length + 1)) := by
    rw [List.take_append, List.take_of_length_le (by omega)]
    exact List.prefix_append _ _
  refine ⟨body.length + 1, Nat.succ_pos _,
    textLen_cr hb fun hm => h.1 ((cstring_mono hpre).subset hm), ?_, ?_⟩
  · rw [List.append_assoc, List.cons_append, lines_cr hb hlen hhead, take_body, drop_body]
  · rw [drop_body]
    exact h.2

end

/-- A string that has not ended yet and does not fill the buffer is left there. -/
theorem open_of_inside (hall : ∀ c ∈ v, inside c = true) (hlt : v.length < n) :
    textLen locateeol n v = none ∧ lines n v = [] := by
  refine ⟨by rw [textLen_inside hall, if_pos hlt], lines_none ?_⟩
  rw [stripped_eq_self]
  · exact firstEnd_none hall hlt
  · intro hhead
    obtain ⟨t, rfl⟩ := List.head?_eq_some_iff.1 hhead
    exact (inside_iff.1 (hall 0 List.mem_cons_self)).1 rfl

/-- Where `v` has arrived of a regular stream, the code takes the first string of the stream, or no
string has ended yet. -/
theorem next_of_regular (hv : v.head? ≠ some 0) (hne : v ≠ []) (hn : v.length ≤ n)
    (h : Regular n (v ++ f)) :
    TakesFirst n v f ∨ textLen locateeol n v = none ∧ lines n v = [] := by
  rcases begins n (v ++ f) with ⟨hall, hlt⟩ | ⟨body, t, hw, hb, hlen⟩ |
    ⟨body, c, t, hw, hb, hlen, hc⟩
  · rw [List.length_append] at hlt
    exact .inr (open_of_inside (fun c hc => hall c (List.mem_append_left _ hc)) (by omega))
  · have hpre : v <+: body :=
      List.prefix_of_prefix_length_le (List.prefix_append v f) (hw ▸ List.prefix_append body t)
        (by omega)
    have hall : ∀ c ∈ v, inside c = true := fun c hc => hb c (hpre.subset hc)
    rcases Nat.lt_or_eq_of_le hn with hlt | heq
    · exact .inr (open_of_inside hall hlt)
    · have hvpos := List.length_pos_of_ne_nil hne
      exact .inl (takesFirst_full hall heq (by omega) h)
  · -- either the end of the string has arrived or it has not
    rcases List.append_eq_append_iff.1 hw with ⟨as, rfl, -⟩ | ⟨cs, rfl, hcs⟩
    · rw [List.length_append] at hlen
      exact .inr (open_of_inside (fun c hc => hb c (List.mem_append_left _ hc)) (by omega))
    cases cs with
    | nil =>
      rw [List.append_nil]
      exact .inr (open_of_inside hb hlen)
    | cons d v' =>
      rw [List.cons_append] at hcs
      obtain ⟨rfl, rfl⟩ := List.cons.inj hcs
      rw [hw] at h
      left
      rcases hc with rfl | rfl | rfl
      · refine takesFirst_nul hb ?_ hn h
        rintro rfl
        exact hv rfl
      · exact takesFirst_lf hb hn h
      · exact takesFirst_cr hb hn h

end PoserCore.Connection.Receive
