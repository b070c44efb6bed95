import PoserCore.IpAddr.Grammar

/-!
# The parser

`PSC_IpAddr_create` accepts a string of 2 to 43 bytes if and only if it is the text of a spelling
(`create_iff`), and stores what this spelling says.  A text has only one spelling (`text_inj`).
-/

namespace PoserCore.IpAddr

open Lib.Strtol (Numeral isDigit Stops strtol)

/-! ## Where a number ends -/

theorem stops_of_colon {r : List UInt8} (h : r = [] ∨ r.head? = some colon) : Stops 16 r := by
  intro b hb
  rcases h with rfl | h
  · cases hb
  · obtain rfl : colon = b := Option.some.inj (h.symm.trans hb)
    decide

theorem stops_of_dot {r : List UInt8} (h : r = [] ∨ r.head? = some dot) : Stops 10 r := by
  intro b hb
  rcases h with rfl | h
  · cases hb
  · obtain rfl : dot = b := Option.some.inj (h.symm.trans hb)
    decide

/-- A numeral does not contain what separates numbers. -/
theorem not_separator {base : ℕ} (hb : base ≤ 36) {w : Numeral} (h : w.Ok base) {b : UInt8}
    (hmem : b ∈ w.text) : b ≠ dot ∧ b ≠ slash ∧ b ≠ colon := by
  have hdigit : ∀ c : UInt8, Lib.Strtol.digitValue c = 36 → isDigit base c ≠ true := by
    intro c hc hd
    have := of_decide_eq_true hd
    omega
  have hspace : ∀ c : UInt8, c.toNat > 32 → Lib.Strtol.isspace c ≠ true := by
    intro c hc hs
    have := Lib.Strtol.isspace_le hs
    omega
  simp only [Numeral.text, List.mem_append, Option.mem_toList, List.mem_flatMap] at hmem
  rcases hmem with hs | hs | ⟨x, hx, hs⟩ | hs
  · have := h.space b hs
    refine ⟨?_, ?_, ?_⟩ <;> rintro rfl <;> exact hspace _ (by decide) this
  · rcases h.sign b hs with rfl | rfl <;> decide
  · obtain ⟨-, hx'⟩ := h.hex x hx
    simp only [List.mem_cons, List.not_mem_nil, or_false] at hs
    rcases hs with rfl | rfl
    · decide
    · rcases hx' with rfl | rfl <;> decide
  · have := h.digits b hs
    refine ⟨?_, ?_, ?_⟩ <;> rintro rfl <;> exact hdigit _ rfl this

theorem text_cons {base : ℕ} (hb : base ≤ 36) {w : Numeral} (h : w.Ok base) :
    ∃ b t, w.text = b :: t ∧ b ≠ colon ∧ b ≠ dot := by
  cases ht : w.text with
  | nil =>
    have hd := h.ne_nil
    rw [Numeral.text] at ht
    simp only [List.append_eq_nil_iff] at ht
    exact absurd ht.2.2.2 hd
  | cons b t =>
    obtain ⟨hdot, -, hcolon⟩ := not_separator hb h (b := b) (by rw [ht]; exact List.mem_cons_self)
    exact ⟨b, t, rfl, hcolon, hdot⟩

/-! ## IPv4 -/

def byteOf (w : Numeral) : UInt8 := UInt8.ofNat (w.value 10).toNat

theorem parsev4Loop_text {n : ℕ} {ws : List Numeral} (hlen : ws.length = n + 1)
    (hws : ∀ w ∈ ws, w.Within 10 255) :
    parsev4Loop n ([dot].intercalate (ws.map Numeral.text)) = some (ws.map byteOf) := by
  induction n generalizing ws with
  | zero =>
    obtain ⟨w, rfl⟩ := List.length_eq_one_iff.1 hlen
    have hw := hws w List.mem_cons_self
    have h0 := hw.nonneg
    have hle := hw.le
    have hstr := Lib.Strtol.strtol_text (by decide) (by decide) hw (stops_of_dot (.inl rfl))
    rw [List.append_nil] at hstr
    rw [parsev4Loop, List.map_singleton, List.intercalate_singleton, hstr]
    simp only
    rw [if_neg (by simp; omega)]
    rfl
  | succ n ih =>
    cases ws with
    | nil => cases hlen
    | cons w ws =>
      cases ws with
      | nil => cases hlen
      | cons v ws =>
        have hw := hws w List.mem_cons_self
        have h0 := hw.nonneg
        have hle := hw.le
        have hrest : parsev4Loop n ([dot].intercalate ((v :: ws).map Numeral.text)) =
            some ((v :: ws).map byteOf) :=
          ih (by simpa using hlen) fun u hu => hws u (List.mem_cons_of_mem _ hu)
        rw [List.map_cons, List.map_cons, List.intercalate_cons_cons, ← List.map_cons,
          List.append_assoc]
        generalize hr : [dot].intercalate ((v :: ws).map Numeral.text) = r at hrest
        rw [parsev4Loop, Lib.Strtol.strtol_text (by decide) (by decide) hw
          (stops_of_dot (.inr rfl))]
        simp only
        rw [if_neg (by simp; omega)]
        show (parsev4Loop n r).map (byteOf w :: ·) = _
        rw [hrest]
        rfl

theorem text_parsev4Loop {n : ℕ} {buf bytes : List UInt8} (h : parsev4Loop n buf = some bytes) :
    ∃ ws : List Numeral, ws.length = n + 1 ∧ (∀ w ∈ ws, w.Within 10 255) ∧
      [dot].intercalate (ws.map Numeral.text) = buf ∧ bytes = ws.map byteOf := by
  induction n generalizing buf bytes with
  | zero =>
    rw [parsev4Loop] at h
    split at h
    · cases h
    next c hc =>
      split at h
      · cases h
      next hno =>
        simp only [not_or, true_and, not_and, not_not, ne_eq, Bool.not_eq_true, not_lt] at hno
        obtain ⟨⟨hnil, -⟩, hrange, h0, hle⟩ := hno
        obtain ⟨w, hw, htext, hval⟩ := Lib.Strtol.strtol_within (m := 255) hc hrange h0 (by omega)
        refine ⟨[w], rfl, by simpa using hw, ?_, ?_⟩
        · rw [hnil, List.append_nil] at htext
          simpa using htext
        · rw [← Option.some.inj h]
          simp [byteOf, hval]
  | succ n ih =>
    rw [parsev4Loop] at h
    split at h
    · cases h
    next c hc =>
      split at h
      · cases h
      next hno =>
        simp only [not_or, not_and, not_not, ne_eq, Bool.not_eq_true, not_lt] at hno
        obtain ⟨⟨-, hdot⟩, hrange, h0, hle⟩ := hno
        obtain ⟨w, hw, htext, hval⟩ := Lib.Strtol.strtol_within (m := 255) hc hrange h0 (by omega)
        obtain ⟨bs, hbs, rfl⟩ := Option.map_eq_some_iff.1 h
        obtain ⟨ws, hlen, hws, hjoin, rfl⟩ := ih hbs
        cases ws with
        | nil => cases hlen
        | cons v ws =>
          refine ⟨w :: v :: ws, by simpa using hlen, ?_, ?_, ?_⟩
          · intro u hu
            rcases List.mem_cons.1 hu with rfl | hu
            · exact hw
            · exact hws u hu
          · have hhead := hdot (Nat.succ_ne_zero n)
            rw [List.map_cons, List.map_cons, List.intercalate_cons_cons, ← List.map_cons, hjoin,
              ← htext, List.append_assoc]
            congr 1
            cases hr : c.rest with
            | nil => rw [hr] at hhead; cases hhead
            | cons b r =>
              rw [hr] at hhead
              obtain rfl := Option.some.inj hhead
              rfl
          · simp [byteOf, hval]

/-- The four numbers of an IPv4 address -/
theorem parsev4_iff {buf bytes : List UInt8} : parsev4 buf = some bytes ↔
    ∃ ws : List Numeral, ws.length = 4 ∧ (∀ w ∈ ws, w.Within 10 255) ∧
      [dot].intercalate (ws.map Numeral.text) = buf ∧ bytes = ws.map byteOf := by
  refine ⟨text_parsev4Loop, ?_⟩
  rintro ⟨ws, hlen, hws, rfl, rfl⟩
  exact parsev4Loop_text hlen hws

/-! ## IPv6 -/

/-- What stands behind a sequence of groups. -/
def Ends (r : List UInt8) : Prop := r = [] ∨ ∃ t, r = colon :: colon :: t

theorem Ends.head {r : List UInt8} (h : Ends r) : r = [] ∨ r.head? = some colon := by
  rcases h with rfl | ⟨t, rfl⟩
  · exact .inl rfl
  · exact .inr rfl

theorem Ends.skip {r : List UInt8} (h : Ends r) : skipColon r = r := by
  rcases h with rfl | ⟨t, rfl⟩ <;> rfl

/-- The words go to the head, or to the tail once there is one. -/
def storeAll (ws : List Numeral) (head : List UInt8) : Option (List UInt8) →
    List UInt8 × Option (List UInt8)
  | none => (head ++ numeralBytes ws, none)
  | some tail => (head, some (tail ++ numeralBytes ws))

theorem storeAll_nil (head : List UInt8) (tail : Option (List UInt8)) :
    storeAll [] head tail = (head, tail) := by
  cases tail with
  | none => simp [storeAll, numeralBytes]
  | some tail => simp [storeAll, numeralBytes]

theorem storeAll_cons (w : Numeral) (ws : List Numeral) (head : List UInt8)
    (tail : Option (List UInt8)) : storeAll (w :: ws) head tail =
      storeAll ws (store (w.value 16).toNat head tail).1 (store (w.value 16).toNat head tail).2 := by
  cases tail with
  | none => simp [storeAll, store, numeralBytes, wordBytes]
  | some tail => simp [storeAll, store, numeralBytes, wordBytes]

def stored (head : List UInt8) (tail : Option (List UInt8)) : ℕ :=
  head.length + (tail.getD []).length

theorem stored_store (word : ℕ) (head : List UInt8) (tail : Option (List UInt8)) :
    stored (store word head tail).1 (store word head tail).2 = stored head tail + 2 :=
  length_store word head tail

theorem parsev6Loop_nil (n : ℕ) (head : List UInt8) (tail : Option (List UInt8)) :
    parsev6Loop (n + 1) head tail [] = some (head, tail) := by
  rw [parsev6Loop, if_pos rfl]

theorem parsev6Loop_gap (n : ℕ) (head r : List UInt8) :
    parsev6Loop (n + 1) head none (colon :: colon :: r) = parsev6Loop n head (some []) r := by
  rw [parsev6Loop, if_neg (by simp), if_pos (by simp)]
  rfl

theorem parsev6Loop_word {n : ℕ} {head : List UInt8} {tail : Option (List UInt8)} {w : Numeral}
    {r : List UInt8} (hw : w.Within 16 0xffff) (hr : r = [] ∨ r.head? = some colon)
    (hlen : stored head tail < 16) : parsev6Loop (n + 1) head tail (w.text ++ r) =
      parsev6Loop n (store (w.value 16).toNat head tail).1 (store (w.value 16).toNat head tail).2
        (skipColon r) := by
  obtain ⟨b, t, htext, hb, -⟩ := text_cons (by decide) hw.toOk
  have h0 := hw.nonneg
  have hle := hw.le
  rw [parsev6Loop, if_neg (by simp [htext]), if_neg (by simp [htext, hb]),
    Lib.Strtol.strtol_text (by decide) (by decide) hw (stops_of_colon hr)]
  simp only
  rw [if_neg, if_neg (by unfold stored at hlen; omega)]
  rcases hr with rfl | hr
  · simp; omega
  · simp [hr]; omega

/-- What one pass of the loop can do. -/
theorem parsev6Loop_cases {n : ℕ} {head buf : List UInt8} {tail : Option (List UInt8)}
    {res : List UInt8 × Option (List UInt8)} (h : parsev6Loop (n + 1) head tail buf = some res) :
    buf = [] ∧ res = (head, tail) ∨
      (tail = none ∧ ∃ r, buf = colon :: colon :: r ∧ parsev6Loop n head (some []) r = some res) ∨
      ∃ (w : Numeral) (r : List UInt8), w.Within 16 0xffff ∧ (r = [] ∨ r.head? = some colon) ∧
        buf = w.text ++ r ∧ stored head tail < 16 ∧
        parsev6Loop n (store (w.value 16).toNat head tail).1 (store (w.value 16).toNat head tail).2
          (skipColon r) = some res := by
  rw [parsev6Loop] at h
  by_cases hnil : buf = []
  · rw [if_pos hnil] at h
    exact .inl ⟨hnil, (Option.some.inj h).symm⟩
  rw [if_neg hnil] at h
  by_cases hgap : tail = none ∧ buf.head? = some colon ∧ buf[1]? = some colon
  · rw [if_pos hgap] at h
    obtain ⟨rfl, h0, h1⟩ := hgap
    obtain ⟨a, t, rfl⟩ := List.exists_cons_of_ne_nil hnil
    cases t with
    | nil => cases h1
    | cons b r =>
      obtain rfl := Option.some.inj h0
      obtain rfl := Option.some.inj h1
      exact .inr (.inl ⟨rfl, r, rfl, h⟩)
  rw [if_neg hgap] at h
  split at h
  · cases h
  next c hc =>
    split at h
    · cases h
    next hno =>
      by_cases hlen : 16 ≤ head.length + (tail.getD []).length
      · rw [if_pos hlen] at h
        cases h
      · rw [if_neg hlen] at h
        simp only [not_or, not_and, not_not, ne_eq, Bool.not_eq_true, not_lt] at hno
        obtain ⟨hend, hrange, h0, hle⟩ := hno
        obtain ⟨w, hw, htext, hval⟩ := Lib.Strtol.strtol_within (m := 0xffff) hc hrange h0 (by omega)
        refine .inr (.inr ⟨w, c.rest, hw, ?_, htext.symm, by unfold stored; omega, ?_⟩)
        · rcases Classical.em (c.rest = []) with hr | hr
          · exact .inl hr
          · exact .inr (hend hr)
        · rw [hval]
          exact h

theorem Groups.text_nil : (Groups.mk [] false).text = [] := by simp [Groups.text]

theorem Groups.text_singleton (w : Numeral) (c : Bool) :
    (Groups.mk [w] c).text = w.text ++ if c then [IpAddr.colon] else [] := by
  simp [Groups.text]

theorem Groups.text_cons_cons (w v : Numeral) (ws : List Numeral) (c : Bool) :
    (Groups.mk (w :: v :: ws) c).text = w.text ++ IpAddr.colon :: (Groups.mk (v :: ws) c).text := by
  simp [Groups.text, List.intercalate_cons_cons]

theorem Groups.Ok.nil : (Groups.mk [] false).Ok where
  numerals _ hw := by cases hw
  ne_nil h := by cases h

/-- A text of groups begins with a colon only if it is empty. -/
theorem Groups.Ok.text_head {g : Groups} (hg : g.Ok) :
    g = ⟨[], false⟩ ∨ ∃ b t, g.text = b :: t ∧ b ≠ IpAddr.colon := by
  obtain ⟨ws, c⟩ := g
  cases ws with
  | nil =>
    cases c with
    | false => exact .inl rfl
    | true => exact absurd rfl (hg.ne_nil rfl)
  | cons w ws =>
    obtain ⟨b, t, htext, hb, -⟩ := IpAddr.text_cons (by decide) (hg.numerals w List.mem_cons_self).toOk
    refine .inr ⟨b, ?_⟩
    cases ws with
    | nil => exact ⟨t ++ if c then [IpAddr.colon] else [], by rw [Groups.text_singleton, htext]; rfl, hb⟩
    | cons v ws =>
      exact ⟨t ++ IpAddr.colon :: (Groups.mk (v :: ws) c).text,
        by rw [Groups.text_cons_cons, htext]; rfl, hb⟩

/-- The groups without the first one -/
theorem Groups.Ok.tail {w v : Numeral} {ws : List Numeral} {c : Bool}
    (h : (Groups.mk (w :: v :: ws) c).Ok) : (Groups.mk (v :: ws) c).Ok where
  numerals u hu := h.numerals u (List.mem_cons_of_mem _ hu)
  ne_nil _ := List.cons_ne_nil v ws

theorem skipColon_of_ne {b : UInt8} (h : b ≠ colon) (t : List UInt8) :
    skipColon (colon :: b :: t) = b :: t := by
  simp [skipColon, h]

theorem skipColon_cases (r : List UInt8) (h : r = [] ∨ r.head? = some colon) :
    skipColon r = r ∨ r = colon :: skipColon r ∧ (skipColon r).head? ≠ some colon := by
  cases r with
  | nil => exact .inl rfl
  | cons a t =>
    obtain rfl : a = colon := by simpa using h
    unfold skipColon
    split_ifs with hskip
    · refine .inr ⟨rfl, ?_⟩
      rw [List.tail_cons, List.head?_eq_getElem?]
      exact hskip.2
    · exact .inl rfl

/-- The loop reads a sequence of groups. -/
theorem parsev6Loop_groups {n : ℕ} {g : Groups} {head r : List UInt8} {tail : Option (List UInt8)}
    (hg : g.Ok) (hr : Ends r) (hcolon : g.colon = true → r = [])
    (hlen : stored head tail + 2 * g.numerals.length ≤ 16) :
    parsev6Loop (g.numerals.length + n) head tail (g.text ++ r) =
      parsev6Loop n (storeAll g.numerals head tail).1 (storeAll g.numerals head tail).2 r := by
  obtain ⟨ws, c⟩ := g
  simp only at hcolon hlen ⊢
  induction ws generalizing head tail with
  | nil =>
    cases c with
    | true => exact absurd rfl (hg.ne_nil rfl)
    | false =>
      rw [storeAll_nil, Groups.text_nil, List.length_nil, Nat.zero_add]
      rfl
  | cons w ws ih =>
    have hw := hg.numerals w List.mem_cons_self
    have hroom : stored head tail < 16 := by
      rw [List.length_cons] at hlen
      omega
    rw [storeAll_cons, List.length_cons, show ws.length + 1 + n = ws.length + n + 1 by omega]
    cases ws with
    | nil =>
      rw [Groups.text_singleton, List.append_assoc, storeAll_nil, List.length_nil, Nat.zero_add]
      cases c with
      | false =>
        show parsev6Loop (n + 1) head tail (w.text ++ r) = _
        rw [parsev6Loop_word hw hr.head hroom, hr.skip]
      | true =>
        obtain rfl := hcolon rfl
        exact parsev6Loop_word hw (.inr rfl) hroom
    | cons v ws =>
      obtain hnil | ⟨b, t, htext, hb⟩ := hg.tail.text_head
      · cases hnil
      rw [Groups.text_cons_cons, List.append_assoc, List.cons_append,
        parsev6Loop_word hw (.inr rfl) hroom, htext, List.cons_append, skipColon_of_ne hb,
        ← List.cons_append, ← htext]
      apply ih hg.tail
      rw [stored_store]
      rw [List.length_cons] at hlen
      omega

/-- What the loop accepts begins with a sequence of groups, and it goes on behind it. -/
theorem groups_parsev6Loop {n : ℕ} {head buf : List UInt8} {tail : Option (List UInt8)}
    {res : List UInt8 × Option (List UInt8)} (hfit : stored head tail ≤ 16)
    (heven : stored head tail % 2 = 0) (h : parsev6Loop n head tail buf = some res) :
    ∃ (g : Groups) (r : List UInt8) (m : ℕ), g.Ok ∧ (g.colon = true → r = []) ∧ buf = g.text ++ r ∧
      stored head tail + 2 * g.numerals.length ≤ 16 ∧
      (r = [] ∧ res = storeAll g.numerals head tail ∨ tail = none ∧ ∃ t, r = colon :: colon :: t ∧
        parsev6Loop m (head ++ numeralBytes g.numerals) (some []) t = some res) := by
  induction n generalizing head tail buf with
  | zero => cases h
  | succ n ih =>
    rcases parsev6Loop_cases h with ⟨rfl, rfl⟩ | ⟨rfl, t, rfl, ht⟩ | ⟨w, r, hw, hr, rfl, hlen, hrest⟩
    · exact ⟨⟨[], false⟩, [], 0, .nil, fun _ => rfl, rfl, hfit, .inl ⟨rfl, (storeAll_nil ..).symm⟩⟩
    · refine ⟨⟨[], false⟩, _, n, .nil, (fun hc => by cases hc), rfl, hfit,
        .inr ⟨rfl, t, rfl, ?_⟩⟩
      simpa [numeralBytes] using ht
    · have hsize := stored_store (w.value 16).toNat head tail
      obtain ⟨g, z, m, hg, hcolon, htext, hle, hend⟩ := ih (by omega) (by omega) hrest
      have hend' : z = [] ∧ res = storeAll (w :: g.numerals) head tail ∨
          tail = none ∧ ∃ t, z = colon :: colon :: t ∧
            parsev6Loop m (head ++ numeralBytes (w :: g.numerals)) (some []) t = some res := by
        rcases hend with ⟨hz, hres⟩ | ⟨htail, t, hz, ht⟩
        · rw [storeAll_cons]
          exact .inl ⟨hz, hres⟩
        · cases tail with
          | none => exact .inr ⟨rfl, t, hz, by simpa [store, numeralBytes, wordBytes] using ht⟩
          | some tail => cases htail
      have hz : Ends z := by
        rcases hend with ⟨hz, -⟩ | ⟨-, t, hz, -⟩
        · exact .inl hz
        · exact .inr ⟨t, hz⟩
      have hok : ∀ c, (Groups.mk (w :: g.numerals) c).Ok := fun c =>
        { numerals := List.forall_mem_cons.2 ⟨hw, hg.numerals⟩
          ne_nil := fun _ => List.cons_ne_nil w g.numerals }
      have hle' : stored head tail + 2 * (w :: g.numerals).length ≤ 16 := by
        rw [List.length_cons]
        omega
      rcases hg.text_head with rfl | ⟨b, t, hbt, hb⟩
      · rw [Groups.text_nil, List.nil_append] at htext
        obtain ⟨c, hc, hcr⟩ : ∃ c, (c = true → z = []) ∧ r = (if c then [colon] else []) ++ z := by
          rcases skipColon_cases r hr with hskip | ⟨hskip, hne⟩
          · exact ⟨false, (fun hc => by cases hc), hskip.symm.trans htext⟩
          · have hz' : z = [] := by
              rcases hz with hz | ⟨t, hz⟩
              · exact hz
              · rw [htext, hz] at hne
                exact absurd rfl hne
            exact ⟨true, fun _ => hz', by rw [← htext]; exact hskip⟩
        refine ⟨⟨[w], c⟩, z, m, hok c, hc, ?_, hle', hend'⟩
        rw [Groups.text_singleton, List.append_assoc, ← hcr]
      · obtain ⟨ws, c⟩ := g
        cases ws with
        | nil =>
          cases c with
          | false => cases hbt
          | true => exact absurd rfl (hg.ne_nil rfl)
        | cons v ws =>
          refine ⟨⟨w :: v :: ws, c⟩, z, m, hok c, hcolon, ?_, hle', hend'⟩
          rw [Groups.text_cons_cons, List.append_assoc, List.cons_append, ← htext]
          rcases skipColon_cases r hr with hskip | ⟨hskip, -⟩
          · have hhead : r.head? = some b := by rw [← hskip, htext, hbt]; rfl
            rcases hr with rfl | hr
            · cases hhead
            · exact absurd (Option.some.inj (hhead.symm.trans hr)) hb
          · rw [← hskip]

theorem length_numeralBytes (ws : List Numeral) : (numeralBytes ws).length = 2 * ws.length := by
  induction ws with
  | nil => rfl
  | cons w ws ih =>
    rw [numeralBytes, List.flatMap_cons, List.length_append, ← numeralBytes, ih, List.length_cons]
    show 2 + 2 * ws.length = _
    omega

theorem place_eq_fill {head : List UInt8} {tail : Option (List UInt8)} (h : stored head tail ≤ 16) :
    place head tail = fill head (tail.getD []) := by
  unfold stored at h
  rw [place, fill, List.take_append, List.take_of_length_le (by omega), List.take_replicate,
    Nat.min_eq_left (by omega), show 16 - (tail.getD []).length - head.length =
      16 - head.length - (tail.getD []).length by omega]

theorem length_le_text {g : Groups} (hg : g.Ok) : g.numerals.length ≤ g.text.length := by
  obtain ⟨ws, c⟩ := g
  induction ws with
  | nil => exact Nat.zero_le _
  | cons w ws ih =>
    obtain ⟨b, t, htext, -, -⟩ := text_cons (by decide) (hg.numerals w List.mem_cons_self).toOk
    cases ws with
    | nil =>
      rw [Groups.text_singleton, htext]
      simp
    | cons v ws =>
      have := ih hg.tail
      simp only at this ⊢
      rw [Groups.text_cons_cons, htext, List.length_append]
      simp only [List.length_cons] at this ⊢
      omega

theorem parsev6_text {head : Groups} {tail : Option Groups} (h : (Body.v6 head tail).Ok) :
    parsev6 (head.text ++ gapText tail) = some (Body.v6 head tail).data := by
  obtain - | ⟨hhead, htail, hcolon, hlen⟩ := h
  have hroom := length_le_text hhead
  have hsize := length_numeralBytes head.numerals
  cases tail with
  | none =>
    rw [words, Option.elim_none, Nat.add_zero] at hlen
    obtain ⟨n, hn⟩ : ∃ n, (head.text ++ []).length + 1 = head.numerals.length + (n + 1) :=
      ⟨head.text.length - head.numerals.length, by rw [List.append_nil]; omega⟩
    rw [gapText, parsev6, hn, parsev6Loop_groups hhead (.inl rfl) (fun _ => rfl)
      (by simp [stored]; omega), parsev6Loop_nil]
    simp only [Option.map_some, storeAll, List.nil_append]
    rw [place_eq_fill (by simp [stored]; omega)]
    rfl
  | some tail =>
    rw [words, Option.elim_some] at hlen
    have hroom' := length_le_text (htail tail rfl)
    have hsize' := length_numeralBytes tail.numerals
    obtain ⟨n, hn⟩ : ∃ n, (head.text ++ colon :: colon :: tail.text).length + 1 =
        head.numerals.length + (tail.numerals.length + (n + 1) + 1) := by
      refine ⟨head.text.length + tail.text.length + 1 - head.numerals.length -
        tail.numerals.length, ?_⟩
      rw [List.length_append, List.length_cons, List.length_cons]
      omega
    have hnone : head.colon ≠ true := by simp [hcolon]
    rw [gapText, parsev6, hn, parsev6Loop_groups hhead (.inr ⟨_, rfl⟩) (fun hc => absurd hc hnone)
      (by simp [stored]; omega)]
    simp only [storeAll, List.nil_append]
    rw [parsev6Loop_gap, ← List.append_nil tail.text,
      parsev6Loop_groups (htail tail rfl) (.inl rfl) (fun _ => rfl) (by simp [stored]; omega),
      parsev6Loop_nil]
    simp only [storeAll, List.nil_append, Option.map_some]
    rw [place_eq_fill (by simp [stored]; omega)]
    rfl

theorem text_parsev6 {buf data : List UInt8} (h : parsev6 buf = some data) :
    ∃ head tail, (Body.v6 head tail).Ok ∧ head.text ++ gapText tail = buf ∧
      data = (Body.v6 head tail).data := by
  obtain ⟨res, hres, rfl⟩ := Option.map_eq_some_iff.1 h
  obtain ⟨g, r, m, hg, hcolon, rfl, hlen, hend⟩ :=
    groups_parsev6Loop (by decide) (by decide) hres
  have hsize := length_numeralBytes g.numerals
  simp only [stored, List.length_nil, Option.getD_none] at hlen
  rcases hend with ⟨rfl, rfl⟩ | ⟨-, t, rfl, ht⟩
  · refine ⟨g, none, .v6 hg (fun _ ht => by cases ht) (fun hne => absurd rfl hne) ?_, rfl, ?_⟩
    · rw [words, Option.elim_none]
      omega
    · simp only [storeAll, List.nil_append]
      rw [place_eq_fill (by simp [stored]; omega)]
      rfl
  · obtain ⟨g', r', m', hg', -, rfl, hlen', hend'⟩ :=
      groups_parsev6Loop (by simp [stored]; omega) (by simp [stored]; omega) ht
    simp only [stored, List.nil_append, List.length_nil, Option.getD_some] at hlen'
    have hsize' := length_numeralBytes g'.numerals
    rcases hend' with ⟨rfl, rfl⟩ | ⟨hnone, -⟩
    · have hfalse : g.colon = false := by
        by_contra hc
        cases hcolon (Bool.eq_true_of_not_eq_false hc)
      refine ⟨g, some g', .v6 hg ?_ (fun _ => hfalse) ?_, ?_, ?_⟩
      · intro t ht
        obtain rfl := Option.some.inj ht
        exact hg'
      · rw [words, Option.elim_some]
        omega
      · rw [List.append_nil]
        rfl
      · simp only [storeAll, List.nil_append]
        rw [place_eq_fill (by simp [stored]; omega)]
        rfl
    · cases hnone

/-- The groups of an IPv6 address -/
theorem parsev6_iff {buf data : List UInt8} : parsev6 buf = some data ↔
    ∃ head tail, (Body.v6 head tail).Ok ∧ head.text ++ gapText tail = buf ∧
      data = (Body.v6 head tail).data := by
  refine ⟨text_parsev6, ?_⟩
  rintro ⟨head, tail, hok, rfl, rfl⟩
  exact parsev6_text hok

/-! ## The prefix -/

theorem parsePrefix_iff {s : List UInt8} {n : ℕ} : parsePrefix s = some n ↔
    ∃ w : Numeral, w.Within 10 128 ∧ w.text = s ∧ n = (w.value 10).toNat := by
  constructor
  · intro h
    unfold parsePrefix at h
    split at h
    · cases h
    next c hc =>
      split_ifs at h with hno
      simp only [not_or, not_not, ne_eq, Bool.not_eq_true, not_lt] at hno
      obtain ⟨hnil, hrange, h0, hle⟩ := hno
      obtain ⟨w, hw, htext, hval⟩ := Lib.Strtol.strtol_within (m := 128) hc hrange h0 (by omega)
      rw [hnil, List.append_nil] at htext
      exact ⟨w, hw, htext, by rw [hval]; exact (Option.some.inj h).symm⟩
  · rintro ⟨w, hw, rfl, rfl⟩
    have h0 := hw.nonneg
    have hle := hw.le
    have hstr := Lib.Strtol.strtol_text (by decide) (by decide) hw (stops_of_dot (.inl rfl))
    rw [List.append_nil] at hstr
    rw [parsePrefix, hstr]
    simp only
    rw [if_neg (by simp; omega)]

theorem splitPrefix_none {s : List UInt8} (h : slash ∉ s) : splitPrefix s = (s, none) := by
  have hne : ∀ b ∈ s, decide (b ≠ slash) = true := fun b hb =>
    decide_eq_true fun heq => h (heq ▸ hb)
  rw [splitPrefix, List.takeWhile_eq_self_iff.2 hne, List.dropWhile_eq_nil_iff.2 hne]

theorem splitPrefix_some {s : List UInt8} (h : slash ∉ s) (pr : List UInt8) :
    splitPrefix (s ++ slash :: pr) = (s, some pr) := by
  have hne : ∀ b ∈ s, decide (b ≠ slash) = true := fun b hb =>
    decide_eq_true fun heq => h (heq ▸ hb)
  rw [splitPrefix, List.takeWhile_append_of_pos hne, List.dropWhile_append_of_pos hne,
    List.takeWhile_cons_of_neg (by simp), List.dropWhile_cons_of_neg (by simp), List.append_nil]

theorem splitPrefix_cases (s : List UInt8) : splitPrefix s = (s, none) ∨
    ∃ buf pr, s = buf ++ slash :: pr ∧ splitPrefix s = (buf, some pr) := by
  by_cases h : slash ∈ s
  · obtain ⟨buf, pr, rfl, hbuf⟩ := List.eq_append_cons_of_mem h
    exact .inr ⟨buf, pr, rfl, splitPrefix_some hbuf pr⟩
  · exact .inl (splitPrefix_none h)

/-! ## Bytes of a text -/

theorem mem_intercalate {sep b : UInt8} {l : List (List UInt8)} (h : b ∈ [sep].intercalate l) :
    b = sep ∨ ∃ t ∈ l, b ∈ t := by
  induction l with
  | nil => cases h
  | cons t l ih =>
    cases l with
    | nil =>
      rw [List.intercalate_singleton] at h
      exact .inr ⟨t, List.mem_cons_self, h⟩
    | cons u l =>
      rw [List.intercalate_cons_cons, List.append_assoc] at h
      rcases List.mem_append.1 h with h | h
      · exact .inr ⟨t, List.mem_cons_self, h⟩
      · rcases List.mem_cons.1 h with h | h
        · exact .inl h
        · rcases ih h with h | ⟨v, hv, h⟩
          · exact .inl h
          · exact .inr ⟨v, List.mem_cons_of_mem _ hv, h⟩

theorem mem_join {sep b : UInt8} {base m : ℕ} (hb : base ≤ 36) {ws : List Numeral}
    (hws : ∀ w ∈ ws, w.Within base m) (h : b ∈ [sep].intercalate (ws.map Numeral.text)) :
    b = sep ∨ b ≠ dot ∧ b ≠ slash := by
  rcases mem_intercalate h with h | ⟨t, ht, hbt⟩
  · exact .inl h
  · obtain ⟨w, hw, rfl⟩ := List.mem_map.1 ht
    obtain ⟨hdot, hslash, -⟩ := not_separator hb (hws w hw).toOk hbt
    exact .inr ⟨hdot, hslash⟩

theorem mem_groups {g : Groups} (hg : g.Ok) {b : UInt8} (h : b ∈ g.text) : b ≠ dot ∧ b ≠ slash := by
  have hsep : ∀ c : UInt8, c = colon → c ≠ dot ∧ c ≠ slash := by
    rintro c rfl
    decide
  rcases List.mem_append.1 h with h | h
  · rcases mem_join (by decide) hg.numerals h with h | h
    · exact hsep b h
    · exact h
  · apply hsep
    split_ifs at h
    · exact List.mem_singleton.1 h
    · cases h

theorem mem_v6 {head : Groups} {tail : Option Groups} (h : (Body.v6 head tail).Ok) {b : UInt8}
    (hb : b ∈ (Body.v6 head tail).text) : b ≠ dot ∧ b ≠ slash := by
  obtain - | ⟨hhead, htail, -, -⟩ := h
  rcases List.mem_append.1 hb with hb | hb
  · exact mem_groups hhead hb
  · cases tail with
    | none => cases hb
    | some t =>
      simp only [gapText, List.mem_cons] at hb
      rcases hb with rfl | rfl | hb
      · decide
      · decide
      · exact mem_groups (htail t rfl) hb

theorem slash_not_mem {body : Body} (h : body.Ok) : slash ∉ body.text := by
  intro hmem
  cases body with
  | v4 ws =>
    obtain ⟨-, hws⟩ := h
    rcases mem_join (by decide) hws hmem with h | ⟨-, h⟩
    · exact absurd h (by decide)
    · exact h rfl
  | v6 head tail => exact (mem_v6 h hmem).2 rfl

theorem dot_mem {ws : List Numeral} (h : ws.length = 4) : dot ∈ (Body.v4 ws).text := by
  rcases ws with _ | ⟨w, _ | ⟨v, ws⟩⟩
  · cases h
  · cases h
  · simp [Body.text, List.intercalate_cons_cons]

/-! ## What is accepted -/

theorem parseAddr_iff {buf : List UInt8} {n : Option ℕ} {a : IpAddr} (hn : ∀ k ∈ n, k ≤ 128) :
    parseAddr buf n = some a ↔ ∃ body : Body, body.Ok ∧ body.text = buf ∧
      (∀ k ∈ n, k ≤ body.proto.bits) ∧
      a = new body.proto (n.getD body.proto.bits) (some (-1)) body.data := by
  constructor
  · intro h
    unfold parseAddr at h
    split at h
    next bytes hb =>
      obtain ⟨ws, hlen, hws, htext, rfl⟩ := parsev4_iff.1 hb
      refine ⟨.v4 ws, .v4 hlen hws, htext, ?_⟩
      cases n with
      | none => exact ⟨(fun _ hk => by cases hk), (Option.some.inj h).symm⟩
      | some k =>
        simp only at h
        split_ifs at h with hle
        refine ⟨fun j hj => ?_, (Option.some.inj h).symm⟩
        obtain rfl := Option.some.inj hj
        exact Nat.le_of_not_lt hle
    next =>
      obtain ⟨data, hd, rfl⟩ := Option.map_eq_some_iff.1 h
      obtain ⟨head, tail, hok, htext, rfl⟩ := parsev6_iff.1 hd
      exact ⟨.v6 head tail, hok, htext, hn, rfl⟩
  · rintro ⟨body, hok, rfl, hle, rfl⟩
    unfold parseAddr
    cases body with
    | v4 ws =>
      obtain ⟨hlen, hws⟩ := hok
      rw [show parsev4 (Body.v4 ws).text = some (ws.map byteOf) from
        parsev4_iff.2 ⟨ws, hlen, hws, rfl, rfl⟩]
      cases n with
      | none => rfl
      | some k =>
        have hk : k ≤ 32 := hle k rfl
        simp only
        rw [if_neg (Nat.not_lt.2 hk)]
        rfl
    | v6 head tail =>
      have hnone : parsev4 (Body.v6 head tail).text = none := by
        cases hv4 : parsev4 (Body.v6 head tail).text with
        | none => rfl
        | some bytes =>
          obtain ⟨ws, hlen, -, htext, -⟩ := parsev4_iff.1 hv4
          have hdot : dot ∈ (Body.v4 ws).text := dot_mem hlen
          rw [show (Body.v4 ws).text = (Body.v6 head tail).text from htext] at hdot
          exact absurd rfl (mem_v6 hok hdot).1
      rw [hnone]
      exact Option.map_eq_some_iff.2 ⟨_, parsev6_iff.2 ⟨head, tail, hok, rfl, rfl⟩, rfl⟩

/-- The strings that are accepted, and what is stored. -/
theorem create_iff {s : List UInt8} {a : IpAddr} : create s = some a ↔
    (2 ≤ s.length ∧ s.length ≤ 43) ∧ ∃ sp : Spelling, sp.Ok ∧ sp.text = s ∧
      a = new sp.body.proto sp.prefixlen (some (-1)) sp.body.data := by
  have hbits : ∀ proto : Proto, proto.bits ≤ 128 := fun proto => by cases proto <;> decide
  unfold create
  by_cases hlen : s.length < 2 ∨ s.length > 43
  · rw [if_pos hlen]
    exact ⟨fun h => (by cases h), fun h => absurd h.1 (by omega)⟩
  rw [if_neg hlen]
  have hlen' : 2 ≤ s.length ∧ s.length ≤ 43 := by omega
  constructor
  · intro h
    refine ⟨hlen', ?_⟩
    rcases splitPrefix_cases s with hs | ⟨buf, pr, hspr, hs⟩
    · rw [hs] at h
      obtain ⟨body, hok, htext, -, rfl⟩ := (parseAddr_iff fun _ hk => by cases hk).1 h
      refine ⟨⟨body, none⟩, ⟨hok, fun _ hw => by cases hw⟩, ?_, rfl⟩
      rw [Spelling.text, Option.elim_none, List.append_nil]
      exact htext
    · rw [hs] at h
      obtain ⟨n, hn, ha⟩ := Option.bind_eq_some_iff.1 h
      obtain ⟨w, hw, rfl, rfl⟩ := parsePrefix_iff.1 hn
      have h0 := hw.nonneg
      have hle := hw.le
      obtain ⟨body, hok, rfl, hbody, rfl⟩ := (parseAddr_iff (by
        intro k hk
        obtain rfl := Option.some.inj hk
        omega)).1 ha
      refine ⟨⟨body, some w⟩, ⟨hok, ?_⟩, hspr.symm, rfl⟩
      intro v hv
      obtain rfl := Option.some.inj hv
      have hbits := hbody _ rfl
      exact ⟨hw.toOk, h0, show w.value 10 ≤ body.proto.bits by omega⟩
  · rintro ⟨-, ⟨body, len⟩, hsp, rfl, rfl⟩
    have hbody : body.Ok := hsp.body
    cases len with
    | none =>
      rw [Spelling.text, Option.elim_none, List.append_nil, splitPrefix_none (slash_not_mem hbody)]
      exact (parseAddr_iff fun _ hk => by cases hk).2
        ⟨body, hbody, rfl, (fun _ hk => by cases hk), rfl⟩
    | some w =>
      have hw := hsp.len w rfl
      have h0 := hw.nonneg
      have hle : w.value 10 ≤ body.proto.bits := hw.le
      have h128 := hbits body.proto
      rw [Spelling.text, Option.elim_some, splitPrefix_some (slash_not_mem hbody)]
      have hpr : parsePrefix w.text = some (w.value 10).toNat :=
        parsePrefix_iff.2 ⟨w, ⟨hw.toOk, h0, by omega⟩, rfl, rfl⟩
      simp only [hpr, Option.bind_some]
      have hk : ∀ k ∈ some (w.value 10).toNat, k ≤ body.proto.bits := by
        intro k hk
        obtain rfl := Option.some.inj hk
        omega
      exact (parseAddr_iff fun k hk' => (hk k hk').trans h128).2 ⟨body, hbody, rfl, hk, rfl⟩

/-! ## A text has one spelling -/

theorem numbers_inj {n : ℕ} {ws ws' : List Numeral} (hlen : ws.length = n) (hlen' : ws'.length = n)
    (hws : ∀ w ∈ ws, w.Within 10 255) (hws' : ∀ w ∈ ws', w.Within 10 255)
    (h : [dot].intercalate (ws.map Numeral.text) = [dot].intercalate (ws'.map Numeral.text)) :
    ws = ws' := by
  induction ws generalizing n ws' with
  | nil => exact (List.length_eq_zero_iff.1 (hlen'.trans hlen.symm)).symm
  | cons w ws ih =>
    cases ws' with
    | nil => exact absurd (hlen.trans hlen'.symm) (by simp)
    | cons w' ws' =>
      have hw := (hws w List.mem_cons_self).toOk
      have hw' := (hws' w' List.mem_cons_self).toOk
      have hl : ws.length = ws'.length := by simpa using hlen.trans hlen'.symm
      have hcons : ∀ (u : Numeral) (us : List Numeral),
          [dot].intercalate ((u :: us).map Numeral.text) = u.text ++
            if us = [] then [] else dot :: [dot].intercalate (us.map Numeral.text) := by
        intro u us
        cases us with
        | nil => simp
        | cons v us => simp [List.intercalate_cons_cons]
      have hstops : ∀ us : List Numeral, Stops 10
          (if us = [] then [] else dot :: [dot].intercalate (us.map Numeral.text)) := by
        intro us
        apply stops_of_dot
        split_ifs
        · exact .inl rfl
        · exact .inr rfl
      rw [hcons, hcons] at h
      obtain ⟨rfl, hr⟩ := Lib.Strtol.text_inj (by decide) hw hw' (hstops ws) (hstops ws') h
      congr 1
      by_cases hnil : ws = []
      · rw [hnil] at hl
        rw [hnil]
        exact (List.length_eq_zero_iff.1 hl.symm).symm
      · have hnil' : ws' ≠ [] := fun h' => hnil (List.length_eq_zero_iff.1 (by rw [hl, h']; rfl))
        rw [if_neg hnil, if_neg hnil'] at hr
        exact ih hl rfl (fun u hu => hws u (List.mem_cons_of_mem _ hu))
          (fun u hu => hws' u (List.mem_cons_of_mem _ hu)) (List.cons.inj hr).2

/-- What stands behind the last group is not what stands behind one that is not the last. -/
theorem last_ne {c : Bool} {b : UInt8} {r t : List UInt8} (hr : Ends r) (hc : c = true → r = [])
    (hb : b ≠ colon) : (if c then [colon] else []) ++ r ≠ colon :: b :: t := by
  intro h
  cases c with
  | true =>
    obtain rfl := hc rfl
    cases h
  | false =>
    rcases hr with rfl | ⟨u, rfl⟩
    · cases h
    · exact hb (List.cons.inj (List.cons.inj h).2).1.symm

theorem Groups.Ok.cons_head {v : Numeral} {ws : List Numeral} {c : Bool}
    (h : (Groups.mk (v :: ws) c).Ok) (r : List UInt8) :
    ∃ b t, (Groups.mk (v :: ws) c).text ++ r = b :: t ∧ b ≠ IpAddr.colon := by
  rcases h.text_head with hnil | ⟨b, t, htext, hb⟩
  · cases hnil
  · exact ⟨b, t ++ r, by rw [htext, List.cons_append], hb⟩

theorem groups_inj {g g' : Groups} (hg : g.Ok) (hg' : g'.Ok) {r r' : List UInt8} (hr : Ends r)
    (hr' : Ends r') (hc : g.colon = true → r = []) (hc' : g'.colon = true → r' = [])
    (h : g.text ++ r = g'.text ++ r') : g = g' ∧ r = r' := by
  obtain ⟨ws, c⟩ := g
  obtain ⟨ws', c'⟩ := g'
  simp only at hc hc'
  -- what stands behind the first group
  have hcons : ∀ (u : Numeral) (us : List Numeral) (b : Bool) (z : List UInt8),
      (Groups.mk (u :: us) b).text ++ z = u.text ++
        ((if us = [] then (if b then [colon] else []) else colon :: (Groups.mk us b).text) ++ z) := by
    intro u us b z
    cases us with
    | nil => rw [Groups.text_singleton, if_pos rfl, List.append_assoc]
    | cons v us =>
      rw [Groups.text_cons_cons, if_neg (List.cons_ne_nil v us), List.append_assoc]
  have hbehind : ∀ (us : List Numeral) (b : Bool) (z : List UInt8), Ends z →
      Stops 16 ((if us = [] then (if b then [colon] else []) else colon :: (Groups.mk us b).text) ++ z) := by
    intro us b z hz
    apply stops_of_colon
    split_ifs
    · exact .inr rfl
    · exact hz.head
    · exact .inr rfl
  induction ws generalizing ws' with
  | nil =>
    have hfalse : c = false := Bool.eq_false_iff.2 fun h' => hg.ne_nil h' rfl
    cases ws' with
    | nil =>
      have hfalse' : c' = false := Bool.eq_false_iff.2 fun h' => hg'.ne_nil h' rfl
      rw [hfalse, hfalse'] at h ⊢
      exact ⟨rfl, h⟩
    | cons v ws' =>
      obtain ⟨b, t, hbt, hb⟩ := hg'.cons_head r'
      rw [hfalse, Groups.text_nil, hbt] at h
      rcases hr with rfl | ⟨u, rfl⟩
      · cases h
      · exact absurd (List.cons.inj h).1.symm hb
  | cons w ws ih =>
    cases ws' with
    | nil =>
      have hfalse' : c' = false := Bool.eq_false_iff.2 fun h' => hg'.ne_nil h' rfl
      obtain ⟨b, t, hbt, hb⟩ := hg.cons_head r
      rw [hfalse', Groups.text_nil, hbt] at h
      rcases hr' with rfl | ⟨u, rfl⟩
      · cases h
      · exact absurd (List.cons.inj h).1 hb
    | cons w' ws' =>
      have hw := (hg.numerals w List.mem_cons_self).toOk
      have hw' := (hg'.numerals w' List.mem_cons_self).toOk
      rw [hcons, hcons] at h
      obtain ⟨rfl, hrest⟩ := Lib.Strtol.text_inj (by decide) hw hw' (hbehind ws c r hr)
        (hbehind ws' c' r' hr') h
      cases ws with
      | nil =>
        cases ws' with
        | nil =>
          rw [if_pos rfl, if_pos rfl] at hrest
          cases c with
          | true =>
            cases c' with
            | true => exact ⟨rfl, (List.cons.inj hrest).2⟩
            | false =>
              obtain rfl := hc rfl
              rcases hr' with rfl | ⟨u, rfl⟩ <;> cases hrest
          | false =>
            cases c' with
            | true =>
              obtain rfl := hc' rfl
              rcases hr with rfl | ⟨u, rfl⟩ <;> cases hrest
            | false => exact ⟨rfl, hrest⟩
        | cons v' ws' =>
          obtain ⟨b, t, hbt, hb⟩ := hg'.tail.cons_head r'
          rw [if_pos rfl, if_neg (List.cons_ne_nil v' ws'), List.cons_append, hbt] at hrest
          exact absurd hrest (last_ne hr hc hb)
      | cons v ws =>
        cases ws' with
        | nil =>
          obtain ⟨b, t, hbt, hb⟩ := hg.tail.cons_head r
          rw [if_pos rfl, if_neg (List.cons_ne_nil v ws), List.cons_append, hbt] at hrest
          exact absurd hrest.symm (last_ne hr' hc' hb)
        | cons v' ws' =>
          rw [if_neg (List.cons_ne_nil v ws), if_neg (List.cons_ne_nil v' ws'), List.cons_append,
            List.cons_append] at hrest
          obtain ⟨heq, hz⟩ := ih hg.tail (v' :: ws') hg'.tail (List.cons.inj hrest).2
          obtain ⟨hl, hb⟩ := Groups.mk.inj heq
          exact ⟨by rw [hl, hb], hz⟩

theorem body_inj {body body' : Body} (h : body.Ok) (h' : body'.Ok) (htext : body.text = body'.text) :
    body = body' := by
  cases body with
  | v4 ws =>
    cases body' with
    | v4 ws' =>
      obtain ⟨hlen, hws⟩ := h
      obtain ⟨hlen', hws'⟩ := h'
      rw [numbers_inj hlen hlen' hws hws' htext]
    | v6 head' tail' =>
      obtain ⟨hlen, -⟩ := h
      have hdot := dot_mem hlen
      rw [htext] at hdot
      exact absurd rfl (mem_v6 h' hdot).1
  | v6 head tail =>
    cases body' with
    | v4 ws' =>
      obtain ⟨hlen, -⟩ := h'
      have hdot := dot_mem hlen
      rw [← htext] at hdot
      exact absurd rfl (mem_v6 h hdot).1
    | v6 head' tail' =>
      have hends : ∀ t : Option Groups, Ends (gapText t) := by
        intro t
        cases t with
        | none => exact .inl rfl
        | some t => exact .inr ⟨t.text, rfl⟩
      have hcolon : ∀ {hd : Groups} {t : Option Groups}, (t ≠ none → hd.colon = false) →
          hd.colon = true → gapText t = [] := by
        intro hd t hno hyes
        cases t with
        | none => rfl
        | some t => rw [hno (by simp)] at hyes; cases hyes
      obtain - | ⟨hhead, htail, hc, -⟩ := h
      obtain - | ⟨hhead', htail', hc', -⟩ := h'
      obtain ⟨rfl, hgap⟩ :=
        groups_inj hhead hhead' (hends tail) (hends tail') (hcolon hc) (hcolon hc') htext
      cases tail with
      | none =>
        cases tail' with
        | none => rfl
        | some t' => cases hgap
      | some t =>
        cases tail' with
        | none => cases hgap
        | some t' =>
          have ht : t.text ++ [] = t'.text ++ [] := by
            rw [List.append_nil, List.append_nil]
            exact (List.cons.inj (List.cons.inj hgap).2).2
          obtain ⟨rfl, -⟩ := groups_inj (htail t rfl) (htail' t' rfl) (.inl rfl) (.inl rfl)
            (fun _ => rfl) (fun _ => rfl) ht
          rfl

/-- A text has only one spelling. -/
theorem spelling_inj {sp sp' : Spelling} (h : sp.Ok) (h' : sp'.Ok) (htext : sp.text = sp'.text) :
    sp = sp' := by
  have hsplit : ∀ q : Spelling, q.Ok → splitPrefix q.text = (q.body.text, q.len.map Numeral.text) := by
    intro q hq
    obtain ⟨body, len⟩ := q
    have hslash : slash ∉ body.text := slash_not_mem hq.body
    cases len with
    | none =>
      rw [Spelling.text, Option.elim_none, List.append_nil]
      exact splitPrefix_none hslash
    | some w => exact splitPrefix_some hslash w.text
  obtain ⟨hbody, hlen⟩ := Prod.mk.inj ((hsplit sp h).symm.trans (htext ▸ hsplit sp' h'))
  obtain ⟨body, len⟩ := sp
  obtain ⟨body', len'⟩ := sp'
  obtain rfl := body_inj h.body h'.body hbody
  congr 1
  cases len with
  | none =>
    cases len' with
    | none => rfl
    | some w' => cases hlen
  | some w =>
    cases len' with
    | none => cases hlen
    | some w' =>
      have hw : w.text ++ [] = w'.text ++ [] := by
        rw [List.append_nil, List.append_nil]
        exact Option.some.inj hlen
      obtain ⟨rfl, -⟩ := Lib.Strtol.text_inj (by decide) (h.len w rfl).toOk (h'.len w' rfl).toOk
        (stops_of_dot (.inl rfl)) (stops_of_dot (.inl rfl)) hw
      rfl

end PoserCore.IpAddr
