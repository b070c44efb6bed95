import PoserCore.Json.Cursor
import PoserCore.Json.Deserialize

/-!
# The deserializer stays in its buffer

On the buffer the functions of the deserializer do what they do on lists, and they never fault: no
read goes behind the terminating NUL and `bufpos` never gets behind `bufsz` (`deserialize_bounded`).
The induction goes with the rest of the text, which every value makes shorter.
-/

namespace PoserCore.Json.Cursor

open Lib.Strtol (isspace)

variable {F : Type} {s : List UInt8} {pos : ℕ} {rest : List UInt8}

/-! ## Positions -/

/-- `rest` is what follows the position. -/
structure At (s : List UInt8) (pos : ℕ) (rest : List UInt8) : Prop where
  le : pos ≤ s.length
  drop : s.drop pos = rest

theorem At.length (h : At s pos rest) : pos + rest.length = s.length := by
  rw [← h.drop, List.length_drop]
  have := h.le
  omega

theorem At.lt {pos' : ℕ} {rest' : List UInt8} (h : At s pos rest) (h' : At s pos' rest')
    (hlt : rest'.length < rest.length) : pos < pos' := by
  have := h.length
  have := h'.length
  omega

theorem At.skip {pre : List UInt8} (h : At s pos (pre ++ rest)) : At s (pos + pre.length) rest := by
  have hlen := h.length
  rw [List.length_append] at hlen
  refine ⟨by omega, ?_⟩
  rw [← List.drop_drop, h.drop, List.drop_left]

theorem At.tail {b : UInt8} (h : At s pos (b :: rest)) : At s (pos + 1) rest :=
  @At.skip s pos rest [b] h

theorem At.rdbuf (h : At s pos rest) : rdbuf s pos = pure (rest.headD 0) := by
  rw [Cursor.rdbuf, if_pos h.le, ← h.drop]
  simp [List.headD_eq_head?_getD, List.head?_drop]

theorem At.rdbuf_cons {b : UInt8} (h : At s pos (b :: rest)) : Cursor.rdbuf s pos = pure b := h.rdbuf

theorem At.moveTo (h : At s pos rest) : moveTo s pos = pure pos := if_pos h.le

theorem At.no_nul (h : At s pos rest) (h0 : 0 ∉ s) : 0 ∉ rest :=
  fun hm => h0 (List.mem_of_mem_drop (h.drop ▸ hm))

theorem At.of_eq {rest' : List UInt8} (h : At s pos rest) (heq : rest' = rest) : At s pos rest' :=
  heq ▸ h

/-- The position behind some bytes. -/
theorem At.eq_add {pos' : ℕ} {pre : List UInt8} (h : At s pos (pre ++ rest)) (h' : At s pos' rest) :
    pos' = pos + pre.length := by
  have hlen := h.length
  have hlen' := h'.length
  rw [List.length_append] at hlen
  omega

theorem At.between {pos' : ℕ} {pre : List UInt8} (h : At s pos (pre ++ rest))
    (h' : At s pos' rest) :
    between s pos pos' = pre := by
  rw [Cursor.between, h.eq_add h', h.drop, Nat.add_sub_cancel_left, List.take_left]

theorem At.eq_iff {pos' : ℕ} {pre : List UInt8} (h : At s pos (pre ++ rest)) (h' : At s pos' rest) :
    pos = pos' ↔ pre = [] := by
  rw [h.eq_add h', ← List.length_eq_zero_iff]
  omega

theorem skipWs_at (h : At s pos rest) {n : ℕ} (hn : rest.length < n) :
    ∃ pos', skipWs s n pos = pure pos' ∧ At s pos' (Json.skipWs rest) := by
  induction n generalizing pos rest with
  | zero => exact absurd hn (Nat.not_lt_zero _)
  | succ n ih =>
    rw [skipWs]
    cases rest with
    | nil =>
      have hend : ¬ pos < s.length := by
        have := h.length
        rw [List.length_nil] at this
        omega
      rw [if_neg hend]
      exact ⟨pos, rfl, h⟩
    | cons b rest =>
      have hlen := h.length
      rw [List.length_cons] at hlen hn
      rw [if_pos (by omega), h.rdbuf_cons, pure_bind]
      by_cases hb : isWs b = true
      · have hskip : Json.skipWs (b :: rest) = Json.skipWs rest := by simp [Json.skipWs, hb]
        rw [if_pos hb, h.tail.moveTo, pure_bind, hskip]
        exact ih h.tail (by omega)
      · have hskip : Json.skipWs (b :: rest) = b :: rest := by simp [Json.skipWs, hb]
        rw [if_neg hb, hskip]
        exact ⟨pos, rfl, h⟩

/-- The function on the buffer returns what the one on lists returns. -/
def Agrees {α β : Type} (R : α → β → Prop) (m : Scan (Option α)) (o : Option β) : Prop :=
  ∃ x, m = pure x ∧ Option.Rel R x o

theorem agrees_none {α β : Type} {R : α → β → Prop} : Agrees R (pure none) none :=
  ⟨none, rfl, .none⟩

theorem agrees_some {α β : Type} {R : α → β → Prop} {a : α} {b : β} (h : R a b) :
    Agrees R (pure (some a)) (some b) :=
  ⟨some a, rfl, .some h⟩

theorem Agrees.mono {α β : Type} {R R' : α → β → Prop} {m : Scan (Option α)} {o : Option β}
    (h : Agrees R m o) (hR : ∀ a b, R a b → R' a b) : Agrees R' m o := by
  obtain ⟨x, rfl, hrel⟩ := h
  cases hrel with
  | none => exact agrees_none
  | some hr => exact agrees_some (hR _ _ hr)

theorem Agrees.cases {α β : Type} {R : α → β → Prop} {m : Scan (Option α)} {o : Option β}
    (h : Agrees R m o) :
    (m = pure none ∧ o = none) ∨ ∃ a b, m = pure (some a) ∧ o = some b ∧ R a b := by
  obtain ⟨x, rfl, hrel⟩ := h
  cases hrel with
  | none => exact .inl ⟨rfl, rfl⟩
  | some hr => exact .inr ⟨_, _, rfl, rfl, hr⟩

/-! ## Strings -/

theorem parseHex_at (h0 : 0 ∉ s) {n m : ℕ} (h : At s pos rest) :
    Agrees (fun x y => x = y.1 ∧ At s (pos + n) y.2) (parseHex s n m pos)
      (Json.parseHex n m rest) := by
  induction n generalizing m pos rest with
  | zero => exact agrees_some ⟨rfl, h⟩
  | succ n ih =>
    rw [parseHex, h.rdbuf, pure_bind]
    cases rest with
    | nil => exact agrees_none
    | cons b rest =>
      have hb : b ≠ 0 := fun hb => h.no_nul h0 (hb ▸ List.mem_cons_self)
      rw [List.headD_cons, if_neg hb, Json.parseHex]
      cases nibble b with
      | none => exact agrees_none
      | some d =>
        have hpos : pos + (n + 1) = pos + 1 + n := by omega
        rw [hpos]
        exact ih h.tail

theorem parseUnichr_at (h0 : 0 ∉ s) {buf parsepos : ℕ} (h : At s (buf + (parsepos + 1)) rest) :
    Agrees (fun x y => x.1 = y.1 ∧ At s (buf + x.2) y.2 ∧ parsepos < x.2)
      (parseUnichr s buf parsepos) (Json.parseUnichr rest) := by
  rw [parseUnichr, Json.parseUnichr]
  rcases (@parseHex_at s _ rest h0 4 0 h).cases with
    ⟨hc, hl⟩ | ⟨unichr, ⟨_, rest1⟩, hc, hl, rfl, h1⟩
  · rw [hc, hl]
    exact agrees_none
  have h1 : At s (buf + (parsepos + 5)) rest1 := h1
  rw [hc, hl, pure_bind]
  dsimp only
  rw [h1.rdbuf, pure_bind]
  by_cases hb : rest1.head? = some backslash
  · obtain ⟨rest2, rfl⟩ : ∃ rest2, rest1 = backslash :: rest2 := ⟨_, eq_cons_tail hb⟩
    have h2 : At s (buf + (parsepos + 5 + 1)) rest2 := h1.tail
    rw [List.headD_cons, if_pos rfl, h2.rdbuf, pure_bind]
    by_cases hu : rest2.head? = some lowerU ∧ isHighSurrogate unichr = true
    · obtain ⟨rest3, rfl⟩ : ∃ rest3, rest2 = lowerU :: rest3 := ⟨_, eq_cons_tail hu.1⟩
      have h3 : At s (buf + (parsepos + 5 + 2)) rest3 := h2.tail
      rw [if_pos ⟨rfl, hu.2⟩, if_pos ⟨rfl, rfl, hu.2⟩]
      have hdrop : (backslash :: lowerU :: rest3).drop 2 = rest3 := rfl
      rw [hdrop]
      rcases (@parseHex_at s _ rest3 h0 4 0 h3).cases with
        ⟨hc, hl⟩ | ⟨bmpchr, ⟨_, rest4⟩, hc, hl, rfl, h4⟩
      · rw [hc, hl]
        exact agrees_none
      · have h4 : At s (buf + (parsepos + 5 + 2 + 4)) rest4 := h4
        rw [hc, hl, pure_bind]
        dsimp only
        split_ifs
        · exact agrees_some ⟨rfl, h4, by omega⟩
        · exact agrees_none
    · have hne : ¬ (rest2.headD 0 = lowerU ∧ isHighSurrogate unichr = true) := by
        cases rest2 with
        | nil => exact fun h => absurd h.1 (by decide)
        | cons b t => simpa using hu
      rw [if_neg hne, if_neg fun h => hu ⟨h.2.1, h.2.2⟩]
      exact agrees_some ⟨rfl, h1, by omega⟩
  · have hne : rest1.headD 0 ≠ backslash := by
      cases rest1 with
      | nil => decide
      | cons b t => simpa using hb
    rw [if_neg hne, if_neg fun h => hb h.1]
    exact agrees_some ⟨rfl, h1, by omega⟩

/-- The loop goes on behind `parsepos`. -/
theorem parseChars_at (h0 : 0 ∉ s) {buf : ℕ} : ∀ {m n parsepos : ℕ} {parsed rest : List UInt8},
    At s (buf + parsepos) rest → rest.length < m → rest.length < n →
    Agrees (fun x y => x.1 = y.1 ∧ At s (buf + x.2) y.2 ∧ parsepos < x.2)
      (parseChars s buf n parsed parsepos) (Json.parseChars m parsed rest)
  | 0, _, _, _, _, _, hm, _ => absurd hm (Nat.not_lt_zero _)
  | _, 0, _, _, _, _, _, hn => absurd hn (Nat.not_lt_zero _)
  | m + 1, n + 1, parsepos, parsed, rest, h, hm, hn => by
      have hlen := h.length
      -- a later position, with less text behind it
      have later {pos' : ℕ} {parsed' rest' : List UInt8} (hpos : parsepos < pos')
          (h' : At s (buf + pos') rest') :
          Agrees (fun x y => x.1 = y.1 ∧ At s (buf + x.2) y.2 ∧ parsepos < x.2)
            (parseChars s buf n parsed' pos') (Json.parseChars m parsed' rest') := by
        have hlen' := h'.length
        exact (parseChars_at h0 h' (by omega) (by omega)).mono fun x y hxy =>
          ⟨hxy.1, hxy.2.1, hpos.trans hxy.2.2⟩
      rw [parseChars]
      cases rest with
      | nil =>
        rw [List.length_nil] at hlen
        rw [if_neg (by omega)]
        exact agrees_none
      | cons b rest =>
        rw [List.length_cons] at hlen
        rw [if_pos (by omega), h.rdbuf_cons, pure_bind, Json.parseChars.eq_def]
        dsimp only
        have h1 : At s (buf + (parsepos + 1)) rest := h.tail
        split_ifs with hq hb
        · exact agrees_some ⟨rfl, h1, Nat.lt_succ_self _⟩
        · rw [h1.rdbuf, pure_bind]
          cases rest with
          | nil => exact agrees_none
          | cons e rest =>
            have h2 : At s (buf + (parsepos + 1 + 1)) rest := h1.tail
            rw [List.headD_cons]
            dsimp only
            cases escape e with
            | some c => exact later (by omega) h2
            | none =>
              dsimp only
              split_ifs with hu
              · rcases (parseUnichr_at h0 h2).cases with
                  ⟨hc, hl⟩ | ⟨⟨_, parsepos'⟩, ⟨unichr, rest'⟩, hc, hl, rfl, h3, hlt⟩
                · rw [hc, hl]
                  exact agrees_none
                · rw [hc, hl]
                  exact later (by dsimp only at hlt; omega) h3
              · exact agrees_none
        · exact later (Nat.lt_succ_self _) h1

theorem parsePlainString_at (h0 : 0 ∉ s) (h : At s pos rest) :
    Agrees (fun x y => x.1 = y.1 ++ [0] ∧ x.2.1 = y.1.length ∧ At s x.2.2 y.2 ∧ pos < x.2.2)
      (parsePlainString s pos) (Json.parsePlainString rest) := by
  rw [parsePlainString, Json.parsePlainString]
  cases rest with
  | nil =>
    have hlen := h.length
    rw [List.length_nil] at hlen
    rw [parseChars, if_neg (by omega)]
    exact agrees_none
  | cons b rest =>
    have hlen := h.length
    rw [List.length_cons] at hlen
    rcases (@parseChars_at s h0 pos (b :: rest).length (s.length - pos + 1) 1 [] rest h.tail
      (Nat.lt_succ_self _) (by omega)).cases with
      ⟨hc, hl⟩ | ⟨⟨_, parsepos⟩, ⟨parsed, rest'⟩, hc, hl, rfl, h1, hlt⟩
    · rw [hc, List.tail_cons, hl]
      exact agrees_none
    · have h1 : At s (pos + parsepos) rest' := h1
      have hlt : 1 < parsepos := hlt
      rw [hc, List.tail_cons, hl, pure_bind]
      dsimp only
      rw [h1.moveTo, pure_bind]
      exact agrees_some ⟨rfl, rfl, h1, by dsimp only; omega⟩

/-! ## Numbers -/

theorem scanWhile_at {p : UInt8 → Bool} (hp : p 0 = false) (h : At s pos rest) {n : ℕ}
    (hn : rest.length < n) :
    ∃ pos', scanWhile p s n pos = pure pos' ∧ At s pos' (rest.dropWhile p) := by
  induction n generalizing pos rest with
  | zero => exact absurd hn (Nat.not_lt_zero _)
  | succ n ih =>
    rw [scanWhile, h.rdbuf, pure_bind]
    cases rest with
    | nil =>
      rw [List.headD_nil, hp, if_neg Bool.false_ne_true]
      exact ⟨pos, rfl, h⟩
    | cons b rest =>
      rw [List.length_cons] at hn
      rw [List.headD_cons, List.dropWhile_cons]
      split_ifs with hb
      · exact ih h.tail (by omega)
      · exact ⟨pos, rfl, h⟩

/-- The loops of the functions on numbers get as far as they need. -/
theorem scan_at {p : UInt8 → Bool} (hp : p 0 = false) (h : At s pos rest) :
    ∃ pos', scanWhile p s (s.length - pos + 1) pos = pure pos' ∧ At s pos' (rest.dropWhile p) := by
  have hlen := h.length
  exact scanWhile_at hp h (by omega)

theorem scanSign_at (h : At s pos rest) :
    ∃ pos', scanSign s pos = pure ((Lib.Strtol.scanSign rest).1, pos') ∧ At s pos' (Lib.Strtol.scanSign rest).2 := by
  rw [scanSign, h.rdbuf, pure_bind]
  cases rest with
  | nil =>
    rw [List.headD_nil, if_neg (by decide)]
    exact ⟨pos, rfl, h⟩
  | cons b rest =>
    rw [List.headD_cons, Lib.Strtol.scanSign]
    split_ifs with hb
    · exact ⟨pos + 1, rfl, h.tail⟩
    · exact ⟨pos, rfl, h⟩

theorem scanFraction_at (h : At s pos rest) :
    ∃ pos', scanFraction s pos = pure pos' ∧ At s pos' (spanFraction rest).2 := by
  rw [scanFraction, h.rdbuf, pure_bind]
  cases rest with
  | nil =>
    rw [List.headD_nil, if_neg (by decide)]
    exact ⟨pos, rfl, h⟩
  | cons b rest =>
    rw [List.headD_cons, spanFraction]
    split_ifs with hb
    · exact scan_at rfl h.tail
    · exact ⟨pos, rfl, h⟩

theorem scanExponent_at (h : At s pos rest) :
    ∃ pos', scanExponent s pos = pure pos' ∧ At s pos' (spanExponent rest).2 := by
  rw [scanExponent, h.rdbuf, pure_bind]
  cases rest with
  | nil =>
    rw [List.headD_nil, if_neg (by decide)]
    exact ⟨pos, rfl, h⟩
  | cons b rest =>
    rw [List.headD_cons, spanExponent]
    split_ifs with hb
    · obtain ⟨i, hi, hati⟩ := scanSign_at h.tail
      obtain ⟨j, hj, hatj⟩ := scan_at (p := isDigit) rfl hati
      rw [hi, pure_bind]
      dsimp only
      rw [hj, pure_bind]
      have hij := (hati.of_eq (spanDigits_eq _)).eq_iff hatj
      split_ifs with heq hds hds
      · exact ⟨pos, rfl, h⟩
      · exact absurd (hij.1 heq) hds
      · exact absurd (hij.2 hds) heq
      · exact ⟨j, rfl, hatj⟩
    · exact ⟨pos, rfl, h⟩

theorem strtoll_at (h : At s pos rest) :
    ∃ endp, strtoll s pos = pure ((Json.strtoll rest).1, endp) ∧ At s endp (Json.strtoll rest).2 := by
  obtain ⟨start, hstart, hats⟩ := scan_at (p := isspace) rfl h
  obtain ⟨i, hi, hati⟩ := scanSign_at hats
  obtain ⟨j, hj, hatj⟩ := scan_at (p := isDigit) rfl hati
  have hatd := hati.of_eq (spanDigits_eq _)
  have hij := hatd.eq_iff hatj
  have hbetween := hatd.between hatj
  rw [strtoll, strtoll_split, hstart, pure_bind, hi, pure_bind]
  dsimp only
  rw [hj, pure_bind]
  split_ifs with heq hds hds
  · exact ⟨pos, rfl, h⟩
  · exact absurd (hij.1 heq) hds
  · exact absurd (hij.2 hds) heq
  · exact ⟨j, by rw [hbetween], hatj⟩

theorem strtod_at (env : Env F) (h : At s pos rest) :
    Agrees (fun x y => x.1 = y.1 ∧ At s x.2 y.2) (strtod env s pos) (Json.strtod env rest) := by
  obtain ⟨start, hstart, hats⟩ := scan_at (p := isspace) rfl h
  obtain ⟨i, hi, hati⟩ := scanSign_at hats
  obtain ⟨j, hj, hatj⟩ := scan_at (p := isDigit) rfl hati
  obtain ⟨k, hk, hatk⟩ := scanFraction_at hatj
  obtain ⟨endp, hendp, hate⟩ := scanExponent_at hatk
  have hij := (hati.of_eq (spanDigits_eq _)).eq_iff hatj
  -- the parts of the number are all of the text up to its end
  have hfraction (t : List UInt8) : (spanFraction t).1 ++ (spanFraction t).2 = t := by
    rw [spanFraction_eq]
    exact lexFraction_text t
  have hexponent (t : List UInt8) : (spanExponent t).1 ++ (spanExponent t).2 = t := by
    rw [spanExponent_eq]
    exact lexExponent_text t
  have hjk := (hatj.of_eq (hfraction _)).eq_add hatk
  rw [strtod, Json.strtod, hstart, pure_bind, hi, pure_bind]
  dsimp only
  rw [hj, pure_bind, hk, pure_bind, hendp, pure_bind]
  generalize hsign : Lib.Strtol.scanSign (rest.dropWhile isspace) = sign at *
  have hsplit : sign.1.toList ++ sign.2 = rest.dropWhile isspace := hsign ▸ Lib.Strtol.scanSign_eq _
  obtain ⟨sign, t⟩ := sign
  have hnone : i = j ∧ k ≤ j + 1 ↔
      (spanDigits t).1 = [] ∧ (spanFraction (spanDigits t).2).1.length ≤ 1 := by
    rw [hij, hjk, Nat.add_le_add_iff_left]
    rfl
  dsimp only
  split_ifs with hc hl hl
  · exact agrees_none
  · exact absurd (hnone.1 hc) hl
  · exact absurd (hnone.2 hl) hc
  · refine agrees_some ⟨?_, hate⟩
    have hall : (sign.toList ++ (spanDigits t).1 ++ (spanFraction (spanDigits t).2).1 ++
        (spanExponent (spanFraction (spanDigits t).2).2).1) ++
          (spanExponent (spanFraction (spanDigits t).2).2).2 = rest.dropWhile isspace := by
      rw [List.append_assoc, hexponent, List.append_assoc, hfraction, List.append_assoc,
        spanDigits_eq, hsplit]
    rw [(hats.of_eq hall).between hate]

theorem headD_eq_iff {c : UInt8} (hc : c ≠ 0) (l : List UInt8) :
    l.headD 0 = c ↔ l.head? = some c := by
  cases l with
  | nil => simpa using hc.symm
  | cons b l => simp

theorem parseNumber_at (env : Env F) (h : At s pos rest) :
    Agrees (fun x y => x.1 = y.1 ∧ At s x.2 y.2) (parseNumber env s pos)
      (Json.parseNumber env rest) := by
  obtain ⟨endp, hll, hate⟩ := strtoll_at h
  rw [parseNumber, Json.parseNumber, hll, pure_bind]
  dsimp only
  rw [hate.rdbuf, pure_bind]
  generalize hr : (Json.strtoll rest).2 = r at hate ⊢
  have hlong : (r.headD 0 = dot ∨ r.headD 0 = lowerE ∨ r.headD 0 = upperE) ↔
      (r.head? = some dot ∨ r.head? = some lowerE ∨ r.head? = some upperE) :=
    or_congr (headD_eq_iff (by decide) r)
      (or_congr (headD_eq_iff (by decide) r) (headD_eq_iff (by decide) r))
  have hnone : endp = pos ↔ r.length = rest.length := by
    have := h.length
    have := hate.length
    omega
  by_cases hend : r.head? = some dot ∨ r.head? = some lowerE ∨ r.head? = some upperE
  · rw [if_pos (hlong.2 hend), if_pos hend]
    rcases (strtod_at env h).cases with ⟨hc, hl⟩ | ⟨⟨_, endp'⟩, ⟨v, r'⟩, hc, hl, rfl, hat'⟩
    · rw [hc, hl]
      exact agrees_none
    · have hat' : At s endp' r' := hat'
      rw [hc, hl, pure_bind]
      dsimp only
      rw [hat'.moveTo]
      exact agrees_some ⟨rfl, hat'⟩
  · rw [if_neg (mt hlong.1 hend), if_neg hend]
    by_cases heq : r.length = rest.length
    · rw [if_pos (hnone.2 heq), if_pos heq]
      exact agrees_none
    · rw [if_neg (mt hnone.1 heq), if_neg heq, hate.moveTo]
      exact agrees_some ⟨rfl, hate⟩

theorem parseNumber_shorter (env : Env F) {r : List UInt8} {x : Scalar F} (hs : NumberStart rest)
    (h : Json.parseNumber env rest = some (x, r)) : r.length < rest.length := by
  by_cases hint : (lexNumber rest).1.int = []
  · rw [parseNumber_none env hs hint] at h
    cases h
  · obtain ⟨y, hy, -⟩ := parseNumber_some env hs hint
    cases h.symm.trans hy
    have hlen := congrArg List.length (lexNumber_text rest)
    have hpos := List.length_pos_iff.2 hint
    simp only [Number.text, List.length_append] at hlen
    omega

/-! ## Values -/

/-- The results on the buffer and on the list are the same. -/
structure Same (s : List UInt8) (x : Result F) (y : Json.Result F) : Prop where
  ok : x.ok = y.ok
  obj : x.obj = y.obj
  heap : x.st.heap = y.st.heap
  position : At s x.st.bufpos y.st.rest

/-- The parser function on the buffer runs as the one on lists, and what is left is not more than
`bound`, and less if it succeeds. -/
def Runs (s : List UInt8) (bound : ℕ) (m : Scan (Result F)) (o : Option (Json.Result F)) : Prop :=
  ∃ x y, m = pure x ∧ o = some y ∧ Same s x y ∧ y.st.rest.length ≤ bound ∧
    (y.ok = true → y.st.rest.length < bound)

/-- The same for `parse`, which succeeds at the end of the input without any effect. -/
def Tracks (s : List UInt8) (n : ℕ) (parse : Parse F) (parse' : Json.Parse F) : Prop :=
  ∀ st obj rest, At s st.bufpos rest → rest.length < n →
    if Json.skipWs rest = [] then
      parse st obj = pure ⟨true, obj, ⟨s.length, st.heap⟩⟩ ∧
        parse' ⟨rest, st.heap⟩ obj = some ⟨true, obj, ⟨[], st.heap⟩⟩
    else Runs s rest.length (parse st obj) (parse' ⟨rest, st.heap⟩ obj)

theorem Runs.mono {b b' : ℕ} {m : Scan (Result F)} {o : Option (Json.Result F)} (h : Runs s b m o)
    (hb : b ≤ b') : Runs s b' m o := by
  obtain ⟨x, y, hm, ho, hsame, hle, hlt⟩ := h
  exact ⟨x, y, hm, ho, hsame, hle.trans hb, fun hok => (hlt hok).trans_le hb⟩

variable {st : State F} {obj : Option Ptr}

/-- Both skip the same bytes. -/
theorem skipWs_state (h : At s st.bufpos rest) :
    ∃ pos' rest', st.skipWs s = pure ⟨pos', st.heap⟩ ∧
      (⟨rest, st.heap⟩ : Parser F).skipWs = ⟨rest', st.heap⟩ ∧ Json.skipWs rest = rest' ∧
      At s (⟨pos', st.heap⟩ : State F).bufpos rest' ∧ rest'.length ≤ rest.length := by
  have hlen := h.length
  obtain ⟨pos', hpos, hat⟩ := skipWs_at h (n := s.length - st.bufpos + 1) (by omega)
  refine ⟨pos', Json.skipWs rest, ?_, rfl, rfl, hat, length_skipWs_le rest⟩
  rw [State.skipWs, hpos, pure_bind]

theorem advance_state {b : UInt8} (h : At s st.bufpos (b :: rest)) :
    st.advance s = pure ⟨st.bufpos + 1, st.heap⟩ := by
  rw [State.advance, h.tail.moveTo, pure_bind]

theorem runs_fail {bound : ℕ} {container : Ptr} (h : At s st.bufpos rest)
    (hle : rest.length ≤ bound) :
    Runs s bound (pure (st.fail container obj))
      (some (Parser.fail ⟨rest, st.heap⟩ container obj)) :=
  ⟨_, _, rfl, rfl, ⟨rfl, rfl, rfl, h⟩, hle, fun hok => nomatch hok⟩

theorem runs_succeed {bound : ℕ} {container : Ptr} {b : UInt8} (h : At s st.bufpos (b :: rest))
    (hlt : rest.length < bound) :
    Runs s bound (st.succeed s container)
      (some (Parser.succeed ⟨b :: rest, st.heap⟩ container)) := by
  rw [State.succeed, advance_state h, pure_bind]
  exact ⟨_, _, rfl, rfl, ⟨rfl, rfl, rfl, h.tail⟩, hlt.le, fun _ => hlt⟩

/-- A node is made, and the text goes on with `rest'`. -/
theorem runs_created {bound bufpos : ℕ} {rest rest' : List UInt8} (x : Ptr × Heap F)
    (h : At s bufpos rest') (hlt : rest'.length < bound) :
    Runs s bound (pure (st.created x bufpos))
      (some (Parser.created ⟨rest, st.heap⟩ x rest')) :=
  ⟨_, _, rfl, rfl, ⟨rfl, rfl, rfl, h⟩, hlt.le, fun _ => hlt⟩

theorem runs_failed {bound : ℕ} (h : At s st.bufpos rest) (hle : rest.length ≤ bound) :
    Runs s bound (pure ⟨false, obj, st⟩) (some ⟨false, obj, ⟨rest, st.heap⟩⟩) :=
  ⟨_, _, rfl, rfl, ⟨rfl, rfl, rfl, h⟩, hle, fun hok => nomatch hok⟩

/-! ### Scalars -/

theorem parseString_runs (h0 : 0 ∉ s) (h : At s st.bufpos rest) :
    Runs s rest.length (parseString s st obj) (some (Json.parseString ⟨rest, st.heap⟩ obj)) := by
  rw [parseString, Json.parseString]
  rcases (parsePlainString_at h0 h).cases with
    ⟨hc, hl⟩ | ⟨⟨_, _, pos'⟩, ⟨str, rest'⟩, hc, hl, rfl, rfl, h', hlt⟩
  · rw [hc, hl]
    exact runs_failed h le_rfl
  · rw [hc, hl]
    have hlen := h.length
    have hlen' := h'.length
    refine runs_created _ h' ?_
    dsimp only at hlt hlen'
    omega

theorem parseNumberNode_runs (env : Env F) (hs : NumberStart rest) (h : At s st.bufpos rest) :
    Runs s rest.length (parseNumberNode env s st obj)
      (some (Json.parseNumberNode env ⟨rest, st.heap⟩ obj)) := by
  rw [parseNumberNode, Json.parseNumberNode]
  rcases (parseNumber_at env h).cases with ⟨hc, hl⟩ | ⟨⟨_, pos'⟩, ⟨v, rest'⟩, hc, hl, rfl, h'⟩
  · rw [hc, hl]
    exact runs_failed h le_rfl
  · rw [hc, hl]
    exact runs_created _ h' (parseNumber_shorter env hs hl)

theorem isLit_at {lit : List UInt8} (h : At s pos rest) (hle : lit.length ≤ rest.length) :
    isLit s lit pos = pure (lit.isPrefixOf rest) := by
  induction lit generalizing pos rest with
  | nil => cases rest <;> rfl
  | cons c lit ih =>
    cases rest with
    | nil => exact absurd hle (Nat.not_succ_le_zero _)
    | cons b rest =>
      rw [isLit, h.rdbuf_cons, pure_bind, ih h.tail (Nat.le_of_succ_le_succ hle)]
      rw [List.isPrefixOf]
      by_cases hb : b = c
      · simp [hb]
      · have hne : (c == b) = false := beq_false_of_ne fun hc => hb hc.symm
        simp [hb, hne]

theorem atLit_at {lit : List UInt8} (h : At s pos rest) :
    atLit s lit pos = pure (lit.isPrefixOf rest) := by
  have hlen := h.length
  rw [atLit]
  split_ifs with hle
  · exact isLit_at h (by omega)
  · have hno : lit.isPrefixOf rest = false := by
      rw [Bool.eq_false_iff]
      intro hp
      have := (List.isPrefixOf_iff_prefix.1 hp).length_le
      omega
    rw [hno]

/-- What follows a literal. -/
theorem At.lit {lit : List UInt8} (h : At s pos rest) (hp : lit.isPrefixOf rest = true) :
    At s (pos + lit.length) (rest.drop lit.length) := by
  obtain ⟨r, rfl⟩ := List.isPrefixOf_iff_prefix.1 hp
  rw [List.drop_left]
  exact h.skip

theorem parseLiteral_runs (h : At s st.bufpos rest) :
    Runs s rest.length (parseLiteral s st obj) (some (Json.parseLiteral ⟨rest, st.heap⟩ obj)) := by
  rw [parseLiteral, Json.parseLiteral, atLit_at h, pure_bind, atLit_at h, pure_bind, atLit_at h,
    pure_bind]
  -- each literal has a length of its own
  have hlit {lit : List UInt8} (hpos : 0 < lit.length) (hp : lit.isPrefixOf rest = true) :
      (rest.drop lit.length).length < rest.length := by
    have := (List.isPrefixOf_iff_prefix.1 hp).length_le
    rw [List.length_drop]
    omega
  dsimp only
  split_ifs with h1 h2 h3
  · rw [(h.lit h1).moveTo, pure_bind]
    exact runs_created _ (h.lit h1) (hlit (by decide) h1)
  · rw [(h.lit h2).moveTo, pure_bind]
    exact runs_created _ (h.lit h2) (hlit (by decide) h2)
  · rw [(h.lit h3).moveTo, pure_bind]
    exact runs_created _ (h.lit h3) (hlit (by decide) h3)
  · exact runs_failed h le_rfl

/-! ### Containers -/

/-- What follows an element: the end of the container, or a comma and more elements. -/
theorem continue_runs {bound : ℕ} {container : Ptr} {close : UInt8} (hclose : close ≠ 0)
    (h : At s st.bufpos rest) (hle : rest.length ≤ bound) {loop : State F → Scan (Result F)}
    {loop' : Parser F → Option (Json.Result F)}
    (hloop : ∀ {st' : State F} {rest'}, At s st'.bufpos rest' → rest'.length < rest.length →
      Runs s bound (loop st') (loop' ⟨rest', st'.heap⟩)) :
    Runs s bound
      (do
        let st ← st.skipWs s
        let c ← rdbuf s st.bufpos
        if c = close then st.succeed s container
        else if c = comma then loop (← st.advance s)
        else pure (st.fail container obj))
      (let st' := Parser.skipWs ⟨rest, st.heap⟩
      if st'.rest.head? = some close then some (st'.succeed container)
      else if st'.rest.head? = some comma then loop' st'.advance
      else some (st'.fail container obj)) := by
  obtain ⟨pos', rest1, hskip, hlist, -, hat, hws⟩ := skipWs_state h
  rw [hskip, hlist, pure_bind, hat.rdbuf, pure_bind]
  dsimp only
  by_cases hc : rest1.head? = some close
  · rw [if_pos ((headD_eq_iff hclose rest1).2 hc), if_pos hc]
    obtain ⟨rest2, rfl⟩ : ∃ rest2, rest1 = close :: rest2 := ⟨_, eq_cons_tail hc⟩
    rw [List.length_cons] at hws
    exact runs_succeed hat (by omega)
  rw [if_neg (mt (headD_eq_iff hclose rest1).1 hc), if_neg hc]
  by_cases hm : rest1.head? = some comma
  · rw [if_pos ((headD_eq_iff (by decide) rest1).2 hm), if_pos hm]
    obtain ⟨rest2, rfl⟩ : ∃ rest2, rest1 = comma :: rest2 := ⟨_, eq_cons_tail hm⟩
    rw [List.length_cons] at hws
    have htail : At s (⟨pos' + 1, st.heap⟩ : State F).bufpos rest2 := hat.tail
    rw [advance_state hat, pure_bind]
    exact hloop htail hws
  · rw [if_neg (mt (headD_eq_iff (by decide) rest1).1 hm), if_neg hm]
    exact runs_fail hat (hws.trans hle)

/-- An element of a container, which is `store`d there, and what follows it.  Where the input ends
instead the loop goes on at the NUL. -/
theorem element_runs {n bound : ℕ} {parse : Parse F} {parse' : Json.Parse F}
    (hparse : Tracks s n parse parse') {container : Ptr} {close : UInt8} (hclose : close ≠ 0)
    (store : Heap F → Option Ptr → Heap F) {item : Option Ptr} (h : At s st.bufpos rest)
    (hn : rest.length < n) (hle : rest.length ≤ bound)
    (loop : Option Ptr → State F → Scan (Result F))
    (loop' : Option Ptr → Parser F → Option (Json.Result F))
    (hloop : ∀ (o : Option Ptr) {st' : State F} {rest'}, At s st'.bufpos rest' →
      rest'.length < rest.length → Runs s bound (loop o st') (loop' o ⟨rest', st'.heap⟩)) :
    Runs s bound
      (do
        let r ← parse st item
        if r.ok then do
          let st ← { r.st with heap := store r.st.heap r.obj : State F }.skipWs s
          let c ← rdbuf s st.bufpos
          if c = close then st.succeed s container
          else if c = comma then loop r.obj (← st.advance s)
          else pure (st.fail container obj)
        else pure (r.st.fail container obj))
      (match parse' ⟨rest, st.heap⟩ item with
      | none => none
      | some ⟨false, _, st⟩ => some (st.fail container obj)
      | some ⟨true, item, st⟩ =>
          let st := { st with heap := store st.heap item }.skipWs
          if st.rest.head? = some close then some (st.succeed container)
          else if st.rest.head? = some comma then loop' item st.advance
          else some (st.fail container obj)) := by
  have hitem := hparse st item rest h hn
  split_ifs at hitem with hend
  · obtain ⟨hcur, hlist⟩ := hitem
    have hnul : At s (⟨s.length, store st.heap item⟩ : State F).bufpos [] :=
      ⟨le_rfl, List.drop_length⟩
    rw [hcur, hlist, pure_bind, if_pos rfl]
    refine continue_runs hclose hnul (Nat.zero_le _) fun {st' rest'} _ hlt => ?_
    exact absurd hlt (Nat.not_lt_zero _)
  · obtain ⟨⟨ok, o, st2⟩, ⟨_, _, ⟨rest2, _⟩⟩, hcur, hlist, ⟨rfl, rfl, rfl, h2⟩, hle2, hlt2⟩ :=
      hitem
    replace h2 : At s st2.bufpos rest2 := h2
    rw [hcur, hlist, pure_bind]
    dsimp only at hle2 hlt2 ⊢
    cases ok with
    | false => exact runs_fail h2 (hle2.trans hle)
    | true =>
      have hlt : rest2.length < rest.length := hlt2 rfl
      have h3 : At s (⟨st2.bufpos, store st2.heap o⟩ : State F).bufpos rest2 := h2
      rw [if_pos rfl]
      refine continue_runs hclose h3 (hle2.trans hle) fun {st' rest'} h' hlt' => ?_
      exact hloop o h' (hlt'.trans hlt)

/-- The loop of `parseArray` on both. -/
theorem arrayLoop_runs {n : ℕ} {parse : Parse F} {parse' : Json.Parse F}
    (hparse : Tracks s n parse parse') (arr : Ptr) :
    ∀ (m : ℕ) {st : State F} {rest : List UInt8} (item : Option Ptr), At s st.bufpos rest →
      rest.length < m → rest.length < n →
      Runs s rest.length (arrayLoop s parse arr obj m st item)
        (Json.arrayLoop parse' arr obj m ⟨rest, st.heap⟩ item)
  | 0, _, _, _, _, hm, _ => absurd hm (Nat.not_lt_zero _)
  | m + 1, st, rest, item, h, hm, hn => by
      obtain ⟨pos1, rest1, hskip, hlist, -, h1, hws⟩ := skipWs_state h
      rw [arrayLoop, Json.arrayLoop, hskip, hlist, pure_bind, h1.rdbuf, pure_bind]
      dsimp only
      have hne : rbracket ≠ 0 := by decide
      by_cases hc : rest1.head? = some rbracket
      · rw [if_pos ((headD_eq_iff hne rest1).2 hc), if_pos hc]
        obtain ⟨rest2, rfl⟩ : ∃ rest2, rest1 = rbracket :: rest2 := ⟨_, eq_cons_tail hc⟩
        rw [List.length_cons] at hws
        exact runs_succeed h1 (by omega)
      rw [if_neg (mt (headD_eq_iff hne rest1).1 hc), if_neg hc]
      refine element_runs hparse hne (fun heap o => (heap.append arr o).1) h1 (by omega) hws
        (fun o st => arrayLoop s parse arr obj m st o)
        (fun o st => Json.arrayLoop parse' arr obj m st o) fun o {st' rest'} h' hlt => ?_
      exact (arrayLoop_runs hparse arr m o h' (by omega) (by omega)).mono (by omega)

/-- The loop of `parseObject` on both. -/
theorem objectLoop_runs (env : Env F) (h0 : 0 ∉ s) {n : ℕ} {parse : Parse F} {parse' : Json.Parse F}
    (hparse : Tracks s n parse parse') (jobj : Ptr) :
    ∀ (m : ℕ) {st : State F} {rest : List UInt8} (value : Option Ptr), At s st.bufpos rest →
      rest.length < m → rest.length < n →
      Runs s rest.length (objectLoop env s parse jobj obj m st value)
        (Json.objectLoop env parse' jobj obj m ⟨rest, st.heap⟩ value)
  | 0, _, _, _, _, hm, _ => absurd hm (Nat.not_lt_zero _)
  | m + 1, st, rest, value, h, hm, hn => by
      obtain ⟨pos1, rest1, hskip, hlist, -, h1, hws⟩ := skipWs_state h
      rw [objectLoop, Json.objectLoop, hskip, hlist, pure_bind, h1.rdbuf, pure_bind]
      dsimp only
      have hne : rbrace ≠ 0 := by decide
      by_cases hc : rest1.head? = some rbrace
      · rw [if_pos ((headD_eq_iff hne rest1).2 hc), if_pos hc]
        obtain ⟨rest2, rfl⟩ : ∃ rest2, rest1 = rbrace :: rest2 := ⟨_, eq_cons_tail hc⟩
        rw [List.length_cons] at hws
        exact runs_succeed h1 (by omega)
      rw [if_neg (mt (headD_eq_iff hne rest1).1 hc), if_neg hc]
      -- the key
      rcases (parsePlainString_at h0 h1).cases with
        ⟨hcur, hlist⟩ | ⟨⟨_, _, pos2⟩, ⟨key, rest2⟩, hcur, hlist, rfl, rfl, h2, hkey⟩
      · rw [hcur, hlist]
        exact runs_fail h1 hws
      replace h2 : At s (⟨pos2, st.heap⟩ : State F).bufpos rest2 := h2
      have hlen1 := h1.length
      have hlen2 := h2.length
      dsimp only at hkey hlen1 hlen2
      obtain ⟨pos3, rest3, hskip, hlist3, -, h3, hws3⟩ := skipWs_state h2
      rw [hcur, hlist, pure_bind]
      dsimp only at hskip hlist3 h3 ⊢
      rw [hskip, hlist3, pure_bind, h3.rdbuf, pure_bind]
      dsimp only
      have hcolon : colon ≠ 0 := by decide
      by_cases hc : rest3.head? = some colon
      swap
      · rw [if_neg (mt (headD_eq_iff hcolon rest3).1 hc), if_neg hc]
        have h3 : At s (⟨pos3, st.heap⟩ : State F).bufpos rest3 := h3
        exact runs_fail h3 (by omega)
      -- the value
      rw [if_pos ((headD_eq_iff hcolon rest3).2 hc), if_pos hc]
      obtain ⟨rest4, rfl⟩ : ∃ rest4, rest3 = colon :: rest4 := ⟨_, eq_cons_tail hc⟩
      rw [List.length_cons] at hws3
      replace h3 : At s (⟨pos3, st.heap⟩ : State F).bufpos (colon :: rest4) := h3
      have h4 : At s (⟨pos3 + 1, st.heap⟩ : State F).bufpos rest4 := h3.tail
      obtain ⟨pos5, rest5, hskip5, hlist5, -, h5, hws5⟩ := skipWs_state h4
      have hadvance : (⟨colon :: rest4, st.heap⟩ : Parser F).advance = ⟨rest4, st.heap⟩ := rfl
      rw [advance_state h3, pure_bind, hskip5, pure_bind, hadvance, hlist5]
      have hle5 : rest5.length ≤ rest.length := by omega
      refine element_runs hparse hne
        (fun heap o => (heap.setProperty env jobj (key ++ [0]) key.length o).1) h5 (by omega) hle5
        (fun o st => objectLoop env s parse jobj obj m st o)
        (fun o st => Json.objectLoop env parse' jobj obj m st o) fun o {st' rest'} h' hlt => ?_
      exact (objectLoop_runs env h0 hparse jobj m o h' (by omega) (by omega)).mono (by omega)

theorem parseArray_runs {n : ℕ} {parse : Parse F} {parse' : Json.Parse F} {b : UInt8}
    (hparse : Tracks s n parse parse') (h : At s st.bufpos (b :: rest)) (hn : rest.length < n) :
    Runs s (b :: rest).length (parseArray s parse st obj)
      (Json.parseArray parse' ⟨b :: rest, st.heap⟩ obj) := by
  have hlen := h.length
  have hfuel : s.length - st.bufpos = (b :: rest).length := by omega
  have hat : At s (⟨st.bufpos, st.heap.createArray.2⟩ : State F).bufpos (b :: rest) := h
  have htail : At s (⟨st.bufpos + 1, st.heap.createArray.2⟩ : State F).bufpos rest := h.tail
  rw [parseArray, Json.parseArray, hfuel]
  dsimp only
  rw [advance_state hat, pure_bind]
  exact (arrayLoop_runs hparse _ _ none htail (Nat.lt_succ_self _) hn).mono (Nat.le_succ _)

theorem parseObject_runs (env : Env F) (h0 : 0 ∉ s) {n : ℕ} {parse : Parse F}
    {parse' : Json.Parse F} {b : UInt8} (hparse : Tracks s n parse parse')
    (h : At s st.bufpos (b :: rest)) (hn : rest.length < n) :
    Runs s (b :: rest).length (parseObject env s parse st obj)
      (Json.parseObject env parse' ⟨b :: rest, st.heap⟩ obj) := by
  have hlen := h.length
  have hfuel : s.length - st.bufpos = (b :: rest).length := by omega
  have hat : At s (⟨st.bufpos, st.heap.createObject.2⟩ : State F).bufpos (b :: rest) := h
  have htail : At s (⟨st.bufpos + 1, st.heap.createObject.2⟩ : State F).bufpos rest := h.tail
  rw [parseObject, Json.parseObject, hfuel]
  dsimp only
  rw [advance_state hat, pure_bind]
  exact (objectLoop_runs env h0 hparse _ _ none htail (Nat.lt_succ_self _) hn).mono (Nat.le_succ _)

/-! ## The deserializer -/

theorem parse_tracks (env : Env F) (h0 : 0 ∉ s) : ∀ n, Tracks s n (parse env s n) (Json.parse env n)
  | 0, _, _, _, _, hn => absurd hn (Nat.not_lt_zero _)
  | n + 1, st, obj, rest, h, hn => by
      have hparse := parse_tracks env h0 n
      obtain ⟨pos1, rest1, hskip, hlist, hrest, h1, hws⟩ := skipWs_state h
      have hlen := h1.length
      rw [parse, Json.parse, hskip, hlist, hrest, pure_bind]
      dsimp only at hlen ⊢
      cases rest1 with
      | nil =>
        have hend : pos1 = s.length := hlen
        rw [if_pos rfl, if_pos hend, hend]
        exact ⟨rfl, rfl⟩
      | cons c rest1 =>
        rw [List.length_cons] at hlen hws
        have hn1 : rest1.length < n := by omega
        rw [if_neg (List.cons_ne_nil _ _), if_neg (by omega), h1.rdbuf_cons, pure_bind]
        refine Runs.mono ?_ hws
        dsimp only
        split_ifs with hobj harr hstr hnum
        · exact parseObject_runs env h0 hparse h1 hn1
        · exact parseArray_runs hparse h1 hn1
        · exact parseString_runs h0 h1
        · exact parseNumberNode_runs env ⟨c, rest1, rfl, hnum⟩ h1
        · exact parseLiteral_runs h1

/-- What `parse` returns for the whole text. -/
theorem parse_same (env : Env F) (h : Heap F) (json : List UInt8) :
    ∃ x y, parse env (cstr json) (strlen json + 1) ⟨0, h⟩ none = pure x ∧
      Json.parse env (strlen json + 1) ⟨cstr json, h⟩ none = some y ∧ Same (cstr json) x y := by
  have hat : At (cstr json) (⟨0, h⟩ : State F).bufpos (cstr json) := ⟨Nat.zero_le _, List.drop_zero⟩
  have hrun := parse_tracks env (no_nul_cstr json) _ ⟨0, h⟩ none _ hat (Nat.lt_succ_self _)
  split_ifs at hrun with hend
  · exact ⟨_, _, hrun.1, hrun.2, rfl, rfl, rfl, le_rfl, List.drop_length⟩
  · obtain ⟨x, y, hcur, hlist, hsame, -⟩ := hrun
    exact ⟨x, y, hcur, hlist, hsame⟩

theorem deserialize_same (env : Env F) (h : Heap F) (json : List UInt8) :
    ∃ r, deserialize env h json = pure r ∧ Json.deserialize env h json = some r := by
  obtain ⟨⟨ok, obj, st⟩, ⟨_, _, ⟨rest, _⟩⟩, hcur, hlist, rfl, rfl, rfl, hat⟩ := parse_same env h json
  obtain ⟨pos1, rest1, hskip, -, hrest, h1, -⟩ := skipWs_state hat
  have hlen := h1.length
  dsimp only at hrest hlen hskip
  have hend : pos1 = (cstr json).length ↔ rest1 = [] := by
    rw [← List.length_eq_zero_iff]
    omega
  rw [strlen] at hcur
  rw [deserialize, Json.deserialize, hcur, hlist, pure_bind, hskip, pure_bind]
  dsimp only
  rw [hrest]
  split_ifs with hc hl hl
  · exact ⟨_, rfl, rfl⟩
  · exact absurd (hend.1 hc) hl
  · exact absurd (hend.2 hl) hc
  · exact ⟨_, rfl, rfl⟩

/-- Where `parse` is called it returns, and a value takes more than nothing. -/
theorem parse_advances (env : Env F) (h0 : 0 ∉ s) {n : ℕ} (st : State F) (obj : Option Ptr)
    (hle : st.bufpos ≤ s.length) (hn : s.length - st.bufpos < n) :
    ∃ r, parse env s n st obj = pure r ∧ r.st.bufpos ≤ s.length ∧
      (r.ok = true → Json.skipWs (s.drop st.bufpos) ≠ [] → st.bufpos < r.st.bufpos) := by
  have hat : At s st.bufpos (s.drop st.bufpos) := ⟨hle, rfl⟩
  have hlen : (s.drop st.bufpos).length < n := by rwa [List.length_drop]
  have hrun := parse_tracks env h0 n st obj _ hat hlen
  split_ifs at hrun with hend
  · exact ⟨_, hrun.1, le_rfl, fun _ hne => absurd hend hne⟩
  · obtain ⟨x, y, hcur, -, hsame, -, hlt⟩ := hrun
    refine ⟨x, hcur, hsame.position.le, fun hok _ => hat.lt hsame.position (hlt ?_)⟩
    rw [← hsame.ok, hok]

/-- Whatever the input, the deserializer returns what the one on lists returns, without a read behind
the NUL and with `bufpos` in the buffer.  `parse` returns wherever it is called, and where it succeeds
and there was more than white space it moved on. -/
theorem deserialize_bounded (env : Env F) (h : Heap F) (json : List UInt8) :
    (∃ r, deserialize env h json = pure r ∧ Json.deserialize env h json = some r) ∧
      ∀ (n : ℕ) (st : State F) (obj : Option Ptr), st.bufpos ≤ strlen json →
        strlen json - st.bufpos < n →
        ∃ r, parse env (cstr json) n st obj = pure r ∧ r.st.bufpos ≤ strlen json ∧
          (r.ok = true → Json.skipWs ((cstr json).drop st.bufpos) ≠ [] →
            st.bufpos < r.st.bufpos) :=
  ⟨deserialize_same env h json, fun _ st obj hle hn =>
    parse_advances env (no_nul_cstr json) st obj hle hn⟩

end PoserCore.Json.Cursor
