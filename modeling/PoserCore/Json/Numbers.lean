import Mathlib.Tactic.SplitIfs
import PoserCore.Json.Strings

/-!
# Numbers

`parseNumber` takes the longest number at the start of the text (`lexNumber`), and where a delimiter
follows it, the node gets the value of that number.
-/

namespace PoserCore.Json

open Lib.Strtol (Numeral clamp plus minus isspace scanSign strtol)

variable {F : Type}

/-- What follows a value in a text. -/
def Delim (r : List UInt8) : Prop :=
  ∀ b, r.head? = some b → isWs b ∨ b = comma ∨ b = rbracket ∨ b = rbrace

theorem isDigit_iff (b : UInt8) : isDigit b = true ↔ Digit b := by
  rw [isDigit, Lib.Strtol.isDigit, decide_eq_true_iff, Lib.Strtol.digitValue, Digit]
  split_ifs <;> omega

theorem isWs_iff (b : UInt8) : isWs b = true ↔ b = 0x20 ∨ b = 0x09 ∨ b = 0x0a ∨ b = 0x0d := by
  simp only [isWs, Bool.or_eq_true, decide_eq_true_eq]
  tauto

theorem not_digit_of_delim (b : UInt8) (h : isWs b ∨ b = comma ∨ b = rbracket ∨ b = rbrace) :
    isDigit b = false := by
  rcases h with h | rfl | rfl | rfl
  · rcases (isWs_iff b).1 h with rfl | rfl | rfl | rfl <;> decide
  all_goals decide

/-! ## Taking a number from a text -/

def NoDigit (r : List UInt8) : Prop := ∀ b, r.head? = some b → isDigit b = false

theorem noDigit_of_delim {r : List UInt8} (h : Delim r) : NoDigit r :=
  fun b hb => not_digit_of_delim b (h b hb)

theorem spanDigits_append {ds r : List UInt8} (hd : ∀ b ∈ ds, Digit b) (hr : NoDigit r) :
    spanDigits (ds ++ r) = (ds, r) := by
  have hds : ∀ b ∈ ds, isDigit b = true := fun b hb => (isDigit_iff b).2 (hd b hb)
  rw [spanDigits, List.takeWhile_append_of_pos hds, List.dropWhile_append_of_pos hds]
  cases r with
  | nil => simp
  | cons b r => simp [hr b rfl]

theorem spanDigits_eq (s : List UInt8) : (spanDigits s).1 ++ (spanDigits s).2 = s :=
  List.takeWhile_append_dropWhile

theorem digits_spanDigits (s : List UInt8) : ∀ b ∈ (spanDigits s).1, Digit b := by
  intro b hb
  exact (isDigit_iff b).1 (List.all_eq_true.1 List.all_takeWhile b hb)

def lexFraction (s : List UInt8) : Option (List UInt8) × List UInt8 :=
  match s with
  | b :: t => if b = dot then (some (spanDigits t).1, (spanDigits t).2) else (none, s)
  | [] => (none, s)

def lexExponent (s : List UInt8) : Option Exponent × List UInt8 :=
  match s with
  | b :: t =>
      if (b = lowerE ∨ b = upperE) ∧ (spanDigits (scanSign t).2).1 ≠ [] then
        (some ⟨b, (scanSign t).1, (spanDigits (scanSign t).2).1⟩, (spanDigits (scanSign t).2).2)
      else (none, s)
  | [] => (none, s)

/-- The longest number at the start, and what follows it. -/
def lexNumber (s : List UInt8) : Number × List UInt8 :=
  let sign := scanSign s
  let int := spanDigits sign.2
  let fraction := lexFraction int.2
  let exponent := lexExponent fraction.2
  (⟨sign.1, int.1, fraction.1, exponent.1⟩, exponent.2)

theorem spanFraction_eq (s : List UInt8) :
    spanFraction s = (fractionText (lexFraction s).1, (lexFraction s).2) := by
  cases s with
  | nil => rfl
  | cons b t =>
    simp only [spanFraction, lexFraction]
    split_ifs <;> rfl

theorem spanExponent_eq (s : List UInt8) :
    spanExponent s = (exponentText (lexExponent s).1, (lexExponent s).2) := by
  cases s with
  | nil => rfl
  | cons b t =>
    by_cases hb : b = lowerE ∨ b = upperE
    · by_cases hd : (spanDigits (scanSign t).2).1 = []
      · simp [spanExponent, lexExponent, hb, hd, exponentText]
      · simp [spanExponent, lexExponent, hb, hd, exponentText, Exponent.text]
    · simp [spanExponent, lexExponent, hb, exponentText]

theorem lexFraction_text (s : List UInt8) :
    fractionText (lexFraction s).1 ++ (lexFraction s).2 = s := by
  unfold lexFraction
  split
  · next b t =>
    split_ifs with hb
    · rw [hb]
      exact congrArg (dot :: ·) (spanDigits_eq t)
    · rfl
  · rfl

theorem lexExponent_text (s : List UInt8) :
    exponentText (lexExponent s).1 ++ (lexExponent s).2 = s := by
  unfold lexExponent
  split
  · next b t =>
    split_ifs with hb
    · simp only [exponentText, Exponent.text, List.cons_append, List.append_assoc, spanDigits_eq,
        Lib.Strtol.scanSign_eq]
    · rfl
  · rfl

/-- The number is the start of the text. -/
theorem lexNumber_text (s : List UInt8) : (lexNumber s).1.text ++ (lexNumber s).2 = s := by
  simp only [lexNumber, Number.text]
  rw [List.append_assoc, lexExponent_text, List.append_assoc, lexFraction_text, List.append_assoc,
    spanDigits_eq, Lib.Strtol.scanSign_eq]

theorem lexNumber_ok {s : List UInt8} (h : (lexNumber s).1.int ≠ []) : (lexNumber s).1.Ok where
  sign := Lib.Strtol.scanSign_sign s
  int_ne := h
  int := digits_spanDigits _
  fraction := by
    intro ds hds
    simp only [lexNumber, lexFraction] at hds
    split at hds
    · split_ifs at hds with hb
      · cases hds
        exact digits_spanDigits _
      · cases hds
    · cases hds
  exponent := by
    intro e he
    simp only [lexNumber] at he
    unfold lexExponent at he
    split at he
    · split_ifs at he with hb
      · cases he
        exact ⟨hb.1, Lib.Strtol.scanSign_sign _, hb.2, digits_spanDigits _⟩
      · cases he
    · cases he

/-! ## A number before a delimiter -/

/-- A byte that is no digit is different from one that is. -/
theorem ne_of_digit {b c : UInt8} (h : isDigit b = true) (hc : isDigit c = false) : b ≠ c := by
  rintro rfl
  rw [h] at hc
  cases hc

theorem digit_ne_sign (b : UInt8) (h : isDigit b = true) : ¬ (b = plus ∨ b = minus) :=
  Lib.Strtol.not_sign_of_isDigit (by decide) h

theorem head_digits {ds : List UInt8} (hne : ds ≠ []) (hd : ∀ b ∈ ds, Digit b) (s : List UInt8) :
    ∀ b, (ds ++ s).head? = some b → isDigit b = true := by
  intro b hb
  cases ds with
  | nil => exact absurd rfl hne
  | cons d ds =>
    obtain rfl : d = b := by simpa using hb
    exact (isDigit_iff d).2 (hd d List.mem_cons_self)

theorem delim_ne (b : UInt8) (h : isWs b ∨ b = comma ∨ b = rbracket ∨ b = rbrace) :
    b ≠ dot ∧ b ≠ lowerE ∧ b ≠ upperE := by
  rcases h with h | rfl | rfl | rfl
  · rcases (isWs_iff b).1 h with rfl | rfl | rfl | rfl <;> decide
  all_goals decide

theorem lexExponent_append {e : Option Exponent} (he : ∀ x ∈ e, x.Ok) {r : List UInt8}
    (hr : Delim r) : lexExponent (exponentText e ++ r) = (e, r) := by
  cases e with
  | none =>
    cases r with
    | nil => rfl
    | cons b r =>
      have hb := delim_ne b (hr b rfl)
      simp [exponentText, lexExponent, hb]
  | some x =>
    obtain ⟨hl, hs, hne, hd⟩ := he x rfl
    have hsign := Lib.Strtol.scanSign_append hs (s := x.digits ++ r)
      fun b hb => digit_ne_sign b (head_digits hne hd r b hb)
    have hdigits := spanDigits_append hd (noDigit_of_delim hr)
    simp [exponentText, Exponent.text, lexExponent, hl, hsign, hdigits, hne]

/-- An exponent or a delimiter does not start with a digit or a point. -/
theorem head_exponent {e : Option Exponent} (he : ∀ x ∈ e, x.Ok) {r : List UInt8} (hr : Delim r) :
    ∀ b, (exponentText e ++ r).head? = some b → isDigit b = false ∧ b ≠ dot := by
  intro b hb
  cases e with
  | none => exact ⟨not_digit_of_delim b (hr b hb), (delim_ne b (hr b hb)).1⟩
  | some x =>
    obtain rfl : x.letter = b := by simpa [exponentText, Exponent.text] using hb
    rcases (he x rfl).1 with h | h <;> rw [h] <;> decide

theorem lexFraction_append {fraction : Option (List UInt8)}
    (hf : ∀ ds ∈ fraction, ∀ b ∈ ds, Digit b) {s : List UInt8}
    (hs : ∀ b, s.head? = some b → isDigit b = false ∧ b ≠ dot) :
    lexFraction (fractionText fraction ++ s) = (fraction, s) := by
  cases fraction with
  | none =>
    cases s with
    | nil => rfl
    | cons b s => simp [fractionText, lexFraction, (hs b rfl).2]
  | some ds =>
    have hdigits := spanDigits_append (hf ds rfl) fun b hb => (hs b hb).1
    simp [fractionText, lexFraction, hdigits]

/-- A number before a delimiter is taken as a whole. -/
theorem lexNumber_append {n : Number} (hn : n.Ok) {r : List UInt8} (hr : Delim r) :
    lexNumber (n.text ++ r) = (n, r) := by
  have hexp := lexExponent_append hn.exponent hr
  have hfrac := lexFraction_append hn.fraction (head_exponent hn.exponent hr)
  have hint : spanDigits (n.int ++ (fractionText n.fraction ++ (exponentText n.exponent ++ r))) =
      (n.int, fractionText n.fraction ++ (exponentText n.exponent ++ r)) := by
    refine spanDigits_append hn.int fun b hb => ?_
    cases hf : n.fraction with
    | none =>
      rw [hf] at hb
      exact (head_exponent hn.exponent hr b hb).1
    | some ds =>
      obtain rfl : dot = b := by simpa [hf, fractionText] using hb
      decide
  have hsign := Lib.Strtol.scanSign_append hn.sign
    (s := n.int ++ (fractionText n.fraction ++ (exponentText n.exponent ++ r)))
    fun b hb => digit_ne_sign b (head_digits hn.int_ne hn.int _ b hb)
  have htext : n.text ++ r = n.sign.toList ++
      (n.int ++ (fractionText n.fraction ++ (exponentText n.exponent ++ r))) := by
    simp [Number.text]
  simp [htext, lexNumber, hsign, hint, hfrac, hexp]

/-! ## `parseNumber` -/

theorem clamp_value (env : Env F) {n : Number} (h : n.Integral) :
    Scalar.integer (.ofInt (clamp n.intValue)) = n.value env := by
  have hmax : Int64.maxValue.toInt = 2 ^ 63 - 1 := by decide
  have hmin : Int64.minValue.toInt = -2 ^ 63 := by decide
  rw [Number.value, if_pos h, clamp]
  congr 1
  split_ifs with hr hneg
  · obtain ⟨hlo, hhi⟩ := hr
    congr 1
    omega
  · have : max (-2 ^ 63) (min (2 ^ 63 - 1) n.intValue) = Int64.minValue.toInt := by
      rw [Number.InRange] at hr
      omega
    rw [this, Int64.ofInt_toInt]
  · have : max (-2 ^ 63) (min (2 ^ 63 - 1) n.intValue) = Int64.maxValue.toInt := by
      rw [Number.InRange] at hr
      omega
    rw [this, Int64.ofInt_toInt]

/-- The characters `parse` takes for the start of a number. -/
def NumberStart (s : List UInt8) : Prop := ∃ c t, s = c :: t ∧ (c = plus ∨ c = minus ∨ isDigit c)

theorem numberStart_byte (c : UInt8) (h : c = plus ∨ c = minus ∨ isDigit c) :
    isspace c = false ∧ c ≠ dot ∧ c ≠ lowerE ∧ c ≠ upperE := by
  rcases h with rfl | rfl | h
  · decide
  · decide
  · exact ⟨Lib.Strtol.not_isspace_of_isDigit (by decide) h, ne_of_digit h rfl, ne_of_digit h rfl,
      ne_of_digit h rfl⟩

theorem dropWhile_isspace {s : List UInt8} (hs : NumberStart s) : s.dropWhile isspace = s := by
  obtain ⟨c, t, rfl, hc⟩ := hs
  simp [(numberStart_byte c hc).1]

/-- Base 10 has no prefix, so that the sign comes right before the digits. -/
theorem strtoll_split (s : List UInt8) :
    let sign := scanSign (s.dropWhile isspace)
    strtoll s = if (spanDigits sign.2).1 = [] then (0, s)
      else (.ofInt (clamp (Numeral.value 10 ⟨[], sign.1, none, (spanDigits sign.2).1⟩)),
        (spanDigits sign.2).2) := by
  intro sign
  have hdigits : sign.2.takeWhile (Lib.Strtol.isDigit 10) = (spanDigits sign.2).1 := rfl
  simp only [strtoll, strtol, Lib.Strtol.scan, Lib.Strtol.scanHex_of_ne (show 10 ≠ 16 by decide)]
  by_cases h : (spanDigits sign.2).1 = []
  · rw [if_pos h, if_pos (hdigits.trans h)]
    rfl
  · rw [if_neg h, if_neg (hdigits ▸ h)]
    rfl

theorem strtoll_eq {s : List UInt8} (hs : NumberStart s) (hne : (lexNumber s).1.int ≠ []) :
    strtoll s = (.ofInt (clamp (lexNumber s).1.intValue), (spanDigits (scanSign s).2).2) := by
  rw [strtoll_split, dropWhile_isspace hs]
  exact if_neg hne

theorem strtod_eq (env : Env F) {s : List UInt8} (hs : NumberStart s)
    (hne : (lexNumber s).1.int ≠ []) :
    strtod env s = some (env.strtod (lexNumber s).1.text, (lexNumber s).2) := by
  unfold strtod
  simp only [dropWhile_isspace hs, spanFraction_eq, spanExponent_eq]
  rw [if_neg fun h => hne h.1]
  rfl

/-- Where neither a fraction nor an exponent starts. -/
theorem lexNumber_integral {s : List UInt8} {t : List UInt8}
    (ht : (spanDigits (scanSign s).2).2 = t)
    (hend : ¬ (t.head? = some dot ∨ t.head? = some lowerE ∨ t.head? = some upperE)) :
    (lexNumber s).1.Integral ∧ (lexNumber s).2 = t := by
  simp only [not_or] at hend
  have hfrac : lexFraction t = (none, t) := by
    cases t with
    | nil => rfl
    | cons b t => simp [lexFraction, show b ≠ dot from fun h => hend.1 (by simp [h])]
  have hexp : lexExponent t = (none, t) := by
    cases t with
    | nil => rfl
    | cons b t =>
      have hl : b ≠ lowerE := fun h => hend.2.1 (by simp [h])
      have hu : b ≠ upperE := fun h => hend.2.2 (by simp [h])
      simp [lexExponent, hl, hu]
  simp [lexNumber, ht, hfrac, hexp, Number.Integral]

/-- Where one of them starts, and the number ends before a delimiter. -/
theorem lexNumber_not_integral {s : List UInt8} (hdelim : Delim (lexNumber s).2)
    (hend : (spanDigits (scanSign s).2).2.head? = some dot ∨
      (spanDigits (scanSign s).2).2.head? = some lowerE ∨
      (spanDigits (scanSign s).2).2.head? = some upperE) : ¬ (lexNumber s).1.Integral := by
  rintro ⟨hfrac, hexp⟩
  have hexp : (lexNumber s).1.exponent = none := Option.isNone_iff_eq_none.1 hexp
  have hrest : (lexNumber s).2 = (spanDigits (scanSign s).2).2 := by
    have h1 := lexFraction_text (spanDigits (scanSign s).2).2
    have h2 := lexExponent_text (lexFraction (spanDigits (scanSign s).2).2).2
    simp only [lexNumber] at hfrac hexp ⊢
    rw [hfrac] at h1
    rw [hexp] at h2
    exact h2.trans h1
  rw [hrest] at hdelim
  rcases hend with h | h | h
  · exact (delim_ne _ (hdelim _ h)).1 rfl
  · exact (delim_ne _ (hdelim _ h)).2.1 rfl
  · exact (delim_ne _ (hdelim _ h)).2.2 rfl

theorem parseNumber_none (env : Env F) {s : List UInt8} (hs : NumberStart s)
    (hint : (lexNumber s).1.int = []) : parseNumber env s = none := by
  have hll : strtoll s = (0, s) := by
    rw [strtoll_split, dropWhile_isspace hs]
    exact if_pos hint
  obtain ⟨c, t, rfl, hc⟩ := hs
  have hne := (numberStart_byte c hc).2
  simp [parseNumber, hll, hne]

/-- What `parseNumber` takes and the value it gives. -/
theorem parseNumber_some (env : Env F) {s : List UInt8} (hs : NumberStart s)
    (hint : (lexNumber s).1.int ≠ []) : ∃ x, parseNumber env s = some (x, (lexNumber s).2) ∧
      (Delim (lexNumber s).2 → x = (lexNumber s).1.value env) := by
  unfold parseNumber
  simp only [strtoll_eq hs hint]
  split_ifs with hend hlen
  · rw [strtod_eq env hs hint]
    refine ⟨_, rfl, fun hdelim => ?_⟩
    rw [Number.value, if_neg (lexNumber_not_integral hdelim hend)]
  · have hsplit := congrArg List.length (Lib.Strtol.scanSign_eq s)
    have hdigits := congrArg List.length (spanDigits_eq (scanSign s).2)
    have hpos : 0 < (spanDigits (scanSign s).2).1.length := List.length_pos_iff.2 hint
    simp only [List.length_append] at hsplit hdigits
    omega
  · obtain ⟨hintegral, hrest⟩ := lexNumber_integral rfl hend
    rw [hrest]
    exact ⟨_, rfl, fun _ => clamp_value env hintegral⟩

end PoserCore.Json
