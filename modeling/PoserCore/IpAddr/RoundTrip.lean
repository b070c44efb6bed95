import PoserCore.IpAddr.Parser

/-!
# Strings of addresses

The string of an address is the text of a spelling of it, in which the words of the last run of zeros
are left out (`printWords_eq`).  So `PSC_IpAddr_create` reads the address back from it
(`create_string`).
-/

namespace PoserCore.IpAddr

open Lib.Strtol (Numeral print)

/-! ## Numbers -/

/-- The numeral that is printed for a number -/
def printed (base n : ℕ) : Numeral := .plain (print base n)

theorem value_printed {base : ℕ} (h1 : 1 < base) (hb : base ≤ 36) (n : ℕ) :
    (printed base n).value base = n := by
  rw [printed, Lib.Strtol.value_plain, Lib.Strtol.valueOf_print h1 hb]

theorem printed_within {base m n : ℕ} (h1 : 1 < base) (hb : base ≤ 36) (h : n ≤ m) :
    (printed base n).Within base m where
  toOk := Lib.Strtol.plain_ok (Lib.Strtol.print_ne_nil base n) (Lib.Strtol.isDigit_print h1 hb n)
  nonneg := by
    rw [value_printed h1 hb]
    exact Int.natCast_nonneg n
  le := by
    rw [value_printed h1 hb]
    exact_mod_cast h

/-! ## Words -/

theorem shift_or (a b : UInt8) : a.toNat <<< 8 ||| b.toNat = a.toNat * 256 + b.toNat := by
  rw [← Nat.shiftLeft_add_eq_or_of_lt b.toNat_lt, Nat.shiftLeft_eq]

theorem word_lt (data : List UInt8) (i : ℕ) : word data i < 16 ^ 4 := by
  have ha := (data.getD (2 * i) 0).toNat_lt
  have hb := (data.getD (2 * i + 1) 0).toNat_lt
  have h16 : 16 ^ 4 = 65536 := by decide
  rw [word, shift_or]
  omega

theorem wordBytes_word (data : List UInt8) (i : ℕ) :
    wordBytes (word data i) = [data.getD (2 * i) 0, data.getD (2 * i + 1) 0] := by
  have ha := (data.getD (2 * i) 0).toNat_lt
  have hb := (data.getD (2 * i + 1) 0).toNat_lt
  rw [wordBytes, word, shift_or, Nat.shiftRight_eq_div_pow, show (0xff : ℕ) = 2 ^ 8 - 1 by decide,
    Nat.and_two_pow_sub_one_eq_mod]
  rw [show ((data.getD (2 * i) 0).toNat * 256 + (data.getD (2 * i + 1) 0).toNat) / 2 ^ 8 =
      (data.getD (2 * i) 0).toNat by omega,
    show ((data.getD (2 * i) 0).toNat * 256 + (data.getD (2 * i + 1) 0).toNat) % 2 ^ 8 =
      (data.getD (2 * i + 1) 0).toNat by omega, UInt8.ofNat_toNat, UInt8.ofNat_toNat]

/-- The bytes of `k` words from word `i` on -/
theorem flatMap_wordBytes {data : List UInt8} (hlen : data.length = 16) {i k : ℕ} (h : i + k ≤ 8) :
    (List.range' i k).flatMap (fun j => wordBytes (word data j)) =
      (data.drop (2 * i)).take (2 * k) := by
  induction k generalizing i with
  | zero => rfl
  | succ k ih =>
    have hget : ∀ j, j < 16 → data.drop j = data.getD j 0 :: data.drop (j + 1) := by
      intro j hj
      have hj' : j < data.length := hlen ▸ hj
      rw [List.drop_eq_getElem_cons hj', List.getD_eq_getElem?_getD, List.getElem?_eq_getElem hj',
        Option.getD_some]
    rw [List.range'_succ, List.flatMap_cons, wordBytes_word, ih (by omega), hget (2 * i) (by omega),
      hget (2 * i + 1) (by omega), show 2 * (k + 1) = 2 * k + 1 + 1 by omega, List.take_succ_cons,
      List.take_succ_cons]
    rfl

/-! ## The run of zeros -/

/-- A run of zeros, up to `n` at most -/
def ZeroRun (word : ℕ → ℕ) (n : ℕ) (run : ℕ × ℕ) : Prop :=
  run.1 + run.2 ≤ n ∧ ∀ i, run.1 ≤ i → i < run.1 + run.2 → word i = 0

theorem zeroRun_foldl {word : ℕ → ℕ} {pass : ℕ × ℕ → ℕ → ℕ × ℕ}
    (hpass : ∀ n run, ZeroRun word n run → ZeroRun word (n + 1) (pass run n)) (n : ℕ) :
    ZeroRun word n ((List.range n).foldl pass (0, 0)) := by
  induction n with
  | zero => exact ⟨le_rfl, fun i _ hi => absurd hi (Nat.not_lt_zero i)⟩
  | succ n ih =>
    rw [List.range_succ, List.foldl_append]
    exact hpass n _ ih

theorem findGap_spec (word : ℕ → ℕ) : ZeroRun word 8 (findGap word) := by
  apply zeroRun_foldl
  rintro n ⟨gap, gaplen⟩ ⟨hle, hzero⟩
  simp only at hle hzero ⊢
  split_ifs with hw hgt
  · refine ⟨le_rfl, fun i h1 h2 => ?_⟩
    simp only at h1 h2
    rw [show i = n by omega]
    exact hw
  · refine ⟨by simp only; omega, fun i h1 h2 => ?_⟩
    simp only at h1 h2
    rcases Nat.lt_or_ge i (gap + gaplen) with hi | hi
    · exact hzero i h1 hi
    · rw [show i = n by omega]
      exact hw
  · exact ⟨Nat.le_succ_of_le hle, hzero⟩

/-! ## What is printed -/

/-- Texts separated by colons, with a colon in front if there is need for one. -/
def lead (needcolon : Bool) (l : List (List UInt8)) : List UInt8 :=
  if needcolon then l.flatMap (colon :: ·) else [colon].intercalate l

theorem lead_nil (needcolon : Bool) : lead needcolon [] = [] := by cases needcolon <;> rfl

theorem lead_cons (needcolon : Bool) (t : List UInt8) (l : List (List UInt8)) :
    lead needcolon (t :: l) = (if needcolon then [colon] else []) ++ t ++ lead true l := by
  have hjoin : ∀ (u : List UInt8) (us : List (List UInt8)),
      [colon].intercalate (u :: us) = u ++ us.flatMap (colon :: ·) := by
    intro u us
    induction us generalizing u with
    | nil => simp
    | cons v us ih =>
      rw [List.intercalate_cons_cons, ih, List.flatMap_cons]
      simp
  cases needcolon with
  | true => simp [lead]
  | false => simp [lead, hjoin]

/-- The words from `i` on, as they are printed -/
def texts (word : ℕ → ℕ) (i k : ℕ) : List (List UInt8) :=
  (List.range' i k).map fun j => print 16 (word j)

theorem texts_succ (word : ℕ → ℕ) (i k : ℕ) :
    texts word i (k + 1) = print 16 (word i) :: texts word (i + 1) k := by
  rw [texts, List.range'_succ, List.map_cons, texts]

theorem printWords_rest (word : ℕ → ℕ) {gap gaplen n i k : ℕ} (needcolon : Bool)
    (hi : i + k = 8) (hn : k < n) (hgap : gaplen = 0 ∨ gap < i) :
    printWords word gap gaplen n i needcolon = lead needcolon (texts word i k) := by
  induction k generalizing n i needcolon with
  | zero =>
    obtain ⟨n, rfl⟩ := Nat.exists_eq_succ_of_ne_zero (Nat.ne_of_gt hn)
    rw [printWords, if_pos (by omega)]
    exact (lead_nil needcolon).symm
  | succ k ih =>
    obtain ⟨n, rfl⟩ := Nat.exists_eq_succ_of_ne_zero (Nat.ne_of_gt (Nat.zero_lt_of_lt hn))
    rw [printWords, if_neg (by omega), if_neg (by omega), ih true (by omega) (by omega) (by omega),
      texts_succ, lead_cons]

theorem printWords_eq (word : ℕ → ℕ) {gap gaplen n i k : ℕ} (needcolon : Bool)
    (hi : i + k = gap) (hlen : 0 < gaplen) (h8 : gap + gaplen ≤ 8) (hn : 9 ≤ n + i) :
    printWords word gap gaplen n i needcolon = lead needcolon (texts word i k) ++
      colon :: colon :: lead false (texts word (gap + gaplen) (8 - (gap + gaplen))) := by
  induction k generalizing n i needcolon with
  | zero =>
    obtain ⟨n, rfl⟩ := Nat.exists_eq_succ_of_ne_zero (show n ≠ 0 by omega)
    obtain rfl : i = gap := hi
    rw [printWords, if_neg (by omega), if_pos ⟨rfl, hlen⟩,
      printWords_rest word (k := 8 - (i + gaplen)) false (by omega) (by omega) (by omega),
      show texts word i 0 = [] from rfl, lead_nil]
    rfl
  | succ k ih =>
    obtain ⟨n, rfl⟩ := Nat.exists_eq_succ_of_ne_zero (show n ≠ 0 by omega)
    rw [printWords, if_neg (by omega), if_neg (by omega), ih true (by omega) (by omega), texts_succ,
      lead_cons]
    simp

/-! ## The spelling -/

def groupsOf (data : List UInt8) (i k : ℕ) : Groups where
  numerals := (List.range' i k).map fun j => printed 16 (word data j)
  colon := false

theorem groupsOf_text (data : List UInt8) (i k : ℕ) :
    (groupsOf data i k).text = lead false (texts (word data) i k) := by
  rw [Groups.text, groupsOf, List.map_map]
  exact List.append_nil _

theorem groupsOf_ok (data : List UInt8) (i k : ℕ) : (groupsOf data i k).Ok where
  numerals w hw := by
    obtain ⟨j, -, rfl⟩ := List.mem_map.1 hw
    have hlt := word_lt data j
    have h16 : 16 ^ 4 = 65536 := by decide
    exact printed_within (by decide) (by decide) (by omega)
  ne_nil h := by cases h

theorem groupsOf_bytes {data : List UInt8} (hlen : data.length = 16) {i k : ℕ} (h : i + k ≤ 8) :
    numeralBytes (groupsOf data i k).numerals = (data.drop (2 * i)).take (2 * k) := by
  rw [← flatMap_wordBytes hlen h, numeralBytes, groupsOf, List.flatMap_map]
  apply List.flatMap_congr
  intro j _
  rw [value_printed (by decide) (by decide), Int.toNat_natCast]

/-- The spelling of an IPv6 address without its prefix length -/
def spell6 (data : List UInt8) : Body :=
  let gap := findGap (word data)
  if gap.2 = 0 then .v6 (groupsOf data 0 8) none
  else .v6 (groupsOf data 0 gap.1) (some (groupsOf data (gap.1 + gap.2) (8 - (gap.1 + gap.2))))

theorem length_lead {word : ℕ → ℕ} (hw : ∀ i, word i < 16 ^ 4) (needcolon : Bool) (i k : ℕ) :
    (lead needcolon (texts word i k)).length + (if needcolon then 0 else min k 1) ≤ 5 * k := by
  induction k generalizing i needcolon with
  | zero =>
    rw [show texts word i 0 = [] from rfl, lead_nil]
    cases needcolon <;> simp
  | succ k ih =>
    have hrest := ih true (i + 1)
    have hfirst : (print 16 (word i)).length ≤ 4 :=
      Lib.Strtol.length_print (by decide) (by decide) (hw i)
    rw [texts_succ, lead_cons, List.length_append, List.length_append]
    cases needcolon with
    | true =>
      simp only [if_true, List.length_cons, List.length_nil] at hrest ⊢
      omega
    | false =>
      simp only [if_true, Bool.false_eq_true, if_false, List.length_nil] at hrest ⊢
      omega

theorem spell6_spec {data : List UInt8} (hlen : data.length = 16) : (spell6 data).Ok ∧
    (spell6 data).proto = .ipv6 ∧ (spell6 data).data = data ∧
      (spell6 data).text =
        printWords (word data) (findGap (word data)).1 (findGap (word data)).2 9 0 false ∧
      2 ≤ (spell6 data).text.length ∧ (spell6 data).text.length ≤ 39 := by
  obtain ⟨h8, hzero⟩ := findGap_spec (word data)
  generalize hg : (findGap (word data)).1 = gap at h8 hzero
  generalize hl : (findGap (word data)).2 = gaplen at h8 hzero
  unfold spell6
  simp only [hg, hl]
  have hbound := length_lead (word_lt data) false
  by_cases h0 : gaplen = 0
  · have hok := groupsOf_ok data 0 8
    have htext := groupsOf_text data 0 8
    have hmin := length_le_text hok
    have hnum : (groupsOf data 0 8).numerals.length = 8 := by simp [groupsOf]
    have hmax := hbound 0 8
    rw [if_pos h0]
    refine ⟨.v6 hok (fun _ ht => by cases ht) (fun _ => rfl) (by rw [words, hnum]; decide), rfl, ?_,
      ?_, ?_, ?_⟩
    · rw [Body.data, groupsOf_bytes hlen le_rfl, List.drop_zero, List.take_of_length_le hlen.le, fill,
        hlen]
      simp
    · rw [Body.text, gapText, List.append_nil, htext,
        printWords_rest (k := 8) (word data) false rfl (by decide) (.inl h0)]
    · rw [Body.text, gapText, List.append_nil]
      omega
    · rw [Body.text, gapText, List.append_nil, htext]
      simp only [Bool.false_eq_true, if_false] at hmax
      omega
  · rw [if_neg h0]
    have hhead := groupsOf_text data 0 gap
    have htail := groupsOf_text data (gap + gaplen) (8 - (gap + gaplen))
    have hmax := hbound 0 gap
    have hmax' := hbound (gap + gaplen) (8 - (gap + gaplen))
    refine ⟨.v6 (groupsOf_ok ..) ?_ (fun _ => rfl) ?_, rfl, ?_, ?_, ?_, ?_⟩
    · intro t ht
      obtain rfl := Option.some.inj ht
      exact groupsOf_ok ..
    · simp only [words, Option.elim_some, groupsOf, List.length_map, List.length_range']
      omega
    · -- the words of the gap are the zeros between the head and the tail
      have hgap : (data.drop (2 * gap)).take (2 * gaplen) = List.replicate (2 * gaplen) 0 := by
        have hwords : ∀ j ∈ List.range' gap gaplen, wordBytes (word data j) = List.replicate 2 0 := by
          intro j hj
          obtain ⟨h1, h2⟩ := List.mem_range'_1.1 hj
          rw [hzero j h1 h2]
          rfl
        rw [← flatMap_wordBytes hlen h8, List.flatMap_congr hwords, List.flatMap_def, List.map_const',
          List.length_range', List.flatten_replicate_replicate, Nat.mul_comm]
      have hfill : 16 - (data.take (2 * gap)).length - (data.drop (2 * (gap + gaplen))).length =
          2 * gaplen := by
        rw [List.length_take, List.length_drop, hlen]
        omega
      have htake : (data.drop (2 * (gap + gaplen))).take (2 * (8 - (gap + gaplen))) =
          data.drop (2 * (gap + gaplen)) :=
        List.take_of_length_le (by rw [List.length_drop, hlen]; omega)
      rw [Body.data, groupsOf_bytes hlen (by omega), groupsOf_bytes hlen (by omega), Nat.mul_zero, List.drop_zero,
        htake, fill, hfill, ← hgap, Nat.mul_add, ← List.drop_drop, List.append_assoc,
        List.take_append_drop, List.take_append_drop]
    · rw [Body.text, gapText, hhead, htail,
        printWords_eq (word data) false (Nat.zero_add gap) (Nat.pos_of_ne_zero h0) h8 le_rfl]
    · rw [Body.text, gapText, List.length_append, List.length_cons, List.length_cons]
      omega
    · rw [Body.text, gapText, List.length_append, List.length_cons, List.length_cons, hhead, htail]
      simp only [Bool.false_eq_true, if_false] at hmax hmax'
      omega

/-- The spelling of an IPv4 address without its prefix length -/
def spell4 (data : List UInt8) : Body := .v4 ((data.drop 12).map fun b => printed 10 b.toNat)

theorem spell4_spec {data : List UInt8} (hlen : data.length = 16)
    (hzero : data.take 12 = List.replicate 12 0) (n : ℕ) : (spell4 data).Ok ∧
      (spell4 data).data = data ∧ toString .ipv4 n data = (spell4 data).text ++
        (if n < 32 then slash :: print 10 n else []) ∧
      2 ≤ (spell4 data).text.length ∧ (spell4 data).text.length ≤ 39 := by
  have hdrop : data.drop 12 = [data.getD 12 0, data.getD 13 0, data.getD 14 0, data.getD 15 0] := by
    have h := flatMap_wordBytes hlen (i := 6) (k := 2) (by decide)
    rw [List.take_of_length_le (by rw [List.length_drop, hlen])] at h
    rw [← h]
    simp [List.range', wordBytes_word]
  have hbyte : ∀ b : UInt8, (print 10 b.toNat).length ≤ 3 := fun b =>
    Lib.Strtol.length_print (by decide) (by decide) (b.toNat_lt.trans (by decide))
  have htext : (spell4 data).text = print 10 (data.getD 12 0).toNat ++ dot ::
      print 10 (data.getD 13 0).toNat ++ dot :: print 10 (data.getD 14 0).toNat ++ dot ::
        print 10 (data.getD 15 0).toNat := by
    rw [spell4, hdrop, Body.text]
    simp [List.intercalate_cons_cons, printed]
  refine ⟨.v4 ?_ ?_, ?_, ?_, ?_, ?_⟩
  · rw [List.length_map, List.length_drop, hlen]
  · intro w hw
    obtain ⟨b, -, rfl⟩ := List.mem_map.1 hw
    exact printed_within (by decide) (by decide) (Nat.le_of_lt_succ b.toNat_lt)
  · have hmap : ((data.drop 12).map fun b => printed 10 b.toNat).map
        (fun w => UInt8.ofNat (w.value 10).toNat) = data.drop 12 := by
      rw [List.map_map]
      refine (List.map_congr_left fun b _ => ?_).trans (List.map_id _)
      show UInt8.ofNat ((printed 10 b.toNat).value 10).toNat = b
      rw [value_printed (by decide) (by decide), Int.toNat_natCast, UInt8.ofNat_toNat]
    rw [spell4, Body.data, hmap, ← hzero, List.take_append_drop]
  · rw [htext, toString, if_pos rfl]
  · rw [htext]
    simp only [List.length_append, List.length_cons]
    omega
  · have h12 := hbyte (data.getD 12 0)
    have h13 := hbyte (data.getD 13 0)
    have h14 := hbyte (data.getD 14 0)
    have h15 := hbyte (data.getD 15 0)
    rw [htext]
    simp only [List.length_append, List.length_cons]
    omega

/-- The number behind the slash, which is left out for a single address -/
def spellLen (bits n : ℕ) : Option Numeral := if n < bits then some (printed 10 n) else none

/-- An address whose string is the text of a body that says what it is, and its prefix length. -/
theorem create_spelled {a : IpAddr} {body : Body} (hok : body.Ok) (hproto : body.proto = a.proto)
    (hdata : body.data = a.data) (hn : a.prefixlen ≤ a.proto.bits) (h2 : 2 ≤ body.text.length)
    (h39 : body.text.length ≤ 39) (hstr : a.str = body.text ++
      if a.prefixlen < a.proto.bits then slash :: print 10 a.prefixlen else []) :
    a.str.length + 1 ≤ 44 ∧ ∃ b, create a.str = some b ∧ equals b a = true := by
  have hbits : a.proto.bits ≤ 128 := by cases a.proto <;> decide
  have hlen : (print 10 a.prefixlen).length ≤ 3 :=
    Lib.Strtol.length_print (by decide) (by decide) (hn.trans_lt (hbits.trans_lt (by decide)))
  have hlength : 2 ≤ a.str.length ∧ a.str.length ≤ 43 := by
    rw [hstr, List.length_append]
    split_ifs
    · rw [List.length_cons]
      omega
    · rw [List.length_nil]
      omega
  have hsp : (Spelling.mk body (spellLen a.proto.bits a.prefixlen)).Ok := by
    refine ⟨hok, fun w hw => ?_⟩
    rw [hproto]
    unfold spellLen at hw
    split_ifs at hw
    · obtain rfl := Option.some.inj hw
      exact printed_within (by decide) (by decide) hn
    · cases hw
  have htext : (Spelling.mk body (spellLen a.proto.bits a.prefixlen)).text = a.str := by
    rw [hstr, Spelling.text, spellLen]
    split_ifs <;> rfl
  have hpl : (Spelling.mk body (spellLen a.proto.bits a.prefixlen)).prefixlen = a.prefixlen := by
    rw [Spelling.prefixlen, spellLen, hproto]
    split_ifs
    · rw [Option.elim_some, value_printed (by decide) (by decide), Int.toNat_natCast]
    · rw [Option.elim_none]
      omega
  refine ⟨by omega, _, create_iff.2 ⟨hlength, _, hsp, htext, rfl⟩, ?_⟩
  simp [equals, new, hproto, hpl, hdata]

/-- The string of an address fits into its buffer, and an equal address is created from it. -/
theorem create_string {a : IpAddr} (h : Produced a) :
    a.str.length + 1 ≤ 44 ∧ ∃ b, create a.str = some b ∧ equals b a = true := by
  have hok := h.ok
  rcases hok.proto with ⟨hv4, hle, hzero⟩ | ⟨hv6, hle⟩
  · obtain ⟨hbody, hdata, htext, h2, h39⟩ := spell4_spec hok.length hzero a.prefixlen
    apply create_spelled hbody hv4.symm hdata (by rw [hv4]; exact hle) h2 h39
    rw [hok.str, hv4, htext]
    rfl
  · obtain ⟨hbody, hproto, hdata, htext, h2, h39⟩ := spell6_spec hok.length
    apply create_spelled hbody (hproto.trans hv6.symm) hdata (by rw [hv6]; exact hle) h2 h39
    rw [hok.str, hv6, toString, if_neg (by decide), htext]
    rfl

/-- `192.168.0.0/16` is read back. -/
theorem create_string_network : ∃ a, create network = some a ∧ a.str.length + 1 ≤ 44 ∧
    ∃ b, create a.str = some b ∧ equals b a = true := by
  obtain ⟨a, ha⟩ := Option.isSome_iff_exists.1 (show (create network).isSome = true by decide)
  exact ⟨a, ha, create_string (.create ha)⟩

end PoserCore.IpAddr
