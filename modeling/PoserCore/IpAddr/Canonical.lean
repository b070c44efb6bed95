import PoserCore.IpAddr.RoundTrip

/-!
# Canonical text

The text of an IPv6 address by section 4 of RFC 5952 (`Canonical`), which shortens the first of the
longest runs of two or more groups that are zero.  The loop of `toString` keeps the last run of any
length instead (`lastRun_findGap`), so the string is canonical for the addresses for which this is
the same.
-/

namespace PoserCore.IpAddr

open Lib.Strtol (print)

/-! ## The text of RFC 5952 -/

/-- A group: lower-case hexadecimal digits without leading zeros. -/
def hexGroup (n : ℕ) : List UInt8 := (Nat.toDigits 16 n).map fun c => UInt8.ofNat c.toNat

/-- `k` groups from the `i`th on, separated by colons. -/
def hexGroups (word : ℕ → ℕ) (i k : ℕ) : List UInt8 :=
  [colon].intercalate ((List.range' i k).map fun j => hexGroup (word j))

/-- The run of zeros that is shortened: the first of the longest, unless it is a single group. -/
structure Shortened (word : ℕ → ℕ) (start len : ℕ) : Prop where
  run : ZeroRun word 8 (start, len)
  two_le : 2 ≤ len
  longest : ∀ s l, ZeroRun word 8 (s, l) → l ≤ len
  first : ∀ s, ZeroRun word 8 (s, len) → start ≤ s

inductive Canonical (word : ℕ → ℕ) : List UInt8 → Prop
  | full (h : ∀ s l, ZeroRun word 8 (s, l) → l < 2) : Canonical word (hexGroups word 0 8)
  | shortened {s l : ℕ} (h : Shortened word s l) : Canonical word
      (hexGroups word 0 s ++ colon :: colon :: hexGroups word (s + l) (8 - (s + l)))

/-- The string of an address, with its prefix length unless it is the full one. -/
def CanonicalString (a : IpAddr) : Prop :=
  ∃ text, Canonical (word a.data) text ∧
    a.str = text ++ if a.prefixlen < 128 then slash :: print 10 a.prefixlen else []

/-! ## The groups -/

theorem digit_eq {d : ℕ} (h : d < 16) :
    Lib.Strtol.digit d = UInt8.ofNat (Nat.digitChar d).toNat := by
  have hall : ∀ d < 16, Lib.Strtol.digit d = UInt8.ofNat (Nat.digitChar d).toNat := by decide
  exact hall d h

theorem print_eq_hexGroup (n : ℕ) : print 16 n = hexGroup n := by
  induction n using Nat.strongRecOn with
  | ind n ih =>
    rw [hexGroup, Nat.toDigits_eq_if (by decide)]
    split_ifs with hlt
    · rcases Nat.eq_zero_or_pos n with rfl | hpos
      · rfl
      · rw [print, if_neg hpos.ne', Nat.digits_of_lt 16 n hpos.ne' hlt, List.reverse_singleton,
          List.map_singleton, List.map_singleton, digit_eq hlt]
    · have hdiv : n / 16 ≠ 0 := by omega
      have hrest := ih (n / 16) (by omega)
      rw [print, if_neg hdiv] at hrest
      rw [print, if_neg (by omega), Nat.digits_def' (by decide) (by omega), List.reverse_cons,
        List.map_append, hrest, List.map_append, List.map_singleton, List.map_singleton,
        digit_eq (Nat.mod_lt n (by decide))]
      rfl

theorem hexGroups_eq (word : ℕ → ℕ) (i k : ℕ) :
    hexGroups word i k = lead false (texts word i k) := by
  simp only [hexGroups, lead, texts, print_eq_hexGroup]
  rfl

/-! ## The last run of zeros -/

/-- The last run of zeros among the first `n` groups; without zeros it is empty. -/
structure LastRun (word : ℕ → ℕ) (n start len : ℕ) : Prop where
  run : ZeroRun word n (start, len)
  before : start ≠ 0 → word (start - 1) ≠ 0
  behind : ∀ i, start + len ≤ i → i < n → word i ≠ 0
  empty : len = 0 → start = 0

theorem lastRun_findGap (word : ℕ → ℕ) : LastRun word 8 (findGap word).1 (findGap word).2 := by
  unfold findGap
  generalize 8 = n
  induction n with
  | zero =>
    exact ⟨⟨le_rfl, fun i _ hi => absurd hi (Nat.not_lt_zero i)⟩, fun h => absurd rfl h,
      fun i _ hi => absurd hi (Nat.not_lt_zero i), fun _ => rfl⟩
  | succ n ih =>
    rw [List.range_succ, List.foldl_append, List.foldl_cons, List.foldl_nil]
    generalize (List.range n).foldl _ (0, 0) = run at ih
    obtain ⟨gap, gaplen⟩ := run
    obtain ⟨⟨hle, hzero⟩, hbefore, hbehind, hempty⟩ := ih
    simp only at hle hzero hbefore hbehind hempty ⊢
    split_ifs with hw hgt
    · -- a zero behind other groups begins a new run
      refine ⟨⟨le_rfl, fun i h1 h2 => ?_⟩, fun _ => hbehind _ (by omega) (by omega), ?_,
        fun h => absurd h one_ne_zero⟩
      · simp only at h1 h2
        rwa [show i = n by omega]
      · intro i h1 h2
        omega
    · have hn : n = gap + gaplen := by omega
      refine ⟨⟨by simp only; omega, fun i h1 h2 => ?_⟩, hbefore, ?_,
        fun h => absurd h (Nat.succ_ne_zero _)⟩
      · simp only at h1 h2
        rcases Nat.lt_or_ge i (gap + gaplen) with hi | hi
        · exact hzero i h1 hi
        · rwa [show i = n by omega]
      · intro i h1 h2
        omega
    · refine ⟨⟨Nat.le_succ_of_le hle, hzero⟩, hbefore, fun i h1 h2 => ?_, hempty⟩
      rcases Nat.lt_or_ge i n with hi | hi
      · exact hbehind i h1 hi
      · rwa [show i = n by omega]

/-- A run that does not end before the last one lies in it. -/
theorem LastRun.inside {word : ℕ → ℕ} {start len s l : ℕ} (h : LastRun word 8 start len)
    (hrun : ZeroRun word 8 (s, l)) (hs : start < s + l) (hl : 0 < l) :
    start ≤ s ∧ s + l ≤ start + len := by
  obtain ⟨hle, hzero⟩ := hrun
  simp only at hle hzero
  constructor
  · by_contra hlt
    exact h.before (by omega) (hzero _ (by omega) (by omega))
  · by_contra hlt
    exact h.behind (s + l - 1) (by omega) (by omega) (hzero _ (by omega) (by omega))

/-- The groups for which the last run of zeros is the one to be shortened: there is no zero, or the
last run has at least two groups and those before it have fewer. -/
def LastLongest (word : ℕ → ℕ) : Prop :=
  ∃ start len, LastRun word 8 start len ∧ (len = 0 ∨ 2 ≤ len ∧
    ∀ s l, ZeroRun word 8 (s, l) → s + l ≤ start → l < len)

theorem LastRun.unique {word : ℕ → ℕ} {start len start' len' : ℕ} (h : LastRun word 8 start len)
    (h' : LastRun word 8 start' len') : start = start' ∧ len = len' := by
  have hnil : ∀ {s l s' l' : ℕ}, LastRun word 8 s l → LastRun word 8 s' l' → l = 0 → l' = 0 := by
    intro s l s' l' hl hl' h0
    by_contra hne
    obtain ⟨hle, hzero⟩ := hl'.run
    simp only at hle hzero
    obtain rfl := hl.empty h0
    exact hl.behind s' (by omega) (by omega) (hzero s' le_rfl (by omega))
  rcases Nat.eq_zero_or_pos len with h0 | hpos
  · have h0' := hnil h h' h0
    rw [h.empty h0, h'.empty h0', h0, h0']
    exact ⟨rfl, rfl⟩
  · have hpos' : 0 < len' := Nat.pos_of_ne_zero fun h0' => hpos.ne' (hnil h' h h0')
    obtain ⟨hle, hzero⟩ := h.run
    obtain ⟨hle', hzero'⟩ := h'.run
    simp only at hle hzero hle' hzero'
    -- neither ends before the other
    have hlast : start + len - 1 < start' + len' := by
      by_contra hlt
      exact h'.behind _ (Nat.le_of_not_lt hlt) (by omega) (hzero _ (by omega) (by omega))
    have hlast' : start' + len' - 1 < start + len := by
      by_contra hlt
      exact h.behind _ (Nat.le_of_not_lt hlt) (by omega) (hzero' _ (by omega) (by omega))
    have hin := h.inside h'.run (by omega) hpos'
    have hin' := h'.inside h.run (by omega) hpos
    omega

/-- That run is the one to be shortened. -/
theorem LastRun.shortened {word : ℕ → ℕ} {start len : ℕ} (h : LastRun word 8 start len) :
    Shortened word start len ↔ 2 ≤ len ∧ ∀ s l, ZeroRun word 8 (s, l) → s + l ≤ start → l < len := by
  constructor
  · intro hsh
    refine ⟨hsh.two_le, fun s l hrun hend => ?_⟩
    rcases (hsh.longest s l hrun).lt_or_eq with hlt | rfl
    · exact hlt
    · have := hsh.first s hrun
      have := hsh.two_le
      omega
  · rintro ⟨h2, hbefore⟩
    refine ⟨h.run, h2, fun s l hrun => ?_, fun s hrun => ?_⟩
    · rcases Nat.lt_or_ge start (s + l) with hs | hs
      · rcases Nat.eq_zero_or_pos l with rfl | hl
        · exact Nat.zero_le _
        · have := h.inside hrun hs hl
          omega
      · exact (hbefore s l hrun hs).le
    · rcases Nat.lt_or_ge start (s + len) with hs | hs
      · exact (h.inside hrun hs (by omega)).1
      · exact absurd (hbefore s len hrun hs) (lt_irrefl _)

/-! ## The string -/

/-- The address with the groups of a run left out. -/
def gapBody (data : List UInt8) (start len : ℕ) : Body :=
  .v6 (groupsOf data 0 start) (some (groupsOf data (start + len) (8 - (start + len))))

theorem gapBody_ok (data : List UInt8) {start len : ℕ} (h : start + len ≤ 8) :
    (gapBody data start len).Ok := by
  refine .v6 (groupsOf_ok ..) ?_ (fun _ => rfl) ?_
  · intro t ht
    obtain rfl := Option.some.inj ht
    exact groupsOf_ok ..
  · simp only [words, Option.elim_some, groupsOf, List.length_map, List.length_range']
    omega

theorem gapBody_text (data : List UInt8) (start len : ℕ) : (gapBody data start len).text =
    hexGroups (word data) 0 start ++
      colon :: colon :: hexGroups (word data) (start + len) (8 - (start + len)) := by
  rw [gapBody, Body.text, gapText, groupsOf_text, groupsOf_text, hexGroups_eq, hexGroups_eq]

def fullBody (data : List UInt8) : Body := .v6 (groupsOf data 0 8) none

theorem fullBody_ok (data : List UInt8) : (fullBody data).Ok := by
  refine .v6 (groupsOf_ok ..) (fun _ ht => by cases ht) (fun _ => rfl) ?_
  simp [words, groupsOf]

theorem fullBody_text (data : List UInt8) : (fullBody data).text = hexGroups (word data) 0 8 := by
  rw [fullBody, Body.text, gapText, List.append_nil, groupsOf_text, hexGroups_eq]

theorem gapBody_ne_fullBody (data : List UInt8) (start len : ℕ) :
    gapBody data start len ≠ fullBody data := by
  intro h
  cases (Body.v6.inj h).2

theorem gapBody_inj {data : List UInt8} {start len start' len' : ℕ} (h : start + len ≤ 8)
    (h' : start' + len' ≤ 8) (heq : gapBody data start len = gapBody data start' len') :
    start = start' ∧ len = len' := by
  have hlength : ∀ i k, (groupsOf data i k).numerals.length = k := fun i k => by simp [groupsOf]
  obtain ⟨hhead, htail⟩ := Body.v6.inj heq
  have h1 := congrArg (fun g => g.numerals.length) hhead
  have h2 := congrArg (fun g => g.numerals.length) (Option.some.inj htail)
  simp only [hlength] at h1 h2
  omega

/-- What is printed for the address: the last run of zeros is left out, whatever its length. -/
theorem printWords_body (data : List UInt8) {start len : ℕ} (h : start + len ≤ 8) :
    printWords (word data) start len 9 0 false =
      (if len = 0 then fullBody data else gapBody data start len).text := by
  split_ifs with h0
  · rw [fullBody_text, hexGroups_eq,
      printWords_rest (k := 8) (word data) false rfl (by decide) (.inl h0)]
  · rw [gapBody_text, hexGroups_eq, hexGroups_eq,
      printWords_eq (word data) false (Nat.zero_add start) (Nat.pos_of_ne_zero h0) h le_rfl]

/-- Where the last run is empty, there is none. -/
theorem LastRun.lt_two {word : ℕ → ℕ} {start len : ℕ} (h : LastRun word 8 start len)
    (h0 : len = 0) (s l : ℕ) (hrun : ZeroRun word 8 (s, l)) : l < 2 := by
  obtain rfl := h.empty h0
  by_contra hl
  have := h.inside hrun (by omega) (by omega)
  omega

theorem canonicalString_iff {a : IpAddr} (h : a.Ok) (hv6 : a.proto = .ipv6) :
    CanonicalString a ↔ LastLongest (word a.data) := by
  have hlast := lastRun_findGap (word a.data)
  generalize hg : (findGap (word a.data)).1 = gap at hlast
  generalize hl : (findGap (word a.data)).2 = gaplen at hlast
  have h8 := hlast.run.1
  have hstr : a.str = (if gaplen = 0 then fullBody a.data else gapBody a.data gap gaplen).text ++
      if a.prefixlen < 128 then slash :: print 10 a.prefixlen else [] := by
    rw [← printWords_body a.data h8, h.str, hv6, toString, if_neg (by decide)]
    simp only [hg, hl]
  constructor
  · rintro ⟨text, hcan, htext⟩
    have hsame := List.append_cancel_right (hstr.symm.trans htext)
    refine ⟨gap, gaplen, hlast, ?_⟩
    split_ifs at hsame with h0
    · exact .inl h0
    · cases hcan with
      | full hno =>
        rw [← fullBody_text] at hsame
        exact absurd (body_inj (gapBody_ok a.data h8) (fullBody_ok a.data) hsame)
          (gapBody_ne_fullBody a.data _ _)
      | @shortened s l hsh =>
        rw [← gapBody_text] at hsame
        obtain ⟨rfl, rfl⟩ := gapBody_inj h8 hsh.run.1
          (body_inj (gapBody_ok a.data h8) (gapBody_ok a.data hsh.run.1) hsame)
        exact .inr (hlast.shortened.1 hsh)
  · rintro ⟨start, len, hlast', hlen⟩
    obtain ⟨rfl, rfl⟩ := hlast.unique hlast'
    rcases hlen with h0 | hlong
    · refine ⟨_, .full fun s l => hlast.lt_two h0 s l, ?_⟩
      rw [hstr, if_pos h0, fullBody_text]
    · refine ⟨_, .shortened (hlast.shortened.2 hlong), ?_⟩
      rw [hstr, if_neg (by omega), gapBody_text]

/-- The string of an IPv6 address is the canonical one if and only if there is no group of zeros, or
the last run of them has at least two groups and is longer than every other run. -/
theorem string_canonical {a : IpAddr} (h : Produced a) (hv6 : a.proto = .ipv6) :
    CanonicalString a ↔ LastLongest (word a.data) :=
  canonicalString_iff h.ok hv6

/-- The text `::1` -/
def loopback : List UInt8 := [colon, colon, 0x31]

theorem string_canonical_loopback :
    ∃ a, create loopback = some a ∧ a.str = loopback ∧ CanonicalString a := by
  have hrun : (create loopback).map (fun a => (a.proto, a.data, a.str)) =
      some (.ipv6, List.replicate 15 0 ++ [1], loopback) := by decide
  obtain ⟨a, ha, hfields⟩ := Option.map_eq_some_iff.1 hrun
  obtain ⟨hv6, hdata, hstr⟩ := Prod.mk.inj hfields |>.imp_right Prod.mk.inj
  have hlast : LastRun (word a.data) 8 0 7 := by
    rw [hdata]
    exact ⟨⟨by decide, by decide⟩, by decide, by decide, by decide⟩
  refine ⟨a, ha, hstr, (string_canonical (.create ha) hv6).2 ⟨0, 7, hlast, .inr ⟨by decide, ?_⟩⟩⟩
  intro s l _ hend
  omega

/-- The text `1:0:1:1:1:1:1:1` -/
def singleZero : List UInt8 :=
  [0x31, colon, 0x30, colon, 0x31, colon, 0x31, colon, 0x31, colon, 0x31, colon, 0x31, colon, 0x31]

/-- A single group of zeros is left out of the string. -/
theorem string_single_zero : ¬ ∀ a, Produced a → a.proto = .ipv6 → CanonicalString a := by
  intro hall
  have hrun : (create singleZero).map (fun a => (a.proto, a.data)) =
      some (.ipv6, [0, 1, 0, 0, 0, 1, 0, 1, 0, 1, 0, 1, 0, 1, 0, 1]) := by decide
  obtain ⟨a, ha, hfields⟩ := Option.map_eq_some_iff.1 hrun
  obtain ⟨hv6, hdata⟩ := Prod.mk.inj hfields
  have hp : Produced a := .create ha
  obtain ⟨start, len, hlast, hlen⟩ := (canonicalString_iff hp.ok hv6).1 (hall a hp hv6)
  have hsingle : LastRun (word a.data) 8 1 1 := by
    rw [hdata]
    exact ⟨⟨by decide, by decide⟩, by decide, by decide, by decide⟩
  obtain ⟨-, rfl⟩ := hlast.unique hsingle
  omega

end PoserCore.IpAddr
