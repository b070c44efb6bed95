import PoserCore.IpAddr.Parser

/-!
# What is accepted

`PSC_IpAddr_create` should accept what denotes an address.  It is right on a string if and only if
this string, as long as it fits into the buffer, has no spelling that is not regular, and, where it
does not fit, denotes nothing (`accepts_iff_denotes`).
-/

namespace PoserCore.IpAddr

open Lib.Strtol (Numeral isDigit valueOf)

/-- The string is accepted, with this protocol, prefix length and these bytes. -/
def Accepts (s : List UInt8) (proto : Proto) (prefixlen : ℕ) (data : List UInt8) : Prop :=
  ∃ a, create s = some a ∧ a.proto = proto ∧ a.prefixlen = prefixlen ∧ a.data = data

theorem accepts_iff {s : List UInt8} {proto : Proto} {n : ℕ} {data : List UInt8} :
    Accepts s proto n data ↔ (2 ≤ s.length ∧ s.length ≤ 43) ∧ ∃ sp : Spelling, sp.Ok ∧ sp.text = s ∧
      sp.body.proto = proto ∧ sp.prefixlen = n ∧ sp.body.data = data := by
  constructor
  · rintro ⟨a, ha, rfl, rfl, rfl⟩
    obtain ⟨hlen, sp, hok, htext, rfl⟩ := create_iff.1 ha
    exact ⟨hlen, sp, hok, htext, rfl, rfl, rfl⟩
  · rintro ⟨hlen, sp, hok, htext, rfl, rfl, rfl⟩
    exact ⟨_, create_iff.2 ⟨hlen, sp, hok, htext, rfl⟩, rfl, rfl, rfl⟩

/-! ## Regular spellings denote -/

theorem map_plain (ds : List (List UInt8)) :
    (ds.map Numeral.plain).map Numeral.text = ds := by
  simp [Function.comp_def]

theorem map_digits {ws : List Numeral} (h : ∀ w ∈ ws, Plain w) :
    ws.map Numeral.text = ws.map Numeral.digits :=
  List.map_congr_left fun w hw => (h w hw).text_eq

theorem numeralBytes_plain (gs : List (List UInt8)) :
    numeralBytes (gs.map Numeral.plain) = groupBytes gs := by
  simp [numeralBytes, groupBytes, List.flatMap_map]

theorem numeralBytes_digits {ws : List Numeral} (h : ∀ w ∈ ws, Plain w) :
    numeralBytes ws = groupBytes (ws.map Numeral.digits) := by
  rw [numeralBytes, groupBytes, List.flatMap_map]
  apply List.flatMap_congr
  intro w hw
  rw [(h w hw).value_eq, Int.toNat_natCast]

theorem fill_full {bytes : List UInt8} (h : bytes.length = 16) : fill bytes [] = bytes := by
  simp [fill, h]

theorem groups_plain {gs : List (List UInt8)} (h : ∀ g ∈ gs, Group g) :
    (Groups.mk (gs.map Numeral.plain) false).Ok ∧ (Groups.mk (gs.map Numeral.plain) false).Regular ∧
      (Groups.mk (gs.map Numeral.plain) false).text = [colon].intercalate gs := by
  refine ⟨⟨?_, fun hc => by cases hc⟩, ⟨?_, rfl⟩, ?_⟩
  · intro w hw
    obtain ⟨g, hg, rfl⟩ := List.mem_map.1 hw
    exact (h g hg).within
  · intro w hw
    obtain ⟨g, hg, rfl⟩ := List.mem_map.1 hw
    exact ⟨plain_plain g, (h g hg).length⟩
  · rw [Groups.text, map_plain]
    simp

theorem plain_groups {g : Groups} (hg : g.Ok) (hr : g.Regular) :
    (∀ d ∈ g.numerals.map Numeral.digits, Group d) ∧
      [colon].intercalate (g.numerals.map Numeral.digits) = g.text := by
  refine ⟨fun d hd => ?_, ?_⟩
  · obtain ⟨w, hw, rfl⟩ := List.mem_map.1 hd
    exact group_digits (hg.numerals w hw) (hr.numerals w hw).2
  · rw [← map_digits fun w hw => (hr.numerals w hw).1, Groups.text, hr.colon]
    simp

theorem addrText_iff {s : List UInt8} {proto : Proto} {data : List UInt8} : AddrText s proto data ↔
    ∃ body : Body, body.Ok ∧ body.Regular ∧ body.text = s ∧ body.proto = proto ∧
      body.data = data := by
  constructor
  · intro h
    cases h with
    | @v4 ds hlen hds =>
      refine ⟨.v4 (ds.map Numeral.plain), .v4 (by simpa using hlen) ?_, .v4 ?_, ?_, rfl, ?_⟩
      · intro w hw
        obtain ⟨d, hd, rfl⟩ := List.mem_map.1 hw
        exact (hds d hd).within
      · intro w hw
        obtain ⟨d, -, rfl⟩ := List.mem_map.1 hw
        exact plain_plain d
      · rw [Body.text, map_plain]
      · simp [Body.data, Function.comp_def]
    | @full gs hlen hgs =>
      obtain ⟨hok, hreg, htext⟩ := groups_plain hgs
      refine ⟨.v6 ⟨gs.map Numeral.plain, false⟩ none,
        .v6 hok (fun _ ht => by cases ht) (fun _ => rfl) ?_, .full hreg (by simpa using hlen), ?_,
        rfl, ?_⟩
      · simp [words, hlen]
      · rw [Body.text, htext, gapText, List.append_nil]
      · rw [Body.data, fill_full (by rw [length_numeralBytes, List.length_map, hlen])]
        exact numeralBytes_plain gs
    | @gap hs ts hlen hhs hts =>
      obtain ⟨hok, hreg, htext⟩ := groups_plain hhs
      obtain ⟨hok', hreg', htext'⟩ := groups_plain hts
      refine ⟨.v6 ⟨hs.map Numeral.plain, false⟩ (some ⟨ts.map Numeral.plain, false⟩),
        .v6 hok ?_ (fun _ => rfl) ?_, .gap hreg hreg' (by simpa using hlen), ?_, rfl, ?_⟩
      · intro t ht
        obtain rfl := Option.some.inj ht
        exact hok'
      · simp only [words, Option.elim_some, List.length_map]
        omega
      · rw [Body.text, htext, gapText, htext']
      · rw [Body.data]
        simp only
        rw [numeralBytes_plain, numeralBytes_plain]
  · rintro ⟨body, hok, hreg, rfl, rfl, rfl⟩
    cases hreg with
    | @v4 ws hplain =>
      obtain ⟨hlen, hws⟩ := hok
      have hdec : ∀ d ∈ ws.map Numeral.digits, Decimal 255 d := by
        intro d hd
        obtain ⟨w, hw, rfl⟩ := List.mem_map.1 hd
        exact (hplain w hw).decimal (hws w hw)
      have h := AddrText.v4 (by simpa using hlen) hdec
      have hdata : (ws.map Numeral.digits).map (fun d => UInt8.ofNat (valueOf 10 d)) =
          ws.map fun w => UInt8.ofNat (w.value 10).toNat := by
        rw [List.map_map]
        refine List.map_congr_left fun w hw => ?_
        rw [(hplain w hw).value_eq, Int.toNat_natCast]
        rfl
      rw [hdata, ← map_digits hplain] at h
      exact h
    | @full head hr hlen =>
      obtain - | ⟨hhead, -, -, -⟩ := hok
      obtain ⟨hgroups, htext⟩ := plain_groups hhead hr
      have h := AddrText.full (by simpa using hlen) hgroups
      rw [htext, ← numeralBytes_digits fun w hw => (hr.numerals w hw).1] at h
      rw [Body.text, gapText, List.append_nil, Body.data,
        fill_full (by rw [length_numeralBytes, hlen])]
      exact h
    | @gap head tail hr hr' hlen =>
      obtain - | ⟨hhead, htail, -, -⟩ := hok
      obtain ⟨hgroups, htext⟩ := plain_groups hhead hr
      obtain ⟨hgroups', htext'⟩ := plain_groups (htail tail rfl) hr'
      have h := AddrText.gap (by simpa using hlen) hgroups hgroups'
      rw [htext, htext', ← numeralBytes_digits fun w hw => (hr.numerals w hw).1,
        ← numeralBytes_digits fun w hw => (hr'.numerals w hw).1] at h
      exact h

/-- The textual form consists of the regular spellings. -/
theorem denotes_iff {s : List UInt8} {proto : Proto} {n : ℕ} {data : List UInt8} :
    Denotes s proto n data ↔ ∃ sp : Spelling, sp.Ok ∧ sp.Regular ∧ sp.text = s ∧
      sp.body.proto = proto ∧ sp.prefixlen = n ∧ sp.body.data = data := by
  constructor
  · intro h
    cases h with
    | addr h =>
      obtain ⟨body, hok, hreg, rfl, rfl, rfl⟩ := addrText_iff.1 h
      refine ⟨⟨body, none⟩, ⟨hok, fun _ hw => by cases hw⟩, ⟨hreg, fun _ hw => by cases hw⟩, ?_, rfl,
        rfl, rfl⟩
      simp [Spelling.text]
    | @network t ds _ _ h hds =>
      obtain ⟨body, hok, hreg, rfl, rfl, rfl⟩ := addrText_iff.1 h
      refine ⟨⟨body, some (Numeral.plain ds)⟩, ⟨hok, ?_⟩, ⟨hreg, ?_⟩, rfl, rfl, ?_, rfl⟩
      · intro w hw
        obtain rfl := Option.some.inj hw
        exact hds.within
      · intro w hw
        obtain rfl := Option.some.inj hw
        exact plain_plain ds
      · simp [Spelling.prefixlen]
  · rintro ⟨⟨body, len⟩, hok, hreg, rfl, rfl, rfl, rfl⟩
    have h := addrText_iff.2 ⟨body, hok.body, hreg.body, rfl, rfl, rfl⟩
    cases len with
    | none =>
      rw [Spelling.text, Option.elim_none, List.append_nil]
      exact .addr h
    | some w =>
      have hplain := hreg.len w rfl
      have hnet := Denotes.network h (hplain.decimal (hok.len w rfl))
      rw [← hplain.text_eq] at hnet
      rw [Spelling.prefixlen, Option.elim_some, hplain.value_eq, Int.toNat_natCast, ← hplain.text_eq]
      exact hnet

theorem regular_of_denotes {s : List UInt8} {proto : Proto} {n : ℕ} {data : List UInt8}
    (h : Denotes s proto n data) {sp : Spelling} (hok : sp.Ok) (htext : sp.text = s) :
    sp.Regular := by
  obtain ⟨sp', hok', hreg, htext', -⟩ := denotes_iff.1 h
  rw [spelling_inj hok hok' (htext.trans htext'.symm)]
  exact hreg

theorem two_le_text {body : Body} (hok : body.Ok) (hreg : body.Regular) : 2 ≤ body.text.length := by
  cases hreg with
  | @v4 ws hplain =>
    obtain ⟨hlen, hws⟩ := hok
    rcases ws with _ | ⟨w, _ | ⟨v, ws⟩⟩
    · cases hlen
    · cases hlen
    · obtain ⟨b, t, htext, -⟩ := text_cons (by decide) (hws w List.mem_cons_self).toOk
      rw [Body.text, List.map_cons, List.map_cons, List.intercalate_cons_cons, htext]
      simp only [List.length_append, List.length_cons, List.length_nil]
      omega
  | @full head hr hlen =>
    obtain - | ⟨hhead, -, -, -⟩ := hok
    have hle := length_le_text hhead
    rw [Body.text, gapText, List.append_nil]
    omega
  | @gap head tail hr hr' hlen =>
    rw [Body.text, gapText, List.length_append, List.length_cons, List.length_cons]
    omega

/-- The parser is right on a string that fits if every spelling of this string is regular, and on
a longer one if it does not denote an address, and on no other. -/
theorem accepts_iff_denotes (s : List UInt8) :
    (∀ proto n data, Accepts s proto n data ↔ Denotes s proto n data) ↔
      (2 ≤ s.length → s.length ≤ 43 → ∀ sp : Spelling, sp.Ok → sp.text = s → sp.Regular) ∧
        (43 < s.length → ¬ ∃ proto n data, Denotes s proto n data) := by
  constructor
  · intro h
    refine ⟨fun h2 h43 sp hok htext => ?_, ?_⟩
    · exact regular_of_denotes
        ((h _ _ _).1 (accepts_iff.2 ⟨⟨h2, h43⟩, sp, hok, htext, rfl, rfl, rfl⟩)) hok htext
    · rintro hlong ⟨proto, n, data, hd⟩
      obtain ⟨⟨-, h43⟩, -⟩ := accepts_iff.1 ((h _ _ _).2 hd)
      omega
  · rintro ⟨hreg, hlong⟩ proto n data
    constructor
    · intro ha
      obtain ⟨⟨h2, h43⟩, sp, hok, htext, hfields⟩ := accepts_iff.1 ha
      exact denotes_iff.2 ⟨sp, hok, hreg h2 h43 sp hok htext, htext, hfields⟩
    · intro hd
      obtain ⟨sp, hok, hsp, rfl, hfields⟩ := denotes_iff.1 hd
      have h2 := two_le_text hok.body hsp.body
      have h43 : sp.text.length ≤ 43 := Nat.le_of_not_lt fun hl => hlong hl ⟨_, _, _, hd⟩
      refine accepts_iff.2 ⟨⟨?_, h43⟩, sp, hok, rfl, hfields⟩
      rw [Spelling.text, List.length_append]
      omega

/-- The text `1:2:3` -/
def threeWords : List UInt8 := [0x31, colon, 0x32, colon, 0x33]

def threeDigits : List (List UInt8) := [0x31, 0x32, 0x33].map fun d => [d]

/-- Three words are not an address, but are accepted. -/
theorem accepts_three_words :
    ¬ ∀ s proto n data, Accepts s proto n data ↔ Denotes s proto n data := by
  intro hall
  have hgroup : ∀ ds ∈ threeDigits, Group ds := by
    intro ds hds
    obtain ⟨d, hd, rfl⟩ := List.mem_map.1 hds
    have hdigit := List.all_eq_true.1 (show [0x31, 0x32, 0x33].all (isDigit 16) = true by decide)
    exact ⟨List.cons_ne_nil d [], List.forall_mem_singleton.2 (hdigit d hd), Nat.le_add_left 1 3⟩
  obtain ⟨hg, -, htext⟩ := groups_plain hgroup
  generalize hdef : Groups.mk (threeDigits.map Numeral.plain) false = g at hg htext
  have hlen : g.numerals.length = 3 := by rw [← hdef]; rfl
  have hbody : (Body.v6 g none).Ok :=
    .v6 hg (fun _ ht => by cases ht) (fun _ => by rw [← hdef]) (by rw [words, hlen]; decide)
  have hok : (Spelling.mk (.v6 g none) none).Ok := ⟨hbody, fun _ hw => by cases hw⟩
  have htext' : (Spelling.mk (.v6 g none) none).text = threeWords := by
    rw [Spelling.text, Option.elim_none, Body.text, htext]
    decide
  have hd := (hall _ _ _ _).1 (accepts_iff.2 ⟨by decide, _, hok, htext', rfl, rfl, rfl⟩)
  have hreg := (regular_of_denotes hd hok htext').body
  obtain - | ⟨-, hlen'⟩ := hreg
  omega

end PoserCore.IpAddr
