import PoserCore.IpAddr.Matches

/-!
# IPv4 in IPv6

`PSC_IpAddr_tov6` puts the four bytes of an IPv4 address behind a prefix of 96 bits, and
`PSC_IpAddr_tov4` takes them out again if one of the prefixes given is in front of them.  The two are
inverse to each other.
-/

namespace PoserCore.IpAddr

variable {a b p : IpAddr} {prefixes : List IpAddr}

/-- An address matches a prefix of 96 bits if it starts with its bytes. -/
theorem matchesPrefix_iff_take (hp : p.prefixlen = 96) : matchesPrefix b p = true ↔
    b.proto = p.proto ∧ 96 ≤ b.prefixlen ∧ b.data.take 12 = p.data.take 12 := by
  unfold matchesPrefix
  rw [hp]
  by_cases hproto : b.proto = p.proto
  · by_cases hlen : b.prefixlen < 96
    · simp [hlen, Nat.not_le.2 hlen]
    · simp [hproto, hlen, Nat.le_of_not_lt hlen]
  · simp [hproto]

theorem tov4_iff : tov4 b prefixes = some a ↔ 96 ≤ b.prefixlen ∧
    (∃ p ∈ prefixes, p.prefixlen = 96 ∧ b.proto = p.proto ∧ b.data.take 12 = p.data.take 12) ∧
      a = new .ipv4 (b.prefixlen - 96) (some (-1))
        (List.replicate 12 0 ++ (b.data.drop 12).take 4) := by
  unfold tov4
  by_cases hlen : b.prefixlen < 96
  · simp [hlen, Nat.not_le.2 hlen]
  have hany : (prefixes.any fun p => p.prefixlen = 96 && matchesPrefix b p) = true ↔
      ∃ p ∈ prefixes, p.prefixlen = 96 ∧ b.proto = p.proto ∧ b.data.take 12 = p.data.take 12 := by
    rw [List.any_eq_true]
    refine exists_congr fun p => and_congr_right fun _ => ?_
    rw [Bool.and_eq_true, decide_eq_true_eq]
    refine and_congr_right fun hp => ?_
    rw [matchesPrefix_iff_take hp]
    simp [Nat.le_of_not_lt hlen]
  rw [if_neg hlen]
  split_ifs with h
  · simp [hany.1 h, Nat.le_of_not_lt hlen, eq_comm]
  · simp [mt hany.2 h]

theorem tov6_eq (ha : a.proto = .ipv4) (hp : p.prefixlen = 96) : tov6 a p =
    some (new .ipv6 (a.prefixlen + 96) none (p.data.take 12 ++ (a.data.drop 12).take 4)) := by
  unfold tov6
  rw [if_neg (by simp [ha, hp])]

/-- Objects that are made from the same protocol, prefix length and bytes are equal, and have the
same string. -/
theorem same_new {proto : Proto} {n : ℕ} {port : Option ℤ} {data : List UInt8} (ha : a.Ok)
    (hproto : proto = a.proto) (hn : n = a.prefixlen) (hdata : data = a.data) :
    equals (new proto n port data) a = true ∧ (new proto n port data).str = a.str := by
  subst hproto hn hdata
  exact ⟨by simp [equals, new], ha.str.symm⟩

/-- An IPv4 address that is mapped behind a prefix and back is the same again, and so is an IPv6
address that is mapped to IPv4 and back behind the prefix it was found to have. -/
theorem nat64_inverse :
    (∀ a p prefixes, Produced a → a.proto = .ipv4 → Produced p → p.proto = .ipv6 →
      p.prefixlen = 96 → p ∈ prefixes → ∃ b c, tov6 a p = some b ∧ tov4 b prefixes = some c ∧
        equals c a = true ∧ c.str = a.str) ∧
    ∀ b prefixes a, Produced b → b.proto = .ipv6 → tov4 b prefixes = some a →
      ∃ p ∈ prefixes, p.proto = .ipv6 ∧ p.prefixlen = 96 ∧ ∃ c, tov6 a p = some c ∧
        equals c b = true ∧ c.str = b.str := by
  constructor
  · intro a p prefixes ha hv4 hp hv6 h96 hmem
    have hlen : (p.data.take 12).length = 12 := by rw [List.length_take, hp.ok.length]; rfl
    have hzero : a.data.take 12 = List.replicate 12 0 := by
      rcases ha.ok.proto with ⟨-, -, hzero⟩ | ⟨hv, -⟩
      · exact hzero
      · rw [hv4] at hv
        cases hv
    have hdrop : (a.data.drop 12).take 4 = a.data.drop 12 :=
      List.take_of_length_le (by rw [List.length_drop, ha.ok.length])
    refine ⟨_, _, tov6_eq hv4 h96,
      tov4_iff.2 ⟨Nat.le_add_left .., ⟨p, hmem, h96, hv6.symm, ?_⟩, rfl⟩, ?_⟩
    · rw [new, List.take_left' hlen]
    · refine same_new ha.ok hv4.symm (Nat.add_sub_cancel ..) ?_
      rw [new, List.drop_left' hlen, List.take_take, Nat.min_self, hdrop, ← hzero,
        List.take_append_drop]
  · intro b prefixes a hb hv6 h
    obtain ⟨h96, ⟨p, hmem, hp, hproto, htake⟩, rfl⟩ := tov4_iff.1 h
    have hdrop : (b.data.drop 12).take 4 = b.data.drop 12 :=
      List.take_of_length_le (by rw [List.length_drop, hb.ok.length])
    refine ⟨p, hmem, hproto.symm.trans hv6, hp, _, tov6_eq rfl hp, ?_⟩
    refine same_new hb.ok hv6.symm (Nat.sub_add_cancel h96) ?_
    rw [new, List.drop_left' (List.length_replicate ..), List.take_take, Nat.min_self, hdrop,
      ← htake, List.take_append_drop]

/-- The text `64:ff9b::/96` -/
def wellKnown : List UInt8 :=
  [0x36, 0x34, colon, 0x66, 0x66, 0x39, 0x62, colon, colon, slash, 0x39, 0x36]

/-- 10.0.0.1 behind the prefix `64:ff9b::/96`, and back. -/
theorem nat64_inverse_host : ∃ a p b c, create host = some a ∧ create wellKnown = some p ∧
    tov6 a p = some b ∧ tov4 b [p] = some c ∧ equals c a = true ∧
      ∃ q ∈ [p], ∃ d, tov6 c q = some d ∧ equals d b = true := by
  have hhost : (create host).map (fun a => a.proto) = some .ipv4 := by decide
  have hprefix : (create wellKnown).map (fun p => (p.proto, p.prefixlen)) = some (.ipv6, 96) := by
    decide
  obtain ⟨a, ha, hv4⟩ := Option.map_eq_some_iff.1 hhost
  obtain ⟨p, hp, hfields⟩ := Option.map_eq_some_iff.1 hprefix
  obtain ⟨hv6, h96⟩ := Prod.mk.inj hfields
  obtain ⟨b, c, hb, hc, hsame, -⟩ := nat64_inverse.1 a p [p] (.create ha) hv4 (.create hp) hv6 h96
    List.mem_cons_self
  have hpb : Produced b := .tov6 (.create ha) (.create hp) hb
  have hbv6 : b.proto = .ipv6 := by
    rw [tov6_eq hv4 h96] at hb
    obtain rfl := Option.some.inj hb
    rfl
  obtain ⟨q, hq, -, -, d, hd, hsame', -⟩ := nat64_inverse.2 b [p] c hpb hbv6 hc
  exact ⟨a, p, b, c, ha, hp, hb, hc, hsame, q, hq, d, hd, hsame'⟩

end PoserCore.IpAddr
