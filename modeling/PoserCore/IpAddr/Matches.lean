import PoserCore.IpAddr.Model

/-!
# Matching networks

`PSC_IpAddr_matches` compares from the start of the array for both protocols, while the bytes of an
IPv4 address begin at the twelfth.  For IPv6 it compares the bits of the prefix (`take_bits`); for
IPv4 it compares zeros, so every address is part of every network with a prefix that is not longer.
-/

namespace PoserCore.IpAddr

set_option linter.dupNamespace false

/-! ## What the constructors produce -/

/-- An object fits its protocol, and its string was made from its other fields. -/
structure IpAddr.Ok (a : IpAddr) : Prop where
  length : a.data.length = 16
  proto : (a.proto = .ipv4 ∧ a.prefixlen ≤ 32 ∧ a.data.take 12 = List.replicate 12 0) ∨
    (a.proto = .ipv6 ∧ a.prefixlen ≤ 128)
  str : a.str = toString a.proto a.prefixlen a.data

theorem ok_ipv4 {n : ℕ} {port : Option ℤ} {bytes : List UInt8} (hn : n ≤ 32)
    (hb : bytes.length = 4) : (new .ipv4 n port (List.replicate 12 0 ++ bytes)).Ok where
  length := by simp [new, hb]
  proto := .inl ⟨rfl, hn, List.take_left' (List.length_replicate ..)⟩
  str := rfl

theorem ok_ipv6 {n : ℕ} {port : Option ℤ} {data : List UInt8} (hn : n ≤ 128)
    (hd : data.length = 16) : (new .ipv6 n port data).Ok where
  length := hd
  proto := .inr ⟨rfl, hn⟩
  str := rfl

theorem length_parsev4Loop {n : ℕ} {buf bytes : List UInt8} (h : parsev4Loop n buf = some bytes) :
    bytes.length = n + 1 := by
  induction n generalizing buf bytes with
  | zero =>
    rw [parsev4Loop] at h
    split at h
    · cases h
    · split at h
      · cases h
      · obtain rfl := Option.some.inj h
        rfl
  | succ n ih =>
    rw [parsev4Loop] at h
    split at h
    · cases h
    · split at h
      · cases h
      · obtain ⟨bs, hbs, rfl⟩ := Option.map_eq_some_iff.1 h
        rw [List.length_cons, ih hbs]

/-- The arrays of `parsev6` are filled two bytes at a time and never overflow. -/
def Fits (r : List UInt8 × Option (List UInt8)) : Prop :=
  r.1.length + (r.2.getD []).length ≤ 16 ∧ (r.1.length + (r.2.getD []).length) % 2 = 0

theorem length_store (word : ℕ) (head : List UInt8) (tail : Option (List UInt8)) :
    (store word head tail).1.length + ((store word head tail).2.getD []).length =
      head.length + (tail.getD []).length + 2 := by
  cases tail with
  | none => simp [store]
  | some tail =>
    simp only [store, Option.getD_some, List.length_append, List.length_cons, List.length_nil]
    omega

theorem fits_parsev6Loop {n : ℕ} {head buf : List UInt8} {tail : Option (List UInt8)}
    {r : List UInt8 × Option (List UInt8)} (hf : Fits (head, tail))
    (h : parsev6Loop n head tail buf = some r) : Fits r := by
  induction n generalizing head tail buf with
  | zero => cases h
  | succ n ih =>
    rw [parsev6Loop] at h
    by_cases hnil : buf = []
    · rw [if_pos hnil] at h
      obtain rfl := Option.some.inj h
      exact hf
    rw [if_neg hnil] at h
    by_cases hgap : tail = none ∧ buf.head? = some colon ∧ buf[1]? = some colon
    · rw [if_pos hgap] at h
      rw [hgap.1] at hf
      exact ih (show Fits (head, some []) from hf) h
    rw [if_neg hgap] at h
    split at h
    · cases h
    · split at h
      · cases h
      · by_cases hlen : 16 ≤ head.length + (tail.getD []).length
        · rw [if_pos hlen] at h
          cases h
        · rw [if_neg hlen] at h
          obtain ⟨-, heven⟩ := hf
          refine ih ?_ h
          rw [Fits, length_store]
          simp only at heven
          omega

theorem length_parsev6 {buf data : List UInt8} (h : parsev6 buf = some data) : data.length = 16 := by
  obtain ⟨r, hr, rfl⟩ := Option.map_eq_some_iff.1 h
  obtain ⟨hle, -⟩ := fits_parsev6Loop ⟨by decide, by decide⟩ hr
  simp only [place, List.length_append, List.length_take, List.length_replicate]
  omega

theorem parsePrefix_le {s : List UInt8} {n : ℕ} (h : parsePrefix s = some n) : n ≤ 128 := by
  unfold parsePrefix at h
  split at h
  · cases h
  · split_ifs at h
    obtain rfl := Option.some.inj h
    omega

theorem ok_parseAddr {buf : List UInt8} {n : Option ℕ} {a : IpAddr} (hn : ∀ k ∈ n, k ≤ 128)
    (h : parseAddr buf n = some a) : a.Ok := by
  unfold parseAddr at h
  split at h
  next bytes hb =>
    have hlen : bytes.length = 4 := length_parsev4Loop hb
    split at h
    · obtain rfl := Option.some.inj h
      exact ok_ipv4 le_rfl hlen
    · split_ifs at h with hle
      obtain rfl := Option.some.inj h
      exact ok_ipv4 (Nat.le_of_not_lt hle) hlen
  next =>
    obtain ⟨data, hd, rfl⟩ := Option.map_eq_some_iff.1 h
    refine ok_ipv6 ?_ (length_parsev6 hd)
    cases n with
    | none => exact le_rfl
    | some k => exact hn k rfl

theorem Produced.ok {a : IpAddr} (h : Produced a) : a.Ok := by
  induction h with
  | create h =>
    unfold IpAddr.create at h
    split_ifs at h
    split at h
    · exact ok_parseAddr (fun _ hk => by cases hk) h
    · obtain ⟨n, hn, ha⟩ := Option.bind_eq_some_iff.1 h
      refine ok_parseAddr (fun k hk => ?_) ha
      obtain rfl := Option.some.inj hk
      exact parsePrefix_le hn
  | @fromSockAddr sa a h =>
    cases sa with
    | inet addr port =>
      obtain rfl := Option.some.inj h
      exact ok_ipv4 le_rfl (List.length_ofFn ..)
    | inet6 addr port =>
      obtain rfl := Option.some.inj h
      exact ok_ipv6 le_rfl (List.length_ofFn ..)
    | other => cases h
  | tov4 _ _ h hs _ =>
    unfold IpAddr.tov4 at h
    split_ifs at h with hlen
    obtain rfl := Option.some.inj h
    have hl := hs.length
    refine ok_ipv4 ?_ (by simp [hl])
    rcases hs.proto with ⟨-, hle, -⟩ | ⟨-, hle⟩ <;> omega
  | tov6 _ _ h hs hp =>
    unfold IpAddr.tov6 at h
    split_ifs at h with hproto
    obtain rfl := Option.some.inj h
    have hl := hs.length
    have hl' := hp.length
    refine ok_ipv6 ?_ (by simp [hl, hl'])
    have hv4 := not_not.1 (not_or.1 hproto).1
    rcases hs.proto with ⟨-, hle, -⟩ | ⟨hv6, -⟩
    · omega
    · rw [hv4] at hv6
      cases hv6

/-! ## Bits -/

def byteBits (b : UInt8) : List Bool := (List.range 8).map fun i => b.toNat.testBit (7 - i)

/-- The bits of a string of bytes, the most significant bit of a byte first. -/
def bits (bytes : List UInt8) : List Bool := bytes.flatMap byteBits

/-- The mask for the first `r` bits of a byte. -/
def mask (r : ℕ) : UInt8 := .ofNat (0xff <<< (8 - r))

theorem take_byteBits (b : UInt8) {r : ℕ} (hr : r ≤ 8) :
    (byteBits b).take r = (List.range r).map fun i => b.toNat.testBit (7 - i) := by
  rw [byteBits, ← List.map_take, List.take_range, Nat.min_eq_left hr]

theorem testBit_byte (b : UInt8) {i : ℕ} (h : 8 ≤ i) : b.toNat.testBit i = false :=
  Nat.testBit_lt_two_pow (b.toNat_lt.trans_le (Nat.pow_le_pow_right (by decide) h))

theorem testBit_mask {r i : ℕ} (hr : r < 8) (hi : i < 8) :
    (mask r).toNat.testBit i = decide (8 - r ≤ i) := by
  have hall : ∀ r < 8, ∀ i < 8, (mask r).toNat.testBit i = decide (8 - r ≤ i) := by decide
  exact hall r hr i hi

theorem and_mask_iff (x y : UInt8) {r : ℕ} (hr : r < 8) : x &&& mask r = y &&& mask r ↔
    ∀ i < r, x.toNat.testBit (7 - i) = y.toNat.testBit (7 - i) := by
  rw [← UInt8.toNat_inj, UInt8.toNat_and, UInt8.toNat_and]
  constructor
  · intro h i hi
    have hbit := congrArg (Nat.testBit · (7 - i)) h
    simpa [Nat.testBit_and, testBit_mask hr (show 7 - i < 8 by omega),
      show 8 - r ≤ 7 - i by omega] using hbit
  · intro h
    refine Nat.eq_of_testBit_eq fun i => ?_
    rw [Nat.testBit_and, Nat.testBit_and]
    rcases Nat.lt_or_ge i 8 with hi | hi
    · rw [testBit_mask hr hi]
      by_cases hri : 8 - r ≤ i
      · have hbit := h (7 - i) (by omega)
        rw [show 7 - (7 - i) = i by omega] at hbit
        rw [hbit]
      · simp [hri]
    · rw [testBit_byte x hi, testBit_byte y hi]

theorem take_byteBits_eq (x y : UInt8) {r : ℕ} (hr : r < 8) :
    (byteBits x).take r = (byteBits y).take r ↔ x &&& mask r = y &&& mask r := by
  rw [take_byteBits x hr.le, take_byteBits y hr.le, List.map_inj_left, and_mask_iff x y hr]
  simp only [List.mem_range]

theorem byteBits_inj {x y : UInt8} : byteBits x = byteBits y ↔ x = y := by
  refine ⟨fun h => ?_, congrArg byteBits⟩
  rw [byteBits, byteBits, List.map_inj_left] at h
  refine UInt8.toNat_inj.1 (Nat.eq_of_testBit_eq fun i => ?_)
  rcases Nat.lt_or_ge i 8 with hi | hi
  · have hbit := h (7 - i) (List.mem_range.2 (by omega))
    rwa [show 7 - (7 - i) = i by omega] at hbit
  · rw [testBit_byte x hi, testBit_byte y hi]

@[simp] theorem length_byteBits (b : UInt8) : (byteBits b).length = 8 := by simp [byteBits]

/-- The first bits of two strings agree if whole bytes do, and what the mask leaves of the next. -/
theorem take_bits {n r : ℕ} (hr : r < 8) {a b : List UInt8} (hlen : a.length = b.length)
    (hn : n < a.length ∨ n ≤ a.length ∧ r = 0) :
    (bits a).take (8 * n + r) = (bits b).take (8 * n + r) ↔
      a.take n = b.take n ∧ (r ≠ 0 → a.getD n 0 &&& mask r = b.getD n 0 &&& mask r) := by
  induction n generalizing a b with
  | zero =>
    rcases Nat.eq_zero_or_pos r with rfl | hpos
    · simp
    · cases a with
      | nil => simp [hpos.ne'] at hn
      | cons x a =>
        cases b with
        | nil => cases hlen
        | cons y b =>
          have hx : ∀ (z : UInt8) (l : List UInt8), (bits (z :: l)).take (8 * 0 + r) =
              (byteBits z).take r := by
            intro z l
            rw [bits, List.flatMap_cons, List.take_append_of_le_length (by simp; omega)]
            simp
          rw [hx, hx, take_byteBits_eq x y hr]
          simp [hpos.ne']
  | succ n ih =>
    cases a with
    | nil => simp at hn
    | cons x a =>
      cases b with
      | nil => cases hlen
      | cons y b =>
        have hx : ∀ (z : UInt8) (l : List UInt8), (bits (z :: l)).take (8 * (n + 1) + r) =
            byteBits z ++ (bits l).take (8 * n + r) := by
          intro z l
          rw [bits, List.flatMap_cons, List.take_append, length_byteBits,
            List.take_of_length_le (by simp; omega), ← bits]
          congr 2
          omega
        have hsplit : byteBits x ++ (bits a).take (8 * n + r) = byteBits y ++ (bits b).take (8 * n + r) ↔
            x = y ∧ (bits a).take (8 * n + r) = (bits b).take (8 * n + r) := by
          refine ⟨fun h => ?_, fun ⟨hxy, h⟩ => by rw [hxy, h]⟩
          obtain ⟨hxy, h⟩ := List.append_inj h (by simp)
          exact ⟨byteBits_inj.1 hxy, h⟩
        rw [hx, hx, hsplit, ih (Nat.succ.inj hlen) (by simpa using hn)]
        simp [and_assoc]

/-! ## Networks -/

/-- The address is part of the network. -/
def InNetwork (a b : IpAddr) : Prop :=
  a.proto = b.proto ∧ b.prefixlen ≤ a.prefixlen ∧
    (bits (raw a)).take b.prefixlen = (bits (raw b)).take b.prefixlen

/-- What the function compares of the arrays. -/
theorem matchesPrefix_iff {a b : IpAddr} (ha : a.Ok) (hb : b.Ok) : matchesPrefix a b = true ↔
    a.proto = b.proto ∧ b.prefixlen ≤ a.prefixlen ∧
      (bits a.data).take b.prefixlen = (bits b.data).take b.prefixlen := by
  have hle : b.prefixlen ≤ 128 := by rcases hb.proto with ⟨-, hle, -⟩ | ⟨-, hle⟩ <;> omega
  have hlen : a.data.length = b.data.length := ha.length.trans hb.length.symm
  have hn : b.prefixlen / 8 < a.data.length ∨
      b.prefixlen / 8 ≤ a.data.length ∧ b.prefixlen % 8 = 0 := by
    rw [ha.length]
    omega
  have htake := take_bits (Nat.mod_lt b.prefixlen (by decide : 0 < 8)) hlen hn
  rw [Nat.div_add_mod] at htake
  rw [htake, matchesPrefix]
  by_cases hproto : a.proto = b.proto
  · by_cases hlonger : a.prefixlen < b.prefixlen
    · simp [hlonger]
    · by_cases hbytes : a.data.take (b.prefixlen / 8) = b.data.take (b.prefixlen / 8)
      · by_cases hbits : b.prefixlen % 8 = 0
        · simp [hproto, Nat.le_of_not_lt hlonger, hlonger, hbytes, hbits]
        · simp [hproto, Nat.le_of_not_lt hlonger, hlonger, hbytes, hbits, mask]
      · simp [hbytes]
  · simp [hproto]

theorem take_bits_append (a b : List UInt8) {p : ℕ} (h : p ≤ 8 * a.length) :
    (bits (a ++ b)).take p = (bits a).take p := by
  have hlen : (bits a).length = 8 * a.length := by
    simp [bits, List.length_flatMap, Nat.mul_comm]
  rw [bits, List.flatMap_append, List.take_append_of_le_length (hlen ▸ h), ← bits]

/-- For two IPv4 addresses the arrays agree wherever the function looks. -/
theorem matchesPrefix_ipv4 {a b : IpAddr} (ha : a.Ok) (hb : b.Ok) (hv4 : a.proto = .ipv4)
    (hproto : a.proto = b.proto) : matchesPrefix a b = true ↔ b.prefixlen ≤ a.prefixlen := by
  have hzero : ∀ c : IpAddr, c.Ok → c.proto = .ipv4 → c.prefixlen ≤ 32 ∧
      ∀ p ≤ 32, (bits c.data).take p = (bits (List.replicate 12 0)).take p := by
    intro c hc hcv4
    rcases hc.proto with ⟨-, hle, hz⟩ | ⟨hv6, -⟩
    · refine ⟨hle, fun p hp => ?_⟩
      rw [← List.take_append_drop 12 c.data, hz, take_bits_append _ _ (by simp; omega)]
    · rw [hcv4] at hv6
      cases hv6
  obtain ⟨-, hza⟩ := hzero a ha hv4
  obtain ⟨hle, hzb⟩ := hzero b hb (hproto ▸ hv4)
  rw [matchesPrefix_iff ha hb, hza _ hle, hzb _ hle]
  simp [hproto]

theorem matchesPrefix_ipv6 {a b : IpAddr} (ha : a.Ok) (hb : b.Ok) (hv6 : a.proto = .ipv6) :
    matchesPrefix a b = true ↔ InNetwork a b := by
  rw [matchesPrefix_iff ha hb, InNetwork]
  refine and_congr_right fun hproto => ?_
  have hraw : ∀ c : IpAddr, c.Ok → c.proto = .ipv6 → raw c = c.data := by
    intro c hc hcv6
    rw [raw, hcv6]
    exact List.take_of_length_le hc.length.le
  rw [hraw a ha hv6, hraw b hb (hproto ▸ hv6)]

/-- The function is right for two addresses if and only if they are not IPv4 addresses of which the
first is outside of the network of the second only because of its bits. -/
theorem matches_iff_network {a b : IpAddr} (ha : Produced a) (hb : Produced b) :
    (matchesPrefix a b = true ↔ InNetwork a b) ↔
      ¬ (a.proto = .ipv4 ∧ b.proto = .ipv4 ∧ b.prefixlen ≤ a.prefixlen ∧
        (bits (raw a)).take b.prefixlen ≠ (bits (raw b)).take b.prefixlen) := by
  by_cases hproto : a.proto = b.proto
  · rcases ha.ok.proto with ⟨hv4, -⟩ | ⟨hv6, -⟩
    · rw [matchesPrefix_ipv4 ha.ok hb.ok hv4 hproto, InNetwork]
      have hv4' : b.proto = .ipv4 := hproto ▸ hv4
      simp only [hv4, hv4', true_and]
      tauto
    · have := matchesPrefix_ipv6 ha.ok hb.ok hv6
      simp [this, hv6]
  · have hno : ¬ (a.proto = .ipv4 ∧ b.proto = .ipv4) := fun h => hproto (h.1.trans h.2.symm)
    have hfalse : matchesPrefix a b = false := by simp [matchesPrefix, hproto]
    rw [hfalse, InNetwork]
    simp only [hproto, false_and, Bool.false_eq_true]
    tauto

/-- The text `10.0.0.1` -/
def host : List UInt8 := [0x31, 0x30, dot, 0x30, dot, 0x30, dot, 0x31]

/-- The text `192.168.0.0/16` -/
def network : List UInt8 :=
  [0x31, 0x39, 0x32, dot, 0x31, 0x36, 0x38, dot, 0x30, dot, 0x30, slash, 0x31, 0x36]

/-- The text `2001:db8:8000::1` -/
def host6 : List UInt8 :=
  [0x32, 0x30, 0x30, 0x31, colon, 0x64, 0x62, 0x38, colon, 0x38, 0x30, 0x30, 0x30, colon, colon, 0x31]

/-- The text `2001:db8:8000::/33` -/
def network6 : List UInt8 :=
  [0x32, 0x30, 0x30, 0x31, colon, 0x64, 0x62, 0x38, colon, 0x38, 0x30, 0x30, 0x30, colon, colon, slash,
    0x33, 0x33]

/-- 2001:db8:8000::1 is in 2001:db8:8000::/33, and matches it. -/
theorem matches_iff_network_ipv6 : ∃ a b : IpAddr,
    InNetwork a b ∧ matchesPrefix a b = true ∧ a.data ≠ b.data ∧ b.prefixlen = 33 := by
  have hrun : ((create host6).bind fun a => (create network6).map fun b =>
      decide (a.proto = .ipv6 ∧ matchesPrefix a b = true ∧ a.data ≠ b.data ∧ b.prefixlen = 33)) =
      some true := by decide
  obtain ⟨a, ha, hmap⟩ := Option.bind_eq_some_iff.1 hrun
  obtain ⟨b, hb, hab⟩ := Option.map_eq_some_iff.1 hmap
  obtain ⟨hproto, hmatch, hdata, hlen⟩ := of_decide_eq_true hab
  have hright := (matches_iff_network (.create ha) (.create hb)).2 fun h => by
    cases hproto.symm.trans h.1
  exact ⟨a, b, hright.1 hmatch, hmatch, hdata, hlen⟩

/-- 10.0.0.1 is not in 192.168.0.0/16, but matches it. -/
theorem matches_ipv4_wrong : ¬ ∀ a b : IpAddr, Produced a → Produced b →
    (matchesPrefix a b = true ↔ InNetwork a b) := by
  intro hall
  have hrun : ((create host).bind fun a => (create network).map fun b =>
      matchesPrefix a b && decide ((bits (raw a)).take b.prefixlen ≠ (bits (raw b)).take b.prefixlen))
      = some true := by decide
  obtain ⟨a, ha, hmap⟩ := Option.bind_eq_some_iff.1 hrun
  obtain ⟨b, hb, hab⟩ := Option.map_eq_some_iff.1 hmap
  obtain ⟨hmatch, hbits⟩ := Bool.and_eq_true_iff.1 hab
  exact of_decide_eq_true hbits ((hall a b (.create ha) (.create hb)).1 hmatch).2.2

end PoserCore.IpAddr
