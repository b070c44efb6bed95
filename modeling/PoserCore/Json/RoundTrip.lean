import PoserCore.Json.Serialize

/-!
# The round trip

The text of a tree without empty containers and floating-point numbers is a JSON text
(`derives_text`), and where the serializer completes there is such a tree (`tree_of_done`).  With
the completeness of the deserializer this is the round trip (`serialize_round_trip`).
-/

namespace PoserCore.Json

open Lib.Strtol (plus minus zero print)

variable {F : Type} {env : Env F}

/-! ## Strings -/

/-- The item written for one byte of a string. -/
def escapeItem (b : UInt8) : Item :=
  if b = quote then .esc .quote
  else if b = backslash then .esc .backslash
  else if b = 0x08 then .esc .backspace
  else if b = 0x0c then .esc .formFeed
  else if b = 0x0a then .esc .newline
  else if b = 0x0d then .esc .carriageReturn
  else if b = 0x09 then .esc .tab
  else if b < 0x20 then
    .unit ⟨zero, zero, hex.getD (b >>> 4).toNat 0, hex.getD (b &&& 0xf).toNat 0⟩
  else .raw b

theorem hexValue_digits {b : UInt8} (hb : b.toNat < 32) :
    hexValue (hex.getD (b >>> 4).toNat 0) = some (b.toNat / 16) ∧
      hexValue (hex.getD (b &&& 0xf).toNat 0) = some (b.toNat % 16) := by
  have hall : ∀ n : Fin 32,
      hexValue (hex.getD (UInt8.ofNat n >>> 4).toNat 0) = some (n / 16) ∧
        hexValue (hex.getD (UInt8.ofNat n &&& 0xf).toNat 0) = some (n % 16) := by decide
  have h := hall ⟨b.toNat, hb⟩
  rwa [UInt8.ofNat_toNat] at h

/-- What the item of a byte stands for. -/
def Item.Denotes (b : UInt8) : Item → Prop
  | .raw c => c = b ∧ 0x20 ≤ b ∧ b ≠ quote ∧ b ≠ backslash
  | .esc e => e.byte = b
  | .unit w => w.Ok ∧ w.value = b.toNat ∧ b.toNat < 32

theorem escapeItem_denotes (b : UInt8) : (escapeItem b).Denotes b := by
  unfold escapeItem
  split_ifs with h1 h2 h3 h4 h5 h6 h7 h8
  · exact h1.symm
  · exact h2.symm
  · exact h3.symm
  · exact h4.symm
  · exact h5.symm
  · exact h6.symm
  · exact h7.symm
  · have hlt : b.toNat < 32 := h8
    obtain ⟨hhigh, hlow⟩ := hexValue_digits hlt
    have hzero : hexValue zero = some 0 := by decide
    refine ⟨⟨by rw [hzero]; rfl, by rw [hzero]; rfl, by rw [hhigh]; rfl, by rw [hlow]; rfl⟩, ?_, hlt⟩
    simp only [Hex4.value, hhigh, hlow, hzero, Option.getD_some]
    omega
  · exact ⟨rfl, UInt8.not_lt.1 h8, h1, h2⟩

theorem text_escapeItem (b : UInt8) : (escapeItem b).text = escapeByte b := by
  unfold escapeItem escapeByte
  by_cases h1 : b = quote
  · rw [if_pos h1, if_pos (.inl h1), h1]
    rfl
  by_cases h2 : b = backslash
  · rw [if_neg h1, if_pos h2, if_pos (.inr h2), h2]
    rfl
  rw [if_neg h1, if_neg h2, if_neg (not_or.2 ⟨h1, h2⟩)]
  split_ifs <;> rfl

theorem isControl_escapeItem (b : UInt8) : (escapeItem b).isControl = false := by
  have h := escapeItem_denotes b
  cases hi : escapeItem b with
  | raw c =>
    rw [hi] at h
    rw [Item.isControl, h.1]
    exact decide_eq_false (UInt8.not_lt.2 h.2.1)
  | esc e => rfl
  | unit w => rfl

theorem ok_escapeItem (b : UInt8) : (escapeItem b).Ok := by
  have h := escapeItem_denotes b
  cases hi : escapeItem b with
  | raw c =>
    rw [hi] at h
    obtain ⟨rfl, hle, hq, hb⟩ := h
    exact ⟨fun h0 => absurd (h0 ▸ hle) (by decide), hq, hb⟩
  | esc e => trivial
  | unit w =>
    rw [hi] at h
    exact h.1

theorem itemsText_escape (s : List UInt8) :
    itemsText (s.map escapeItem) = s.flatMap escapeByte := by
  rw [itemsText, List.flatMap_map]
  exact List.flatMap_congr fun b _ => text_escapeItem b

theorem not_high {b : UInt8} {w : Hex4} (h : (Item.unit w).Denotes b) : ¬ w.High := by
  intro hh
  have hlow := hh.1
  rw [h.2.1] at hlow
  have := h.2.2
  omega

theorem utf8_unit {b : UInt8} {w : Hex4} (h : (Item.unit w).Denotes b) : utf8 w.value = [b] := by
  rw [h.2.1, utf8, if_pos (by have := h.2.2; omega), UInt8.ofNat_toNat]

theorem decode_escape (s : List UInt8) : decode (s.map escapeItem) = s := by
  induction s with
  | nil => rfl
  | cons b s ih =>
    have h := escapeItem_denotes b
    rw [List.map_cons]
    cases hi : escapeItem b with
    | raw c =>
      rw [hi] at h
      rw [decode, ih, h.1]
    | esc e =>
      rw [hi] at h
      rw [decode, ih, show e.byte = b from h]
    | unit w =>
      rw [hi] at h
      -- two escaped code units in a row are no surrogate pair
      cases hs : s.map escapeItem with
      | nil =>
        rw [hs] at ih
        rw [decode, utf8_unit h, ih]
        · rfl
        · simp
      | cons i is =>
        rw [hs] at ih
        cases i with
        | unit w' =>
          rw [decode, if_neg fun hh => not_high h hh.1, utf8_unit h, ih]
          rfl
        | raw c =>
          rw [decode, utf8_unit h, ih]
          · rfl
          · simp
        | esc e =>
          rw [decode, utf8_unit h, ih]
          · rfl
          · simp

theorem splits_escape (s : List UInt8) : splits (s.map escapeItem) = false := by
  induction s with
  | nil => rfl
  | cons b s ih =>
    have h := escapeItem_denotes b
    rw [List.map_cons]
    cases hi : escapeItem b with
    | raw c =>
      rw [splits, ih]
      simp
    | esc e =>
      rw [splits, ih]
      simp
    | unit w =>
      rw [hi] at h
      cases hs : s.map escapeItem with
      | nil =>
        rw [splits]
        · rfl
        · simp
      | cons i is =>
        rw [hs] at ih
        cases i with
        | unit w' => rw [splits, if_neg (not_high h), ih]
        | raw c =>
          rw [splits, ih]
          simp
        | esc e =>
          rw [splits, ih]
          simp

theorem stringUsed_escape (s : List UInt8) : stringUsed (s.map escapeItem) = [] := by
  have hcontrol : (s.map escapeItem).any Item.isControl = false := by
    simp [isControl_escapeItem]
  simp [stringUsed, hcontrol, splits_escape]

/-! ## Integers -/

/-- The numeral of an integer. -/
def integerNumber (v : Int64) : Number :=
  ⟨if v.toInt < 0 then some minus else none, print 10 v.toInt.natAbs, none, none⟩

theorem derives_integer (v : Int64) :
    Derives env (.value (.scalar (.integer v))) [] (formatInteger v) := by
  have hdigit : ∀ b ∈ print 10 v.toInt.natAbs, Digit b := fun b hb =>
    (isDigit_iff b).1 (Lib.Strtol.isDigit_print (by decide) (by decide) _ b hb)
  have hval : Lib.Strtol.valueOf 10 (print 10 v.toInt.natAbs) = v.toInt.natAbs :=
    Lib.Strtol.valueOf_print (by decide) (by decide) _
  have hne := Lib.Strtol.print_ne_nil 10 v.toInt.natAbs
  have hok : (integerNumber v).Ok := by
    refine ⟨?_, hne, hdigit, by simp [integerNumber], by simp [integerNumber]⟩
    intro b hb
    simp only [integerNumber] at hb
    split_ifs at hb
    · exact .inr (Option.some_inj.1 hb).symm
    · cases hb
  have hint : (integerNumber v).intValue = v.toInt := by
    have hminus : (none : Option UInt8) ≠ some minus := by simp
    by_cases hneg : v.toInt < 0
    · simp only [Number.intValue, integerNumber, hval, if_pos hneg]
      rw [if_pos trivial]
      omega
    · simp only [Number.intValue, integerNumber, hval, if_neg hneg, if_neg hminus]
      omega
  have hintegral : (integerNumber v).Integral := ⟨rfl, rfl⟩
  have hrange : (integerNumber v).InRange := by
    rw [Number.InRange, hint]
    exact ⟨v.le_toInt, v.toInt_lt⟩
  have htext : (integerNumber v).text = formatInteger v := by
    simp only [Number.text, integerNumber, formatInteger, fractionText, exponentText,
      List.append_nil]
    split_ifs <;> rfl
  have hvalue : (integerNumber v).value env = .integer v := by
    rw [Number.value, if_pos hintegral, if_pos hrange, hint, Int64.ofInt_toInt]
  have hused : (integerNumber v).used = [] := by
    have hsign : (integerNumber v).sign ≠ some plus := by
      have hpm : minus ≠ plus := by decide
      simp only [integerNumber]
      split_ifs
      · simpa using hpm
      · simp
    have hlead : ¬ (1 < (integerNumber v).int.length ∧ (integerNumber v).int.head? = some zero) := by
      rintro ⟨hlen, hzero⟩
      refine Lib.Strtol.head_print (by decide) (by decide) (Nat.pos_of_ne_zero fun h0 => ?_) hzero
      rw [integerNumber, h0] at hlen
      exact Nat.lt_irrefl 1 hlen
    have hfrac : (integerNumber v).fraction ≠ some [] := by simp [integerNumber]
    have hclamp : ¬ ((integerNumber v).Integral ∧ ¬ (integerNumber v).InRange) :=
      fun h => h.2 hrange
    rw [Number.used, if_neg hsign, if_neg hlead, if_neg hfrac, if_neg hclamp]
    rfl
  have hd : Derives env _ _ _ := .number hok
  rwa [hvalue, hused, htext] at hd

/-! ## Trees -/

/-- No value of the tree is a floating-point number. -/
inductive FloatFree : Tree F → Prop
  | leaf (p : Ptr) {x : Scalar F} (hx : ∀ v, x ≠ .float v) : FloatFree (.leaf p x)
  | node {p : Ptr} {c : Container} {es : List (Key × Tree F)} (hes : ∀ e ∈ es, FloatFree e.2) :
      FloatFree (.node p c es)

theorem derives_scalar {x : Scalar F} (hx : ∀ v, x ≠ .float v) :
    Derives env (.value (.scalar x)) [] (scalarText env x) := by
  cases x with
  | null => exact .null
  | bool b =>
    cases b with
    | false => exact .false
    | true => exact .true
  | integer v => exact derives_integer v
  | float v => exact absurd rfl (hx v)
  | string s =>
    have h : Derives env (.value (.scalar (.string (decode (s.map escapeItem)))))
        (stringUsed (s.map escapeItem)) (quote :: itemsText (s.map escapeItem) ++ [quote]) :=
      .string fun i hi => by
        obtain ⟨b, -, rfl⟩ := List.mem_map.1 hi
        exact ok_escapeItem b
    rwa [decode_escape, stringUsed_escape, itemsText_escape] at h

/-- Members with different keys all stay. -/
theorem foldl_setMember {β : Type} {es ms : List (Key × β)}
    (h : ((ms ++ es).map Prod.fst).Nodup) : es.foldl setMember ms = ms ++ es := by
  induction es generalizing ms with
  | nil => rw [List.foldl_nil, List.append_nil]
  | cons e es ih =>
    have hnew : e.1 ∉ ms.map Prod.fst := by
      rw [List.map_append, List.nodup_append] at h
      exact fun hm => h.2.2 _ hm _ (List.mem_map_of_mem List.mem_cons_self) rfl
    rw [List.foldl_cons, setMember, if_neg hnew, ih (by simpa using h), List.append_assoc,
      List.singleton_append]

theorem collapse_eq {β : Type} {es : List (Key × β)} (h : (es.map Prod.fst).Nodup) :
    collapse es = es := by
  have hall : es.foldl setMember [] = [] ++ es := foldl_setMember h
  exact hall

theorem joined_succ (i : ℕ) (ss : List (List UInt8)) : joined (i + 1) ss = joined 1 ss := by
  induction ss generalizing i with
  | nil => rfl
  | cons s ss ih =>
    rw [joined, joined, ih (i + 1), ih 1]
    rfl

theorem derives_elem {x : Node F} {c : Container} {ps : List (Key × Ptr)} (hx : Children x ps c)
    {e : Key × Ptr} (he : e ∈ ps) {v : Value F} {s : List UInt8} (h : Derives env (.value v) [] s) :
    Derives env (.elem c (e.1, v)) [] (keyText c e.1 ++ s) := by
  cases c with
  | array =>
    rw [hx.1 e he]
    exact .item h
  | object =>
    have hws : Ws [] := by simp [Ws]
    have hk : (⟨quote, e.1.map escapeItem⟩ : KeyText).Ok := by
      have hzero : quote ≠ 0 := by decide
      have hbrace : quote ≠ rbrace := by decide
      refine ⟨hzero, hbrace, by simp [Ws, quote], fun i hi => ?_⟩
      obtain ⟨b, -, rfl⟩ := List.mem_map.1 hi
      exact ok_escapeItem b
    have hm : Derives env _ _ _ := .member hk hws hws h
    have htext : (⟨quote, e.1.map escapeItem⟩ : KeyText).text ++ [] ++ colon :: [] ++ s =
        keyText .object e.1 ++ s := by
      simp [KeyText.text, keyText, itemsText_escape]
    have hused : (⟨quote, e.1.map escapeItem⟩ : KeyText).used ++ [] = [] := by
      simp [KeyText.used, stringUsed_escape]
    rwa [htext, hused, decode_escape] at hm

theorem derives_joined {c : Container} {es : List (Key × Tree F)} (hne : es ≠ [])
    (hes : ∀ e ∈ es, Derives env (.elem c (e.1, e.2.value)) [] (keyText c e.1 ++ e.2.text env)) :
    Derives env (.elems c (valuesOf es)) []
      (joined 0 (es.map fun e => keyText c e.1 ++ e.2.text env)) := by
  have hws : Ws [] := by simp [Ws]
  induction es with
  | nil => exact absurd rfl hne
  | cons e es ih =>
    have he := hes e List.mem_cons_self
    cases es with
    | nil =>
      have h : Derives env _ _ _ := .last hws he hws
      simpa [joined, valuesOf] using h
    | cons e' es =>
      have h : Derives env _ _ _ := .more hws he hws
        (ih (List.cons_ne_nil _ _) fun e he => hes e (List.mem_cons_of_mem _ he))
      have htext : joined 0 ((e :: e' :: es).map fun e => keyText c e.1 ++ e.2.text env) =
          [] ++ (keyText c e.1 ++ e.2.text env) ++ [] ++
            comma :: joined 0 ((e' :: es).map fun e => keyText c e.1 ++ e.2.text env) := by
        simp [joined, joined_succ 1]
      rw [htext]
      exact h

/-- The text of a tree is a JSON text of its value. -/
theorem derives_text {nodes : List (Node F)} {t : Tree F} (ht : Holds nodes t) :
    Filled t → FloatFree t → Derives env (.value t.value) [] (t.text env) := by
  induction ht with
  | @leaf p x hx =>
    intro _ hff
    cases hff with
    | leaf _ hx =>
      rw [value_leaf, Tree.text]
      exact derives_scalar hx
  | @node p c es x hx hc hes ih =>
    intro hfill hff
    cases hff with
    | node hff =>
      obtain ⟨hne, hfill⟩ := filled_node.1 hfill
      have hvalue : c.ofMembers (valuesOf es) = c.value (valuesOf es) := by
        cases c with
        | array => rfl
        | object =>
          have hnd : ((valuesOf es).map Prod.fst).Nodup := by
            have := hc.1
            simpa [links, valuesOf, Function.comp_def] using this
          rw [Container.ofMembers, Container.value, collapse_eq hnd]
      rw [value_node, hvalue, Tree.text]
      refine .container (derives_joined hne fun e he => ?_)
      have hlink : (e.1, e.2.ptr) ∈ links es := List.mem_map.2 ⟨e, he, rfl⟩
      exact derives_elem hc hlink (ih e he (hfill e he) (hff e he))

/-! ## Where the serializer completes -/

theorem done_of_andThen {r : Outcome} {k : Writer → Outcome} {w' : Writer}
    (h : r.andThen k = .done w') : ∃ w, r = .done w ∧ k w = .done w' := by
  cases r with
  | done w => exact ⟨w, rfl, h⟩
  | full w => cases h
  | fault => cases h
  | fuel => cases h

theorem elems_done {ser : Writer → Option Ptr → Outcome} {c : Container} {ps : List (Key × Ptr)}
    {i : ℕ} {w w' : Writer} (h : serializeElems ser c i ps w = .done w') :
    ∀ e ∈ ps, ∃ w1 w2, ser w1 (some e.2) = .done w2 := by
  induction ps generalizing i w with
  | nil => simp
  | cons e ps ih =>
    rw [serializeElems] at h
    obtain ⟨w1, -, h⟩ := done_of_andThen h
    obtain ⟨w2, -, h⟩ := done_of_andThen h
    obtain ⟨w3, hser, h⟩ := done_of_andThen h
    intro e' he'
    rcases List.mem_cons.1 he' with rfl | he'
    · exact ⟨w2, w3, hser⟩
    · exact ih h e' he'

theorem exists_trees {nodes : List (Node F)} {ps : List (Key × Ptr)}
    (h : ∀ e ∈ ps, ∃ t, Holds nodes t ∧ t.ptr = e.2) :
    ∃ es, links es = ps ∧ ∀ e ∈ es, Holds nodes e.2 := by
  induction ps with
  | nil => exact ⟨[], rfl, by simp⟩
  | cons e ps ih =>
    obtain ⟨t, ht, hptr⟩ := h e List.mem_cons_self
    obtain ⟨es, hlinks, hes⟩ := ih fun e he => h e (List.mem_cons_of_mem _ he)
    refine ⟨(e.1, t) :: es, ?_, ?_⟩
    · rw [links, List.map_cons, hptr]
      exact congrArg (e :: ·) hlinks
    · intro e' he'
      rcases List.mem_cons.1 he' with rfl | he'
      · exact ht
      · exact hes e' he'

/-- Where the serializer completes, the value is a finite tree. -/
theorem tree_of_done {h : Heap F} {G : Ptr → Prop} (hr : Represented h G) :
    ∀ (n : ℕ) {p : Ptr} {w w' : Writer}, G p → serialize env h.nodes n w (some p) = .done w' →
      ∃ t, Holds h.nodes t ∧ t.ptr = p
  | 0, _, _, _, _, hd => by cases hd
  | n + 1, p, w, w', hG, hd => by
      obtain ⟨x, hx, hs⟩ := hr.node p hG
      rcases hs with ⟨s, rfl⟩ | ⟨c, ps, hc, hps⟩
      · exact ⟨.leaf p s, .leaf hx, rfl⟩
      · rw [serialize_node hx hc] at hd
        obtain ⟨w1, -, hd⟩ := done_of_andThen hd
        split_ifs at hd with hnil
        obtain ⟨w2, hd, -⟩ := done_of_andThen hd
        obtain ⟨es, hlinks, hes⟩ := exists_trees fun e he => by
          obtain ⟨w3, w4, hd⟩ := elems_done hd e he
          exact tree_of_done hr n (hps e he) hd
        exact ⟨.node p c es, .node hx (hlinks ▸ hc) hes, rfl⟩

/-- Where serialization completes, the text is a JSON text, and it is deserialized to a tree of the
same value. -/
theorem serialize_round_trip {h : Heap F} (hb : Built env h) {p : Ptr} (hp : Live h p) {fuel : ℕ}
    {text : List UInt8} (hs : jsonSerialize env h.nodes fuel p = some text) :
    ∃ t, Holds h.nodes t ∧ t.ptr = p ∧ (FloatFree t → ∃ s, text = s ++ [0] ∧
      IsText env [] s t.value ∧ ∀ h0, ∃ t' h', deserialize env h0 text = some (some t'.ptr, h') ∧
        Holds h'.nodes t' ∧ t'.value = t.value) := by
  obtain ⟨G, hr⟩ := built_represented hb
  have hend : (serialize env h.nodes fuel .empty (some p)).Within (fun w => w.bufowned = true) False
      True True :=
    serialize_within serappend_clean hr fuel (hr.live p hp) (fun hf => absurd trivial hf) rfl
  obtain ⟨w, hdone, rfl⟩ : ∃ w, serialize env h.nodes fuel .empty (some p) = .done w ∧
      w.buf ++ [0] = text := by
    rw [jsonSerialize] at hs
    cases hr : serialize env h.nodes fuel .empty (some p) with
    | done w =>
      rw [hr] at hs
      exact ⟨w, rfl, Option.some_inj.1 hs⟩
    | full w =>
      rw [hr] at hend
      exact hend.elim
    | fault =>
      rw [hr] at hs
      cases hs
    | fuel =>
      rw [hr] at hs
      cases hs
  obtain ⟨t, ht, rfl⟩ := tree_of_done hr fuel (hr.live p hp) hdone
  refine ⟨t, ht, rfl, fun hff => ⟨w.buf, rfl, ?_⟩⟩
  have hprints : Prints (Filled t) (t.text env) .empty
      (serialize env h.nodes fuel .empty (some t.ptr)) := serialize_prints ht fuel rfl
  rw [hdone] at hprints
  rcases hprints with hfuel | ⟨hf, w', hw, hbuf, -⟩ | ⟨-, hfault⟩
  · cases hfuel
  · cases hw
    have htext : IsText env [] w.buf t.value := by
      rw [hbuf]
      refine ⟨[], t.text env, [], ?_, by simp [Ws], by simp [Ws], derives_text ht hf hff⟩
      simp [Writer.empty]
    exact ⟨htext, fun h0 => deserialize_text env h0 htext (by simp)⟩
  · cases hfault

/-- The text `["\u0001\n"]`, from `PSC_Json_createArray`, `PSC_Json_createString` and
`PSC_Json_append`. -/
theorem serialize_round_trip_string :
    let h : Heap Unit := ⟨[.array (some [some 1]), .scalar (.string [0x01, 0x0a])], [1], []⟩
    let text : List UInt8 :=
      [0x5b, 0x22, 0x5c, 0x75, 0x30, 0x30, 0x30, 0x31, 0x5c, 0x6e, 0x22, 0x5d, 0]
    ∃ t, Holds h.nodes t ∧ t.ptr = 0 ∧ (FloatFree t → ∃ s, text = s ++ [0] ∧
      IsText plainEnv [] s t.value ∧ ∀ h0, ∃ t' h',
        deserialize plainEnv h0 text = some (some t'.ptr, h') ∧ Holds h'.nodes t' ∧
          t'.value = t.value) := by
  intro h text
  have hb : Built plainEnv h :=
    .step (a := .append 0 1) (.step (a := .createString [0x01, 0x0a, 0x00] 2)
      (.step (a := .createArray) (.init rfl) trivial rfl) trivial rfl)
      ⟨⟨by decide, by decide⟩, by decide, by decide⟩ rfl
  have hs : jsonSerialize plainEnv h.nodes 2 0 = some text := rfl
  exact serialize_round_trip hb ⟨by decide, by decide⟩ hs

end PoserCore.Json
