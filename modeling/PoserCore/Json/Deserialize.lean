import PoserCore.Json.Simulate

/-!
# What the deserializer accepts, and what becomes of its nodes

`PSC_JsonSerializer_deserialize` returns a tree exactly for the texts of the grammar that do not split
a surrogate pair (`deserialize_cases`), and this tree has the value the text denotes.  Read strictly,
RFC 8259 with trailing commas, this is complete but not sound.  Nodes are lost or destroyed twice on
the truncated texts and on no others (`deserialize_owned_iff`).
-/

namespace PoserCore.Json

variable {F : Type}

/-! ## Texts without NUL -/

theorem ne_zero_of_ws {b : UInt8} (h : b = 0x20 ∨ b = 0x09 ∨ b = 0x0a ∨ b = 0x0d) : b ≠ 0 := by
  rcases h with rfl | rfl | rfl | rfl <;> decide

theorem hex_ne_zero {b : UInt8} (h : (hexValue b).isSome) : b ≠ 0 := by
  rintro rfl
  exact absurd h (by decide)

theorem digit_ne_zero {b : UInt8} (h : Digit b) : b ≠ 0 := by
  rintro rfl
  exact absurd h.1 (by decide)

theorem no_nul_ws {w : List UInt8} (hw : Ws w) : 0 ∉ w :=
  fun hm => ne_zero_of_ws (hw 0 hm) rfl

theorem no_nul_items {is : List Item} (hi : ∀ i ∈ is, i.Ok) : 0 ∉ itemsText is := by
  intro hm
  obtain ⟨i, his, hm⟩ := List.mem_flatMap.1 hm
  have hok := hi i his
  cases i with
  | raw b => exact hok.1 (List.mem_singleton.1 hm).symm
  | esc e => revert hm; cases e <;> decide
  | unit w =>
    obtain ⟨ha, hb, hc, hd⟩ : w.Ok := hok
    simp only [Item.text, Hex4.text, List.mem_cons, List.not_mem_nil, or_false] at hm
    rcases hm with h | h | h | h | h | h
    · exact absurd h (by decide)
    · exact absurd h (by decide)
    · exact hex_ne_zero ha h.symm
    · exact hex_ne_zero hb h.symm
    · exact hex_ne_zero hc h.symm
    · exact hex_ne_zero hd h.symm

theorem no_nul_digits {ds : List UInt8} (hd : ∀ b ∈ ds, Digit b) : 0 ∉ ds :=
  fun hm => digit_ne_zero (hd 0 hm) rfl

theorem no_nul_sign {sign : Option UInt8} (h : Sign sign) : 0 ∉ sign.toList := by
  intro hm
  rcases h 0 (Option.mem_toList.1 hm) with h | h <;> exact absurd h (by decide)

theorem no_nul_number {n : Number} (hn : n.Ok) : 0 ∉ n.text := by
  simp only [Number.text, List.mem_append, not_or]
  refine ⟨⟨⟨no_nul_sign hn.sign, no_nul_digits hn.int⟩, ?_⟩, ?_⟩
  · cases hf : n.fraction with
    | none => simp [fractionText]
    | some ds =>
      have hdot : (0 : UInt8) ≠ dot := by decide
      simpa [fractionText, hdot] using no_nul_digits (hn.fraction ds hf)
  · cases he : n.exponent with
    | none => simp [exponentText]
    | some e =>
      obtain ⟨hl, hs, -, hd⟩ := hn.exponent e he
      have hletter : (0 : UInt8) ≠ e.letter := by rcases hl with h | h <;> rw [h] <;> decide
      simp only [exponentText, Exponent.text, List.cons_append, List.mem_cons, List.mem_append,
        not_or]
      exact ⟨hletter, no_nul_sign hs, no_nul_digits hd⟩

theorem no_nul_key {k : KeyText} (hk : k.Ok) : 0 ∉ k.text := by
  have hq : (0 : UInt8) ≠ quote := by decide
  simp only [KeyText.text, List.cons_append, List.mem_cons, List.mem_append, List.not_mem_nil,
    or_false, not_or]
  exact ⟨fun h => hk.1 h.symm, no_nul_items hk.2.2.2, hq⟩

theorem no_nul_derives {env : Env F} {sym : Sym F} {u : List Feature} {s : List UInt8}
    (h : Derives env sym u s) : 0 ∉ s := by
  have hq : (0 : UInt8) ≠ quote := by decide
  have hcomma : (0 : UInt8) ≠ comma := by decide
  have hcolon : (0 : UInt8) ≠ colon := by decide
  have hleft (c : Container) : (0 : UInt8) ≠ c.left := by cases c <;> decide
  have hright (c : Container) : (0 : UInt8) ≠ c.right := by cases c <;> decide
  induction h with
  | null => decide
  | false => decide
  | true => decide
  | string hi => simpa [hq] using no_nul_items hi
  | number hn => exact no_nul_number hn
  | @container c es u s h ih => simp [hleft c, hright c, ih]
  | item h ih => exact ih
  | member hk hw hw' h ih => simp [no_nul_key hk, no_nul_ws hw, hcolon, no_nul_ws hw', ih]
  | none hw => exact no_nul_ws hw
  | last hw h hw' ih => simp [no_nul_ws hw, ih, no_nul_ws hw']
  | more hw h hw' hr ih ihr => simp [no_nul_ws hw, ih, no_nul_ws hw', hcomma, ihr]

theorem no_nul_text {env : Env F} {u : List Feature} {s : List UInt8} {v : Value F}
    (h : IsText env u s v) : 0 ∉ s := by
  obtain ⟨w, t, w', rfl, hw, hw', hd⟩ := h
  simp [no_nul_ws hw, no_nul_ws hw', no_nul_derives hd]

theorem no_nul_cstr (s : List UInt8) : 0 ∉ cstr s := by
  intro hm
  have := List.all_eq_true.1 List.all_takeWhile 0 hm
  simp at this

theorem cstr_append_nul {s : List UInt8} (h : 0 ∉ s) : cstr (s ++ [0]) = s := by
  have hpos : ∀ b ∈ s, decide (b ≠ 0) = true := by
    intro b hb
    simpa using fun hz : b = 0 => h (hz ▸ hb)
  rw [cstr, List.takeWhile_append_of_pos hpos]
  simp

/-! ## Readings of whole texts -/

theorem skipWs_eq_nil {s : List UInt8} : skipWs s = [] ↔ Ws s := by
  refine ⟨fun h => ?_, skipWs_ws⟩
  obtain ⟨w, hw, hs⟩ := exists_skipWs s
  rw [hs, h, List.append_nil]
  exact hw

theorem delim_ws {w : List UInt8} (hw : Ws w) : Delim w := by
  have h := delim_append hw (r := []) (by intro b hb; cases hb)
  rwa [List.append_nil] at h

theorem read_text {env : Env F} {pairs : Bool} {u : List Feature} {s : List UInt8} {v : Value F}
    (h : IsText env u s v) (hp : pairs = true ∨ Feature.splitPair ∉ u) :
    ∃ w, Ws w ∧ read env pairs (s.length + 1) s = some (.value u v w) := by
  obtain ⟨w, t, w', rfl, hw, hw', hd⟩ := h
  obtain ⟨hstart, hread⟩ := read_derives hd hp
  have hskip : skipWs (w ++ t ++ w') = skipWs (t ++ w') := by
    rw [List.append_assoc, skipWs_append hw]
  have hlen : t.length < (w ++ t ++ w').length + 1 := by
    simp only [List.length_append]
    omega
  have hr := hread _ w' hlen (delim_ws hw')
  refine ⟨w', hw', ?_⟩
  rw [read] at hr ⊢
  rw [hskip]
  exact hr

/-- A text is read in one way only. -/
theorem text_unique {env : Env F} {u u' : List Feature} {s : List UInt8} {v v' : Value F}
    (h : IsText env u s v) (h' : IsText env u' s v') : u = u' ∧ v = v' := by
  obtain ⟨w, -, hread⟩ := read_text h (.inl rfl)
  obtain ⟨w', -, hread'⟩ := read_text h' (.inl rfl)
  cases hread.symm.trans hread'
  exact ⟨rfl, rfl⟩

theorem text_of_read {env : Env F} {pairs : Bool} {n : ℕ} {s : List UInt8} (h0 : 0 ∉ s)
    {u : List Feature} {v : Value F} {w : List UInt8} (hw : Ws w)
    (h : read env pairs n s = some (.value u v w)) :
    IsText env u s v ∧ (pairs = false → Feature.splitPair ∉ u) := by
  obtain ⟨w0, t, hs, hw0, -, hd, hp⟩ := derives_of_read n h0 h
  exact ⟨⟨w0, t, w, hs, hw0, hw, hd (delim_ws hw)⟩, hp⟩

/-! ## `PSC_JsonSerializer_deserialize` -/

/-- The text ends where a loop of the deserializer asks for one more value. -/
def EndsEarly (env : Env F) (json : List UInt8) : Prop := TruncatedAfterWs env .value (cstr json)

theorem destroy_none (h : Heap F) : h.destroy none = h := by
  rw [Heap.destroy, destroyFrom_none, List.append_nil]

/-- A tree that was made is destroyed. -/
theorem Produced.destroy {h h' : Heap F} {t : Tree F} {S D : List Ptr} (ht : Produced h h' t S D) :
    Lost false h (h'.destroy (some t.ptr)) S
      (D ++ destroyFrom h'.nodes h'.nodes.length (some t.ptr)) where
  grown := ⟨ht.grown.nodes, ht.grown.stored, by
    rw [Heap.destroy, ht.grown.destroyed, List.append_assoc]⟩
  storedFresh := ht.storedFresh
  clean _ := by
    refine ⟨List.Perm.trans ?_ ht.ids, (List.nodup_cons.1 ht.stored).2⟩
    have hlen : t.ids.length ≤ h'.nodes.length := by
      have := ht.ids.length_eq
      rw [fresh, List.length_range', List.length_append] at this
      omega
    exact (destroy_holds ht.holds hlen).append_left D
  stale hs := by cases hs

/-- What the deserializer returns and leaves on the heap for a result of the reader. -/
def Leaves (h : Heap F) (o : Option Ptr) (h' : Heap F) : Read (Value F) → Prop
  | .value _ v r =>
      Ws r ∧ (∃ t S D, o = some t.ptr ∧ t.value = v ∧ Produced h h' t S D) ∨
        ¬ Ws r ∧ o = none ∧ ∃ S D, Lost false h h' S D
  | .atEnd => o = none ∧ ∃ S D, Lost false h h' S D
  | .fail stale => o = none ∧ ∃ S D, Lost stale h h' S D

theorem deserialize_leaves {env : Env F} {h : Heap F} {json : List UInt8} {x : Read (Value F)}
    (hx : read env false (strlen json + 1) (cstr json) = some x) :
    ∃ o h', deserialize env h json = some (o, h') ∧ Leaves h o h' x := by
  have hrel := parse_follows env (strlen json + 1) ⟨cstr json, h⟩ none (no_nul_cstr json)
  rw [hx] at hrel
  rcases rel_cases hrel with ⟨hnone, -⟩ | ⟨x', ⟨ok, obj, st⟩, hx', hparse, hm⟩
  · cases hnone
  cases hx'
  rw [deserialize, hparse]
  cases x with
  | value u v r =>
    obtain ⟨-, rfl, t, S, D, rfl, hv, ht⟩ := hm
    simp only
    by_cases hw : Ws st.rest
    · rw [if_pos (skipWs_eq_nil.2 hw)]
      exact ⟨_, _, rfl, .inl ⟨hw, t, S, D, rfl, hv, ht⟩⟩
    · rw [if_neg fun hs => hw (skipWs_eq_nil.1 hs)]
      exact ⟨_, _, rfl, .inr ⟨hw, rfl, S, _, ht.destroy⟩⟩
  | atEnd =>
    cases hm
    exact ⟨_, _, rfl, rfl, [], [], lost_nothing h⟩
  | fail stale =>
    obtain ⟨-, rfl, S, D, hl⟩ := hm
    refine ⟨none, st.heap, ?_, rfl, S, D, hl⟩
    simp only [destroy_none, ite_self]

/-- A tree is returned for a text, and nothing for anything else. -/
theorem deserialize_cases (env : Env F) (h : Heap F) (json : List UInt8) :
    ∃ o h', deserialize env h json = some (o, h') ∧
      ((∃ u t S D, o = some t.ptr ∧ IsText env u (cstr json) t.value ∧ Feature.splitPair ∉ u ∧
          ¬ EndsEarly env json ∧ Produced h h' t S D) ∨
        o = none ∧ (∀ u v, IsText env u (cstr json) v → Feature.splitPair ∈ u) ∧
          ∃ stale S D, Lost stale h h' S D ∧ (stale = true ↔ EndsEarly env json)) := by
  have h0 := no_nul_cstr json
  have hlt : (cstr json).length < strlen json + 1 := Nat.lt_succ_self _
  obtain ⟨x, hx⟩ : ∃ x, read env false (strlen json + 1) (cstr json) = some x :=
    Option.isSome_iff_exists.1 (read_isSome (strlen json + 1) _ h0 hlt)
  have hearly : x = .fail true ↔ EndsEarly env json := by
    rw [EndsEarly, ← truncated_iff h0 hlt, hx, Option.some_inj]
  have hsplit (hno : ∀ u v w, x = .value u v w → ¬ Ws w) (u : List Feature) (v : Value F)
      (ht : IsText env u (cstr json) v) : Feature.splitPair ∈ u := by
    by_contra hp
    obtain ⟨w, hw, hread⟩ := read_text ht (.inr hp)
    exact hno u v w (Option.some_inj.1 (hx.symm.trans hread)) hw
  obtain ⟨o, h', hrun, hres⟩ := deserialize_leaves (h := h) hx
  refine ⟨o, h', hrun, ?_⟩
  cases x with
  | value u v r =>
    rcases hres with ⟨hw, t, S, D, ho, rfl, ht⟩ | ⟨hw, ho, S, D, hl⟩
    · obtain ⟨htext, hp⟩ := text_of_read h0 hw hx
      exact .inl ⟨u, t, S, D, ho, htext, hp rfl, (fun he => by cases hearly.2 he), ht⟩
    · refine .inr ⟨ho, hsplit ?_, false, S, D, hl, ?_⟩
      · rintro _ _ _ ⟨⟩
        exact hw
      · rw [← hearly]
        simp
  | atEnd =>
    obtain ⟨ho, S, D, hl⟩ := hres
    refine .inr ⟨ho, hsplit (by rintro _ _ _ ⟨⟩), false, S, D, hl, ?_⟩
    rw [← hearly]
    simp
  | fail stale =>
    obtain ⟨ho, S, D, hl⟩ := hres
    refine .inr ⟨ho, hsplit (by rintro _ _ _ ⟨⟩), stale, S, D, hl, ?_⟩
    rw [← hearly]
    simp

/-! ## Ownership -/

/-- The entries of a log since it was `before`. -/
def since (before after : List Ptr) : List Ptr := after.drop before.length

theorem since_append (before : List Ptr) (new : List Ptr) : since before (before ++ new) = new :=
  List.drop_left

/-- No node made from `h` to `h'` has two owners or is destroyed twice, and those that are not
destroyed are the nodes of the returned tree. -/
structure Owned (h h' : Heap F) (o : Option Ptr) : Prop where
  stored : (since h.stored h'.stored).Nodup
  destroyed : (since h.destroyed h'.destroyed).Nodup
  nothing : o = none → ∀ q, q ∈ since h.destroyed h'.destroyed ↔ q ∈ fresh h h'
  tree : ∀ p, o = some p → ∃ t, t.ptr = p ∧ Holds h'.nodes t ∧
    ∀ q, q ∈ t.ids ↔ q ∈ fresh h h' ∧ q ∉ since h.destroyed h'.destroyed

theorem Grown.since_stored {h h' : Heap F} {S D : List Ptr} (hg : Grown h h' S D) :
    since h.stored h'.stored = S := by
  rw [hg.stored, since_append]

theorem Grown.since_destroyed {h h' : Heap F} {S D : List Ptr} (hg : Grown h h' S D) :
    since h.destroyed h'.destroyed = D := by
  rw [hg.destroyed, since_append]

theorem Produced.owned {h h' : Heap F} {t : Tree F} {S D : List Ptr} (ht : Produced h h' t S D) :
    Owned h h' (some t.ptr) := by
  have hnd : (D ++ t.ids).Nodup := ht.ids.nodup_iff.2 (nodup_fresh h h')
  obtain ⟨hD, -, hdisj⟩ := List.nodup_append.1 hnd
  refine ⟨?_, ?_, (fun ho => by cases ho), ?_⟩
  · rw [ht.grown.since_stored]
    exact (List.nodup_cons.1 ht.stored).2
  · rw [ht.grown.since_destroyed]
    exact hD
  · rintro p ⟨⟩
    refine ⟨t, rfl, ht.holds, fun q => ?_⟩
    rw [ht.grown.since_destroyed, ← ht.ids.mem_iff, List.mem_append]
    constructor
    · exact fun hq => ⟨.inr hq, fun hq' => hdisj q hq' q hq rfl⟩
    · exact fun ⟨hq, hq'⟩ => hq.resolve_left hq'

theorem Lost.owned_iff {stale : Bool} {h h' : Heap F} {S D : List Ptr} (hl : Lost stale h h' S D) :
    Owned h h' none ↔ stale = false := by
  constructor
  · intro ho
    cases stale with
    | false => rfl
    | true =>
      have hstored := ho.stored
      rw [hl.grown.since_stored] at hstored
      exact absurd hstored (hl.stale rfl).2
  · intro hs
    obtain ⟨hperm, hS⟩ := hl.clean hs
    refine ⟨?_, ?_, ?_, fun p ho => by cases ho⟩
    · rw [hl.grown.since_stored]
      exact hS
    · rw [hl.grown.since_destroyed]
      exact hperm.nodup_iff.2 (nodup_fresh h h')
    · intro _ q
      rw [hl.grown.since_destroyed]
      exact hperm.mem_iff

/-- Every node has one owner unless the text ends early. -/
theorem deserialize_owned_iff (env : Env F) (h : Heap F) (json : List UInt8) :
    ∃ o h', deserialize env h json = some (o, h') ∧ (Owned h h' o ↔ ¬ EndsEarly env json) := by
  obtain ⟨o, h', hrun, hres⟩ := deserialize_cases env h json
  refine ⟨o, h', hrun, ?_⟩
  rcases hres with ⟨u, t, S, D, rfl, -, -, hearly, ht⟩ | ⟨rfl, -, stale, S, D, hl, hstale⟩
  · exact iff_of_true ht.owned hearly
  · rw [hl.owned_iff, ← hstale, Bool.not_eq_true]

/-- An environment for texts without floating-point numbers. -/
def plainEnv : Env Unit := ⟨fun _ => 0, fun _ => (), fun _ => []⟩

/-- `[1,` -/
theorem deserialize_stale : ∃ h' : Heap Unit,
    deserialize plainEnv .empty [0x5b, 0x31, 0x2c, 0] = some (none, h') ∧
      h'.stored = [1, 1] ∧ h'.destroyed = [0, 1, 1] ∧ ¬ Owned .empty h' none := by
  refine ⟨_, rfl, rfl, rfl, fun ho => ?_⟩
  have := ho.stored
  revert this
  decide

/-! ## Completeness -/

/-- A text that splits no surrogate pair gives the tree it denotes. -/
theorem deserialize_text (env : Env F) (h : Heap F) {u : List Feature} {s : List UInt8} {v : Value F}
    (ht : IsText env u s v) (hp : Feature.splitPair ∉ u) :
    ∃ t h', deserialize env h (s ++ [0]) = some (some t.ptr, h') ∧ Holds h'.nodes t ∧
      t.value = v := by
  have hcstr : cstr (s ++ [0]) = s := cstr_append_nul (no_nul_text ht)
  obtain ⟨o, h', hrun, hres⟩ := deserialize_cases env h (s ++ [0])
  rw [hcstr] at hres
  rcases hres with ⟨u', t, S, D, rfl, ht', -, -, hprod⟩ | ⟨-, hsplit, -⟩
  · exact ⟨t, h', hrun, hprod.holds, (text_unique ht' ht).2⟩
  · exact absurd (hsplit u v ht) hp

/-- Every JSON text is accepted, also with trailing commas, and gives the tree it denotes. -/
theorem deserialize_complete (env : Env F) (h : Heap F) {u : List Feature} {s : List UInt8}
    {v : Value F} (ht : IsText env u s v) (hu : ∀ f ∈ u, f = .trailingComma) :
    ∃ t h', deserialize env h (s ++ [0]) = some (some t.ptr, h') ∧ Holds h'.nodes t ∧
      t.value = v :=
  deserialize_text env h ht fun hm => by cases hu _ hm

/-- `{"a": [true,]}` with a line for the member. -/
theorem deserialize_complete_nested :
    ∃ (t : Tree Unit) (h' : Heap Unit),
      deserialize plainEnv .empty
          ([0x7b, 0x0a, 0x22, 0x61, 0x22, 0x3a, 0x20, 0x5b, 0x74, 0x72, 0x75, 0x65, 0x2c, 0x5d,
            0x0a, 0x7d] ++ [0]) =
        some (some t.ptr, h') ∧ Holds h'.nodes t ∧
      t.value = .object [([0x61], .array [.scalar (.bool true)])] := by
  have hnone : Ws [] := by simp [Ws]
  have hspace : Ws [0x20] := by simp [Ws]
  have hline : Ws [0x0a] := by simp [Ws]
  have hitem : Derives plainEnv (.elem .array ([], .scalar (.bool true))) [] litTrue := .item .true
  have harray : Derives plainEnv (.value (.array [.scalar (.bool true)])) [.trailingComma]
      [0x5b, 0x74, 0x72, 0x75, 0x65, 0x2c, 0x5d] :=
    .container (c := .array) (.more hnone hitem hnone (.none hnone))
  have hmember : Derives plainEnv (.elem .object ([0x61], .array [.scalar (.bool true)]))
      [.trailingComma]
      [0x22, 0x61, 0x22, 0x3a, 0x20, 0x5b, 0x74, 0x72, 0x75, 0x65, 0x2c, 0x5d] :=
    .member (k := ⟨0x22, [.raw 0x61]⟩)
      ⟨by decide, by decide, by simp [Ws], by simp [Item.Ok, quote, backslash]⟩ hnone hspace harray
  have hobject : Container.object.value [([0x61], Value.array [.scalar (.bool true)])] =
      (.object [([0x61], .array [.scalar (.bool true)])] : Value Unit) := by
    simp [Container.value, collapse, setMember]
  refine deserialize_complete plainEnv .empty (u := [.trailingComma]) ?_ (by decide)
  rw [← hobject]
  exact ⟨[], _, [], rfl, hnone, hnone, .container (c := .object) (.last hline hmember hline)⟩

/-! ## Soundness -/

/-- What RFC 8259 does not allow or cannot be kept, apart from trailing commas. -/
def Feature.deviates : Feature → Bool
  | .bareKey | .rawControl | .plusSign | .leadingZero | .emptyFraction | .clamped => true
  | .trailingComma | .splitPair => false

/-- The bytes are a JSON text but for such deviations. -/
def Loose (env : Env F) (s : List UInt8) : Prop :=
  ∃ u v, IsText env u s v ∧ Feature.splitPair ∉ u ∧ ∃ f ∈ u, f.deviates

/-- The tree is the one a JSON text denotes. -/
def Denotes (env : Env F) (s : List UInt8) (h' : Heap F) (p : Ptr) : Prop :=
  ∃ u t, IsText env u s t.value ∧ (∀ f ∈ u, f.deviates = false) ∧ Holds h'.nodes t ∧ t.ptr = p

/-- What is accepted is a JSON text, unless it is a loose one. -/
theorem deserialize_sound_iff (env : Env F) (h : Heap F) (json : List UInt8) :
    (∀ p h', deserialize env h json = some (some p, h') → Denotes env (cstr json) h' p) ↔
      ¬ Loose env (cstr json) := by
  obtain ⟨o, h', hrun, hres⟩ := deserialize_cases env h json
  rcases hres with ⟨u, t, S, D, rfl, ht, hp, -, hprod⟩ | ⟨rfl, hsplit, -⟩
  · constructor
    · rintro hsound ⟨u', v', ht', -, f, hf, hdev⟩
      obtain ⟨u2, t2, ht2, hstrict, -⟩ := hsound _ _ hrun
      rw [(text_unique ht' ht2).1] at hf
      exact absurd hdev (by simp [hstrict f hf])
    · intro hloose p h2 hrun2
      cases hrun.symm.trans hrun2
      refine ⟨u, t, ht, fun f hf => ?_, hprod.holds, rfl⟩
      exact Bool.eq_false_iff.2 fun hdev => hloose ⟨u, t.value, ht, hp, f, hf, hdev⟩
  · refine iff_of_true (fun p h2 hrun2 => by cases hrun.symm.trans hrun2) ?_
    rintro ⟨u, v, ht, hp, -⟩
    exact hp (hsplit u v ht)

/-- `{x":1}` -/
theorem deserialize_unsound : ∃ (p : Ptr) (h' : Heap Unit),
    deserialize plainEnv .empty [0x7b, 0x78, 0x22, 0x3a, 0x31, 0x7d, 0] = some (some p, h') ∧
      ¬ Denotes plainEnv [0x7b, 0x78, 0x22, 0x3a, 0x31, 0x7d] h' p := by
  refine ⟨_, _, rfl, ?_⟩
  rintro ⟨u, t, ht, hstrict, -⟩
  obtain ⟨w, -, hread⟩ := read_text ht (.inl rfl)
  obtain ⟨hu, -, -⟩ := Read.value.inj (Option.some.inj hread)
  exact absurd (hstrict .bareKey (hu ▸ List.mem_singleton.2 rfl)) (by decide)

end PoserCore.Json
