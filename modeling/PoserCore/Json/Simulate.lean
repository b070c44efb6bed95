import PoserCore.Json.Ownership

/-!
# The deserializer follows the reader

`parse_follows`: the deserializer takes the same steps as the reader and leaves on the heap what
`PoserCore.Json.Ownership` says.
-/

namespace PoserCore.Json

variable {F : Type}

/-- A result of the deserializer for a result of the reader, from the heap `h` on. -/
def Matches (h : Heap F) (obj : Option Ptr) : Read (Value F) → Result F → Prop
  | .value _ v r, res => res.ok = true ∧ res.st.rest = r ∧
      ∃ t S D, res.obj = some t.ptr ∧ t.value = v ∧ Produced h res.st.heap t S D
  | .atEnd, res => res = ⟨true, obj, ⟨[], h⟩⟩
  | .fail stale, res => res.ok = false ∧ res.obj = obj ∧ ∃ S D, Lost stale h res.st.heap S D

/-- The same for the loop of a container with the children `es`. -/
def LoopMatches (h : Heap F) (obj : Option Ptr) (c : Container) (p : Ptr)
    (es : List (Key × Tree F)) : Read (List (Key × Value F)) → Result F → Prop
  | .value _ vs r, res => res.ok = true ∧ res.st.rest = r ∧ res.obj = some p ∧
      ∃ es' S D, valuesOf es' = vs.foldl (fun es e => addElem es e c) (valuesOf es) ∧
        Building h res.st.heap c p es' S D
  | .atEnd, _ => False
  | .fail stale, res => res.ok = false ∧ res.obj = obj ∧ ∃ S D, Lost stale h res.st.heap S D

def Follows (rd : List UInt8 → Option (Read (Value F))) (parse : Parse F) : Prop :=
  ∀ st obj, 0 ∉ st.rest → Option.Rel (Matches st.heap obj) (rd st.rest) (parse st obj)

/-- The variable for the result of `parse` holds the last child, if there is one. -/
def Variable (es : List (Key × Tree F)) (seen : Bool) (item : Option Ptr) : Prop :=
  seen = false ∧ es = [] ∧ item = none ∨ seen = true ∧ ∃ e ∈ es, item = some e.2.ptr

theorem new_mem_addElem {β : Type} (es : List (Key × β)) (e : Key × β) (c : Container) :
    ∃ e' ∈ addElem es e c, e'.2 = e.2 := by
  cases c with
  | array => exact ⟨([], e.2), by simp [addElem], rfl⟩
  | object =>
    rw [addElem, setMember]
    split_ifs with h
    · obtain ⟨m, hm, hk⟩ := List.mem_map.1 h
      exact ⟨e, List.mem_map.2 ⟨m, hm, if_pos hk⟩, rfl⟩
    · exact ⟨e, by simp, rfl⟩

theorem rel_cases {β γ : Type} {R : β → γ → Prop} {a : Option β} {b : Option γ}
    (h : Option.Rel R a b) : a = none ∧ b = none ∨ ∃ x y, a = some x ∧ b = some y ∧ R x y := by
  cases h with
  | none => exact .inl ⟨rfl, rfl⟩
  | some hr => exact .inr ⟨_, _, rfl, rfl, hr⟩

section Loops

variable {env : Env F} {h : Heap F} {obj : Option Ptr} {p : Ptr} {es : List (Key × Tree F)}
  {S D : List Ptr} {rd : List UInt8 → Option (Read (Value F))} {parse : Parse F}

/-- The closing bracket. -/
theorem loop_succeed {c : Container} (st : Parser F) (hb : Building h st.heap c p es S D)
    (u : List Feature) :
    LoopMatches h obj c p es (.value u [] st.rest.tail) (st.succeed p) :=
  ⟨rfl, rfl, rfl, es, S, D, rfl, hb⟩

theorem loop_fail {c : Container} (st : Parser F) (hb : Building h st.heap c p es S D) :
    LoopMatches h obj c p es (.fail false) (st.fail p obj) :=
  ⟨rfl, rfl, S, _, hb.destroy⟩

/-- One child more in front of those that follow. -/
theorem loop_cons {c : Container} {u : List Feature} {key : Key} {t : Tree F}
    {x : Read (List (Key × Value F))} {res : Result F}
    (hm : LoopMatches h obj c p (addElem es (key, t) c) x res) :
    LoopMatches h obj c p es (x.cons u (key, t.value)) res := by
  cases x with
  | value us vs r =>
    obtain ⟨hok, hrest, hobj, es', S, D, hval, hb⟩ := hm
    refine ⟨hok, hrest, hobj, es', S, D, ?_, hb⟩
    rw [hval, valuesOf_addElem, List.foldl_cons]
  | atEnd => exact hm
  | fail stale => exact hm

/-- After a child, the rest of an iteration. -/
theorem loop_next {c : Container} {u : List Feature} {key : Key} {t : Tree F} (st : Parser F)
    (hb : Building h st.heap c p (addElem es (key, t) c) S D)
    {next : Option (Read (List (Key × Value F)))} {loop : Option (Result F)}
    (hloop : (skipWs st.rest).head? = some comma →
      Option.Rel (LoopMatches h obj c p (addElem es (key, t) c)) next loop) :
    Option.Rel (LoopMatches h obj c p es)
      (if (skipWs st.rest).head? = some c.right then
        some (.value u [(key, t.value)] (skipWs st.rest).tail)
      else if (skipWs st.rest).head? = some comma then next.map (Read.cons u (key, t.value))
      else some (.fail false))
      (if (skipWs st.rest).head? = some c.right then some (st.skipWs.succeed p)
      else if (skipWs st.rest).head? = some comma then loop
      else some (st.skipWs.fail p obj)) := by
  split_ifs with hend hcomma
  · refine .some ⟨rfl, rfl, rfl, addElem es (key, t) c, S, D, ?_, hb⟩
    rw [valuesOf_addElem]
    rfl
  · rcases rel_cases (hloop hcomma) with ⟨rfl, rfl⟩ | ⟨x, res, rfl, rfl, hm⟩
    · exact .none
    · exact .some (loop_cons hm)
  · exact .some ⟨rfl, rfl, S, _, hb.destroy⟩

/-- A child that does not come: nothing was there before, or one is added twice. -/
theorem loop_atEnd (env : Env F) {c : Container} {st : Parser F} (hb : Building h st.heap c p es S D)
    {seen : Bool} {item : Option Ptr} (hv : Variable es seen item) (key : Key) (rest : List UInt8) :
    LoopMatches h obj c p es (.fail seen)
      (({ st with rest := rest, heap := st.heap.element env p key item c } : Parser F).fail p obj) := by
  rcases hv with ⟨rfl, rfl, rfl⟩ | ⟨rfl, e, he, rfl⟩
  · exact ⟨rfl, rfl, _, _, hb.atEnd_first env key⟩
  · obtain ⟨D', hlost⟩ := hb.atEnd_stale env he key
    exact ⟨rfl, rfl, _, D', hlost⟩

/-- The loop of `parseArray`. -/
theorem arrayLoop_follows (hf : Follows rd parse) (hsound : Sound env false rd) :
    ∀ (m : ℕ) (st : Parser F) {item : Option Ptr} {es : List (Key × Tree F)} {S D : List Ptr}
      {seen : Bool}, 0 ∉ st.rest → Building h st.heap .array p es S D → Variable es seen item →
      Option.Rel (LoopMatches h obj .array p es) (readElems false rd .array m seen st.rest)
        (arrayLoop parse p obj m st item)
  | 0, _, _, _, _, _, _, _, _, _ => .none
  | m + 1, st, item, es, S, D, seen, h0, hb, hv => by
      have h0s := no_nul_skipWs h0
      by_cases hright : (skipWs st.rest).head? = some rbracket
      · simp only [readElems, arrayLoop, Parser.skipWs, Container.right, hright, if_true]
        exact .some (loop_succeed ⟨skipWs st.rest, st.heap⟩ hb _)
      simp only [readElems, arrayLoop, Parser.skipWs, Container.right, hright, if_false, readElem]
      rcases rel_cases (hf ⟨skipWs st.rest, st.heap⟩ item h0s) with
        ⟨hread, hparse⟩ | ⟨x, ⟨ok, item', st'⟩, hread, hparse, hm⟩
      · rw [hread, hparse]
        exact .none
      rw [hread, hparse]
      cases x with
      | atEnd =>
        cases hm
        exact .some (loop_atEnd env hb hv [] [])
      | fail stale =>
        obtain ⟨rfl, -, S', D', hl⟩ := hm
        exact .some ⟨rfl, rfl, _, _, hb.lost hl⟩
      | value u v r =>
        obtain ⟨rfl, rfl, t, S', D', rfl, rfl, ht⟩ := hm
        obtain ⟨D2, hb'⟩ := hb.add env ht []
        have h0' := no_nul_tail (no_nul_skipWs ((hsound h0s hread).no_nul h0s))
        obtain ⟨e, he, heq⟩ := new_mem_addElem es ([], t) .array
        exact loop_next ⟨st'.rest, _⟩ hb' fun _ => arrayLoop_follows hf hsound m
          ⟨(skipWs st'.rest).tail, _⟩ h0' hb' (.inr ⟨rfl, e, he, by rw [heq]⟩)

/-- The loop of `parseObject`. -/
theorem objectLoop_follows (hf : Follows rd parse) (hsound : Sound env false rd) :
    ∀ (m : ℕ) (st : Parser F) {value : Option Ptr} {es : List (Key × Tree F)} {S D : List Ptr}
      {seen : Bool}, 0 ∉ st.rest → Building h st.heap .object p es S D → Variable es seen value →
      Option.Rel (LoopMatches h obj .object p es) (readElems false rd .object m seen st.rest)
        (objectLoop env parse p obj m st value)
  | 0, _, _, _, _, _, _, _, _, _ => .none
  | m + 1, st, value, es, S, D, seen, h0, hb, hv => by
      have h0s := no_nul_skipWs h0
      by_cases hright : (skipWs st.rest).head? = some rbrace
      · simp only [readElems, objectLoop, Parser.skipWs, Container.right, hright, if_true]
        exact .some (loop_succeed ⟨skipWs st.rest, st.heap⟩ hb _)
      simp only [readElems, objectLoop, Parser.skipWs, Container.right, hright, if_false, readElem,
        parsePlainString_eq h0s, readKey]
      cases hkey : readString false (skipWs st.rest) with
      | none => exact .some (loop_fail ⟨skipWs st.rest, st.heap⟩ hb)
      | some x =>
        obtain ⟨is, r⟩ := x
        simp only [Option.map_some]
        by_cases hcolon : (skipWs r).head? = some colon
        · simp only [hcolon, if_true, Parser.advance]
          have h0r : 0 ∉ skipWs (skipWs r).tail := by
            obtain ⟨-, -, b, hb⟩ := text_of_readString h0s hkey
            have h0r : 0 ∉ r := fun hm => h0s (by rw [hb]; simp [hm])
            exact no_nul_skipWs (no_nul_tail (no_nul_skipWs h0r))
          rcases rel_cases (hf ⟨skipWs (skipWs r).tail, st.heap⟩ value h0r) with
            ⟨hread, hparse⟩ | ⟨x, ⟨ok, value', st'⟩, hread, hparse, hm⟩
          · rw [hread, hparse]
            exact .none
          rw [hread, hparse]
          cases x with
          | atEnd =>
            cases hm
            exact .some (loop_atEnd env hb hv (decode is) [])
          | fail stale =>
            obtain ⟨rfl, -, S', D', hl⟩ := hm
            exact .some ⟨rfl, rfl, _, _, hb.lost hl⟩
          | value u v r' =>
            obtain ⟨rfl, rfl, t, S', D', rfl, rfl, ht⟩ := hm
            obtain ⟨D2, hb'⟩ := hb.add env ht (decode is)
            have h0' := no_nul_tail (no_nul_skipWs ((hsound h0r hread).no_nul h0r))
            obtain ⟨e, he, heq⟩ := new_mem_addElem es (decode is, t) .object
            exact loop_next ⟨st'.rest, _⟩ hb' fun _ => objectLoop_follows hf hsound m
              ⟨(skipWs st'.rest).tail, _⟩ h0' hb' (.inr ⟨rfl, e, he, by rw [heq]⟩)
        · simp only [hcolon, if_false]
          exact .some (loop_fail ⟨skipWs r, st.heap⟩ hb)

end Loops

/-! ## `parse` -/

theorem foldl_array {β : Type} (vs es : List (Key × β)) :
    (vs.foldl (fun es e => addElem es e .array) es).map Prod.snd =
      es.map Prod.snd ++ vs.map Prod.snd := by
  induction vs generalizing es with
  | nil => simp
  | cons v vs ih =>
    rw [List.foldl_cons, ih]
    simp [addElem]

/-- The value of a container whose elements were added one after the other. -/
theorem ofMembers_foldl (c : Container) (vs : List (Key × Value F)) :
    c.ofMembers (vs.foldl (fun es e => addElem es e c) []) = c.value vs := by
  cases c with
  | array =>
    rw [Container.ofMembers, foldl_array]
    rfl
  | object => rfl

theorem Building.produced {h h' : Heap F} {c : Container} {p : Ptr} {es : List (Key × Tree F)}
    {S D : List Ptr} (hb : Building h h' c p es S D) : Produced h h' (.node p c es) S D where
  grown := hb.grown
  holds := hb.tree
  ids := by
    rw [ids_node]
    exact hb.ids
  stored := hb.stored
  storedFresh := hb.storedFresh

theorem produced_leaf (h : Heap F) (x : Scalar F) :
    Produced h (h.create (.scalar x)).2 (.leaf h.nodes.length x) [] [] where
  grown := ⟨List.prefix_append _ _, (List.append_nil _).symm, (List.append_nil _).symm⟩
  holds := .leaf (by simp [Heap.create])
  ids := by simp [ids_leaf, fresh, Heap.create]
  stored := by simp
  storedFresh := by simp

theorem lost_nothing (h : Heap F) : Lost false h h [] [] where
  grown := .refl h
  storedFresh := by simp
  clean _ := by simp [fresh]
  stale hs := by cases hs

theorem matches_fail (st : Parser F) (obj : Option Ptr) :
    Matches st.heap obj (.fail false) ⟨false, obj, st⟩ :=
  ⟨rfl, rfl, [], [], lost_nothing st.heap⟩

theorem matches_scalar (st : Parser F) (obj : Option Ptr) (u : List Feature) (x : Scalar F)
    (r : List UInt8) :
    Matches st.heap obj (.value u (.scalar x) r) (st.created (st.heap.create (.scalar x)) r) :=
  ⟨rfl, rfl, .leaf st.heap.nodes.length x, [], [], rfl, value_leaf _ x, produced_leaf st.heap x⟩

/-- The container is done when its loop is. -/
theorem matches_container {h : Heap F} {obj : Option Ptr} {c : Container} {p : Ptr}
    {next : Option (Read (List (Key × Value F)))} {loop : Option (Result F)}
    (hrel : Option.Rel (LoopMatches h obj c p []) next loop) :
    Option.Rel (Matches h obj) (next.map (Read.map [] c.value)) loop := by
  rcases rel_cases hrel with ⟨rfl, rfl⟩ | ⟨x, res, rfl, rfl, hm⟩
  · exact .none
  · refine .some ?_
    cases x with
    | value u vs r =>
      obtain ⟨hok, hrest, hobj, es', S, D, hval, hb⟩ := hm
      refine ⟨hok, hrest, .node p c es', S, D, hobj, ?_, hb.produced⟩
      rw [value_node, hval]
      exact ofMembers_foldl c vs
    | atEnd => exact hm.elim
    | fail stale => exact hm

theorem children_nil_array : Children (.array none : Node F) [] .array := ⟨by simp, rfl⟩

theorem children_nil_object : Children (.object none none : Node F) [] .object :=
  ⟨List.nodup_nil, none, none, rfl, rfl, by simp, by simp⟩

/-- The deserializer takes the steps of the reader. -/
theorem parse_follows (env : Env F) : ∀ n, Follows (read env false n) (parse env n)
  | 0 => fun _ _ _ => .none
  | n + 1 => fun st obj h0 => by
      have h0s := no_nul_skipWs h0
      have hv : Variable ([] : List (Key × Tree F)) false none := .inl ⟨rfl, rfl, rfl⟩
      rw [read, parse]
      simp only [Parser.skipWs]
      generalize skipWs st.rest = s at h0s
      cases s with
      | nil => exact .some rfl
      | cons b s =>
        have h0t : 0 ∉ s := fun hm => h0s (List.mem_cons_of_mem _ hm)
        simp only
        split_ifs with h1 h2 h3 h4
        · exact matches_container (objectLoop_follows (parse_follows env n) (derives_of_read n) _
            ⟨s, _⟩ h0t (building_create st.heap children_nil_object) hv)
        · exact matches_container (arrayLoop_follows (parse_follows env n) (derives_of_read n) _
            ⟨s, _⟩ h0t (building_create st.heap children_nil_array) hv)
        · refine .some ?_
          simp only [parseString, readStringValue, parsePlainString_eq h0s]
          cases readString false (b :: s) with
          | none => exact matches_fail ⟨b :: s, st.heap⟩ obj
          | some x =>
            simp only [Option.map_some, Heap.createString, sized_append]
            exact matches_scalar ⟨b :: s, st.heap⟩ obj _ _ _
        · refine .some ?_
          simp only [parseNumberNode, readNumber, createScalar]
          cases parseNumber env (b :: s) with
          | none => exact matches_fail ⟨b :: s, st.heap⟩ obj
          | some x => exact matches_scalar ⟨b :: s, st.heap⟩ obj _ _ _
        · refine .some ?_
          unfold parseLiteral readLiteral
          split_ifs
          · exact matches_scalar ⟨b :: s, st.heap⟩ obj _ _ _
          · exact matches_scalar ⟨b :: s, st.heap⟩ obj _ _ _
          · exact matches_scalar ⟨b :: s, st.heap⟩ obj _ _ _
          · exact matches_fail ⟨b :: s, st.heap⟩ obj

end PoserCore.Json
