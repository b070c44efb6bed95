import PoserCore.Dictionary.Count
import PoserCore.Json.Builders

/-!
# The serializer

On a tree the serializer writes `Tree.text`, and it uses a `NULL` pointer exactly where it meets an
array without elements or an object without members (`serialize_prints`).  From the representation of
the heap it follows when it does not do so on any graph a program can build
(`serialize_safe_iff`).
-/

namespace PoserCore.Json

variable {F : Type} {env : Env F}

/-! ## One loop for arrays and objects -/

/-- What stands in front of the value of an element. -/
def keyText : Container → Key → List UInt8
  | .array, _ => []
  | .object, key => quote :: key.flatMap escapeByte ++ [quote, colon]

/-- The loops of `serializeArray` and `serializeObject` over the children of a node. -/
def serializeElems (serialize : Writer → Option Ptr → Outcome) (c : Container) :
    (i : ℕ) → List (Key × Ptr) → Writer → Outcome
  | _, [], w => .done w
  | i, e :: es, w =>
      (serappend w (if i = 0 then [] else [comma])).andThen fun w =>
        (serappend w (keyText c e.1)).andThen fun w =>
          (serialize w (some e.2)).andThen fun w => serializeElems serialize c (i + 1) es w

theorem andThen_assoc (r : Outcome) (k l : Writer → Outcome) :
    (r.andThen k).andThen l = r.andThen fun w => (k w).andThen l := by
  cases r <;> rfl

theorem serappend_append (w : Writer) (s s' : List UInt8) :
    serappend w (s ++ s') = (serappend w s).andThen fun w => serappend w s' := by
  induction s generalizing w with
  | nil => rfl
  | cons c s ih =>
    rw [List.cons_append, serappend, serappend]
    cases appendChr w c with
    | none => rfl
    | some w => exact ih w

variable {ser : Writer → Option Ptr → Outcome}

theorem serializeItems_eq (i : ℕ) (ps : List (Key × Ptr)) (w : Writer) :
    serializeItems ser i (ps.map fun e => some e.2) w = serializeElems ser .array i ps w := by
  induction ps generalizing i w with
  | nil => rfl
  | cons e ps ih =>
    rw [List.map_cons, serializeItems, serializeElems]
    simp only [ih]
    rfl

theorem serializeMembers_eq {d : Dictionary.Dictionary Ptr Unit} {ps : List (Key × Ptr)}
    (hget : ∀ e ∈ ps, d.get e.1 = some e.2) (keys : List Key) (w : Writer) :
    serializeMembers ser (some (keys ++ ps.map Prod.fst)) d ps.length keys.length w =
      serializeElems ser .object keys.length ps w := by
  induction ps generalizing keys w with
  | nil => rfl
  | cons e ps ih =>
    have hkey : (keys ++ (e :: ps).map Prod.fst)[keys.length]? = some e.1 := by simp
    have hrest := ih (fun e he => hget e (List.mem_cons_of_mem _ he)) (keys ++ [e.1])
    rw [List.append_assoc, List.singleton_append, List.length_append, List.length_singleton]
      at hrest
    have htext : keyText .object e.1 = (quote :: e.1.flatMap escapeByte ++ [quote]) ++ [colon] := by
      simp [keyText]
    rw [List.length_cons, serializeMembers, Option.bind_some, hkey, serializeElems, htext]
    simp only [serializePlainString, serappend_append, andThen_assoc, hget e List.mem_cons_self]
    rw [← List.map_cons] at hrest
    simp only [hrest]

theorem Values.length {d : Dictionary.Dictionary Ptr Unit} {ps : List (Key × Ptr)}
    (h : Values d ps) : d.count = ps.length := by
  rw [h.ok.count]
  simpa using h.pairs.length_eq

/-- A container is serialized with its children; without any, its list or dictionary is `NULL`. -/
theorem serialize_node {nodes : List (Node F)} {p : Ptr} {x : Node F} {c : Container}
    {ps : List (Key × Ptr)} (hp : nodes[p]? = some x) (hx : Children x ps c) (n : ℕ) (w : Writer) :
    serialize env nodes (n + 1) w (some p) = (serappend w [c.left]).andThen fun w =>
      if ps = [] then .fault
      else (serializeElems (serialize env nodes n) c 0 ps w).andThen fun w =>
        serappend w [c.right] := by
  rw [serialize, hp]
  cases c with
  | array =>
    obtain ⟨-, rfl⟩ := hx
    by_cases hnil : ps = []
    · simp only [hnil, if_true]
      rfl
    · simp only [hnil, if_false, serializeItems_eq]
      rfl
  | object =>
    obtain ⟨-, keys, values, rfl, hkeys, hvalues, hd⟩ := hx
    by_cases hnil : ps = []
    · rw [hvalues.2 hnil]
      simp only [hnil, if_true]
      rfl
    · obtain ⟨d, rfl⟩ := Option.ne_none_iff_exists'.1 fun hv => hnil (hvalues.1 hv)
      have hval := hd d rfl
      have hloop (w : Writer) :
          serializeMembers (serialize env nodes n) (some ([] ++ ps.map Prod.fst)) d ps.length 0 w =
            serializeElems (serialize env nodes n) .object 0 ps w :=
        serializeMembers_eq (fun e he => hval.get_eq he) [] w
      rw [if_neg hnil] at hkeys
      simp only [hkeys, hval.length, hnil, if_false]
      simp only [List.nil_append] at hloop
      simp only [hloop]
      rfl

/-! ## How the serializer can end -/

/-- The outcome is a writer in `A`, or one of the ends that are allowed. -/
def Outcome.Within (A : Writer → Prop) (full fault fuel : Prop) : Outcome → Prop
  | .done w => A w
  | .full _ => full
  | .fault => fault
  | .fuel => fuel

section Within

variable {A : Writer → Prop} {full fault fuel : Prop} {nodes : List (Node F)}

theorem Outcome.Within.andThen {r : Outcome} {k : Writer → Outcome}
    (hr : r.Within A full fault fuel) (hk : ∀ w, A w → (k w).Within A full fault fuel) :
    (r.andThen k).Within A full fault fuel := by
  cases r with
  | done w => exact hk w hr
  | full w => exact hr
  | fault => exact hr
  | fuel => exact hr

theorem serializeElems_within
    (happ : ∀ w s, A w → (serappend w s).Within A full fault fuel) {c : Container}
    {ps : List (Key × Ptr)}
    (hser : ∀ e ∈ ps, ∀ w, A w → (ser w (some e.2)).Within A full fault fuel) (i : ℕ) {w : Writer}
    (hw : A w) : (serializeElems ser c i ps w).Within A full fault fuel := by
  induction ps generalizing i w with
  | nil => exact hw
  | cons e ps ih =>
    refine (happ _ _ hw).andThen fun w hw => (happ _ _ hw).andThen fun w hw => ?_
    refine (hser e List.mem_cons_self w hw).andThen fun w hw => ?_
    exact ih (fun e he => hser e (List.mem_cons_of_mem _ he)) (i + 1) hw

theorem serialize_scalar (happ : ∀ w s, A w → (serappend w s).Within A full fault fuel)
    (x : Scalar F) {w : Writer} (hw : A w) :
    (serializeScalar env w x).Within A full fault fuel := by
  cases x with
  | null => exact happ _ _ hw
  | bool b => cases b <;> exact happ _ _ hw
  | integer v => exact happ _ _ hw
  | float v => exact happ _ _ hw
  | string s => exact happ _ _ hw

theorem serialize_node_within (happ : ∀ w s, A w → (serappend w s).Within A full fault fuel)
    {p : Ptr} {x : Node F} {c : Container} {ps : List (Key × Ptr)} {n : ℕ}
    (hp : nodes[p]? = some x) (hx : Children x ps c) (hnil : ps = [] → fault)
    (hser : ∀ e ∈ ps, ∀ w, A w → (serialize env nodes n w (some e.2)).Within A full fault fuel)
    {w : Writer} (hw : A w) :
    (serialize env nodes (n + 1) w (some p)).Within A full fault fuel := by
  rw [serialize_node hp hx]
  refine (happ _ _ hw).andThen fun w hw => ?_
  split_ifs with h
  · exact hnil h
  · exact (serializeElems_within happ hser 0 hw).andThen fun w hw => happ _ _ hw

end Within

theorem serappend_no_fault (w : Writer) (s : List UInt8) :
    (serappend w s).Within (fun _ => True) True False True := by
  induction s generalizing w with
  | nil => trivial
  | cons c s ih =>
    rw [serappend]
    cases appendChr w c with
    | none => trivial
    | some w => exact ih w

/-- A buffer that grows takes every byte. -/
theorem serappend_owned {w : Writer} (hw : w.bufowned = true) (s : List UInt8) :
    ∃ w', serappend w s = .done w' ∧ w'.buf = w.buf ++ s ∧ w'.bufowned = true := by
  induction s generalizing w with
  | nil => exact ⟨w, rfl, (List.append_nil _).symm, hw⟩
  | cons c s ih =>
    obtain ⟨w', hrun, hbuf, hown⟩ := @ih { w with
      buf := w.buf ++ [c]
      bufsz := if w.buf.length = w.bufsz then w.bufsz + 1024 else w.bufsz } hw
    refine ⟨w', ?_, ?_, hown⟩
    · rw [serappend, appendChr, if_neg (by simp [hw])]
      exact hrun
    · rw [hbuf, List.append_assoc, List.singleton_append]

theorem serappend_clean {fault fuel : Prop} (w : Writer) (s : List UInt8)
    (hw : w.bufowned = true) :
    (serappend w s).Within (fun w => w.bufowned = true) False fault fuel := by
  obtain ⟨w', hrun, -, hown⟩ := serappend_owned hw s
  rw [hrun]
  exact hown

/-! ## Graphs without empty containers -/

/-- The array has no list of elements, the object no dictionary. -/
def Node.Empty : Node F → Prop
  | .array none => True
  | .object _ none => True
  | _ => False

/-- The serializer goes from the node to `q`. -/
def Node.HasChild (q : Ptr) : Node F → Prop
  | .array (some items) => some q ∈ items
  | .object _ (some values) => ∃ key, values.get key = some q
  | _ => False

inductive Below (nodes : List (Node F)) : Ptr → Ptr → Prop
  | self (p : Ptr) : Below nodes p p
  | child {p q r : Ptr} {x : Node F} (hp : nodes[p]? = some x) (hq : x.HasChild q)
      (h : Below nodes q r) : Below nodes p r

/-- Nothing that is reached from `p` is an empty container. -/
def NoEmpty (nodes : List (Node F)) (p : Ptr) : Prop :=
  ∀ q x, Below nodes p q → nodes[q]? = some x → ¬ x.Empty

theorem empty_iff {x : Node F} {c : Container} {ps : List (Key × Ptr)} (hx : Children x ps c) :
    x.Empty ↔ ps = [] := by
  cases c with
  | array =>
    obtain ⟨-, rfl⟩ := hx
    split_ifs with h <;> simp [Node.Empty, h]
  | object =>
    obtain ⟨-, keys, values, rfl, -, hvalues, -⟩ := hx
    rw [← hvalues]
    cases values <;> simp [Node.Empty]

theorem hasChild_iff {x : Node F} {c : Container} {ps : List (Key × Ptr)} (hx : Children x ps c)
    (q : Ptr) : x.HasChild q ↔ ∃ e ∈ ps, e.2 = q := by
  cases c with
  | array =>
    obtain ⟨-, rfl⟩ := hx
    split_ifs with h <;> simp [Node.HasChild, h]
  | object =>
    obtain ⟨-, keys, values, rfl, -, hvalues, hd⟩ := hx
    cases values with
    | none => simp [Node.HasChild, hvalues.1 rfl]
    | some d =>
      have hval := hd d rfl
      constructor
      · rintro ⟨key, hkey⟩
        have hmem := hval.pairs.subset ((Dictionary.mem_iff_get hval.ok key q).2 hkey)
        obtain ⟨e, he, heq⟩ := List.mem_map.1 hmem
        exact ⟨e, he, Option.some_inj.1 (Prod.ext_iff.1 heq).2⟩
      · rintro ⟨e, he, rfl⟩
        exact ⟨e.1, hval.get_eq he⟩

theorem NoEmpty.child {nodes : List (Node F)} {p q : Ptr} {x : Node F} (h : NoEmpty nodes p)
    (hp : nodes[p]? = some x) (hq : x.HasChild q) : NoEmpty nodes q :=
  fun r y hr => h r y (.child hp hq hr)

/-- How the serializer ends on any graph, with any fuel. -/
theorem serialize_within {A : Writer → Prop} {full fault : Prop}
    (happ : ∀ w s, A w → (serappend w s).Within A full fault True) {h : Heap F} {G : Ptr → Prop}
    (hr : Represented h G) : ∀ (n : ℕ) {p : Ptr} {w : Writer}, G p → (¬ fault → NoEmpty h.nodes p) →
      A w → (serialize env h.nodes n w (some p)).Within A full fault True
  | 0, _, _, _, _, _ => trivial
  | n + 1, p, w, hG, hne, hw => by
      obtain ⟨x, hx, hs⟩ := hr.node p hG
      rcases hs with ⟨s, rfl⟩ | ⟨c, ps, hc, hps⟩
      · rw [serialize, hx]
        exact serialize_scalar happ s hw
      · refine serialize_node_within happ hx hc (fun hnil => ?_) (fun e he w hw => ?_) hw
        · by_contra hfault
          exact hne hfault p x (.self p) hx ((empty_iff hc).2 hnil)
        · have hchild := (hasChild_iff hc e.2).2 ⟨e, he, rfl⟩
          exact serialize_within happ hr n (hps e he) (fun hf => (hne hf).child hx hchild) hw

/-! ## Trees -/

def scalarText (env : Env F) : Scalar F → List UInt8
  | .null => litNull
  | .bool false => litFalse
  | .bool true => litTrue
  | .integer v => formatInteger v
  | .float v => env.format v
  | .string s => quote :: s.flatMap escapeByte ++ [quote]

/-- Elements with commas between them, from index `i` on. -/
def joined : ℕ → List (List UInt8) → List UInt8
  | _, [] => []
  | i, s :: ss => (if i = 0 then [] else [comma]) ++ s ++ joined (i + 1) ss

/-- The text the serializer writes for a tree. -/
def Tree.text (env : Env F) : Tree F → List UInt8
  | .leaf _ x => scalarText env x
  | .node _ c es =>
      c.left :: joined 0 (es.map fun e => keyText c e.1 ++ e.2.text env) ++ [c.right]
decreasing_by
  have := sizeOf_child ‹_›
  simp only [Tree.node.sizeOf_spec]
  omega

/-- Every container of the tree has elements. -/
inductive Filled : Tree F → Prop
  | leaf (p : Ptr) (x : Scalar F) : Filled (.leaf p x)
  | node {p : Ptr} {c : Container} {es : List (Key × Tree F)} (hne : es ≠ [])
      (hes : ∀ e ∈ es, Filled e.2) : Filled (.node p c es)

theorem filled_node {p : Ptr} {c : Container} {es : List (Key × Tree F)} :
    Filled (.node p c es) ↔ es ≠ [] ∧ ∀ e ∈ es, Filled e.2 := by
  constructor
  · intro h
    cases h with
    | node hne hes => exact ⟨hne, hes⟩
  · exact fun ⟨hne, hes⟩ => .node hne hes

/-- The outcome is the text `s` if `P` holds and a fault if not, unless the fuel is used up. -/
def Prints (P : Prop) (s : List UInt8) (w : Writer) (r : Outcome) : Prop :=
  r = .fuel ∨ P ∧ (∃ w', r = .done w' ∧ w'.buf = w.buf ++ s ∧ w'.bufowned = true) ∨
    ¬ P ∧ r = .fault

theorem Prints.andThen {P Q : Prop} {s s' : List UInt8} {w : Writer} {r : Outcome}
    {k : Writer → Outcome} (hr : Prints P s w r)
    (hk : ∀ w', w'.bufowned = true → Prints Q s' w' (k w')) :
    Prints (P ∧ Q) (s ++ s') w (r.andThen k) := by
  rcases hr with rfl | ⟨hP, w', rfl, hbuf, hown⟩ | ⟨hP, rfl⟩
  · exact .inl rfl
  · rcases hk w' hown with hfuel | ⟨hQ, w2, hrun, hbuf2, hown2⟩ | ⟨hQ, hfault⟩
    · exact .inl hfuel
    · refine .inr (.inl ⟨⟨hP, hQ⟩, w2, hrun, ?_, hown2⟩)
      rw [hbuf2, hbuf, List.append_assoc]
    · exact .inr (.inr ⟨fun h => hQ h.2, hfault⟩)
  · exact .inr (.inr ⟨fun h => hP h.1, rfl⟩)

theorem Prints.congr {P Q : Prop} {s s' : List UInt8} {w : Writer} {r : Outcome}
    (h : Prints P s w r) (hPQ : P ↔ Q) (hs : s = s') : Prints Q s' w r := by
  subst hs
  rw [Prints, ← hPQ]
  exact h

theorem prints_append {w : Writer} (hw : w.bufowned = true) (s : List UInt8) :
    Prints True s w (serappend w s) :=
  .inr (.inl ⟨trivial, serappend_owned hw s⟩)

theorem prints_elems {c : Container} {es : List (Key × Tree F)}
    (hser : ∀ e ∈ es, ∀ w, w.bufowned = true →
      Prints (Filled e.2) (e.2.text env) w (ser w (some e.2.ptr))) (i : ℕ) {w : Writer}
    (hw : w.bufowned = true) :
    Prints (∀ e ∈ es, Filled e.2) (joined i (es.map fun e => keyText c e.1 ++ e.2.text env)) w
      (serializeElems ser c i (links es) w) := by
  induction es generalizing i w with
  | nil => exact .inr (.inl ⟨by simp, w, rfl, (List.append_nil _).symm, hw⟩)
  | cons e es ih =>
    have hrest (w : Writer) (hw : w.bufowned = true) :=
      ih (fun e he => hser e (List.mem_cons_of_mem _ he)) (i + 1) hw
    have hall : Prints _ _ w (serializeElems ser c i (links (e :: es)) w) :=
      (prints_append hw _).andThen fun w hw => (prints_append hw _).andThen fun w hw =>
        (hser e List.mem_cons_self w hw).andThen hrest
    refine hall.congr ?_ ?_
    · simp
    · simp [joined]

/-- What the serializer does on a tree. -/
theorem serialize_prints {nodes : List (Node F)} {t : Tree F} (ht : Holds nodes t) :
    ∀ (n : ℕ) {w : Writer}, w.bufowned = true →
      Prints (Filled t) (t.text env) w (serialize env nodes n w (some t.ptr)) := by
  induction ht with
  | @leaf p x hx =>
    intro n w hw
    cases n with
    | zero => exact .inl rfl
    | succ n =>
      have htext : serializeScalar env w x = serappend w (scalarText env x) := by
        cases x with
        | bool b => cases b <;> rfl
        | _ => rfl
      rw [serialize, Tree.ptr, hx, Tree.text]
      simp only [htext]
      exact (prints_append hw _).congr (iff_of_true trivial (.leaf p x)) rfl
  | @node p c es x hx hc hes ih =>
    intro n w hw
    cases n with
    | zero => exact .inl rfl
    | succ n =>
      have hnil : links es = [] ↔ es = [] := by simp [links]
      rw [Tree.ptr, serialize_node hx hc]
      by_cases hempty : es = []
      · obtain ⟨w', hrun, -⟩ := serappend_owned hw [c.left]
        rw [hrun]
        refine .inr (.inr ⟨fun hf => (filled_node.1 hf).1 hempty, ?_⟩)
        rw [Outcome.andThen, if_pos (hnil.2 hempty)]
      · have hall := (prints_append hw [c.left]).andThen fun w hw =>
          (prints_elems (c := c) (fun e he w hw => ih e he n hw) 0 hw).andThen fun w hw =>
            prints_append hw [c.right]
        simp only [hnil, hempty, if_false]
        refine hall.congr ?_ ?_
        · simp [filled_node, hempty]
        · simp [Tree.text]

/-- Enough fuel for a tree. -/
theorem serialize_fueled {nodes : List (Node F)} {t : Tree F} (ht : Holds nodes t) :
    ∀ {n : ℕ} {w : Writer}, t.ids.length ≤ n → w.bufowned = true →
      (serialize env nodes n w (some t.ptr)).Within (fun w => w.bufowned = true) False True
        False := by
  induction ht with
  | @leaf p x hx =>
    intro n w hn hw
    rw [ids_leaf] at hn
    obtain ⟨n, rfl⟩ := Nat.exists_eq_succ_of_ne_zero (Nat.ne_of_gt hn)
    rw [serialize, Tree.ptr, hx]
    exact serialize_scalar serappend_clean x hw
  | @node p c es x hx hc hes ih =>
    intro n w hn hw
    rw [ids_node, List.length_cons] at hn
    obtain ⟨n, rfl⟩ := Nat.exists_eq_succ_of_ne_zero (Nat.ne_of_gt (Nat.zero_lt_of_lt hn))
    refine serialize_node_within serappend_clean hx hc (fun _ => trivial) (fun e he w hw => ?_) hw
    obtain ⟨e, he', rfl⟩ := List.mem_map.1 he
    exact ih e he' ((length_child_le he').trans (Nat.le_of_succ_le_succ hn)) hw

theorem noEmpty_of_filled {nodes : List (Node F)} {p q : Ptr} (hb : Below nodes p q) :
    ∀ {t : Tree F}, Holds nodes t → t.ptr = p → Filled t → ∀ x, nodes[q]? = some x →
      ¬ x.Empty := by
  induction hb with
  | self p =>
    rintro t ht rfl hf x hx
    cases ht with
    | leaf h =>
      cases h.symm.trans hx
      exact id
    | node h hc hes =>
      cases h.symm.trans hx
      rw [empty_iff hc]
      simpa [links] using (filled_node.1 hf).1
  | @child p q r x hp hq _ ih =>
    rintro t ht rfl hf
    cases ht with
    | leaf h =>
      cases h.symm.trans hp
      exact hq.elim
    | node h hc hes =>
      cases h.symm.trans hp
      obtain ⟨_, he', rfl⟩ := (hasChild_iff hc q).1 hq
      obtain ⟨e, he, rfl⟩ := List.mem_map.1 he'
      exact ih (hes e he) rfl ((filled_node.1 hf).2 e he)

/-- No `NULL` pointer is used on a value without empty containers, and on any finite value with one
there is. -/
theorem serialize_safe_iff {h : Heap F} (hb : Built env h) {p : Ptr} (hp : Live h p) :
    (NoEmpty h.nodes p → ∀ n w, serialize env h.nodes n w (some p) ≠ .fault) ∧
      ∀ t, Holds h.nodes t → t.ptr = p →
        (∀ n w, serialize env h.nodes n w (some p) ≠ .fault) → NoEmpty h.nodes p := by
  obtain ⟨G, hr⟩ := built_represented hb
  constructor
  · intro hne n w hfault
    have hend : (serialize env h.nodes n w (some p)).Within (fun _ => True) True False True :=
      serialize_within (fun w s _ => serappend_no_fault w s) hr n (hr.live p hp) (fun _ => hne)
        trivial
    rw [hfault] at hend
    exact hend
  · rintro t ht rfl hsafe
    have hend : (serialize env h.nodes t.ids.length .empty (some t.ptr)).Within
        (fun w => w.bufowned = true) False True False := serialize_fueled ht le_rfl rfl
    have hprints : Prints (Filled t) (t.text env) .empty
        (serialize env h.nodes t.ids.length .empty (some t.ptr)) := serialize_prints ht _ rfl
    rcases hprints with hfuel | ⟨hf, -⟩ | ⟨-, hfault⟩
    · rw [hfuel] at hend
      exact hend.elim
    · exact fun q x hq hx => noEmpty_of_filled hq ht rfl hf x hx
    · exact absurd hfault (hsafe _ _)

/-- `PSC_Json_createArray`, `PSC_Json_createNull` and `PSC_Json_append` -/
theorem serialize_safe_iff_null :
    let h : Heap Unit := ⟨[.array (some [some 1]), .scalar .null], [1], []⟩
    ∀ n w, serialize plainEnv h.nodes n w (some 0) ≠ .fault := by
  intro h
  have hb : Built plainEnv h :=
    .step (a := .append 0 1) (.step (a := .createNull) (.step (a := .createArray) (.init rfl)
      trivial rfl) trivial rfl) ⟨⟨by decide, by decide⟩, by decide, by decide⟩ rfl
  have ht : Holds h.nodes (.node 0 .array [([], .leaf 1 .null)]) :=
    .node rfl ⟨by simp [links], rfl⟩ fun e he => List.mem_singleton.1 he ▸ .leaf rfl
  have hf : Filled (.node 0 .array [([], .leaf 1 .null)] : Tree Unit) :=
    .node (List.cons_ne_nil _ _) fun e he => List.mem_singleton.1 he ▸ .leaf 1 .null
  exact (serialize_safe_iff hb ⟨by decide, by decide⟩).1
    fun q x hq hx => noEmpty_of_filled hq ht rfl hf x hx

/-- An array nothing was appended to. -/
theorem serialize_faults : ∃ h : Heap Unit, Built plainEnv h ∧ Live h 0 ∧
    serialize plainEnv h.nodes 1 .empty (some 0) = .fault :=
  ⟨_, .step (a := .createArray) (.init rfl) trivial rfl, ⟨by decide, by decide⟩, rfl⟩

end PoserCore.Json
