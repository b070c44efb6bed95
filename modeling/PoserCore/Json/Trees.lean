import Mathlib.Data.List.Perm.Basic
import Mathlib.Data.List.Perm.Subperm
import Mathlib.Data.List.Nodup
import PoserCore.Dictionary.Refine
import PoserCore.Json.Grammar
import PoserCore.Json.Parser

/-!
# Trees on the heap

`Holds nodes t`: the nodes of the tree `t` are on the heap, and its objects agree with their key
lists and dictionaries.  `PSC_Json_append` and `PSC_Json_setProperty` add a child to a container that
is held (`element_spec`), and `PSC_Json_destroy` destroys each node of a
tree once (`destroy_holds`).
-/

namespace PoserCore.Json

open Dictionary (Entry New)

variable {F : Type}

/-- A value together with its nodes; the children of an array have empty keys. -/
inductive Tree (F : Type)
  | leaf (p : Ptr) (x : Scalar F)
  | node (p : Ptr) (c : Container) (es : List (Key × Tree F))

def Tree.ptr : Tree F → Ptr
  | .leaf p _ => p
  | .node p _ _ => p

theorem sizeOf_child {es : List (Key × Tree F)} {e : Key × Tree F} (h : e ∈ es) :
    sizeOf e.2 < sizeOf es := by
  have hlt := List.sizeOf_lt_of_mem h
  obtain ⟨k, t⟩ := e
  simp only [Prod.mk.sizeOf_spec] at hlt ⊢
  omega

/-- The nodes of the tree. -/
def Tree.ids : Tree F → List Ptr
  | .leaf p _ => [p]
  | .node p _ es => p :: es.flatMap fun e => e.2.ids
decreasing_by
  have := sizeOf_child ‹_›
  simp only [Tree.node.sizeOf_spec]
  omega

def Container.ofMembers : Container → List (Key × Value F) → Value F
  | .array, es => .array (es.map Prod.snd)
  | .object, es => .object es

def Tree.value : Tree F → Value F
  | .leaf _ x => .scalar x
  | .node _ c es => c.ofMembers (es.map fun e => (e.1, e.2.value))
decreasing_by
  have := sizeOf_child ‹_›
  simp only [Tree.node.sizeOf_spec]
  omega

/-- The nodes of the children. -/
def childIds (es : List (Key × Tree F)) : List Ptr := es.flatMap fun e => e.2.ids

def links (es : List (Key × Tree F)) : List (Key × Ptr) := es.map fun e => (e.1, e.2.ptr)

theorem ids_leaf (p : Ptr) (x : Scalar F) : (Tree.leaf p x).ids = [p] := by
  rw [Tree.ids]

theorem ids_node (p : Ptr) (c : Container) (es : List (Key × Tree F)) :
    (Tree.node p c es).ids = p :: childIds es := by
  rw [Tree.ids]
  rfl

theorem ptr_mem_ids (t : Tree F) : t.ptr ∈ t.ids := by
  cases t with
  | leaf p x => simp [ids_leaf, Tree.ptr]
  | node p c es => simp [ids_node, Tree.ptr]

/-- The dictionary of an object with the children `ps`. -/
structure Values (d : Dictionary.Dictionary Ptr Unit) (ps : List (Key × Ptr)) : Prop where
  ok : d.Ok
  deleter : d.deleter = .all ()
  pairs : (d.entries.map Entry.pair).Perm (ps.map fun e => (e.1, some e.2))

/-- The container `x` has the children `ps`, and no list or dictionary if there are none. -/
def Children (x : Node F) (ps : List (Key × Ptr)) : Container → Prop
  | .array => (∀ e ∈ ps, e.1 = []) ∧
      x = .array (if ps = [] then none else some (ps.map fun e => some e.2))
  | .object => (ps.map Prod.fst).Nodup ∧ ∃ keys values, x = .object keys values ∧
      keys = (if ps = [] then none else some (ps.map Prod.fst)) ∧ (values = none ↔ ps = []) ∧
      ∀ d ∈ values, Values d ps

/-- The tree is on the heap. -/
inductive Holds (nodes : List (Node F)) : Tree F → Prop
  | leaf {p : Ptr} {x : Scalar F} (h : nodes[p]? = some (.scalar x)) : Holds nodes (.leaf p x)
  | node {p : Ptr} {c : Container} {es : List (Key × Tree F)} {x : Node F} (h : nodes[p]? = some x)
      (hx : Children x (links es) c) (hes : ∀ e ∈ es, Holds nodes e.2) : Holds nodes (.node p c es)

theorem mem_childIds {es : List (Key × Tree F)} {e : Key × Tree F} (he : e ∈ es) {p : Ptr}
    (hp : p ∈ e.2.ids) : p ∈ childIds es :=
  List.mem_flatMap.2 ⟨e, he, hp⟩

theorem length_child_le {es : List (Key × Tree F)} {e : Key × Tree F} (he : e ∈ es) :
    e.2.ids.length ≤ (childIds es).length := by
  obtain ⟨l, l', rfl⟩ := List.append_of_mem he
  simp only [childIds, List.flatMap_append, List.flatMap_cons, List.length_append]
  omega

/-- A tree stays where its nodes do not change. -/
theorem Holds.congr {nodes nodes' : List (Node F)} {t : Tree F} (h : Holds nodes t)
    (heq : ∀ p ∈ t.ids, nodes'[p]? = nodes[p]?) : Holds nodes' t := by
  induction h with
  | @leaf p x h => exact .leaf ((heq p (by simp [ids_leaf])).trans h)
  | @node p c es x h hx hes ih =>
    rw [ids_node] at heq
    refine .node ((heq p List.mem_cons_self).trans h) hx fun e he => ih e he fun q hq => ?_
    exact heq q (List.mem_cons_of_mem _ (mem_childIds he hq))

theorem Holds.lt_length {nodes : List (Node F)} {t : Tree F} (h : Holds nodes t) :
    ∀ p ∈ t.ids, p < nodes.length := by
  induction h with
  | @leaf p x h =>
    intro q hq
    rw [ids_leaf, List.mem_singleton] at hq
    subst hq
    exact (List.getElem?_eq_some_iff.1 h).1
  | @node p c es x h hx hes ih =>
    intro q hq
    rw [ids_node] at hq
    rcases List.mem_cons.1 hq with rfl | hq
    · exact (List.getElem?_eq_some_iff.1 h).1
    · obtain ⟨e, he, hq⟩ := List.mem_flatMap.1 hq
      exact ih e he q hq

theorem Holds.mono {nodes nodes' : List (Node F)} {t : Tree F} (h : Holds nodes t)
    (hp : nodes <+: nodes') : Holds nodes' t := by
  refine h.congr fun p hp' => ?_
  obtain ⟨l, rfl⟩ := hp
  exact List.getElem?_append_left (h.lt_length p hp')

theorem Holds.set {nodes : List (Node F)} {t : Tree F} (h : Holds nodes t) {p : Ptr} (x : Node F)
    (hp : p ∉ t.ids) : Holds (nodes.set p x) t := by
  refine h.congr fun q hq => ?_
  rw [List.getElem?_set_ne]
  rintro rfl
  exact hp hq

/-! ## `PSC_Json_destroy` -/

theorem destroyFrom_none (nodes : List (Node F)) (n : ℕ) : destroyFrom nodes n none = [] := by
  cases n <;> rfl

/-- The dictionary of an object deletes its values. -/
theorem delete_all {d : Dictionary.Dictionary Ptr Unit} (hdel : d.deleter = .all ()) :
    d.delete = fun e => [((), e.obj)] := by
  funext e
  rw [Dictionary.Dictionary.delete, hdel]

theorem destroy_all {d : Dictionary.Dictionary Ptr Unit} (hd : d.Ok)
    (hdel : d.deleter = .all ()) : d.destroy = d.entries.map fun e => ((), e.obj) := by
  rw [Dictionary.destroy_eq hd, delete_all hdel]
  exact List.map_eq_flatMap.symm

/-- A container is destroyed with its children. -/
theorem destroy_children {nodes : List (Node F)} {n : ℕ} {p : Ptr} {c : Container} {x : Node F}
    {ps : List (Key × Ptr)} (h : nodes[p]? = some x) (hx : Children x ps c) :
    (destroyFrom nodes (n + 1) (some p)).Perm
      (p :: ps.flatMap fun e => destroyFrom nodes n (some e.2)) := by
  cases c with
  | array =>
    obtain ⟨-, rfl⟩ := hx
    rw [destroyFrom, h]
    split_ifs with hnil
    · subst hnil
      exact .refl _
    · simp only [List.flatMap_map]
      exact .refl _
  | object =>
    obtain ⟨-, keys, values, rfl, -, hvalues, hd⟩ := hx
    rw [destroyFrom, h]
    refine List.Perm.cons _ ?_
    cases values with
    | none =>
      rw [hvalues.1 rfl]
      exact .refl _
    | some d =>
      have hobjs : (d.entries.map fun e => e.obj).Perm (ps.map fun e => some e.2) := by
        have := (hd d rfl).pairs.map Prod.snd
        simpa [Function.comp_def, Entry.pair] using this
      simp only [destroy_all (hd d rfl).ok (hd d rfl).deleter, List.flatMap_map]
      have := hobjs.flatMap_right (destroyFrom nodes n)
      simpa [List.flatMap_map] using this

/-- Each node of a tree is destroyed once. -/
theorem destroy_holds {nodes : List (Node F)} {t : Tree F} (h : Holds nodes t) :
    ∀ {n : ℕ}, t.ids.length ≤ n → (destroyFrom nodes n (some t.ptr)).Perm t.ids := by
  induction h with
  | @leaf p x h =>
    intro n hn
    rw [ids_leaf] at hn ⊢
    obtain ⟨n, rfl⟩ := Nat.exists_eq_succ_of_ne_zero (Nat.ne_of_gt hn)
    simp [destroyFrom, Tree.ptr, h]
  | @node p c es x h hx hes ih =>
    intro n hn
    rw [ids_node, List.length_cons] at hn
    obtain ⟨n, rfl⟩ := Nat.exists_eq_succ_of_ne_zero (Nat.ne_of_gt (Nat.zero_lt_of_lt hn))
    rw [ids_node]
    refine (destroy_children h hx).trans (.cons _ ?_)
    rw [links, List.flatMap_map]
    exact List.Perm.flatMap_left es fun e he =>
      ih e he ((length_child_le he).trans (Nat.le_of_succ_le_succ hn))

/-! ## Adding a child -/

/-- The children of a container after one more. -/
def addElem {β : Type} (es : List (Key × β)) (e : Key × β) : Container → List (Key × β)
  | .array => es ++ [([], e.2)]
  | .object => setMember es e

theorem mem_addElem {β : Type} {es : List (Key × β)} {x e : Key × β} {c : Container}
    (h : e ∈ addElem es x c) : e ∈ es ∨ e.2 = x.2 := by
  cases c with
  | array =>
    rcases List.mem_append.1 h with h | h
    · exact .inl h
    · exact .inr (by rw [List.mem_singleton.1 h])
  | object =>
    rw [addElem, setMember] at h
    split_ifs at h
    · obtain ⟨m, hm, rfl⟩ := List.mem_map.1 h
      split_ifs
      · exact .inr rfl
      · exact .inl hm
    · rcases List.mem_append.1 h with h | h
      · exact .inl h
      · exact .inr (by rw [List.mem_singleton.1 h])

theorem map_addElem {β γ : Type} (f : β → γ) (es : List (Key × β)) (e : Key × β) (c : Container) :
    (addElem es e c).map (fun e => (e.1, f e.2)) =
      addElem (es.map fun e => (e.1, f e.2)) (e.1, f e.2) c := by
  cases c with
  | array => simp [addElem]
  | object =>
    have hkeys : (es.map fun e => (e.1, f e.2)).map Prod.fst = es.map Prod.fst := by
      simp
    rw [addElem, addElem, setMember, setMember, hkeys]
    split_ifs with h
    · rw [List.map_map, List.map_map]
      refine List.map_congr_left fun m _ => ?_
      simp only [Function.comp_apply]
      split_ifs <;> rfl
    · simp

theorem links_addElem (es : List (Key × Tree F)) (e : Key × Tree F) (c : Container) :
    links (addElem es e c) = addElem (links es) (e.1, e.2.ptr) c :=
  map_addElem Tree.ptr es e c

def valuesOf (es : List (Key × Tree F)) : List (Key × Value F) := es.map fun e => (e.1, e.2.value)

theorem valuesOf_addElem (es : List (Key × Tree F)) (e : Key × Tree F) (c : Container) :
    valuesOf (addElem es e c) = addElem (valuesOf es) (e.1, e.2.value) c :=
  map_addElem Tree.value es e c

theorem value_leaf (p : Ptr) (x : Scalar F) : (Tree.leaf p x).value = .scalar x := by
  rw [Tree.value]

theorem value_node (p : Ptr) (c : Container) (es : List (Key × Tree F)) :
    (Tree.node p c es).value = c.ofMembers (valuesOf es) := by
  rw [Tree.value]
  rfl

/-- An array gets another child. -/
theorem children_append {x : Node F} {ps : List (Key × Ptr)} (hx : Children x ps .array)
    (e : Key × Ptr) : ∃ values, x = .array values ∧
      Children (.array (some (values.getD [] ++ [some e.2])) : Node F) (addElem ps e .array)
        .array := by
  obtain ⟨hkeys, rfl⟩ := hx
  refine ⟨_, rfl, ?_, ?_⟩
  · intro e' he'
    rcases List.mem_append.1 he' with h | h
    · exact hkeys e' h
    · rw [List.mem_singleton.1 h]
  · cases ps with
    | nil => rfl
    | cons p ps => simp [addElem]

theorem keys_setMember {β : Type} (ms : List (Key × β)) (e : Key × β) :
    (setMember ms e).map Prod.fst =
      if e.1 ∈ ms.map Prod.fst then ms.map Prod.fst else ms.map Prod.fst ++ [e.1] := by
  unfold setMember
  split_ifs with h
  · rw [List.map_map]
    refine List.map_congr_left fun m _ => ?_
    simp only [Function.comp_apply]
    split_ifs with hk
    · exact hk.symm
    · rfl
  · simp

theorem nodup_setMember {β : Type} {ms : List (Key × β)} (h : (ms.map Prod.fst).Nodup)
    (e : Key × β) : ((setMember ms e).map Prod.fst).Nodup := by
  rw [keys_setMember]
  split_ifs with hk
  · exact h
  · refine List.nodup_append.2 ⟨h, List.nodup_singleton _, ?_⟩
    rintro a ha b hb rfl
    exact hk (List.mem_singleton.1 hb ▸ ha)

/-- The member of the key goes, the new one comes. -/
theorem setMember_perm {β : Type} {ms : List (Key × β)} (h : (ms.map Prod.fst).Nodup)
    (e : Key × β) : (setMember ms e).Perm (e :: ms.filter fun m => m.1 ≠ e.1) := by
  unfold setMember
  split_ifs with hk
  · induction ms with
    | nil => simp at hk
    | cons m ms ih =>
      rw [List.map_cons, List.nodup_cons] at h
      rw [List.map_cons]
      by_cases hm : m.1 = e.1
      · have hrest : ms.map (fun m => if m.1 = e.1 then e else m) = ms := by
          refine (List.map_congr_left fun m' hm' => ?_).trans (List.map_id ms)
          have hne : m'.1 ≠ e.1 := fun hk' => h.1 (hm ▸ hk' ▸ List.mem_map_of_mem hm')
          rw [if_neg hne]
          rfl
        have hfilter : ms.filter (fun m => m.1 ≠ e.1) = ms := by
          refine List.filter_eq_self.2 fun m' hm' => ?_
          simp only [ne_eq, decide_eq_true_eq]
          exact fun hk' => h.1 (hm ▸ hk' ▸ List.mem_map_of_mem hm')
        rw [if_pos hm, hrest, List.filter_cons_of_neg (by simp [hm]), hfilter]
      · rw [if_neg hm, List.filter_cons_of_pos (by simp [hm])]
        have hk' : e.1 ∈ ms.map Prod.fst := by
          rw [List.map_cons] at hk
          exact (List.mem_cons.1 hk).resolve_left fun h => hm h.symm
        exact ((ih h.2 hk').cons m).trans (.swap ..)
  · have hfilter : ms.filter (fun m => m.1 ≠ e.1) = ms := by
      refine List.filter_eq_self.2 fun m' hm' => ?_
      simp only [ne_eq, decide_eq_true_eq]
      exact fun hk' => hk (hk' ▸ List.mem_map_of_mem hm')
    rw [hfilter]
    exact List.perm_append_singleton _ _

/-- The children a new one takes the place of. -/
def replaced {β : Type} (es : List (Key × β)) (key : Key) : Container → List (Key × β)
  | .array => []
  | .object => es.filter fun m => m.1 = key

/-- No node is lost when a child is added. -/
theorem childIds_addElem {es : List (Key × Tree F)} {c : Container} {x : Node F}
    (hx : Children x (links es) c) (e : Key × Tree F) :
    (childIds (replaced es e.1 c) ++ childIds (addElem es e c)).Perm (childIds es ++ e.2.ids) := by
  cases c with
  | array =>
    simp only [childIds, replaced, addElem, List.flatMap_nil, List.nil_append, List.flatMap_append,
      List.flatMap_cons, List.append_nil]
    exact .refl _
  | object =>
    have hnd : (es.map Prod.fst).Nodup := by
      have := hx.1
      simpa [links, Function.comp_def] using this
    have hset := (setMember_perm hnd e).flatMap_right fun e => Tree.ids e.2
    have hsplit : (es.filter (fun m => m.1 = e.1) ++ es.filter fun m => m.1 ≠ e.1).Perm es := by
      simpa using List.filter_append_perm (fun m : Key × Tree F => decide (m.1 = e.1)) es
    calc (childIds (replaced es e.1 .object) ++ childIds (addElem es e .object)).Perm
          (childIds (es.filter fun m => m.1 = e.1) ++
            (e.2.ids ++ childIds (es.filter fun m => m.1 ≠ e.1))) := hset.append_left _
      _ |>.Perm (childIds (es.filter fun m => m.1 = e.1) ++
            (childIds (es.filter fun m => m.1 ≠ e.1) ++ e.2.ids)) :=
          List.perm_append_comm.append_left _
      _ = childIds (es.filter (fun m => m.1 = e.1) ++ es.filter fun m => m.1 ≠ e.1) ++ e.2.ids := by
          simp [childIds]
      _ |>.Perm (childIds es ++ e.2.ids) := (hsplit.flatMap_right _).append_right _

/-! ### The dictionary of an object -/

theorem values_create (hash : Key → UInt64) : Values (.create hash (.all ())) [] where
  ok := Dictionary.ok_create hash _
  deleter := rfl
  pairs := by rw [Dictionary.entries_create]; exact .refl _

variable {d : Dictionary.Dictionary Ptr Unit} {ps : List (Key × Ptr)}

theorem Values.get_eq (h : Values d ps) {key : Key} {q : Ptr} (hq : (key, q) ∈ ps) :
    d.get key = some q := by
  rw [Dictionary.get_eq h.ok]
  refine Dictionary.findList_of_mem (Dictionary.nodup_keys h.ok) (h.pairs.symm.subset ?_)
  exact List.mem_map.2 ⟨_, hq, rfl⟩

theorem Values.get_isNone (h : Values d ps) (key : Key) :
    (d.get key).isNone ↔ key ∉ ps.map Prod.fst := by
  constructor
  · intro hnone hmem
    obtain ⟨⟨k, q⟩, hq, rfl⟩ := List.mem_map.1 hmem
    rw [h.get_eq hq] at hnone
    cases hnone
  · intro hmem
    rw [Dictionary.get_eq h.ok, Option.isNone_iff_eq_none]
    by_contra hne
    obtain ⟨o, ho⟩ := Option.ne_none_iff_exists'.1 hne
    obtain ⟨e, he, heq⟩ := List.mem_map.1 (h.pairs.subset (Dictionary.mem_of_findList ho))
    exact hmem (List.mem_map.2 ⟨e, he, congrArg Prod.fst heq⟩)

theorem Values.set (h : Values d ps) (hnd : (ps.map Prod.fst).Nodup) (key : Key) (q : Ptr) :
    Values (d.set key (some q) .individual) (setMember ps (key, q)) where
  ok := Dictionary.ok_set key _ _ h.ok
  deleter := h.deleter
  pairs := by
    obtain ⟨new, hnew, hperm⟩ := Dictionary.pairs_set key (some q) .individual h.ok
    rw [New] at hnew
    subst hnew
    calc ((d.set key (some q) .individual).entries.map Entry.pair).Perm
          ((key, some q) :: (d.entries.map Entry.pair).filter fun x => x.1 ≠ key) := hperm
      _ |>.Perm ((key, some q) :: (ps.map fun e => (e.1, some e.2)).filter fun x => x.1 ≠ key) :=
          (h.pairs.filter _).cons _
      _ = ((key, q) :: ps.filter fun m => m.1 ≠ key).map fun e => (e.1, some e.2) := by
          simp [List.filter_map, Function.comp_def]
      _ |>.Perm ((setMember ps (key, q)).map fun e => (e.1, some e.2)) :=
          (setMember_perm hnd (key, q)).symm.map _

theorem entryOf_toList {es : List (Entry Ptr Unit)} (h : (es.map Entry.key).Nodup) (key : Key) :
    (Dictionary.entryOf key es).toList = es.filter fun e => e.key = key := by
  induction es with
  | nil => rfl
  | cons e es ih =>
    rw [List.map_cons, List.nodup_cons] at h
    rw [Dictionary.entryOf_cons]
    split_ifs with hk
    · have hnil : es.filter (fun e => e.key = key) = [] := by
        refine List.filter_eq_nil_iff.2 fun e' he' => ?_
        simp only [decide_eq_true_eq]
        exact fun hk' => h.1 (hk ▸ hk' ▸ List.mem_map_of_mem he')
      rw [List.filter_cons_of_pos (by simp [hk]), hnil]
      rfl
    · rw [List.filter_cons_of_neg (by simp [hk]), ih h.2]

/-- The values the dictionary deletes when one is set. -/
theorem Values.calls (h : Values d ps) (key : Key) (o : Option Ptr) :
    ((d.set key o .individual).calls.drop d.calls.length).Perm
      ((ps.filter fun m => m.1 = key).map fun e => ((), some e.2)) := by
  rw [Dictionary.calls_set key o _ h.ok, List.drop_left, delete_all h.deleter,
    entryOf_toList (Dictionary.nodup_keys h.ok), ← List.map_eq_flatMap]
  have hobj : (fun e : Entry Ptr Unit => ((), e.obj)) = (fun x => ((), x.2)) ∘ Entry.pair := rfl
  have hfilter : (d.entries.filter fun e => e.key = key).map Entry.pair =
      (d.entries.map Entry.pair).filter fun x => x.1 = key := by
    rw [List.filter_map]
    rfl
  rw [hobj, ← List.map_map, hfilter]
  have := (h.pairs.filter fun x => x.1 = key).map fun x => ((), x.2)
  simpa [List.filter_map, Function.comp_def] using this

/-- An object gets another child. -/
theorem children_setProperty (env : Env F) {x : Node F} (hx : Children x ps .object) (key : Key)
    (q : Ptr) : ∃ keys values, x = .object keys values ∧
      Values (values.getD (.create env.hash (.all ()))) ps ∧
      Children (.object
        (if ((values.getD (.create env.hash (.all ()))).get key).isNone then
          some (keys.getD [] ++ [key]) else keys)
        (some ((values.getD (.create env.hash (.all ()))).set key (some q) .individual)) : Node F)
        (addElem ps (key, q) .object) .object := by
  obtain ⟨hnd, keys, values, rfl, hkeys, hvalues, hd⟩ := hx
  have hval : Values (values.getD (.create env.hash (.all ()))) ps := by
    cases values with
    | some d => exact hd d rfl
    | none =>
      rw [hvalues.1 rfl]
      exact values_create env.hash
  have hne : setMember ps (key, q) ≠ [] := by
    intro hnil
    have hperm := setMember_perm hnd (key, q)
    rw [hnil] at hperm
    simpa using hperm.length_eq
  have hkeys' : keys.getD [] = ps.map Prod.fst := by
    rw [hkeys]
    split_ifs with hnil
    · simp [hnil]
    · rfl
  refine ⟨keys, values, rfl, hval, nodup_setMember hnd _, _, _, rfl, ?_, ?_, ?_⟩
  · rw [addElem, if_neg hne, keys_setMember]
    by_cases hmem : key ∈ ps.map Prod.fst
    · rw [if_neg (fun hnone => (hval.get_isNone key).1 hnone hmem), if_pos hmem, hkeys,
        if_neg (by rintro rfl; simp at hmem)]
    · rw [if_pos ((hval.get_isNone key).2 hmem), if_neg hmem, hkeys']
  · simpa [addElem] using hne
  · rintro d hd'
    cases hd'
    exact hval.set hnd key q

/-! ### The calls -/

theorem sized_append (key : Key) : sized (key ++ [0]) key.length = key := by
  have hcond : ¬ (key.length = 0 ∧ (key ++ [0]).headD 0 ≠ 0) := by
    rintro ⟨hlen, hne⟩
    rw [List.eq_nil_of_length_eq_zero hlen] at hne
    exact hne rfl
  rw [sized, if_neg hcond, List.take_left]

/-- The call that adds a child, as the parser makes it. -/
def Heap.element (env : Env F) (h : Heap F) (p : Ptr) (key : Key) (o : Option Ptr) :
    Container → Heap F
  | .array => (h.append p o).1
  | .object => (h.setProperty env p (key ++ [0]) key.length o).1

/-- A child is added to a container that is held. -/
theorem element_spec (env : Env F) {h : Heap F} {p : Ptr} {x : Node F} {c : Container}
    (hp : h.nodes[p]? = some x) (hx : Children x ps c) (key : Key) (q : Ptr) :
    ∃ x' D, (h.element env p key (some q) c).nodes = h.nodes.set p x' ∧
      Children x' (addElem ps (key, q) c) c ∧
      (h.element env p key (some q) c).stored = h.stored ++ [q] ∧
      (h.element env p key (some q) c).destroyed = h.destroyed ++ D ∧
      D.Perm ((replaced ps key c).flatMap
        fun e => destroyFrom h.nodes h.nodes.length (some e.2)) := by
  cases c with
  | array =>
    obtain ⟨values, rfl, hc⟩ := children_append hx (key, q)
    refine ⟨_, [], ?_, hc, ?_, ?_, .refl _⟩
    all_goals simp [Heap.element, Heap.append, hp]
  | object =>
    obtain ⟨keys, values, rfl, hval, hc⟩ := children_setProperty env hx key q
    refine ⟨_, _, ?_, hc, ?_, ?_, ((hval.calls key (some q)).flatMap_right
      fun c => destroyFrom h.nodes h.nodes.length c.2).trans ?_⟩
    · simp only [Heap.element, Heap.setProperty, hp, sized_append]
    · simp [Heap.element, Heap.setProperty, hp]
    · simp only [Heap.element, Heap.setProperty, hp, sized_append]
    · rw [List.flatMap_map]
      exact .refl _

end PoserCore.Json
