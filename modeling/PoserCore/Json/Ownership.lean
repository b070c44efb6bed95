import PoserCore.Json.Trees
import PoserCore.Json.Truncated

/-!
# The deserializer owns its nodes

The deserializer goes with the reader, step by step (`parse_follows`): where the reader returns a
value, the deserializer returns a tree of this value, and the nodes it made on the way are the nodes
of the tree and those it destroyed, each once.  Where the reader fails, the deserializer has destroyed
all the nodes it made, each once unless the failure is `stale`.
-/

namespace PoserCore.Json

variable {F : Type}

/-! ## Heaps that grow -/

/-- The nodes made between two states of the heap. -/
def fresh (h h' : Heap F) : List Ptr :=
  List.range' h.nodes.length (h'.nodes.length - h.nodes.length)

theorem mem_fresh {h h' : Heap F} {p : ℕ} :
    p ∈ fresh h h' ↔ h.nodes.length ≤ p ∧ p < h'.nodes.length := by
  rw [fresh, List.mem_range'_1]
  omega

theorem fresh_append {h h1 h2 : Heap F} (h01 : h.nodes.length ≤ h1.nodes.length)
    (h12 : h1.nodes.length ≤ h2.nodes.length) : fresh h h1 ++ fresh h1 h2 = fresh h h2 := by
  have hstart : h1.nodes.length = h.nodes.length + (h1.nodes.length - h.nodes.length) := by omega
  have hlen : h2.nodes.length - h.nodes.length =
      h1.nodes.length - h.nodes.length + (h2.nodes.length - h1.nodes.length) := by omega
  rw [fresh, fresh, fresh, hlen, ← List.range'_append_1, ← hstart]

theorem nodup_fresh (h h' : Heap F) : (fresh h h').Nodup := List.nodup_range'

/-- From `h` to `h'`, the nodes `S` were stored and the nodes `D` destroyed, and the nodes of `h` are
as before. -/
structure Grown (h h' : Heap F) (S D : List Ptr) : Prop where
  nodes : h.nodes <+: h'.nodes
  stored : h'.stored = h.stored ++ S
  destroyed : h'.destroyed = h.destroyed ++ D

theorem Grown.refl (h : Heap F) : Grown h h [] [] :=
  ⟨List.prefix_rfl, (List.append_nil _).symm, (List.append_nil _).symm⟩

theorem Grown.trans {h h1 h2 : Heap F} {S D S' D' : List Ptr} (h01 : Grown h h1 S D)
    (h12 : Grown h1 h2 S' D') : Grown h h2 (S ++ S') (D ++ D') where
  nodes := h01.nodes.trans h12.nodes
  stored := by rw [h12.stored, h01.stored, List.append_assoc]
  destroyed := by rw [h12.destroyed, h01.destroyed, List.append_assoc]

theorem Grown.le {h h' : Heap F} {S D : List Ptr} (hg : Grown h h' S D) :
    h.nodes.length ≤ h'.nodes.length := hg.nodes.length_le

/-- The tree `t` was made: its nodes are new, and so are all others, which are destroyed. -/
structure Produced (h h' : Heap F) (t : Tree F) (S D : List Ptr) : Prop where
  grown : Grown h h' S D
  holds : Holds h'.nodes t
  ids : (D ++ t.ids).Perm (fresh h h')
  stored : (t.ptr :: S).Nodup
  storedFresh : ∀ p ∈ S, p ∈ fresh h h'

/-- Nothing that was made is left; a `stale` node was stored twice. -/
structure Lost (stale : Bool) (h h' : Heap F) (S D : List Ptr) : Prop where
  grown : Grown h h' S D
  storedFresh : ∀ p ∈ S, p ∈ fresh h h'
  clean : stale = false → D.Perm (fresh h h') ∧ S.Nodup
  stale : stale = true → (∀ p ∈ fresh h h', p ∈ D) ∧ ¬ S.Nodup

/-- A container that is being filled with the children `es`. -/
structure Building (h h' : Heap F) (c : Container) (p : Ptr) (es : List (Key × Tree F))
    (S D : List Ptr) : Prop where
  grown : Grown h h' S D
  ptr : h.nodes.length ≤ p
  node : ∃ x, h'.nodes[p]? = some x ∧ Children x (links es) c
  holds : ∀ e ∈ es, Holds h'.nodes e.2
  ids : (D ++ p :: childIds es).Perm (fresh h h')
  stored : (p :: S).Nodup
  storedFresh : ∀ q ∈ S, q ∈ fresh h h'
  childrenStored : ∀ e ∈ es, e.2.ptr ∈ S

section Building

variable {env : Env F} {h h' : Heap F} {c : Container} {p : Ptr} {es : List (Key × Tree F)}
  {S D : List Ptr}

theorem Building.nodup_ids (hb : Building h h' c p es S D) : (p :: childIds es).Nodup :=
  ((hb.ids.nodup_iff.2 (nodup_fresh h h')).sublist (List.sublist_append_right _ _))

theorem Building.ids_le (hb : Building h h' c p es S D) :
    (childIds es).length + 1 ≤ h'.nodes.length := by
  have hlen := hb.ids.length_eq
  rw [fresh, List.length_range', List.length_append, List.length_cons] at hlen
  omega

/-- The container is a tree. -/
theorem Building.tree (hb : Building h h' c p es S D) : Holds h'.nodes (.node p c es) := by
  obtain ⟨x, hx, hc⟩ := hb.node
  exact .node hx hc hb.holds

/-- `PSC_Json_createArray` or `PSC_Json_createObject`. -/
theorem building_create (h : Heap F) {x : Node F} {c : Container} (hx : Children x [] c) :
    Building h (h.create x).2 c h.nodes.length [] [] [] where
  grown := ⟨List.prefix_append _ _, (List.append_nil _).symm, (List.append_nil _).symm⟩
  ptr := Nat.le_refl _
  node := ⟨x, by simp [Heap.create], hx⟩
  holds := by simp
  ids := by simp [childIds, fresh, Heap.create]
  stored := by simp
  storedFresh := by simp
  childrenStored := by simp

/-- The container is destroyed with all its children. -/
theorem Building.destroy (hb : Building h h' c p es S D) :
    Lost false h (h'.destroy (some p)) S (D ++ destroyFrom h'.nodes h'.nodes.length (some p)) where
  grown := ⟨hb.grown.nodes, hb.grown.stored, by
    rw [Heap.destroy, hb.grown.destroyed, List.append_assoc]⟩
  storedFresh := hb.storedFresh
  clean _ := by
    refine ⟨List.Perm.trans ?_ hb.ids, (List.nodup_cons.1 hb.stored).2⟩
    have hdestroy : (destroyFrom h'.nodes h'.nodes.length (some p)).Perm (Tree.node p c es).ids := by
      refine destroy_holds hb.tree ?_
      rw [ids_node]
      exact hb.ids_le
    rw [ids_node] at hdestroy
    exact hdestroy.append_left D
  stale hs := by cases hs

/-- A node that stays when the heap grows. -/
theorem Grown.getElem {h h' : Heap F} {S D : List Ptr} (hg : Grown h h' S D) {q : Ptr} {x : Node F}
    (hq : h.nodes[q]? = some x) : h'.nodes[q]? = some x := by
  obtain ⟨l, hl⟩ := hg.nodes
  rw [← hl, List.getElem?_append_left (List.getElem?_eq_some_iff.1 hq).1, hq]

theorem Building.lt (hb : Building h h' c p es S D) : p < h'.nodes.length := by
  obtain ⟨x, hx, -⟩ := hb.node
  exact (List.getElem?_eq_some_iff.1 hx).1

/-- What was made after the container is apart from it. -/
theorem Building.not_mem_fresh (hb : Building h h' c p es S D) (h2 : Heap F) : p ∉ fresh h' h2 :=
  fun hm => Nat.not_le.2 hb.lt (mem_fresh.1 hm).1

theorem fresh_subset_left {h h1 h2 : Heap F} (h12 : h1.nodes.length ≤ h2.nodes.length) {q : Ptr}
    (hq : q ∈ fresh h h1) : q ∈ fresh h h2 :=
  mem_fresh.2 ⟨(mem_fresh.1 hq).1, (mem_fresh.1 hq).2.trans_le h12⟩

theorem fresh_subset_right {h h1 h2 : Heap F} (h01 : h.nodes.length ≤ h1.nodes.length) {q : Ptr}
    (hq : q ∈ fresh h1 h2) : q ∈ fresh h h2 :=
  mem_fresh.2 ⟨h01.trans (mem_fresh.1 hq).1, (mem_fresh.1 hq).2⟩

/-- Stored before and stored after. -/
theorem nodup_append_fresh {h h1 h2 : Heap F} {S S' : List Ptr} (hS : S.Nodup) (hS' : S'.Nodup)
    (hf : ∀ q ∈ S, q ∈ fresh h h1) (hf' : ∀ q ∈ S', q ∈ fresh h1 h2) : (S ++ S').Nodup := by
  refine List.nodup_append.2 ⟨hS, hS', ?_⟩
  rintro a ha b hb rfl
  exact Nat.not_le.2 (mem_fresh.1 (hf a ha)).2 (mem_fresh.1 (hf' a hb)).1

/-- The failure of a child is the failure of the container. -/
theorem Building.lost {stale : Bool} {h2 : Heap F} {S' D' : List Ptr}
    (hb : Building h h' c p es S D) (hl : Lost stale h' h2 S' D') :
    Lost stale h (h2.destroy (some p)) (S ++ S')
      (D ++ D' ++ destroyFrom h2.nodes h2.nodes.length (some p)) := by
  obtain ⟨x, hx, hc⟩ := hb.node
  have hle := hl.grown.le
  have htree : Holds h2.nodes (.node p c es) := hb.tree.mono hl.grown.nodes
  have hdestroy : (destroyFrom h2.nodes h2.nodes.length (some p)).Perm (p :: childIds es) := by
    rw [← ids_node p c es]
    refine destroy_holds htree ?_
    rw [ids_node]
    exact hb.ids_le.trans hle
  have hfresh : fresh h h' ++ fresh h' h2 = fresh h h2 := fresh_append hb.grown.le hle
  refine ⟨⟨(hb.grown.trans hl.grown).nodes, (hb.grown.trans hl.grown).stored, ?_⟩, ?_, ?_, ?_⟩
  · rw [Heap.destroy, (hb.grown.trans hl.grown).destroyed, List.append_assoc]
  · intro q hq
    rcases List.mem_append.1 hq with hq | hq
    · exact fresh_subset_left hle (hb.storedFresh q hq)
    · exact fresh_subset_right hb.grown.le (hl.storedFresh q hq)
  · intro hs
    obtain ⟨hperm, hnd⟩ := hl.clean hs
    refine ⟨?_, nodup_append_fresh (List.nodup_cons.1 hb.stored).2 hnd hb.storedFresh hl.storedFresh⟩
    calc (D ++ D' ++ destroyFrom h2.nodes h2.nodes.length (some p)).Perm
          (D ++ D' ++ p :: childIds es) := hdestroy.append_left _
      _ |>.Perm (D ++ p :: childIds es ++ D') := by
          rw [List.append_assoc, List.append_assoc]
          exact List.perm_append_comm.append_left _
      _ |>.Perm (fresh h h' ++ fresh h' h2) := hb.ids.append hperm
      _ = fresh h (h2.destroy (some p)) := hfresh
  · intro hs
    obtain ⟨hsub, hnd⟩ := hl.stale hs
    refine ⟨fun q hq => ?_, fun hnd' => hnd (hnd'.sublist (List.sublist_append_right _ _))⟩
    have hq : q ∈ fresh h h' ++ fresh h' h2 := hfresh ▸ hq
    rcases List.mem_append.1 hq with hq | hq
    · rcases List.mem_append.1 (hb.ids.symm.subset hq) with hq | hq
      · simp [hq]
      · exact List.mem_append_right _ (hdestroy.symm.subset hq)
    · simp [hsub q hq]

/-- The children that are replaced are destroyed node by node. -/
theorem Building.destroy_replaced (hb : Building h h' c p es S D) {nodes : List (Node F)}
    (hn : h'.nodes <+: nodes) (key : Key) :
    ((replaced (links es) key c).flatMap fun e => destroyFrom nodes nodes.length (some e.2)).Perm
      (childIds (replaced es key c)) := by
  cases c with
  | array => exact .refl _
  | object =>
    have hfilter : replaced (links es) key .object = links (replaced es key .object) := by
      simp [replaced, links, List.filter_map, Function.comp_def]
    rw [hfilter, links, List.flatMap_map]
    refine List.Perm.flatMap_left _ fun e he => ?_
    have hes : e ∈ es := List.mem_of_mem_filter he
    refine destroy_holds ((hb.holds e hes).mono hn) ?_
    exact (length_child_le hes).trans ((Nat.le_of_succ_le hb.ids_le).trans hn.length_le)

/-- A child that was made is added. -/
theorem Building.add {h2 : Heap F} {t : Tree F} {S' D' : List Ptr} (env : Env F)
    (hb : Building h h' c p es S D) (ht : Produced h' h2 t S' D') (key : Key) :
    ∃ D2, Building h (h2.element env p key (some t.ptr) c) c p (addElem es (key, t) c)
      (S ++ S' ++ [t.ptr]) (D ++ D' ++ D2) := by
  obtain ⟨x, hx, hc⟩ := hb.node
  have hle := ht.grown.le
  have hgrown := hb.grown.trans ht.grown
  have hx2 : h2.nodes[p]? = some x := ht.grown.getElem hx
  obtain ⟨x', D2, hnodes, hc', hstored, hdestroyed, hD2⟩ :=
    element_spec env hx2 hc key t.ptr
  have hlen : (h2.element env p key (some t.ptr) c).nodes.length = h2.nodes.length := by
    rw [hnodes, List.length_set]
  have hfreshEq (h0 : Heap F) : fresh h0 (h2.element env p key (some t.ptr) c) = fresh h0 h2 := by
    rw [fresh, fresh, hlen]
  have htFresh : ∀ q ∈ t.ids, q ∈ fresh h' h2 := fun q hq =>
    ht.ids.subset (List.mem_append_right _ hq)
  have hptr := htFresh _ (ptr_mem_ids t)
  have hD2' := hD2.trans (hb.destroy_replaced ht.grown.nodes key)
  refine ⟨D2, ?_, hb.ptr, ⟨x', ?_, ?_⟩, ?_, ?_, ?_, ?_, ?_⟩
  · refine ⟨?_, ?_, ?_⟩
    · obtain ⟨l, hl⟩ := hgrown.nodes
      rw [hnodes, ← hl, List.set_append_right _ _ hb.ptr]
      exact List.prefix_append _ _
    · rw [hstored, hgrown.stored, List.append_assoc, List.append_assoc]
    · rw [hdestroyed, hgrown.destroyed, List.append_assoc, List.append_assoc]
  · rw [hnodes, List.getElem?_set_self (hb.lt.trans_le hle)]
  · rw [links_addElem]
    exact hc'
  · intro e he
    have hpids : p ∉ childIds es := (List.nodup_cons.1 hb.nodup_ids).1
    have hold (e' : Key × Tree F) (he' : e' ∈ es) :
        Holds (h2.element env p key (some t.ptr) c).nodes e'.2 := by
      rw [hnodes]
      exact ((hb.holds e' he').mono ht.grown.nodes).set x' fun hm => hpids (mem_childIds he' hm)
    have hnew : Holds (h2.element env p key (some t.ptr) c).nodes t := by
      rw [hnodes]
      exact ht.holds.set x' fun hm => hb.not_mem_fresh h2 (htFresh p hm)
    rcases mem_addElem he with he | he
    · exact hold e he
    · rw [he]
      exact hnew
  · rw [hfreshEq]
    calc (D ++ D' ++ D2 ++ p :: childIds (addElem es (key, t) c)).Perm
          (D ++ D' ++ (p :: (childIds (replaced es key c) ++ childIds (addElem es (key, t) c)))) := by
          rw [List.append_assoc]
          exact ((hD2'.append_right _).trans List.perm_middle).append_left _
      _ |>.Perm (D ++ D' ++ (p :: (childIds es ++ t.ids))) :=
          ((childIds_addElem hc (key, t)).cons p).append_left _
      _ |>.Perm ((D ++ p :: childIds es) ++ (D' ++ t.ids)) := by
          rw [List.append_assoc, List.append_assoc]
          refine List.Perm.append_left D ?_
          rw [← List.cons_append, ← List.append_assoc, ← List.append_assoc]
          exact List.perm_append_comm.append_right _
      _ |>.Perm (fresh h h' ++ fresh h' h2) := hb.ids.append ht.ids
      _ = fresh h h2 := fresh_append hb.grown.le hle
  · have hS' : (S' ++ [t.ptr]).Nodup := List.perm_append_singleton _ _ |>.nodup_iff.2 ht.stored
    have hS'Fresh : ∀ q ∈ S' ++ [t.ptr], q ∈ fresh h' h2 := by
      intro q hq
      rcases List.mem_append.1 hq with hq | hq
      · exact ht.storedFresh q hq
      · rw [List.mem_singleton.1 hq]
        exact hptr
    rw [List.append_assoc]
    refine List.nodup_cons.2 ⟨fun hm => ?_, nodup_append_fresh (List.nodup_cons.1 hb.stored).2 hS'
      hb.storedFresh hS'Fresh⟩
    rcases List.mem_append.1 hm with hm | hm
    · exact (List.nodup_cons.1 hb.stored).1 hm
    · exact hb.not_mem_fresh h2 (hS'Fresh p hm)
  · intro q hq
    rw [hfreshEq]
    simp only [List.mem_append, List.mem_singleton] at hq
    rcases hq with (hq | hq) | rfl
    · exact fresh_subset_left hle (hb.storedFresh q hq)
    · exact fresh_subset_right hb.grown.le (ht.storedFresh q hq)
    · exact fresh_subset_right hb.grown.le hptr
  · intro e he
    rcases mem_addElem he with he | he
    · simp [hb.childrenStored e he]
    · simp [he]

/-- An empty container at the end of the input: nothing comes into it. -/
theorem element_none (env : Env F) {h : Heap F} {p : Ptr} {x : Node F} {c : Container}
    (hp : h.nodes[p]? = some x) (hx : Children x [] c) (key : Key) :
    ∃ x', (h.element env p key none c).nodes = h.nodes.set p x' ∧
      (h.element env p key none c).stored = h.stored ∧
      (h.element env p key none c).destroyed = h.destroyed ∧
      ∀ n, destroyFrom (h.nodes.set p x') (n + 1) (some p) = [p] := by
  have hself (x' : Node F) : (h.nodes.set p x')[p]? = some x' :=
    List.getElem?_set_self (List.getElem?_eq_some_iff.1 hp).1
  cases c with
  | array =>
    obtain ⟨-, rfl⟩ := hx
    refine ⟨.array (some [none]), ?_, ?_, ?_, fun n => ?_⟩
    · simp [Heap.element, Heap.append, hp]
    · simp [Heap.element, Heap.append, hp]
    · simp [Heap.element, Heap.append, hp]
    · simp [destroyFrom, hself, destroyFrom_none]
  | object =>
    obtain ⟨-, keys, values, rfl, hkeys, hvalues, -⟩ := hx
    obtain rfl : values = none := hvalues.2 rfl
    have hval := values_create env.hash
    have hcalls := List.perm_nil.1 (hval.calls key none)
    refine ⟨.object (some (keys.getD [] ++ [key]))
      (some ((Dictionary.Dictionary.create env.hash (.all ())).set key none .individual)),
      ?_, ?_, ?_, fun n => ?_⟩
    · simp [Heap.element, Heap.setProperty, hp, sized_append, Dictionary.get_create]
    · simp [Heap.element, Heap.setProperty, hp]
    · simp only [Heap.element, Heap.setProperty, hp, sized_append, Option.getD_none, hcalls,
        List.flatMap_nil, List.append_nil]
    · -- the dictionary has no entry, or one without a value
      have hok := Dictionary.ok_set key none .individual hval.ok
      obtain ⟨new, hnew, hperm⟩ := Dictionary.pairs_set key none .individual hval.ok
      rw [Dictionary.entries_create, List.map_nil, List.filter_nil, List.append_nil] at hperm
      have hobj : ∀ e ∈ ((Dictionary.Dictionary.create env.hash (.all ())).set key none
          .individual : Dictionary.Dictionary Ptr Unit).entries, e.obj = none := by
        intro e he
        exact congrArg Prod.snd (hnew.fst_eq _ (hperm.subset (List.mem_map_of_mem he)))
      rw [destroyFrom, hself]
      simp only [destroy_all hok rfl, List.flatMap_map]
      rw [List.flatMap_eq_nil_iff.2]
      intro e he
      rw [hobj e he, destroyFrom_none]

/-- The end of the input where no child was made before. -/
theorem Building.atEnd_first (env : Env F) (hb : Building h h' c p [] S D) (key : Key) :
    Lost false h ((h'.element env p key none c).destroy (some p)) S (D ++ [p]) := by
  obtain ⟨x, hx, hc⟩ := hb.node
  obtain ⟨x', hnodes, hstored, hdestroyed, hdestroy⟩ := element_none env hx hc key
  have hlen : (h'.nodes.set p x').length = h'.nodes.length := List.length_set
  have hfresh : fresh h ((h'.element env p key none c).destroy (some p)) = fresh h h' := by
    rw [fresh, fresh, Heap.destroy, hnodes, hlen]
  obtain ⟨n, hn⟩ := Nat.exists_eq_succ_of_ne_zero (Nat.ne_of_gt (Nat.zero_lt_of_lt hb.lt))
  refine ⟨⟨?_, ?_, ?_⟩, ?_, fun _ => ⟨?_, (List.nodup_cons.1 hb.stored).2⟩, fun hs => by cases hs⟩
  · obtain ⟨l, hl⟩ := hb.grown.nodes
    rw [Heap.destroy, hnodes, ← hl, List.set_append_right _ _ hb.ptr]
    exact List.prefix_append _ _
  · rw [Heap.destroy, hstored, hb.grown.stored]
  · rw [Heap.destroy, hdestroyed, hnodes, hlen, hn, hdestroy, hb.grown.destroyed, List.append_assoc]
  · rw [hfresh]
    exact hb.storedFresh
  · rw [hfresh]
    exact hb.ids

/-- The end of the input after other children: one of them is added once more. -/
theorem Building.atEnd_stale (env : Env F) (hb : Building h h' c p es S D) {e : Key × Tree F}
    (he : e ∈ es) (key : Key) :
    ∃ D', Lost true h ((h'.element env p key (some e.2.ptr) c).destroy (some p)) (S ++ [e.2.ptr])
      D' := by
  obtain ⟨x, hx, hc⟩ := hb.node
  obtain ⟨x', D2, hnodes, hc', hstored, hdestroyed, hD2⟩ := element_spec env hx hc key e.2.ptr
  have hD2' := hD2.trans (hb.destroy_replaced List.prefix_rfl key)
  have hlen : (h'.nodes.set p x').length = h'.nodes.length := List.length_set
  have hfresh : fresh h ((h'.element env p key (some e.2.ptr) c).destroy (some p)) = fresh h h' := by
    rw [fresh, fresh, Heap.destroy, hnodes, hlen]
  obtain ⟨n, hn⟩ := Nat.exists_eq_succ_of_ne_zero (Nat.ne_of_gt (Nat.zero_lt_of_lt hb.lt))
  have hpids : p ∉ childIds es := (List.nodup_cons.1 hb.nodup_ids).1
  have hdestroy : (destroyFrom (h'.nodes.set p x') (n + 1) (some p)).Perm
      (p :: childIds (addElem es (key, e.2) c)) := by
    rw [← links_addElem es (key, e.2)] at hc'
    refine (destroy_children (List.getElem?_set_self hb.lt) hc').trans (.cons _ ?_)
    rw [links, List.flatMap_map]
    refine List.Perm.flatMap_left _ fun e' he' => ?_
    obtain ⟨e'', he'', heq⟩ : ∃ e'' ∈ es, e'.2 = e''.2 := by
      rcases mem_addElem he' with he' | he'
      · exact ⟨e', he', rfl⟩
      · exact ⟨e, he, he'⟩
    rw [heq]
    refine destroy_holds ((hb.holds e'' he'').set x' fun hm => hpids (mem_childIds he'' hm)) ?_
    have := hb.ids_le
    exact (length_child_le he'').trans (by omega)
  refine ⟨D ++ (D2 ++ destroyFrom (h'.nodes.set p x') (n + 1) (some p)), ⟨⟨?_, ?_, ?_⟩, ?_,
    (fun hs => by cases hs), fun _ => ⟨fun q hq => ?_, fun hnd => ?_⟩⟩⟩
  · obtain ⟨l, hl⟩ := hb.grown.nodes
    rw [Heap.destroy, hnodes, ← hl, List.set_append_right _ _ hb.ptr]
    exact List.prefix_append _ _
  · rw [Heap.destroy, hstored, hb.grown.stored, List.append_assoc]
  · rw [Heap.destroy, hdestroyed, hnodes, hlen, hn, hb.grown.destroyed]
    simp
  · rw [hfresh]
    intro q hq
    rcases List.mem_append.1 hq with hq | hq
    · exact hb.storedFresh q hq
    · rw [List.mem_singleton.1 hq]
      exact hb.storedFresh _ (hb.childrenStored e he)
  · rw [hfresh] at hq
    rcases List.mem_append.1 (hb.ids.symm.subset hq) with hq | hq
    · exact List.mem_append_left _ hq
    · refine List.mem_append_right _ ?_
      rcases List.mem_cons.1 hq with rfl | hq
      · exact List.mem_append_right _ (hdestroy.symm.subset List.mem_cons_self)
      · have hq' := (childIds_addElem hc (key, e.2)).symm.subset (List.mem_append_left _ hq)
        rcases List.mem_append.1 hq' with hq' | hq'
        · exact List.mem_append_left _ (hD2'.symm.subset hq')
        · exact List.mem_append_right _ (hdestroy.symm.subset (List.mem_cons_of_mem _ hq'))
  · exact (List.nodup_append.1 hnd).2.2 _ (hb.childrenStored e he) _ List.mem_cons_self rfl

end Building

end PoserCore.Json
