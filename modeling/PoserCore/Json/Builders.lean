import PoserCore.Json.Deserialize
import PoserCore.Lib.Machine

/-!
# What the builder functions make

After any calls of the functions that create, fill and destroy JSON values, with pointers that are
not `NULL` and not destroyed, every node that is left has children that agree with its list or its
dictionary (`built_represented`).  The calls may make any graph, also one with cycles.
-/

namespace PoserCore.Json

open Lib (Machine)

variable {F : Type} {env : Env F}

/-- A call of the interface. -/
inductive Call (F : Type)
  | createNull
  | createBool (value : Bool)
  | createInteger (value : Int64)
  | createFloat (value : F)
  | createString (value : List UInt8) (len : ℕ)
  | createArray
  | createObject
  | append (self item : Ptr)
  | setProperty (self : Ptr) (name : List UInt8) (namelen : ℕ) (value : Ptr)
  | deserialize (json : List UInt8)
  | destroy (self : Ptr)

def Live (h : Heap F) (p : Ptr) : Prop := p < h.nodes.length ∧ p ∉ h.destroyed

def Call.Valid (h : Heap F) : Call F → Prop
  | .append self item => Live h self ∧ Live h item
  | .setProperty self _ _ value => Live h self ∧ Live h value
  | .destroy self => Live h self
  | _ => True

def Call.run (env : Env F) (h : Heap F) : Call F → Heap F
  | .createNull => h.createNull.2
  | .createBool value => (h.createBool value).2
  | .createInteger value => (h.createInteger value).2
  | .createFloat value => (h.createFloat value).2
  | .createString value len => (h.createString value len).2
  | .createArray => h.createArray.2
  | .createObject => h.createObject.2
  | .append self item => (h.append self (some item)).1
  | .setProperty self name namelen value => (h.setProperty env self name namelen (some value)).1
  | .deserialize json => (Json.deserialize env h json).elim h Prod.snd
  | .destroy self => h.destroy (some self)

def builders (env : Env F) : Machine (Heap F) (Call F) where
  init h := h = .empty
  step h c := some (c.run env h)

/-- The heaps of programs that use the interface as it is documented. -/
def Built (env : Env F) (h : Heap F) : Prop := (builders env).Run (fun h c => c.Valid h) h

/-! ## The representation -/

/-- A scalar, or a container whose children are in `G`. -/
def Sane (G : Ptr → Prop) (x : Node F) : Prop :=
  (∃ s, x = .scalar s) ∨ ∃ c ps, Children x ps c ∧ ∀ e ∈ ps, G e.2

/-- The nodes of `G` are well formed, and what is not destroyed is one of them. -/
structure Represented (h : Heap F) (G : Ptr → Prop) : Prop where
  live : ∀ p, Live h p → G p
  node : ∀ p, G p → ∃ x, h.nodes[p]? = some x ∧ Sane G x

theorem Sane.mono {G G' : Ptr → Prop} (hG : ∀ p, G p → G' p) {x : Node F} (h : Sane G x) :
    Sane G' x := by
  rcases h with hs | ⟨c, ps, hc, hps⟩
  · exact .inl hs
  · exact .inr ⟨c, ps, hc, fun e he => hG _ (hps e he)⟩

variable {h h' : Heap F} {G : Ptr → Prop}

/-- New nodes come after the old ones. -/
theorem Represented.grow (hr : Represented h G) (hn : h.nodes <+: h'.nodes)
    (hd : ∀ p ∈ h.destroyed, p ∈ h'.destroyed) {N : Ptr → Prop}
    (hlive : ∀ p, h.nodes.length ≤ p → Live h' p → N p)
    (hnode : ∀ p, N p → ∃ x, h'.nodes[p]? = some x ∧ Sane N x) :
    Represented h' fun p => G p ∨ N p where
  live p hp := by
    by_cases hlt : p < h.nodes.length
    · exact .inl (hr.live p ⟨hlt, fun hm => hp.2 (hd p hm)⟩)
    · exact .inr (hlive p (Nat.not_lt.1 hlt) hp)
  node p hp := by
    rcases hp with hp | hp
    · obtain ⟨x, hx, hs⟩ := hr.node p hp
      obtain ⟨l, hl⟩ := hn
      refine ⟨x, ?_, hs.mono fun _ => .inl⟩
      rw [← hl, List.getElem?_append_left (List.getElem?_eq_some_iff.1 hx).1, hx]
    · obtain ⟨x, hx, hs⟩ := hnode p hp
      exact ⟨x, hx, hs.mono fun _ => .inr⟩

/-- One node is changed. -/
theorem Represented.set (hr : Represented h G) (p : Ptr) {x : Node F} (hx : Sane G x)
    (hn : h'.nodes = h.nodes.set p x) (hd : ∀ q ∈ h.destroyed, q ∈ h'.destroyed) :
    Represented h' G where
  live q hq := hr.live q ⟨by simpa [hn] using hq.1, fun hm => hq.2 (hd q hm)⟩
  node q hq := by
    obtain ⟨y, hy, hs⟩ := hr.node q hq
    by_cases hqp : p = q
    · subst hqp
      exact ⟨x, by rw [hn, List.getElem?_set_self (List.getElem?_eq_some_iff.1 hy).1], hx⟩
    · exact ⟨y, by rw [hn, List.getElem?_set_ne hqp, hy], hs⟩

theorem Represented.create (hr : Represented h G) {x : Node F} (hx : ∀ N, Sane N x) :
    ∃ G', Represented (h.create x).2 G' := by
  have hn : h.nodes <+: (h.create x).2.nodes := List.prefix_append _ _
  refine ⟨_, hr.grow (N := fun p => p = h.nodes.length) hn (fun _ => id) (fun p hle hp => ?_) ?_⟩
  · have hlt := hp.1
    simp only [Heap.create, List.length_append, List.length_singleton] at hlt
    exact Nat.le_antisymm (Nat.le_of_lt_succ hlt) hle
  · rintro p rfl
    exact ⟨x, by simp [Heap.create], hx _⟩

theorem sane_scalar (N : Ptr → Prop) (x : Scalar F) : Sane N (.scalar x) := .inl ⟨x, rfl⟩

theorem sane_createArray (N : Ptr → Prop) : Sane N (.array none : Node F) :=
  .inr ⟨.array, [], children_nil_array, by simp⟩

theorem sane_createObject (N : Ptr → Prop) : Sane N (.object none none : Node F) :=
  .inr ⟨.object, [], children_nil_object, by simp⟩

theorem Represented.append (hr : Represented h G) {self item : Ptr} (hself : G self)
    (hitem : G item) : Represented (h.append self (some item)).1 G := by
  obtain ⟨x, hx, hs⟩ := hr.node self hself
  rcases hs with ⟨s, rfl⟩ | ⟨c, ps, hc, hps⟩
  · simpa [Heap.append, hx] using hr
  cases c with
  | object =>
    obtain ⟨-, keys, values, rfl, -⟩ := hc
    simpa [Heap.append, hx] using hr
  | array =>
    obtain ⟨values, rfl, hc'⟩ := children_append hc ([], item)
    have hnew : Sane G (.array (some (values.getD [] ++ [some item])) : Node F) := by
      refine .inr ⟨.array, _, hc', fun e he => ?_⟩
      rcases mem_addElem he with he | he
      · exact hps e he
      · rw [he]
        exact hitem
    refine hr.set self hnew ?_ ?_
    · simp [Heap.append, hx]
    · simp [Heap.append, hx]

theorem Represented.setProperty (hr : Represented h G) {self value : Ptr} (name : List UInt8)
    (namelen : ℕ) (hself : G self) (hvalue : G value) :
    Represented (h.setProperty env self name namelen (some value)).1 G := by
  obtain ⟨x, hx, hs⟩ := hr.node self hself
  rcases hs with ⟨s, rfl⟩ | ⟨c, ps, hc, hps⟩
  · simpa [Heap.setProperty, hx] using hr
  cases c with
  | array =>
    obtain ⟨-, rfl⟩ := hc
    simpa [Heap.setProperty, hx] using hr
  | object =>
    obtain ⟨keys, values, rfl, -, hc'⟩ := children_setProperty env hc (sized name namelen) value
    refine hr.set self (.inr ⟨.object, _, hc', fun e he => ?_⟩) ?_ ?_
    · rcases mem_addElem he with he | he
      · exact hps e he
      · rw [he]
        exact hvalue
    · simp only [Heap.setProperty, hx]
    · simp only [Heap.setProperty, hx]
      exact fun q hq => List.mem_append_left _ hq

/-- The nodes of a tree are well formed. -/
theorem Holds.sane {nodes : List (Node F)} {t : Tree F} (ht : Holds nodes t) :
    ∀ p ∈ t.ids, ∃ x, nodes[p]? = some x ∧ Sane (· ∈ t.ids) x := by
  induction ht with
  | @leaf p x hx =>
    intro q hq
    rw [ids_leaf, List.mem_singleton] at hq
    subst hq
    exact ⟨_, hx, sane_scalar _ x⟩
  | @node p c es x hx hc hes ih =>
    rw [ids_node]
    intro q hq
    rcases List.mem_cons.1 hq with rfl | hq
    · refine ⟨x, hx, .inr ⟨c, links es, hc, fun e he => ?_⟩⟩
      obtain ⟨e', he', rfl⟩ := List.mem_map.1 he
      exact List.mem_cons_of_mem _ (mem_childIds he' (ptr_mem_ids e'.2))
    · obtain ⟨e, he, hq⟩ := List.mem_flatMap.1 hq
      obtain ⟨y, hy, hs⟩ := ih e he q hq
      exact ⟨y, hy, hs.mono fun r hr => List.mem_cons_of_mem _ (mem_childIds he hr)⟩

theorem Represented.deserialize (hr : Represented h G) (json : List UInt8) :
    ∃ G', Represented ((Call.deserialize json).run env h) G' := by
  obtain ⟨o, h', hrun, hres⟩ := deserialize_cases env h json
  have hcall : (Call.deserialize json).run env h = h' := by rw [Call.run, hrun]; rfl
  rw [hcall]
  have hold {S D : List Ptr} (hg : Grown h h' S D) : ∀ p ∈ h.destroyed, p ∈ h'.destroyed :=
    fun p hp => hg.destroyed ▸ List.mem_append_left _ hp
  rcases hres with ⟨u, t, S, D, -, -, -, -, ht⟩ | ⟨-, -, stale, S, D, hl, -⟩
  · refine ⟨_, hr.grow (N := (· ∈ t.ids)) ht.grown.nodes (hold ht.grown) (fun p hle hp => ?_)
      ht.holds.sane⟩
    have hfresh : p ∈ D ++ t.ids := ht.ids.symm.subset (mem_fresh.2 ⟨hle, hp.1⟩)
    refine (List.mem_append.1 hfresh).resolve_left fun hD => hp.2 ?_
    rw [ht.grown.destroyed]
    exact List.mem_append_right _ hD
  · refine ⟨_, hr.grow (N := fun _ => False) hl.grown.nodes (hold hl.grown) (fun p hle hp => ?_)
      (fun p hp => hp.elim)⟩
    have hfresh : p ∈ fresh h h' := mem_fresh.2 ⟨hle, hp.1⟩
    have hD : p ∈ D := by
      cases stale with
      | false => exact (hl.clean rfl).1.symm.subset hfresh
      | true => exact (hl.stale rfl).1 p hfresh
    refine hp.2 ?_
    rw [hl.grown.destroyed]
    exact List.mem_append_right _ hD

/-- Every call keeps the representation. -/
theorem Represented.run (hr : Represented h G) {c : Call F} (hv : c.Valid h) :
    ∃ G', Represented (c.run env h) G' := by
  cases c with
  | createNull => exact hr.create fun N => sane_scalar N _
  | createBool value => exact hr.create fun N => sane_scalar N _
  | createInteger value => exact hr.create fun N => sane_scalar N _
  | createFloat value => exact hr.create fun N => sane_scalar N _
  | createString value len => exact hr.create fun N => sane_scalar N _
  | createArray => exact hr.create sane_createArray
  | createObject => exact hr.create sane_createObject
  | append self item => exact ⟨G, hr.append (hr.live _ hv.1) (hr.live _ hv.2)⟩
  | setProperty self name namelen value =>
    exact ⟨G, hr.setProperty name namelen (hr.live _ hv.1) (hr.live _ hv.2)⟩
  | deserialize json => exact hr.deserialize json
  | destroy self =>
    refine ⟨G, fun q hq => hr.live q ⟨hq.1, fun hm => hq.2 ?_⟩, hr.node⟩
    exact List.mem_append_left _ hm

theorem built_represented (hb : Built env h) : ∃ G, Represented h G := by
  refine hb.invariant (I := fun h => ∃ G, Represented h G) ?_ ?_
  · rintro _ rfl
    exact ⟨fun _ => False, fun p hp => absurd hp.1 (Nat.not_lt_zero p), fun p hp => hp.elim⟩
  · rintro h c _ ⟨G, hr⟩ hv ⟨⟩
    exact hr.run hv

end PoserCore.Json
