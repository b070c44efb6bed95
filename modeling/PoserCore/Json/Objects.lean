import Mathlib.Data.List.Induction
import PoserCore.Dictionary.Count
import PoserCore.Json.Builders

/-!
# Objects as maps

`PSC_Json_property`, `PSC_Json_length` and `PSC_Json_itemAt`.  Whatever else happens on the heap, a
new object is the insertion-ordered map of the properties that are set on it (`object_ordered`): its
dictionary holds the last value of each name, and its key list the names in the order in which they
were set first.
-/

namespace PoserCore.Json

variable {F : Type} {env : Env F}

/-- `PSC_Json_property` -/
def Heap.property (h : Heap F) (self : Ptr) (name : List UInt8) (namelen : ℕ) : Option Ptr :=
  match h.nodes[self]? with
  | some (.object _ (some values)) => values.get (sized name namelen)
  | _ => none

/-- `PSC_Json_length` -/
def Heap.length (h : Heap F) (self : Ptr) : ℕ :=
  match h.nodes[self]? with
  | some (.scalar .null) => 0
  | some (.scalar (.string value)) => value.length
  | some (.scalar _) => 1
  | some (.array (some values)) => values.length
  | some (.object _ (some values)) => values.count
  | _ => 0

/-- `PSC_Json_itemAt`: an element of an array or the name of a property. -/
def Heap.itemAt (h : Heap F) (self : Ptr) (i : ℕ) : Option (Ptr ⊕ Key) :=
  match h.nodes[self]? with
  | some (.array (some values)) => values[i]?.join.map .inl
  | some (.object (some keys) _) => keys[i]?.map .inr
  | _ => none

/-! ## Insertion-ordered maps -/

section Ordered

variable {β : Type}

/-- The values set for a name, in this order. -/
def given (sets : List (Key × β)) (key : Key) : List β :=
  sets.filterMap fun e => if e.1 = key then some e.2 else none

theorem collapse_concat (sets : List (Key × β)) (e : Key × β) :
    collapse (sets ++ [e]) = setMember (collapse sets) e := by
  rw [collapse, List.foldl_append]
  rfl

/-- Each name keeps the place where it was set first. -/
theorem keys_collapse (sets : List (Key × β)) :
    (collapse sets).map Prod.fst = (sets.map Prod.fst).eraseDups := by
  induction sets using List.reverseRecOn with
  | nil => rfl
  | append_singleton sets e ih =>
    rw [collapse_concat, keys_setMember, ih, List.map_append, List.map_singleton,
      List.eraseDups_append]
    by_cases h : e.1 ∈ sets.map Prod.fst
    · rw [if_pos (List.mem_eraseDups.2 h)]
      simp [List.removeAll, h]
    · rw [if_neg (mt List.mem_eraseDups.1 h)]
      simp [List.removeAll, h, List.eraseDups_cons]

theorem nodup_collapse (sets : List (Key × β)) : ((collapse sets).map Prod.fst).Nodup := by
  induction sets using List.reverseRecOn with
  | nil => exact List.nodup_nil
  | append_singleton sets e ih =>
    rw [collapse_concat]
    exact nodup_setMember ih e

/-- The map holds the last value of each name. -/
theorem mem_collapse (sets : List (Key × β)) (key : Key) (v : β) :
    (key, v) ∈ collapse sets ↔ (given sets key).getLast? = some v := by
  induction sets using List.reverseRecOn with
  | nil => simp [collapse, given]
  | append_singleton sets e ih =>
    rw [collapse_concat, (setMember_perm (nodup_collapse sets) e).mem_iff, List.mem_cons,
      List.mem_filter, ih, given, given, List.filterMap_append]
    by_cases h : e.1 = key
    · subst h
      simp [Prod.ext_iff, eq_comm]
    · have hne : ¬ key = e.1 := fun hk => h hk.symm
      simp [Prod.ext_iff, h, hne]

end Ordered

/-! ## An object on the heap -/

/-- `self` is an object with the properties `ps`. -/
def Object (h : Heap F) (self : Ptr) (ps : List (Key × Ptr)) : Prop :=
  ∃ x, h.nodes[self]? = some x ∧ Children x ps .object

/-- The property that a call sets on `self`. -/
def Call.sets (self : Ptr) : Call F → Option (Key × Ptr)
  | .setProperty p name namelen value =>
      if p = self then some (sized name namelen, value) else none
  | _ => none

variable {h h' : Heap F} {self : Ptr} {ps : List (Key × Ptr)}

theorem Object.congr (ho : Object h self ps) (heq : h'.nodes[self]? = h.nodes[self]?) :
    Object h' self ps := by
  obtain ⟨x, hx, hc⟩ := ho
  exact ⟨x, heq.trans hx, hc⟩

theorem Object.mono (ho : Object h self ps) (hp : h.nodes <+: h'.nodes) : Object h' self ps := by
  obtain ⟨x, hx, hc⟩ := ho
  obtain ⟨l, hl⟩ := hp
  refine ⟨x, ?_, hc⟩
  rw [← hl, List.getElem?_append_left (List.getElem?_eq_some_iff.1 hx).1, hx]

theorem Object.create (ho : Object h self ps) (x : Node F) : Object (h.create x).2 self ps :=
  ho.mono (List.prefix_append _ _)

/-- Nothing is appended to an object. -/
theorem Object.append (ho : Object h self ps) (p : Ptr) (item : Option Ptr) :
    Object (h.append p item).1 self ps := by
  refine ho.congr ?_
  unfold Heap.append
  split
  · next values hp =>
    refine List.getElem?_set_ne ?_
    rintro rfl
    obtain ⟨x, hx, -, keys, values', rfl, -⟩ := ho
    cases hp.symm.trans hx
  · rfl

theorem Object.setProperty_ne (ho : Object h self ps) {p : Ptr} (hne : p ≠ self)
    (name : List UInt8) (namelen : ℕ) (value : Option Ptr) :
    Object (h.setProperty env p name namelen value).1 self ps := by
  refine ho.congr ?_
  unfold Heap.setProperty
  split
  · exact List.getElem?_set_ne hne
  · rfl

theorem Object.setProperty (ho : Object h self ps) (name : List UInt8) (namelen : ℕ)
    (value : Ptr) : Object (h.setProperty env self name namelen (some value)).1 self
      (setMember ps (sized name namelen, value)) := by
  obtain ⟨x, hx, hc⟩ := ho
  obtain ⟨keys, values, rfl, -, hc'⟩ := children_setProperty env hc (sized name namelen) value
  refine ⟨_, ?_, hc'⟩
  simp only [Heap.setProperty, hx]
  rw [List.getElem?_set_self (List.getElem?_eq_some_iff.1 hx).1]

theorem Object.deserialize (ho : Object h self ps) (json : List UInt8) :
    Object ((Call.deserialize json).run env h) self ps := by
  obtain ⟨o, h', hrun, hres⟩ := deserialize_cases env h json
  have hcall : (Call.deserialize json).run env h = h' := by rw [Call.run, hrun]; rfl
  rw [hcall]
  rcases hres with ⟨u, t, S, D, -, -, -, -, ht⟩ | ⟨-, -, stale, S, D, hl, -⟩
  · exact ho.mono ht.grown.nodes
  · exact ho.mono hl.grown.nodes

/-- A call adds the property it sets on the object. -/
theorem Object.run (ho : Object h self ps) (c : Call F) :
    Object (c.run env h) self ((c.sets self).toList.foldl setMember ps) := by
  cases c with
  | createNull => exact ho.create _
  | createBool value => exact ho.create _
  | createInteger value => exact ho.create _
  | createFloat value => exact ho.create _
  | createString value len => exact ho.create _
  | createArray => exact ho.create _
  | createObject => exact ho.create _
  | append p item => exact ho.append p (some item)
  | setProperty p name namelen value =>
    rw [Call.sets]
    split_ifs with hp
    · subst hp
      exact ho.setProperty name namelen value
    · exact ho.setProperty_ne hp name namelen (some value)
  | deserialize json => exact ho.deserialize json
  | destroy p => exact ho.congr rfl

theorem Object.runs (ho : Object h self ps) (calls : List (Call F)) :
    Object (calls.foldl (fun h c => c.run env h) h) self
      ((calls.filterMap (Call.sets self)).foldl setMember ps) := by
  induction calls generalizing h ps with
  | nil => exact ho
  | cons c calls ih =>
    have hstep := ih (@Object.run F env _ _ _ ho c)
    rw [← List.foldl_append] at hstep
    rw [List.filterMap_cons]
    cases hc : c.sets self with
    | none => simpa [hc] using hstep
    | some e => simpa [hc] using hstep

/-! ### What the functions return -/

theorem Object.property (ho : Object h self ps) (name : List UInt8) (namelen : ℕ) (v : Ptr) :
    h.property self name namelen = some v ↔ (sized name namelen, v) ∈ ps := by
  obtain ⟨x, hx, -, keys, values, rfl, -, hvalues, hd⟩ := ho
  rw [Heap.property, hx]
  cases values with
  | none => simp [hvalues.1 rfl]
  | some d =>
    have hval := hd d rfl
    dsimp only
    rw [← Dictionary.mem_iff_get hval.ok, hval.pairs.mem_iff]
    simp

theorem Object.length (ho : Object h self ps) : h.length self = ps.length := by
  obtain ⟨x, hx, -, keys, values, rfl, -, hvalues, hd⟩ := ho
  rw [Heap.length, hx]
  cases values with
  | none => simp [hvalues.1 rfl]
  | some d =>
    have hval := hd d rfl
    have hlen := hval.pairs.length_eq
    rw [List.length_map, List.length_map] at hlen
    exact hval.ok.count.trans hlen

theorem Object.itemAt (ho : Object h self ps) (i : ℕ) :
    h.itemAt self i = (ps.map Prod.fst)[i]?.map .inr := by
  obtain ⟨x, hx, -, keys, values, rfl, rfl, -⟩ := ho
  rw [Heap.itemAt, hx]
  split_ifs with hnil
  · simp [hnil]
  · rfl

/-- After any calls, of which those with this object set its properties, a lookup finds the last
value set for a name, and the items are the names in the order in which they were set first. -/
theorem object_ordered (env : Env F) (h : Heap F) (calls : List (Call F)) :
    let self := h.createObject.1
    let h' := calls.foldl (fun h c => c.run env h) h.createObject.2
    let sets := calls.filterMap (Call.sets self)
    let names := (sets.map Prod.fst).eraseDups
    (∀ name namelen, h'.property self name namelen = (given sets (sized name namelen)).getLast?) ∧
      h'.length self = names.length ∧ ∀ i, h'.itemAt self i = names[i]?.map .inr := by
  intro self h' sets names
  have hnew : Object h.createObject.2 self [] :=
    ⟨_, by simp [Heap.createObject, Heap.create, self], children_nil_object⟩
  have ho : Object h' self (collapse sets) := hnew.runs calls
  refine ⟨fun name namelen => ?_, ?_, fun i => ?_⟩
  · refine Option.ext fun v => ?_
    rw [ho.property, mem_collapse]
  · rw [ho.length, ← List.length_map Prod.fst, keys_collapse]
  · rw [ho.itemAt, keys_collapse]

end PoserCore.Json
