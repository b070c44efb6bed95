import PoserCore.HashTable.Model
import PoserCore.Lib.Keyed
import PoserCore.Lib.Links

/-!
# The chains of a hash table

Each bucket points to a chain of all entries whose keys have its hash, and the chains hold no key
twice (`Shape`).  The loops follow a chain that is split into the part behind them and the part in
front of them: the pointer to the parent is the last entry of the first part, and the current entry
is the head of the second one.  Every function is described by what it does to the entries that are
held.
-/

namespace PoserCore.HashTable

set_option linter.dupNamespace false

open Lib

variable {α φ : Type} {s s' : HashTable α φ} {ch : ℕ → List Addr} {h n : ℕ} {a b : Addr}
  {l l₁ l₂ done todo rest : List Addr} {key : Key} {entry : Entry α φ}

/-- What an entry stores. -/
structure Item (α φ : Type) where
  key : Key
  obj : Option α
  deleter : Option φ

def Entry.item (entry : Entry α φ) : Item α φ := ⟨entry.key, entry.obj, entry.deleter⟩

/-- The call that deletes the object. -/
def Item.due (x : Item α φ) : Option (φ × Option α) := x.deleter.map fun f => (f, x.obj)

/-- Where the entry at an address points. -/
def HashTable.next (self : HashTable α φ) (a : Addr) : Option Addr := (self.entries a).bind Entry.next

/-- What the entry at an address stores. -/
def HashTable.item (self : HashTable α φ) (a : Addr) : Option (Item α φ) :=
  (self.entries a).map Entry.item

theorem item_eq_some {x : Item α φ} :
    s.item a = some x ↔ ∃ entry, s.entries a = some entry ∧ entry.item = x := by
  rw [HashTable.item, Option.map_eq_some_iff]

theorem item_of_entry (he : s.entries a = some entry) : s.item a = some entry.item :=
  item_eq_some.2 ⟨entry, he, rfl⟩

@[simp] theorem item_delObj : (s.delObj entry).item = s.item := rfl

@[simp] theorem next_delObj : (s.delObj entry).next = s.next := rfl

theorem entries_store (o : Option (Entry α φ)) :
    (s.store a o).entries b = if b = a then o else s.entries b := Function.update_apply ..

theorem item_store (o : Option (Entry α φ)) :
    (s.store a o).item = Function.update s.item a (o.map Entry.item) := by
  funext b
  rw [HashTable.item, entries_store, Function.update_apply]
  split_ifs <;> rfl

theorem next_store (o : Option (Entry α φ)) :
    (s.store a o).next = Function.update s.next a (o.bind Entry.next) := by
  funext b
  rw [HashTable.next, entries_store, Function.update_apply]
  split_ifs <;> rfl

/-- Memory that is freed stores nothing. -/
theorem item_free {x : Item α φ} :
    Function.update s.item a none b = some x ↔ s.item b = some x ∧ b ≠ a := by
  rw [Function.update_apply]
  split_ifs with hb <;> simp [hb]

/-! ## Chains -/

/-- The entries `l` are allocated and chained. -/
structure Chain (s : HashTable α φ) (l : List Addr) : Prop where
  linked : Linked s.next l
  alloc : ∀ a ∈ l, ∃ x, s.item a = some x

theorem Chain.cons (hc : Chain s (a :: l)) :
    ∃ entry, s.entries a = some entry ∧ entry.next = l.head? ∧ Chain s l := by
  obtain ⟨x, hx⟩ := hc.alloc a List.mem_cons_self
  obtain ⟨entry, he, -⟩ := item_eq_some.1 hx
  refine ⟨entry, he, ?_, hc.linked.2, fun b hb => hc.alloc b (List.mem_cons_of_mem _ hb)⟩
  have hnext := hc.linked.1
  rwa [HashTable.next, he] at hnext

theorem Chain.of_append (hc : Chain s (l₁ ++ l₂)) : Chain s l₂ :=
  ⟨hc.linked.of_append, fun b hb => hc.alloc b (List.mem_append_right _ hb)⟩

/-- Writing to memory that the chain does not use. -/
theorem Chain.congr (hc : Chain s l) (hnext : ∀ a ∈ l, s'.next a = s.next a)
    (hitem : ∀ a ∈ l, s'.item a = s.item a) : Chain s' l where
  linked := hc.linked.congr hnext
  alloc a ha := by
    rw [hitem a ha]
    exact hc.alloc a ha

theorem filterMap_item (hkeep : ∀ a ∈ l, s'.entries a = s.entries a) :
    l.filterMap s'.item = l.filterMap s.item :=
  List.filterMap_congr fun a ha => congrArg (Option.map Entry.item) (hkeep a ha)

theorem Chain.keep (hc : Chain s l) (hkeep : ∀ a ∈ l, s'.entries a = s.entries a) : Chain s' l := by
  refine hc.congr (fun a ha => ?_) fun a ha => congrArg (Option.map Entry.item) (hkeep a ha)
  rw [HashTable.next, hkeep a ha, HashTable.next]

/-- `s'` differs from `s` in one chain, which is `l` now. -/
structure Relinks (s s' : HashTable α φ) (h : ℕ) (l : List Addr) : Prop where
  linked : Linked s'.next l
  bucket : s'.bucket = Function.update s.bucket h l.head?
  next : ∀ a, a ∉ l → s'.next a = s.next a
  item : s'.item = s.item
  hash : s'.hash = s.hash
  mask : s'.mask = s.mask
  count : s'.count = s.count
  calls : s'.calls = s.calls

/-- The part behind the loop gets another rest. -/
theorem link_spec (done todo rest : List Addr) (hb : s.bucket h = (done ++ todo).head?)
    (hc : Chain s (done ++ todo)) (hnd : done.Nodup) (hrest : Linked s.next rest)
    (hdisj : ∀ a ∈ done, a ∉ rest) :
    ∃ s', s.link h done.getLast? rest.head? = some s' ∧ Relinks s s' h (done ++ rest) := by
  rcases List.eq_nil_or_concat done with rfl | ⟨l, p, rfl⟩
  · exact ⟨_, rfl, hrest, rfl, fun _ _ => rfl, rfl, rfl, rfl, rfl, rfl⟩
  · rw [List.concat_eq_append] at *
    have hmem : p ∈ l ++ [p] := by simp
    obtain ⟨x, hx⟩ := hc.alloc p (List.mem_append_left _ hmem)
    obtain ⟨entry, he, rfl⟩ := item_eq_some.1 hx
    refine ⟨s.store p (some { entry with next := rest.head? }), ?_, ?_, ?_, ?_, ?_, rfl, rfl, rfl,
      rfl⟩
    · rw [List.getLast?_append_cons, List.getLast?_singleton, HashTable.link, he]
      rfl
    · rw [next_store, List.append_assoc]
      have hl := hc.linked
      rw [List.append_assoc] at hl
      exact hl.splice hrest (fun hm => (List.nodup_append.1 hnd).2.2 p hm p List.mem_cons_self rfl)
        (hdisj p hmem)
    · have hsame : (l ++ [p] ++ rest).head? = s.bucket h := by
        rw [hb]
        cases l <;> rfl
      rw [hsame, Function.update_eq_self]
      rfl
    · intro a ha
      rw [next_store]
      apply Function.update_of_ne
      rintro rfl
      exact ha (List.mem_append_left _ hmem)
    · rw [item_store]
      exact Function.update_eq_self_iff.2 hx.symm

/-! ## The shape of a table -/

/-- All entries of the table. -/
def HashTable.all (self : HashTable α φ) (ch : ℕ → List Addr) : List Addr :=
  (List.range (self.mask + 1)).flatMap ch

/-- `ch` are the chains of the buckets. -/
structure Shape (s : HashTable α φ) (ch : ℕ → List Addr) : Prop where
  bucket : ∀ h, s.bucket h = (ch h).head?
  linked : ∀ h, Linked s.next (ch h)
  nodup : ∀ h, (ch h).Nodup
  /-- An entry is in the chain of its key. -/
  mem : ∀ h a, a ∈ ch h ↔ ∃ x, s.item a = some x ∧ s.hashstr x.key = h
  keys : ∀ a b x y, s.item a = some x → s.item b = some y → x.key = y.key → a = b
  count : s.count = (s.all ch).length

theorem hashstr_le (s : HashTable α φ) (key : Key) : s.hashstr key ≤ s.mask := Nat.and_le_right

theorem hashstr_congr (hhash : s'.hash = s.hash) (hmask : s'.mask = s.mask) :
    s'.hashstr = s.hashstr := by
  funext key
  rw [HashTable.hashstr, HashTable.hashstr, hhash, hmask]

theorem shape_create (hash : Key → UInt64) (bits : UInt8) :
    Shape (.create hash bits : HashTable α φ) fun _ => [] where
  bucket _ := rfl
  linked _ := trivial
  nodup _ := .nil
  mem h a := by simp [HashTable.item, HashTable.create]
  keys a b x y hx := by cases hx
  count := by simp [HashTable.all, HashTable.create]

/-- The entries of the other chains. -/
def HashTable.others (self : HashTable α φ) (ch : ℕ → List Addr) (h : ℕ) : List Addr :=
  ((List.range (self.mask + 1)).erase h).flatMap ch

theorem all_update (ch : ℕ → List Addr) (hh : h ≤ s.mask) (l : List Addr) :
    (s.all (Function.update ch h l)).Perm (l ++ s.others ch h) := by
  have hmem : h ∈ List.range (s.mask + 1) := List.mem_range.2 (Nat.lt_succ_of_le hh)
  have hrest : ((List.range (s.mask + 1)).erase h).flatMap (Function.update ch h l) =
      s.others ch h := by
    apply List.flatMap_congr
    intro h' hh'
    apply Function.update_of_ne
    rintro rfl
    exact List.nodup_range.not_mem_erase hh'
  rw [← hrest]
  refine ((List.perm_cons_erase hmem).flatMap_right _).trans ?_
  rw [List.flatMap_cons, Function.update_self]

theorem all_perm (ch : ℕ → List Addr) (hh : h ≤ s.mask) :
    (s.all ch).Perm (ch h ++ s.others ch h) := by
  have hupd := all_update ch hh (ch h)
  rwa [Function.update_eq_self] at hupd

namespace Shape

variable {x y : Item α φ}

theorem chain (hs : Shape s ch) (h : ℕ) : Chain s (ch h) where
  linked := hs.linked h
  alloc a ha := by
    obtain ⟨x, hx, -⟩ := (hs.mem h a).1 ha
    exact ⟨x, hx⟩

theorem disjoint (hs : Shape s ch) {h' : ℕ} (ha : a ∈ ch h) (ha' : a ∈ ch h') : h = h' := by
  obtain ⟨x, hx, rfl⟩ := (hs.mem h a).1 ha
  obtain ⟨y, hy, rfl⟩ := (hs.mem h' a).1 ha'
  rw [Option.some.inj (hx.symm.trans hy)]

theorem mem_all (hs : Shape s ch) : a ∈ s.all ch ↔ ∃ x, s.item a = some x := by
  rw [HashTable.all, List.mem_flatMap]
  constructor
  · rintro ⟨h, -, ha⟩
    exact (hs.chain h).alloc a ha
  · rintro ⟨x, hx⟩
    refine ⟨s.hashstr x.key, List.mem_range.2 ?_, (hs.mem _ a).2 ⟨x, hx, rfl⟩⟩
    exact Nat.lt_succ_of_le (hashstr_le s x.key)

theorem nodup_all (hs : Shape s ch) : (s.all ch).Nodup := by
  rw [HashTable.all, List.nodup_flatMap]
  refine ⟨fun h _ => hs.nodup h, List.nodup_range.imp fun {h h'} hne => ?_⟩
  exact fun a ha ha' => hne (hs.disjoint ha ha')

theorem length_le (hs : Shape s ch) (hh : h ≤ s.mask) : (ch h).length ≤ s.count := by
  rw [hs.count, (all_perm ch hh).length_eq, List.length_append]
  exact Nat.le_add_right _ _

/-- A chain loses an entry. -/
theorem mem_drop (hs : Shape s ch) (hch : ch h = done ++ a :: rest) {h' : ℕ} :
    b ∈ Function.update ch h (done ++ rest) h' ↔ b ∈ ch h' ∧ b ≠ a := by
  have hnd := List.nodup_middle.1 (hch ▸ hs.nodup h)
  rw [Function.update_apply]
  split_ifs with hh
  · subst hh
    rw [hch, List.perm_middle.mem_iff, List.mem_cons]
    constructor
    · intro hb
      refine ⟨.inr hb, ?_⟩
      rintro rfl
      exact (List.nodup_cons.1 hnd).1 hb
    · exact fun hb => hb.1.resolve_left hb.2
  · refine ⟨fun hb => ⟨hb, ?_⟩, fun hb => hb.1⟩
    rintro rfl
    exact hh (hs.disjoint hb (hch ▸ List.mem_append_right _ List.mem_cons_self))

/-- A chain gets another entry. -/
theorem mem_append {h' : ℕ} : b ∈ Function.update ch h (ch h ++ [a]) h' ↔
    b ∈ ch h' ∨ b = a ∧ h' = h := by
  rw [Function.update_apply]
  split_ifs with hh
  · subst hh
    simp
  · simp [hh]

/-- The nodes of the other chains are not touched. -/
theorem linked_other (hs : Shape s ch) (hl : Linked s'.next l)
    (hnext : ∀ h', h' ≠ h → ∀ b ∈ ch h', s'.next b = s.next b) (h' : ℕ) :
    Linked s'.next (Function.update ch h l h') := by
  rw [Function.update_apply]
  split_ifs with hh
  · exact hl
  · exact (hs.linked h').congr (hnext h' hh)

theorem nodup_update (hs : Shape s ch) (hl : l.Nodup) (h' : ℕ) :
    (Function.update ch h l h').Nodup := by
  rw [Function.update_apply]
  split_ifs
  · exact hl
  · exact hs.nodup h'

theorem bucket_update (hs : Shape s ch) (hb : s'.bucket = Function.update s.bucket h l.head?)
    (h' : ℕ) : s'.bucket h' = (Function.update ch h l h').head? := by
  rw [hb, Function.update_apply, Function.update_apply]
  split_ifs
  · rfl
  · exact hs.bucket h'

end Shape

/-! ## Changing the entries -/

/-- An entry leaves. -/
theorem drop_spec (hs : Shape s ch) (hh : h ≤ s.mask) (hch : ch h = done ++ a :: rest)
    (he : s.entries a = some entry) :
    ∃ s', s.drop h done.getLast? a entry = some s' ∧
      Shape s' (Function.update ch h (done ++ rest)) ∧
      s'.item = Function.update s.item a none ∧
      s'.calls = s.calls ++ entry.item.due.toList ∧ s'.hash = s.hash ∧ s'.mask = s.mask := by
  have hnd := hch ▸ hs.nodup h
  have hc := hch ▸ hs.chain h
  have hnext : entry.next = rest.head? := by
    have hnext := hc.linked.next_eq
    rwa [HashTable.next, he] at hnext
  have ha : a ∉ done ++ rest := (List.nodup_cons.1 (List.nodup_middle.1 hnd)).1
  obtain ⟨s₁, hlink, hr⟩ := link_spec (s := s.delObj entry) (h := h) done (a :: rest) rest
    ((hs.bucket h).trans (congrArg _ hch)) (hc.congr (fun _ _ => rfl) fun _ _ => rfl)
    (List.nodup_append.1 hnd).1 hc.linked.of_append.2
    fun b hb hb' => (List.nodup_append.1 hnd).2.2 b hb b (List.mem_cons_of_mem _ hb') rfl
  have hitem : s₁.item = s.item := hr.item
  have hmask : s₁.mask = s.mask := hr.mask
  have hhash : s₁.hashstr = s.hashstr := hashstr_congr hr.hash hr.mask
  refine ⟨{ s₁.store a none with count := s₁.count - 1 }, ?_, ?_, ?_, hr.calls, hr.hash, hr.mask⟩
  · rw [HashTable.drop, hnext, hlink]
    rfl
  · -- the entry is freed, and the others stay where they are
    have hnext' : ∀ b, b ≠ a → b ∉ done ++ rest → (s₁.store a none).next b = s.next b := by
      intro b hba hb
      rw [next_store, Function.update_of_ne hba]
      exact hr.next b hb
    constructor
    · exact hs.bucket_update hr.bucket
    · refine hs.linked_other ?_ fun h' hne b hb => hnext' b ?_ ?_
      · refine hr.linked.congr fun b hb => ?_
        change (s₁.store a none).next b = _
        rw [next_store]
        apply Function.update_of_ne
        rintro rfl
        exact ha hb
      · rintro rfl
        exact hne (hs.disjoint hb (hch ▸ List.mem_append_right _ List.mem_cons_self))
      · intro hb'
        refine hne (hs.disjoint hb (hch ▸ ?_))
        exact List.perm_middle.mem_iff.2 (List.mem_cons_of_mem _ hb')
    · exact hs.nodup_update (List.nodup_cons.1 (List.nodup_middle.1 hnd)).2
    · intro h' b
      change _ ↔ ∃ x, (s₁.store a none).item b = some x ∧ s₁.hashstr x.key = h'
      rw [hs.mem_drop hch, hs.mem, item_store, hitem, hhash, Option.map_none, ← exists_and_right]
      refine exists_congr fun x => ?_
      rw [item_free, and_right_comm]
    · intro b c x y hx hy
      change (s₁.store a none).item b = some x at hx
      change (s₁.store a none).item c = some y at hy
      rw [item_store, hitem, Option.map_none, item_free] at hx hy
      exact hs.keys b c x y hx.1 hy.1
    · have hcount : s₁.count = s.count := hr.count
      change s₁.count - 1 = List.length (List.flatMap _ (List.range (s₁.mask + 1)))
      rw [hcount, hs.count, hmask, (all_perm ch hh).length_eq, hch]
      have hlen := (all_update ch hh (done ++ rest)).length_eq
      rw [HashTable.all] at hlen
      rw [hlen]
      simp only [List.length_append, List.length_cons]
      omega
  · change (s₁.store a none).item = _
    rw [item_store, hitem]
    rfl

/-- A key that is not there comes to the end of its chain. -/
theorem append_spec (hs : Shape s ch) (entry : Entry α φ) (hfresh : s.entries a = none)
    (hkey : ∀ b x, s.item b = some x → x.key ≠ entry.key) (hnext : entry.next = none) :
    ∃ s', (s.store a (some entry)).link (s.hashstr entry.key)
        (ch (s.hashstr entry.key)).getLast? (some a) = some s' ∧
      Shape { s' with count := s'.count + 1 }
        (Function.update ch (s.hashstr entry.key) (ch (s.hashstr entry.key) ++ [a])) ∧
      s'.item = Function.update s.item a (some entry.item) ∧
      s'.calls = s.calls ∧ s'.hash = s.hash ∧ s'.mask = s.mask := by
  have hh := hashstr_le s entry.key
  generalize hslot : s.hashstr entry.key = h at hh ⊢
  have hitem0 : s.item a = none := by
    rw [HashTable.item, hfresh]
    rfl
  have hne : ∀ {h' b}, b ∈ ch h' → b ≠ a := by
    rintro h' b hb rfl
    obtain ⟨x, hx⟩ := (hs.chain h').alloc b hb
    rw [hitem0] at hx
    cases hx
  have hnext0 : ∀ b, b ≠ a → (s.store a (some entry)).next b = s.next b := by
    intro b hb
    rw [next_store]
    exact Function.update_of_ne hb ..
  have hlast : Linked (s.store a (some entry)).next [a] := by
    refine ⟨?_, trivial⟩
    rw [next_store, Function.update_self]
    exact hnext
  obtain ⟨s₁, hlink, hr⟩ := link_spec (s := s.store a (some entry)) (h := h) (ch h) [] [a]
    (by
      rw [List.append_nil]
      exact hs.bucket h)
    (by
      rw [List.append_nil]
      refine (hs.chain h).congr (fun b hb => hnext0 b (hne hb)) fun b hb => ?_
      rw [item_store]
      exact Function.update_of_ne (hne hb) ..)
    (hs.nodup h) hlast fun b hb hm => hne hb (List.mem_singleton.1 hm)
  have hitem : s₁.item = Function.update s.item a (some entry.item) := hr.item.trans (item_store _)
  have hhash : s₁.hashstr = s.hashstr := hashstr_congr hr.hash hr.mask
  refine ⟨s₁, hlink, ?_, hitem, hr.calls, hr.hash, hr.mask⟩
  have hnew : ∀ {b x}, s₁.item b = some x ↔ b = a ∧ x = entry.item ∨ b ≠ a ∧ s.item b = some x := by
    intro b x
    rw [hitem, Function.update_apply]
    split_ifs with hb <;> simp [hb, eq_comm]
  constructor
  · exact hs.bucket_update hr.bucket
  · refine hs.linked_other hr.linked fun h' hh' b hb => ?_
    refine (hr.next b fun hm => ?_).trans (hnext0 b (hne hb))
    rcases List.mem_append.1 hm with hm | hm
    · exact hh' (hs.disjoint hb hm)
    · exact hne hb (List.mem_singleton.1 hm)
  · refine hs.nodup_update (List.nodup_append.2 ⟨hs.nodup h, List.nodup_singleton a, ?_⟩)
    exact fun b hb c hc => (List.mem_singleton.1 hc) ▸ hne hb
  · intro h' b
    change _ ↔ ∃ x, s₁.item b = some x ∧ s₁.hashstr x.key = h'
    simp only [Shape.mem_append, hs.mem, hnew, hhash]
    constructor
    · rintro (⟨x, hx, hxh⟩ | ⟨rfl, rfl⟩)
      · refine ⟨x, .inr ⟨?_, hx⟩, hxh⟩
        rintro rfl
        rw [hitem0] at hx
        cases hx
      · exact ⟨entry.item, .inl ⟨rfl, rfl⟩, hslot⟩
    · rintro ⟨x, ⟨rfl, rfl⟩ | ⟨-, hx⟩, hxh⟩
      · exact .inr ⟨rfl, hxh.symm.trans hslot⟩
      · exact .inl ⟨x, hx, hxh⟩
  · intro b c x y hx hy hxy
    rcases hnew.1 hx with ⟨rfl, rfl⟩ | ⟨-, hx⟩
    · rcases hnew.1 hy with ⟨rfl, -⟩ | ⟨-, hy⟩
      · rfl
      · exact absurd hxy.symm (hkey c y hy)
    · rcases hnew.1 hy with ⟨rfl, rfl⟩ | ⟨-, hy⟩
      · exact absurd hxy (hkey b x hx)
      · exact hs.keys b c x y hx hy hxy
  · have hcount : s₁.count = s.count := hr.count
    have hmask : s₁.mask = s.mask := hr.mask
    have hlen := (all_update ch hh (ch h ++ [a])).length_eq
    rw [HashTable.all] at hlen
    change s₁.count + 1 = List.length (List.flatMap _ (List.range (s₁.mask + 1)))
    rw [hcount, hs.count, hmask, hlen, (all_perm ch hh).length_eq]
    simp only [List.length_append, List.length_singleton]
    omega

/-- An entry gets another object. -/
theorem replace_spec (hs : Shape s ch) (he : s.entries a = some entry) (obj : Option α)
    (deleter : Option φ) :
    let s' := (s.delObj entry).store a (some { entry with obj := obj, deleter := deleter })
    Shape s' ch ∧ s'.item = Function.update s.item a (some ⟨entry.key, obj, deleter⟩) := by
  intro s'
  have hitem : s'.item = Function.update s.item a (some ⟨entry.key, obj, deleter⟩) := item_store _
  have hnext : s'.next = s.next := by
    refine (next_store _).trans ?_
    rw [next_delObj]
    apply Function.update_eq_self_iff.2
    rw [HashTable.next, he]
    rfl
  -- the keys stay
  have hkey : ∀ {b x}, s'.item b = some x → ∃ y, s.item b = some y ∧ y.key = x.key := by
    intro b x hx
    rw [hitem, Function.update_apply] at hx
    split_ifs at hx with hb
    · obtain rfl := Option.some.inj hx
      exact ⟨entry.item, hb ▸ item_of_entry he, rfl⟩
    · exact ⟨x, hx, rfl⟩
  refine ⟨⟨hs.bucket, fun h => hnext ▸ hs.linked h, hs.nodup, fun h b => ?_, ?_, hs.count⟩, hitem⟩
  · rw [hs.mem]
    constructor
    · rintro ⟨x, hx, hxh⟩
      by_cases hb : b = a
      · subst hb
        obtain rfl := Option.some.inj (hx.symm.trans (item_of_entry he))
        exact ⟨⟨entry.key, obj, deleter⟩, by rw [hitem, Function.update_self], hxh⟩
      · exact ⟨x, by rw [hitem, Function.update_of_ne hb, hx], hxh⟩
    · rintro ⟨x, hx, hxh⟩
      obtain ⟨y, hy, hyx⟩ := hkey hx
      exact ⟨y, hy, hyx ▸ hxh⟩
  · intro b c x y hx hy hxy
    obtain ⟨x', hx', hxx⟩ := hkey hx
    obtain ⟨y', hy', hyy⟩ := hkey hy
    exact hs.keys b c x' y' hx' hy' (hxx.trans (hxy.trans hyy.symm))

end PoserCore.HashTable
