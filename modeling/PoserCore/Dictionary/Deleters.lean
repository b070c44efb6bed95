import PoserCore.Dictionary.Refine
import PoserCore.Lib.Keyed

/-!
# Deleters

An object belongs to its dictionary from the call that stores it to the one that replaces it, removes
it or lets the matcher accept it, or to the end of the dictionary.  With it goes its deleter, which is
called when the object leaves, once (`deleters_called`).

For the buckets this says that an entry with another key keeps its deleter, also where it moves to a
table of the next level as a copy with a `next` pointer.
-/

namespace PoserCore.Dictionary

set_option linter.dupNamespace false

variable {α φ : Type}

/-- The deleter of an object that is stored with `given`. -/
def Deleter.own (deleter : Deleter φ) (given : Option φ) : Option φ :=
  match deleter with
  | .individual => given
  | .nodelete => none
  | .all f => some f

theorem delete_eq (self : Dictionary α φ) (e : Entry α φ) :
    self.delete e = ((self.deleter.own e.deleter).map fun f => (f, e.obj)).toList := by
  unfold Dictionary.delete Deleter.own
  cases self.deleter <;> rfl

section Set

variable {self : Dictionary α φ} {key : Key} {obj : Option α} {deleter : Option φ}

/-- The entry is for the key and has the deleter of the call, or it is as it was. -/
def Stems (self : Dictionary α φ) (key : Key) (deleter : Option φ) (es : List (Entry α φ))
    (e : Entry α φ) : Prop :=
  (e.key = key ∧ self.deleter.own e.deleter = self.deleter.own deleter) ∨
    e.key ≠ key ∧ ∃ e' ∈ es, e'.key = e.key ∧ e'.deleter = e.deleter

theorem Stems.mono {es es' : List (Entry α φ)} {e : Entry α φ} (h : Stems self key deleter es e)
    (hsub : ∀ e' ∈ es, ∃ e'' ∈ es', e''.key = e'.key ∧ e''.deleter = e'.deleter) :
    Stems self key deleter es' e := by
  rcases h with h | ⟨hk, e', he', hkey, hdel⟩
  · exact .inl h
  · obtain ⟨e'', he'', hkey', hdel'⟩ := hsub e' he'
    exact .inr ⟨hk, e'', he'', hkey'.trans hkey, hdel'.trans hdel⟩

theorem stems_self {es : List (Entry α φ)} {e : Entry α φ} (he : e ∈ es) (hk : e.key ≠ key) :
    Stems self key deleter es e := .inr ⟨hk, e, he, rfl, rfl⟩

theorem stems_create (depth : ℕ) (es : List (Entry α φ)) :
    Stems self key deleter es (createEntry self depth key obj deleter) := by
  refine .inl ⟨rfl, ?_⟩
  unfold createEntry Deleter.own
  cases self.deleter <;> rfl

theorem stems_replace {e : Entry α φ} (es : List (Entry α φ)) (o : α) (he : e.key = key) :
    Stems self key deleter es (replace self e o deleter) := by
  refine .inl ⟨he, ?_⟩
  unfold replace Deleter.own
  cases self.deleter <;> rfl

theorem stems_setList (depth : ℕ) {es : List (Entry α φ)} (s : Tally α φ)
    (h : (es.map Entry.key).Nodup) :
    ∀ e ∈ (setList self key obj deleter depth es s).1, Stems self key deleter es e := by
  induction es with
  | nil =>
    intro e he
    rw [setList, List.mem_singleton] at he
    rw [he]
    apply stems_create
  | cons e es ih =>
    rw [List.map_cons, List.nodup_cons] at h
    by_cases hk : e.key = key
    · -- the other entries have other keys
      have hrest : ∀ e' ∈ es, Stems self key deleter (e :: es) e' := by
        intro e' he'
        apply stems_self (List.mem_cons_of_mem _ he')
        intro hk'
        exact h.1 (hk.trans hk'.symm ▸ List.mem_map_of_mem he')
      cases obj with
      | some o =>
        rw [setList_some hk]
        exact List.forall_mem_cons.2 ⟨stems_replace _ o hk, hrest⟩
      | none =>
        rw [setList_none hk]
        exact hrest
    · rw [setList_ne hk]
      refine List.forall_mem_cons.2 ⟨stems_self List.mem_cons_self hk, fun e' he' => ?_⟩
      apply (ih h.2 e' he').mono
      exact fun e'' he'' => ⟨e'', List.mem_cons_of_mem _ he'', rfl, rfl⟩

theorem stems_setEmpty (depth : ℕ) (s : Tally α φ) (es : List (Entry α φ)) :
    ∀ e ∈ (setEmpty self key obj deleter depth s).1.entries, Stems self key deleter es e := by
  cases obj with
  | none => exact List.forall_mem_nil _
  | some o => exact List.forall_mem_singleton.2 (stems_create depth es)

/-- A slot of a table is set. -/
theorem stems_table {m : ℕ} {t : Fin m → Bucket α φ} {slot : Key → Fin m} (hs : Slotted slot t)
    {b : Bucket α φ}
    (h : ∀ e ∈ b.entries, Stems self key deleter (t (slot key)).entries e) :
    ∀ e ∈ tableEntries (Function.update t (slot key) b), Stems self key deleter (tableEntries t) e := by
  intro e he
  rcases List.mem_append.1 ((tableEntries_update t (slot key) b).mem_iff.1 he) with he | he
  · apply (h e he).mono
    exact fun e' he' => ⟨e', mem_tableEntries.2 ⟨_, he'⟩, rfl, rfl⟩
  · refine stems_self ((tableEntries_perm t (slot key)).mem_iff.2 (List.mem_append_right _ he)) ?_
    intro hk
    exact slot_of_mem_others hs he (congrArg slot hk)

/-- An entry in the way moves, perhaps as a copy, and the call goes on in its table. -/
theorem stems_single {m : ℕ} {slot : Key → Fin m} {e moved : Entry α φ} (hk : moved.key = e.key)
    (hd : moved.deleter = e.deleter) {depth : ℕ} {s : Tally α φ} {r : Bucket α φ × Tally α φ}
    (h : ∀ e' ∈ r.1.entries, Stems self key deleter [moved] e') :
    ∀ e' ∈ tableEntries (Function.update (single (slot moved.key) moved) (slot key)
        (if slot moved.key = slot key then r else setEmpty self key obj deleter depth s).1),
      Stems self key deleter [e] e' := by
  intro e' he'
  have htable : Stems self key deleter (tableEntries (single (slot moved.key) moved)) e' := by
    refine stems_table (slotted_single slot moved) (fun x hx => ?_) e' he'
    split_ifs at hx with hslot
    · rw [← hslot, single_self]
      exact h x hx
    · exact stems_setEmpty depth s _ x hx
  rw [entries_single] at htable
  apply htable.mono
  exact List.forall_mem_singleton.2 ⟨e, List.mem_cons_self, hk.symm, hd.symm⟩

theorem stems_setItem : ∀ (n : ℕ) {depth : ℕ} {e : Entry α φ} {next : List (Entry α φ)}
    (s : Tally α φ), n = maxnest - depth → 1 ≤ depth → (Bucket.item e next).Ok self.hash depth →
    ∀ e' ∈ (setItem self key obj deleter n depth (path self.hash key depth) e next s).1.entries,
      Stems self key deleter (e :: next) e'
  | 0, depth, e, next, s, hn, hd, hok => by
      rw [setItem, entries_ofList]
      exact stems_setList depth s hok.2
  | n + 1, depth, e, next, s, hn, hd, hok => by
      obtain rfl : next = [] := hok.1 (by omega)
      by_cases hkey : e.key = key
      · rw [setItem_of_eq hkey]
        cases obj with
        | some o => exact List.forall_mem_singleton.2 (stems_replace _ o hkey)
        | none => exact List.forall_mem_nil _
      have ih (e' : Entry α φ) := stems_setItem n s (by omega) (Nat.le_succ_of_le hd)
        (show (Bucket.item e' []).Ok self.hash (depth + 1) from
          ⟨fun _ => rfl, List.nodup_singleton _⟩)
      by_cases hdepth : 1 < depth
      · rw [setItem_ht4 hkey hdepth, ← path_succ _ _ hdepth]
        generalize hm : (if maxnest - 1 ≤ depth then { e with linked := true } else e) = moved
        have hk : moved.key = e.key := by rw [← hm]; split_ifs <;> rfl
        have hdel : moved.deleter = e.deleter := by rw [← hm]; split_ifs <;> rfl
        rw [← hk]
        exact stems_single hk hdel (ih moved)
      · obtain rfl : depth = 1 := by omega
        rw [setItem_ht8 hkey, ← path_two]
        exact stems_single rfl rfl (ih e)

theorem stems_set (b : Bucket α φ) : ∀ {depth : ℕ} (s : Tally α φ), 1 ≤ depth →
    b.Ok self.hash depth →
    ∀ e ∈ (b.set self key obj deleter depth (path self.hash key depth) s).1.entries,
      Stems self key deleter b.entries e := by
  induction b with
  | empty => exact fun s _ _ => stems_setEmpty _ s _
  | item e next => exact fun s hd hok => stems_setItem _ s rfl hd hok
  | ht8 t ih =>
    rintro depth s hd ⟨rfl, ht, hs⟩
    rw [Bucket.set, ← path_two]
    exact stems_table hs (ih _ s (by decide) (ht _))
  | ht4 t ih =>
    rintro depth s hd ⟨hd', ht, hs⟩
    rw [Bucket.set, ← path_succ _ _ hd']
    exact stems_table hs (ih _ s (by omega) (ht _))

end Set

/-! ## Objects and their keys -/

/-- An object in a dictionary, with its key and its own deleter. -/
structure Owned (α φ : Type) where
  key : Key
  obj : α
  deleter : Option φ

/-- The call that deletes it. -/
def Owned.due (x : Owned α φ) : Option (φ × α) := x.deleter.map fun f => (f, x.obj)

/-- The deleter calls with an object. -/
def released (calls : List (φ × Option α)) : List (φ × α) :=
  calls.filterMap fun c => c.2.map fun o => (c.1, o)

/-- `l` lists what belongs to the dictionary, for each key the object and its deleter. -/
structure Lists (l : List (Owned α φ)) (m : Key → Option (α × Option φ)) : Prop where
  keys : (l.map Owned.key).Nodup
  mem : ∀ x, x ∈ l ↔ m x.key = some (x.obj, x.deleter)

theorem Lists.perm {l l' : List (Owned α φ)} {m : Key → Option (α × Option φ)} (h : Lists l m)
    (h' : Lists l' m) : l.Perm l' :=
  (List.perm_ext_iff_of_nodup h.keys.of_map h'.keys.of_map).2 fun x =>
    (h.mem x).trans (h'.mem x).symm

/-- What a call stores. -/
def Op.stored (deleter : Deleter φ) : Op α φ → Option (Owned α φ)
  | .set key obj given => obj.map fun o => ⟨key, o, deleter.own given.given⟩
  | .removeAll _ => none

/-- The call replaces, removes or matches the object. -/
def Op.takes (x : Owned α φ) : Op α φ → Bool
  | .set key _ _ => x.key = key
  | .removeAll matcher => matcher x.key (some x.obj)

/-- What belongs to the dictionary after the call. -/
def Op.owns (deleter : Deleter φ) (m : Key → Option (α × Option φ)) :
    Op α φ → Key → Option (α × Option φ)
  | .set key obj given => Function.update m key (obj.map fun o => (o, deleter.own given.given))
  | .removeAll matcher => fun k => (m k).filter fun x => !matcher k (some x.1)

/-- An object stays until a call takes it. -/
theorem Lists.apply {deleter : Deleter φ} {l : List (Owned α φ)} {m : Key → Option (α × Option φ)}
    (h : Lists l m) (op : Op α φ) :
    Lists ((op.stored deleter).toList ++ l.filter fun x => !op.takes x) (op.owns deleter m) := by
  have hrest : ((l.filter fun x => !op.takes x).map Owned.key).Nodup :=
    h.keys.sublist (List.filter_sublist.map _)
  cases op with
  | set key obj given =>
    have hkey : key ∉ (l.filter fun x => !(Op.set key obj given).takes x).map Owned.key := by
      simp [Op.takes]
    constructor
    · cases obj with
      | none => exact hrest
      | some o => exact List.nodup_cons.2 ⟨hkey, hrest⟩
    · rintro ⟨k, o', f⟩
      rw [Op.owns, Function.update_apply, List.mem_append, List.mem_filter, h.mem]
      by_cases hk : k = key
      · subst hk
        cases obj <;> simp [Op.stored, Op.takes, eq_comm]
      · cases obj <;> simp [Op.stored, Op.takes, hk]
  | removeAll matcher =>
    refine ⟨hrest, fun x => ?_⟩
    rw [Op.stored, Option.toList_none, List.nil_append, List.mem_filter, h.mem, Op.owns,
      Option.filter_eq_some_iff]
    rfl

/-! ## The entries -/

variable {d : Dictionary α φ}

/-- The object of an entry, if there is one. -/
def Dictionary.owned (d : Dictionary α φ) (e : Entry α φ) : Option (Owned α φ) :=
  e.obj.map fun o => ⟨e.key, o, d.deleter.own e.deleter⟩

/-- The objects of the dictionary. -/
def Dictionary.held (d : Dictionary α φ) : List (Owned α φ) := d.entries.filterMap d.owned

theorem owned_eq {e : Entry α φ} {x : Owned α φ} :
    d.owned e = some x ↔ e.key = x.key ∧ e.obj = some x.obj ∧ d.deleter.own e.deleter = x.deleter := by
  obtain ⟨k, o, f⟩ := x
  unfold Dictionary.owned
  cases he : e.obj <;> simp [and_left_comm]

/-- The object of a key and its deleter. -/
def Dictionary.owner (d : Dictionary α φ) (k : Key) : Option (α × Option φ) :=
  (entryOf k d.entries).bind fun e => e.obj.map fun o => (o, d.deleter.own e.deleter)

theorem get_owner (h : d.Ok) (k : Key) : d.get k = (d.owner k).map Prod.fst := by
  rw [get_eq h, findList, Dictionary.owner]
  cases entryOf k d.entries with
  | none => rfl
  | some e =>
    rw [Option.bind_some, Option.bind_some]
    cases e.obj <;> rfl

/-- An object that is found is owned. -/
theorem owner_of_get (h : d.Ok) {k : Key} {o : α} (hget : d.get k = some o) :
    ∃ f, d.owner k = some (o, f) := by
  rw [get_owner h] at hget
  obtain ⟨⟨o', f⟩, hx, rfl⟩ := Option.map_eq_some_iff.1 hget
  exact ⟨f, hx⟩

theorem owner_of_get_none (h : d.Ok) {k : Key} (hget : d.get k = none) : d.owner k = none := by
  rw [get_owner h] at hget
  exact Option.map_eq_none_iff.1 hget

theorem entryOf_eq_some {es : List (Entry α φ)} (h : (es.map Entry.key).Nodup) {k : Key}
    {e : Entry α φ} : entryOf k es = some e ↔ e ∈ es ∧ e.key = k := by
  constructor
  · intro he
    exact ⟨List.mem_of_find?_eq_some he, by simpa using List.find?_some he⟩
  · rintro ⟨he, rfl⟩
    cases hfind : entryOf e.key es with
    | none =>
      have := List.find?_eq_none.1 hfind e he
      simp at this
    | some e' =>
      have hkey : e'.key = e.key := by simpa using List.find?_some hfind
      rw [List.inj_on_of_nodup_map h (List.mem_of_find?_eq_some hfind) he hkey]

theorem owner_eq_some (h : d.Ok) {k : Key} {o : α} {f : Option φ} : d.owner k = some (o, f) ↔
    ∃ e ∈ d.entries, e.key = k ∧ e.obj = some o ∧ d.deleter.own e.deleter = f := by
  simp only [Dictionary.owner, Option.bind_eq_some_iff, Option.map_eq_some_iff, Prod.mk.injEq,
    entryOf_eq_some (nodup_keys h)]
  constructor
  · rintro ⟨e, ⟨he, hk⟩, o', ho, rfl, hf⟩
    exact ⟨e, he, hk, ho, hf⟩
  · rintro ⟨e, he, hk, ho, hf⟩
    exact ⟨e, ⟨he, hk⟩, o, ho, rfl, hf⟩

theorem lists_held (h : d.Ok) : Lists d.held d.owner where
  keys := by
    have hsub : (d.held.map Owned.key).Sublist (d.entries.map Entry.key) := by
      rw [Dictionary.held]
      induction d.entries with
      | nil => exact .slnil
      | cons e es ih =>
        cases he : d.owned e with
        | none =>
          rw [List.filterMap_cons_none he]
          exact ih.cons _
        | some x =>
          rw [List.filterMap_cons_some he, List.map_cons, List.map_cons, (owned_eq.1 he).1]
          exact ih.cons_cons _
    exact (nodup_keys h).sublist hsub
  mem x := by
    rw [owner_eq_some h, Dictionary.held, List.mem_filterMap]
    exact exists_congr fun e => and_congr_right fun _ => owned_eq

/-- Some entries are deleted. -/
theorem released_delete (d : Dictionary α φ) (es : List (Entry α φ)) :
    released (es.flatMap d.delete) = (es.filterMap d.owned).filterMap Owned.due := by
  induction es with
  | nil => rfl
  | cons e es ih =>
    rw [List.flatMap_cons, released, List.filterMap_append, ← released, ← released, ih, delete_eq,
      List.filterMap_cons, Dictionary.owned]
    cases e.obj <;> cases d.deleter.own e.deleter <;> simp [released, Owned.due, List.filterMap_cons]

/-- Choosing objects by their entries. -/
theorem owned_filter {p : Owned α φ → Bool} {q : Entry α φ → Bool} (es : List (Entry α φ))
    (h : ∀ e x, d.owned e = some x → q e = p x) :
    (es.filter q).filterMap d.owned = (es.filterMap d.owned).filter p := by
  induction es with
  | nil => rfl
  | cons e es ih =>
    cases he : d.owned e with
    | none =>
      rw [List.filterMap_cons_none he, ← ih, List.filter_cons]
      split_ifs
      · rw [List.filterMap_cons_none he]
      · rfl
    | some x =>
      rw [List.filterMap_cons_some he, List.filter_cons, List.filter_cons, h e x he, ← ih]
      split_ifs
      · rw [List.filterMap_cons_some he]
      · rfl

theorem entryOf_toList {es : List (Entry α φ)} (h : (es.map Entry.key).Nodup) (k : Key) :
    (entryOf k es).toList = es.filter fun e => e.key = k := by
  induction es with
  | nil => rfl
  | cons e es ih =>
    rw [List.map_cons, List.nodup_cons] at h
    rw [entryOf_cons, List.filter_cons]
    by_cases hk : e.key = k
    · have hnone : (es.filter fun e => e.key = k) = [] := by
        rw [List.filter_eq_nil_iff]
        intro e' he' hk'
        rw [decide_eq_true_eq] at hk'
        exact h.1 (hk.trans hk'.symm ▸ List.mem_map_of_mem he')
      rw [if_pos hk, if_pos (decide_eq_true hk), hnone, Option.toList_some]
    · rw [if_neg hk, if_neg (by simpa using hk), ih h.2]

/-! ## One call -/

theorem deleter_apply (op : Op α φ) : (op.apply d).deleter = d.deleter := by
  cases op with
  | set key obj given => rfl
  | removeAll matcher =>
    rw [Op.apply, Dictionary.removeAll]
    split_ifs <;> rfl

/-- The deleters of exactly those objects are called that the call takes. -/
theorem released_apply (h : d.Ok) (op : Op α φ) : released (op.apply d).calls =
    released d.calls ++ (d.held.filter fun x => op.takes x).filterMap Owned.due := by
  have hcalls (q : Entry α φ → Bool) (hq : ∀ e x, d.owned e = some x → q e = op.takes x)
      (hc : (op.apply d).calls = d.calls ++ (d.entries.filter q).flatMap d.delete) :
      released (op.apply d).calls =
        released d.calls ++ (d.held.filter fun x => op.takes x).filterMap Owned.due := by
    rw [hc, released, List.filterMap_append, ← released, ← released, released_delete,
      owned_filter _ hq, Dictionary.held]
  cases op with
  | set key obj given =>
    refine hcalls (fun e => e.key = key) (fun e x hx => ?_) ?_
    · simp only [Op.takes, (owned_eq.1 hx).1]
    · rw [Op.apply, calls_set key obj given h, entryOf_toList (nodup_keys h)]
  | removeAll matcher =>
    refine hcalls (fun e => matcher e.key e.obj) (fun e x hx => ?_) (calls_removeAll h matcher)
    obtain ⟨hk, ho, -⟩ := owned_eq.1 hx
    rw [Op.takes, hk, ho]

theorem stems_entries (h : d.Ok) (key : Key) (obj : Option α) (given : Deleter φ) :
    ∀ e ∈ (d.set key obj given).entries, Stems d key given.given d.entries e :=
  stems_table h.slotted (stems_set _ ⟨d.count, d.calls⟩ le_rfl (h.buckets (slotRoot d.hash key)))

theorem owner_set (h : d.Ok) (key : Key) (obj : Option α) (given : Deleter φ) (k : Key) :
    (d.set key obj given).owner k =
      if k = key then obj.map fun o => (o, d.deleter.own given.given) else d.owner k := by
  have hok := ok_set key obj given h
  have hget := get_set key obj given h k
  -- the entry that a lookup finds has the right deleter
  have hstem {o : α} (ho : (d.set key obj given).get k = some o) : ∃ e f,
      (d.set key obj given).owner k = some (o, f) ∧ e.key = k ∧ d.deleter.own e.deleter = f ∧
        Stems d key given.given d.entries e := by
    obtain ⟨f, hf⟩ := owner_of_get hok ho
    obtain ⟨e, he, hk, -, hdel⟩ := (owner_eq_some hok).1 hf
    exact ⟨e, f, hf, hk, hdel, stems_entries h key obj given e he⟩
  split_ifs at hget ⊢ with hk
  · cases obj with
    | none => exact owner_of_get_none hok hget
    | some o =>
      obtain ⟨e, f, hf, he, rfl, ⟨-, hown⟩ | ⟨hne, -⟩⟩ := hstem hget
      · rw [hf, hown]
        rfl
      · exact absurd (he.trans hk) hne
  · cases hold : d.owner k with
    | none =>
      rw [get_owner h, hold] at hget
      exact owner_of_get_none hok hget
    | some x =>
      obtain ⟨o, g⟩ := x
      rw [get_owner h, hold] at hget
      obtain ⟨e0, he0, hk0, -, rfl⟩ := (owner_eq_some h).1 hold
      obtain ⟨e, f, hf, he, rfl, ⟨hkey, -⟩ | ⟨-, e', he', hkey', hdel'⟩⟩ := hstem hget
      · exact absurd (he.symm.trans hkey) hk
      · have hsame : e' = e0 :=
          List.inj_on_of_nodup_map (nodup_keys h) he' he0 (hkey'.trans (he.trans hk0.symm))
        rw [hf, ← hdel', hsame]

theorem owner_removeAll (h : d.Ok) (matcher : Key → Option α → Bool) (k : Key) :
    (d.removeAll matcher).1.owner k = (d.owner k).filter fun x => !matcher k (some x.1) := by
  have hdel : (d.removeAll matcher).1.deleter = d.deleter := deleter_apply (.removeAll matcher)
  apply Option.ext
  rintro ⟨o, f⟩
  rw [Option.filter_eq_some_iff, owner_eq_some (ok_removeAll h matcher), owner_eq_some h, hdel,
    entries_removeAll h]
  constructor
  · rintro ⟨e, he, rfl, ho, hf⟩
    rw [List.mem_filter, ho] at he
    exact ⟨⟨e, he.1, rfl, ho, hf⟩, he.2⟩
  · rintro ⟨⟨e, he, rfl, ho, hf⟩, hm⟩
    refine ⟨e, List.mem_filter.2 ⟨he, ?_⟩, rfl, ho, hf⟩
    rw [ho]
    exact hm

/-- After a call the dictionary owns what it should. -/
theorem owner_apply (h : d.Ok) (op : Op α φ) : (op.apply d).owner = op.owns d.deleter d.owner := by
  funext k
  cases op with
  | set key obj given => rw [Op.apply, owner_set h, Op.owns, Function.update_apply]
  | removeAll matcher => exact owner_removeAll h matcher k

/-! ## Runs -/

/-- What a call stores is deleted or held after it, as is what was held before. -/
theorem held_apply (h : d.Ok) (op : Op α φ) :
    ((op.apply d).held).Perm
      ((op.stored d.deleter).toList ++ d.held.filter fun x => !op.takes x) := by
  have hnew := lists_held (apply_refines h op).1
  rw [owner_apply h] at hnew
  exact hnew.perm ((lists_held h).apply op)

theorem balance_apply (h : d.Ok) (op : Op α φ) :
    (released (op.apply d).calls ++ (op.apply d).held.filterMap Owned.due).Perm
      (released d.calls ++ d.held.filterMap Owned.due ++
        (op.stored d.deleter).toList.filterMap Owned.due) := by
  rw [released_apply h]
  exact Lib.settle Owned.due (fun x => op.takes x) (held_apply h op)

/-- All objects that the calls store. -/
def stores (deleter : Deleter φ) (ops : List (Op α φ)) : List (Owned α φ) :=
  ops.filterMap fun op => op.stored deleter

theorem stores_cons (deleter : Deleter φ) (op : Op α φ) (ops : List (Op α φ)) :
    stores deleter (op :: ops) = (op.stored deleter).toList ++ stores deleter ops := by
  rw [stores, stores, List.filterMap_cons]
  cases op.stored deleter <;> rfl

theorem owner_run (h : d.Ok) (ops : List (Op α φ)) :
    (ops.foldl Op.apply d).owner = ops.foldl (Op.owns d.deleter) d.owner := by
  induction ops generalizing d with
  | nil => rfl
  | cons op ops ih =>
    rw [List.foldl_cons, List.foldl_cons, ih (apply_refines h op).1, owner_apply h,
      deleter_apply]

theorem balance_run (h : d.Ok) (ops : List (Op α φ)) :
    (released (ops.foldl Op.apply d).calls ++
        (ops.foldl Op.apply d).held.filterMap Owned.due).Perm
      (released d.calls ++ d.held.filterMap Owned.due ++
        (stores d.deleter ops).filterMap Owned.due) := by
  induction ops generalizing d with
  | nil => simp [stores]
  | cons op ops ih =>
    have hrest := ih (apply_refines h op).1
    rw [deleter_apply] at hrest
    rw [List.foldl_cons, stores_cons, List.filterMap_append, ← List.append_assoc]
    exact hrest.trans ((balance_apply h op).append_right _)

theorem held_run (h : d.Ok) (ops : List (Op α φ)) :
    ∀ x ∈ (ops.foldl Op.apply d).held, x ∈ d.held ∨ x ∈ stores d.deleter ops := by
  induction ops generalizing d with
  | nil => exact fun x hx => .inl hx
  | cons op ops ih =>
    intro x hx
    rw [stores_cons, List.mem_append]
    have hrest := ih (apply_refines h op).1 x hx
    rw [deleter_apply] at hrest
    rcases hrest with hx | hx
    · rcases List.mem_append.1 ((held_apply h op).mem_iff.1 hx) with hx | hx
      · exact .inr (.inl hx)
      · exact .inl (List.mem_of_mem_filter hx)
    · exact .inr (.inr hx)

theorem released_destroy (h : d.Ok) : released d.destroy = d.held.filterMap Owned.due := by
  rw [destroy_eq h, released_delete, Dictionary.held]

/-- What a new dictionary and its objects come to. -/
theorem balance_create (hash : Key → UInt64) (deleter : Deleter φ) (ops : List (Op α φ)) :
    let d := ops.foldl Op.apply (Dictionary.create hash deleter)
    (released d.calls ++ d.held.filterMap Owned.due).Perm
        ((stores deleter ops).filterMap Owned.due) ∧
      ∀ x ∈ d.held, x ∈ stores deleter ops := by
  have hempty : (Dictionary.create hash deleter : Dictionary α φ).held = [] := by
    rw [Dictionary.held, entries_create]
    rfl
  have hbalance := balance_run (ok_create hash deleter) ops
  have hheld := held_run (ok_create hash deleter) ops
  rw [hempty] at hbalance hheld
  exact ⟨hbalance, fun x hx => (hheld x hx).resolve_left List.not_mem_nil⟩

theorem due_objs (l : List (Owned α φ)) :
    ((l.filterMap Owned.due).map Prod.snd).Sublist (l.map Owned.obj) := by
  induction l with
  | nil => exact .slnil
  | cons x l ih =>
    cases hd : x.due with
    | none =>
      rw [List.filterMap_cons_none hd]
      exact ih.cons _
    | some c =>
      obtain ⟨f, -, rfl⟩ := Option.map_eq_some_iff.1 hd
      rw [List.filterMap_cons_some hd]
      exact ih.cons_cons _

/-- An object that is stored once is not found any more when its deleter was called. -/
theorem not_found_of_released (hash : Key → UInt64) (deleter : Deleter φ) {ops : List (Op α φ)}
    (hnd : ((stores deleter ops).map Owned.obj).Nodup) {c : φ × α} (k : Key)
    (hc : c ∈ released (ops.foldl Op.apply (Dictionary.create hash deleter)).calls) :
    (ops.foldl Op.apply (Dictionary.create hash deleter)).get k ≠ some c.2 := by
  obtain ⟨hbalance, hheld⟩ := balance_create hash deleter ops
  have hok := (run_refines (ok_create hash deleter) ops).1
  generalize ops.foldl Op.apply (Dictionary.create hash deleter) = d at *
  intro hget
  -- the object that is found and the one that was deleted were stored by the same call
  obtain ⟨g, hg⟩ := owner_of_get hok hget
  have hfound : (⟨k, c.2, g⟩ : Owned α φ) ∈ d.held := ((lists_held hok).mem _).2 hg
  obtain ⟨x, hx, hdue⟩ := List.mem_filterMap.1 (hbalance.subset (List.mem_append_left _ hc))
  have hobj : x.obj = c.2 := by
    obtain ⟨f, -, rfl⟩ := Option.map_eq_some_iff.1 hdue
    rfl
  have hsame : x = ⟨k, c.2, g⟩ := List.inj_on_of_nodup_map hnd hx (hheld _ hfound) hobj
  -- so its deleter is due twice
  have hagain : c ∈ d.held.filterMap Owned.due := List.mem_filterMap.2 ⟨x, hsame ▸ hfound, hdue⟩
  have honce : ((stores deleter ops).filterMap Owned.due).Nodup :=
    (hnd.sublist (due_objs _)).of_map
  exact (List.nodup_append.1 (hbalance.nodup_iff.2 honce)).2.2 c hc c hagain rfl

/-- Whatever the hash function, every object that was stored has its own deleter called exactly once
until the dictionary is destroyed: by the call that replaces it, removes it or matches it, or at the
end.  In between it is found, and once its deleter was called it is not. -/
theorem deleters_called (hash : Key → UInt64) (deleter : Deleter φ) (ops : List (Op α φ)) :
    let d := ops.foldl Op.apply (Dictionary.create hash deleter)
    let m := ops.foldl (Op.owns deleter) fun _ => none
    (released (d.calls ++ d.destroy)).Perm ((stores deleter ops).filterMap Owned.due) ∧
      (∀ k, d.get k = (m k).map Prod.fst) ∧
      (∃ l, Lists l m ∧ released d.destroy = l.filterMap Owned.due ∧
        ∀ op : Op α φ, released (op.apply d).calls =
          released d.calls ++ (l.filter fun x => op.takes x).filterMap Owned.due) ∧
      (((stores deleter ops).map Owned.obj).Nodup →
        ∀ c ∈ released d.calls, ∀ k, d.get k ≠ some c.2) := by
  intro d m
  have hok : d.Ok := (run_refines (ok_create hash deleter) ops).1
  have howner : d.owner = m := by
    have h := owner_run (ok_create hash deleter) ops
    have hempty : (Dictionary.create hash deleter : Dictionary α φ).owner = fun _ => none := by
      funext k
      rw [Dictionary.owner, entries_create]
      rfl
    rw [hempty] at h
    exact h
  refine ⟨?_, fun k => ?_, ⟨d.held, howner ▸ lists_held hok, released_destroy hok,
    released_apply hok⟩, fun hnd c hc k => not_found_of_released hash deleter hnd k hc⟩
  · rw [released, List.filterMap_append, ← released, ← released, released_destroy hok]
    exact (balance_create hash deleter ops).1
  · rw [get_owner hok, howner]

end PoserCore.Dictionary
