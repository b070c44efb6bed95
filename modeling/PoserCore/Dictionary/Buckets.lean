import Mathlib.Data.List.FinRange
import Mathlib.Data.List.Nodup
import Mathlib.Data.List.Perm.Basic
import Mathlib.Data.List.Perm.Subperm
import Mathlib.Tactic.SplitIfs
import PoserCore.Dictionary.Model

/-!
# Buckets

A bucket is a list of entries (`Bucket.entries`), of which `get` finds the one with its key, `set`
changes the one with its key, and `removeAll` keeps those its matcher refuses.  The insert path
computes the bits of the hash that select a slot from the depth and the lookup path shifts them out
one level after the other; `shift` is what both agree on.
-/

namespace PoserCore.Dictionary

variable {α φ : Type}

/-- The number of bits of the hash used up above a bucket. -/
def shift (depth : ℕ) : ℕ := if depth ≤ 1 then 8 else 16 + (depth - 2) * 4

theorem shift_two : shift 2 = shift 1 + 8 := rfl

theorem shift_succ {depth : ℕ} (h : 2 ≤ depth) : shift (depth + 1) = shift depth + 4 := by
  unfold shift
  split_ifs <;> omega

/-- The part of the hash that selects the slots below a bucket at `depth`. -/
def path (hash : Key → UInt64) (key : Key) (depth : ℕ) : ℕ := (hash key).toNat >>> shift depth

theorem path_two (hash : Key → UInt64) (key : Key) : path hash key 2 = path hash key 1 >>> 8 := by
  rw [path, path, shift_two, Nat.shiftRight_add]

theorem path_succ (hash : Key → UInt64) (key : Key) {depth : ℕ} (h : 2 ≤ depth) :
    path hash key (depth + 1) = path hash key depth >>> 4 := by
  rw [path, path, shift_succ h, Nat.shiftRight_add]

/-! ## Well-formed buckets -/

/-- The entries of a bucket, in the order of its slots. -/
def Bucket.entries : Bucket α φ → List (Entry α φ)
  | .empty => []
  | .item e next => e :: next
  | .ht8 t => (List.finRange 256).flatMap fun i => (t i).entries
  | .ht4 t => (List.finRange 16).flatMap fun i => (t i).entries

def tableEntries {m : ℕ} (t : Fin m → Bucket α φ) : List (Entry α φ) :=
  (List.finRange m).flatMap fun i => (t i).entries

/-- Every entry stands in the slot of its key. -/
def Slotted {m : ℕ} (slot : Key → Fin m) (t : Fin m → Bucket α φ) : Prop :=
  ∀ i, ∀ e ∈ (t i).entries, slot e.key = i

/-- The slot of a key in a second-level table. -/
def slot8 (hash : Key → UInt64) (key : Key) : Fin 256 := Fin.ofNat 256 (path hash key 1)

/-- The slot of a key in a table at `depth`. -/
def slot4 (hash : Key → UInt64) (depth : ℕ) (key : Key) : Fin 16 :=
  Fin.ofNat 16 (path hash key depth)

/-- Tables of 256 slots hang below the root only, one entry stands above depth `MAXNEST`, a list has
no key twice, and tables are slotted. -/
def Bucket.Ok (hash : Key → UInt64) : Bucket α φ → ℕ → Prop
  | .empty, _ => True
  | .item e next, depth => (depth < maxnest → next = []) ∧ ((e :: next).map Entry.key).Nodup
  | .ht8 t, depth => depth = 1 ∧ (∀ i, (t i).Ok hash 2) ∧ Slotted (slot8 hash) t
  | .ht4 t, depth => 2 ≤ depth ∧ (∀ i, (t i).Ok hash (depth + 1)) ∧ Slotted (slot4 hash depth) t

def Entry.pair (e : Entry α φ) : Key × Option α := (e.key, e.obj)

/-- The entry of a key. -/
def entryOf (key : Key) (es : List (Entry α φ)) : Option (Entry α φ) := es.find? fun e => e.key = key

/-! ## Lists -/

/-- What a lookup in a list finds. -/
def findList (key : Key) (es : List (Entry α φ)) : Option α := (entryOf key es).bind Entry.obj

theorem entryOf_cons (key : Key) (e : Entry α φ) (es : List (Entry α φ)) :
    entryOf key (e :: es) = if e.key = key then some e else entryOf key es := by
  unfold entryOf
  by_cases h : e.key = key
  · simp [h]
  · simp [h]

theorem findList_cons (key : Key) (e : Entry α φ) (es : List (Entry α φ)) :
    findList key (e :: es) = if e.key = key then e.obj else findList key es := by
  rw [findList, entryOf_cons]
  split_ifs <;> rfl

theorem findList_eq_none {key : Key} {es : List (Entry α φ)} (h : key ∉ es.map Entry.key) :
    findList key es = none := by
  induction es with
  | nil => rfl
  | cons e es ih =>
    simp only [List.map_cons, List.mem_cons, not_or] at h
    rw [findList_cons, if_neg fun he => h.1 he.symm, ih h.2]

/-- In a list without a key twice, a lookup finds every entry. -/
theorem findList_of_mem {es : List (Entry α φ)} (hnd : (es.map Entry.key).Nodup) {k : Key}
    {x : Option α} (h : (k, x) ∈ es.map Entry.pair) : findList k es = x := by
  induction es with
  | nil => simp at h
  | cons e es ih =>
    rw [List.map_cons, List.nodup_cons] at hnd
    rw [findList_cons]
    rcases List.mem_cons.1 h with he | hmem
    · obtain ⟨rfl, rfl⟩ := Prod.mk.inj he
      exact if_pos rfl
    · obtain ⟨e', he', heq⟩ := List.mem_map.1 hmem
      obtain ⟨rfl, rfl⟩ := Prod.mk.inj heq
      rw [if_neg fun hk : e.key = e'.key => hnd.1 (hk ▸ List.mem_map_of_mem he'), ih hnd.2 hmem]

theorem mem_of_findList {es : List (Entry α φ)} {k : Key} {o : α}
    (h : findList k es = some o) : (k, some o) ∈ es.map Entry.pair := by
  induction es with
  | nil => simp [findList, entryOf] at h
  | cons e es ih =>
    rw [findList_cons] at h
    split_ifs at h with hk
    · subst hk
      rw [← h]
      exact List.mem_map_of_mem List.mem_cons_self
    · exact List.mem_cons_of_mem _ (ih h)

theorem get_ofList {key : Key} {es : List (Entry α φ)} {depth hash : ℕ} (h : maxnest ≤ depth) :
    (Bucket.ofList es).get key depth hash = findList key es := by
  cases es with
  | nil => rfl
  | cons e es => simp [Bucket.ofList, Bucket.get, h, findList, entryOf]

theorem entries_ofList (es : List (Entry α φ)) : (Bucket.ofList es).entries = es := by
  cases es <;> rfl

theorem ok_ofList {hash : Key → UInt64} {es : List (Entry α φ)} {depth : ℕ} (h : maxnest ≤ depth)
    (hes : (es.map Entry.key).Nodup) : (Bucket.ofList es).Ok hash depth := by
  cases es with
  | nil => trivial
  | cons e es => exact ⟨fun hlt => absurd h (Nat.not_le.2 hlt), hes⟩

/-! ## Tables -/

section Table

variable {m : ℕ} {slot : Key → Fin m} {t : Fin m → Bucket α φ}

/-- The entries of the other slots. -/
def others (t : Fin m → Bucket α φ) (j : Fin m) : List (Entry α φ) :=
  ((List.finRange m).erase j).flatMap fun i => (t i).entries

theorem tableEntries_perm (t : Fin m → Bucket α φ) (j : Fin m) :
    (tableEntries t).Perm ((t j).entries ++ others t j) :=
  (List.perm_cons_erase (List.mem_finRange j)).flatMap_right _

theorem others_update (t : Fin m → Bucket α φ) (j : Fin m) (b : Bucket α φ) :
    others (Function.update t j b) j = others t j := by
  refine List.flatMap_congr fun i hi => ?_
  rw [Function.update_of_ne ((List.nodup_finRange m).mem_erase_iff.1 hi).1]

theorem tableEntries_update (t : Fin m → Bucket α φ) (j : Fin m) (b : Bucket α φ) :
    (tableEntries (Function.update t j b)).Perm (b.entries ++ others t j) := by
  have h := tableEntries_perm (Function.update t j b) j
  rwa [Function.update_self, others_update] at h

theorem mem_tableEntries {e : Entry α φ} : e ∈ tableEntries t ↔ ∃ i, e ∈ (t i).entries := by
  simp [tableEntries]

theorem slot_of_mem_others (hs : Slotted slot t) {j : Fin m} {e : Entry α φ} (h : e ∈ others t j) :
    slot e.key ≠ j := by
  obtain ⟨i, hi, he⟩ := List.mem_flatMap.1 h
  rw [hs i e he]
  exact ((List.nodup_finRange m).mem_erase_iff.1 hi).1

theorem findSome?_unique {β : Type} {g : Fin m → Option β} {j : Fin m} {l : List (Fin m)}
    (hj : j ∈ l) (h : ∀ i, i ≠ j → g i = none) : l.findSome? g = g j := by
  induction l with
  | nil => simp at hj
  | cons i l ih =>
    by_cases hi : i = j
    · subst hi
      cases hg : g i with
      | some b => simp [hg]
      | none =>
        simp only [List.findSome?_cons, hg]
        refine List.findSome?_eq_none_iff.2 fun i' _ => ?_
        by_cases hi' : i' = i
        · rw [hi', hg]
        · exact h i' hi'
    · rw [List.findSome?_cons, h i hi]
      exact ih ((List.mem_cons.1 hj).resolve_left (Ne.symm hi))

/-- The entry of a key is in the slot of the key. -/
theorem entryOf_table (hs : Slotted slot t) (key : Key) :
    entryOf key (tableEntries t) = entryOf key (t (slot key)).entries := by
  rw [entryOf, tableEntries, List.find?_flatMap]
  refine findSome?_unique (List.mem_finRange _) fun i hi => ?_
  refine List.find?_eq_none.2 fun e he => ?_
  simp only [decide_eq_true_eq]
  rintro rfl
  exact hi (hs i e he).symm

theorem nodup_table (hs : Slotted slot t) (h : ∀ i, ((t i).entries.map Entry.key).Nodup) :
    ((tableEntries t).map Entry.key).Nodup := by
  rw [tableEntries, List.map_flatMap, List.nodup_flatMap]
  refine ⟨fun i _ => h i, (List.nodup_finRange m).imp fun {i j} hij => ?_⟩
  refine List.disjoint_left.2 fun k hi hj => ?_
  obtain ⟨e, he, rfl⟩ := List.mem_map.1 hi
  obtain ⟨e', he', hk⟩ := List.mem_map.1 hj
  exact hij ((hs i e he).symm.trans (hk ▸ hs j e' he'))

end Table

/-- A bucket has no key twice. -/
theorem nodup_entries {hash : Key → UInt64} (b : Bucket α φ) : ∀ {depth : ℕ}, b.Ok hash depth →
    (b.entries.map Entry.key).Nodup := by
  induction b with
  | empty => exact fun _ => List.nodup_nil
  | item e next => exact fun h => h.2
  | ht8 t ih =>
    rintro depth ⟨-, ht, hs⟩
    exact nodup_table hs fun i => ih i (ht i)
  | ht4 t ih =>
    rintro depth ⟨-, ht, hs⟩
    exact nodup_table hs fun i => ih i (ht i)

theorem get_item_nil (k : Key) (e : Entry α φ) (depth hash : ℕ) :
    (Bucket.item e []).get k depth hash = findList k [e] := by
  rw [findList_cons]
  unfold Bucket.get
  split_ifs with hd hk
  · simp [hk]
  · simp [hk, findList, entryOf]
  · rfl
  · rfl

/-- A lookup finds the entry of its key. -/
theorem get_eq_find {hash : Key → UInt64} (k : Key) (b : Bucket α φ) : ∀ {depth : ℕ},
    b.Ok hash depth → b.get k depth (path hash k depth) = findList k b.entries := by
  induction b with
  | empty => exact fun _ => rfl
  | item e next =>
    intro depth h
    by_cases hd : maxnest ≤ depth
    · have hitem : Bucket.item e next = .ofList (e :: next) := rfl
      rw [hitem, get_ofList hd, entries_ofList]
    · obtain rfl : next = [] := h.1 (Nat.lt_of_not_le hd)
      exact get_item_nil k e depth _
  | ht8 t ih =>
    rintro depth ⟨rfl, ht, hs⟩
    rw [Bucket.get, ← path_two]
    exact (ih _ (ht _)).trans (congrArg (·.bind Entry.obj) (entryOf_table hs k).symm)
  | ht4 t ih =>
    rintro depth ⟨hd, ht, hs⟩
    rw [Bucket.get, ← path_succ _ _ hd]
    exact (ih _ (ht _)).trans (congrArg (·.bind Entry.obj) (entryOf_table hs k).symm)

/-! ## `set` -/

section Set

variable {self : Dictionary α φ} {key : Key} {obj : Option α} {deleter : Option φ}

@[simp] theorem key_createEntry (depth : ℕ) :
    (createEntry self depth key obj deleter).key = key := rfl

@[simp] theorem pair_createEntry (depth : ℕ) :
    (createEntry self depth key obj deleter).pair = (key, obj) := rfl

@[simp] theorem key_replace (e : Entry α φ) (o : α) : (replace self e o deleter).key = e.key := rfl

@[simp] theorem pair_replace (e : Entry α φ) (o : α) :
    (replace self e o deleter).pair = (e.key, some o) := rfl

/-- What a call may leave under its key: the object, or for a removal nothing or an entry without
an object. -/
def New (key : Key) : Option α → List (Key × Option α) → Prop
  | some o, new => new = [(key, some o)]
  | none, new => new = [] ∨ new = [(key, none)]

theorem New.fst_eq {new : List (Key × Option α)} (h : New key obj new) :
    ∀ x ∈ new, x = (key, obj) := by
  cases obj with
  | some o =>
    rw [New] at h
    simp [h]
  | none =>
    rcases h with rfl | rfl
    · simp
    · simp

/-- `r` is what `set` should make of the bucket `b`. -/
structure SetResult (d : Dictionary α φ) (key : Key) (obj : Option α) (b : Bucket α φ)
    (depth : ℕ) (s : Tally α φ) (r : Bucket α φ × Tally α φ) : Prop where
  ok : r.1.Ok d.hash depth
  entries : ∃ new, New key obj new ∧
    (r.1.entries.map Entry.pair).Perm (new ++ (b.entries.map Entry.pair).filter fun x => x.1 ≠ key)
  calls : r.2.calls = s.calls ++ (entryOf key b.entries).toList.flatMap d.delete
  count : b.entries.length ≤ s.count →
    r.2.count + b.entries.length = s.count + r.1.entries.length

/-- Another bucket with the same entry. -/
theorem SetResult.of_eq {b b' : Bucket α φ} {depth : ℕ} {s : Tally α φ} {r : Bucket α φ × Tally α φ}
    (h : SetResult self key obj b depth s r)
    (hpair : b'.entries.map Entry.pair = b.entries.map Entry.pair)
    (hcalls : (entryOf key b'.entries).toList.flatMap self.delete =
      (entryOf key b.entries).toList.flatMap self.delete) :
    SetResult self key obj b' depth s r := by
  have hlen : b'.entries.length = b.entries.length := by
    simpa using congrArg List.length hpair
  refine ⟨h.ok, ?_, ?_, ?_⟩
  · rw [hpair]
    exact h.entries
  · rw [hcalls]
    exact h.calls
  · rw [hlen]
    exact h.count

/-! ### Lists -/

theorem setList_ne {depth : ℕ} {e : Entry α φ} {es : List (Entry α φ)} {s : Tally α φ}
    (h : e.key ≠ key) : setList self key obj deleter depth (e :: es) s =
      (e :: (setList self key obj deleter depth es s).1,
        (setList self key obj deleter depth es s).2) := by
  simp [setList, h]

theorem setList_some {depth : ℕ} {e : Entry α φ} {es : List (Entry α φ)} {s : Tally α φ} {o : α}
    (h : e.key = key) : setList self key (some o) deleter depth (e :: es) s =
      (replace self e o deleter :: es, s.deleted (self.delete e)) := by
  simp [setList, h]

theorem setList_none {depth : ℕ} {e : Entry α φ} {es : List (Entry α φ)} {s : Tally α φ}
    (h : e.key = key) : setList self key none deleter depth (e :: es) s =
      (es, s.removed (self.delete e)) := by
  simp [setList, h]

/-- The keys of a list after `set`. -/
theorem keys_setList (depth : ℕ) (es : List (Entry α φ)) (s : Tally α φ) :
    ((setList self key obj deleter depth es s).1.map Entry.key).Sublist
      (es.map Entry.key ++ if key ∈ es.map Entry.key then [] else [key]) := by
  induction es with
  | nil => simp [setList]
  | cons e es ih =>
    by_cases h : e.key = key
    · cases obj with
      | some o => simp [setList_some h, h]
      | none => simp [setList_none h, h]
    · have hmem : key ∈ e.key :: es.map Entry.key ↔ key ∈ es.map Entry.key := by
        simp [Ne.symm h]
      simp only [setList_ne h, hmem, List.map_cons, List.cons_append]
      exact ih.cons_cons _

theorem nodup_setList (depth : ℕ) {es : List (Entry α φ)} (s : Tally α φ)
    (h : (es.map Entry.key).Nodup) :
    ((setList self key obj deleter depth es s).1.map Entry.key).Nodup := by
  refine (keys_setList depth es s).nodup ?_
  split_ifs with hk
  · simpa using h
  · refine List.nodup_append.2 ⟨h, List.nodup_singleton key, ?_⟩
    rintro a ha b hb rfl
    exact hk (List.mem_singleton.1 hb ▸ ha)

theorem filter_pairs_of_not_mem {es : List (Entry α φ)} (h : key ∉ es.map Entry.key) :
    (es.map Entry.pair).filter (fun x => x.1 ≠ key) = es.map Entry.pair := by
  refine List.filter_eq_self.2 fun x hx => ?_
  obtain ⟨e, he, rfl⟩ := List.mem_map.1 hx
  simp only [ne_eq, decide_eq_true_eq]
  rintro rfl
  exact h (List.mem_map_of_mem he)

/-- The entries of a list after `set`. -/
theorem pairs_setList (depth : ℕ) {es : List (Entry α φ)} (s : Tally α φ)
    (h : (es.map Entry.key).Nodup) : ∃ new, New key obj new ∧
      ((setList self key obj deleter depth es s).1.map Entry.pair).Perm
        (new ++ (es.map Entry.pair).filter fun x => x.1 ≠ key) := by
  induction es with
  | nil =>
    refine ⟨[(key, obj)], ?_, by simp [setList]⟩
    cases obj with
    | some o => rfl
    | none => exact .inr rfl
  | cons e es ih =>
    rw [List.map_cons, List.nodup_cons] at h
    by_cases hk : e.key = key
    · have hfilter := filter_pairs_of_not_mem (hk ▸ h.1)
      have hdrop : ((e :: es).map Entry.pair).filter (fun x => x.1 ≠ key) = es.map Entry.pair := by
        rw [List.map_cons, List.filter_cons_of_neg (by simp [Entry.pair, hk]), hfilter]
      rw [hdrop]
      cases obj with
      | some o => exact ⟨_, rfl, by simp [setList_some hk, hk]⟩
      | none => exact ⟨_, .inl rfl, by simp [setList_none hk]⟩
    · obtain ⟨new, hnew, hperm⟩ := ih h.2
      refine ⟨new, hnew, ?_⟩
      rw [setList_ne hk, List.map_cons, List.map_cons,
        List.filter_cons_of_pos (by simp [Entry.pair, hk])]
      exact (hperm.cons _).trans List.perm_middle.symm

theorem calls_setList (depth : ℕ) (es : List (Entry α φ)) (s : Tally α φ) :
    (setList self key obj deleter depth es s).2.calls =
      s.calls ++ (entryOf key es).toList.flatMap self.delete := by
  induction es with
  | nil => simp [setList, entryOf, Tally.created]
  | cons e es ih =>
    rw [entryOf_cons]
    by_cases hk : e.key = key
    · cases obj with
      | some o => simp [setList_some hk, hk, Tally.deleted]
      | none => simp [setList_none hk, hk, Tally.removed]
    · rw [setList_ne hk, if_neg hk]
      exact ih

/-- The counter keeps step with the length of the list. -/
theorem count_setList (depth : ℕ) (es : List (Entry α φ)) (s : Tally α φ)
    (hs : es.length ≤ s.count) :
    (setList self key obj deleter depth es s).2.count + es.length =
      s.count + (setList self key obj deleter depth es s).1.length := by
  induction es with
  | nil => simp [setList, Tally.created]
  | cons e es ih =>
    by_cases hk : e.key = key
    · cases obj with
      | some o => simp [setList_some hk, Tally.deleted]
      | none =>
        simp only [setList_none hk, Tally.removed, List.length_cons] at hs ⊢
        omega
    · simp only [setList_ne hk, List.length_cons] at hs ⊢
      have := ih (by omega)
      omega

/-! ### Entries and tables -/

theorem setEmpty_result (depth : ℕ) (s : Tally α φ) :
    SetResult self key obj .empty depth s (setEmpty self key obj deleter depth s) := by
  cases obj with
  | none => exact ⟨trivial, ⟨[], .inl rfl, .refl _⟩, by simp [setEmpty, Bucket.entries, entryOf],
      fun _ => rfl⟩
  | some o => exact ⟨⟨fun _ => rfl, List.nodup_singleton _⟩, ⟨_, rfl, .refl _⟩,
      by simp [setEmpty, Bucket.entries, entryOf, Tally.created], fun _ => rfl⟩

section Table

variable {m : ℕ} {slot : Key → Fin m} {t : Fin m → Bucket α φ} {depth : ℕ} {s : Tally α φ}
  {r : Bucket α φ × Tally α φ}

theorem ok_update {hash : Key → UInt64} {j : Fin m} {b : Bucket α φ}
    (ht : ∀ i, (t i).Ok hash depth) (hb : b.Ok hash depth) (i : Fin m) :
    (Function.update t j b i).Ok hash depth := by
  by_cases hi : i = j
  · rw [hi, Function.update_self]
    exact hb
  · rw [Function.update_of_ne hi]
    exact ht i

theorem SetResult.slotted (hs : Slotted slot t)
    (h : SetResult self key obj (t (slot key)) depth s r) :
    Slotted slot (Function.update t (slot key) r.1) := by
  intro i e he
  by_cases hi : i = slot key
  · subst hi
    rw [Function.update_self] at he
    obtain ⟨new, hnew, hperm⟩ := h.entries
    rcases List.mem_append.1 (hperm.subset (List.mem_map_of_mem he)) with hmem | hmem
    · exact congrArg (fun x => slot x.1) (hnew.fst_eq _ hmem)
    · obtain ⟨e', he', heq⟩ := List.mem_map.1 (List.mem_filter.1 hmem).1
      exact (congrArg (fun x => slot x.1) heq.symm).trans (hs _ e' he')
  · rw [Function.update_of_ne hi] at he
    exact hs i e he

theorem SetResult.table_entries (hs : Slotted slot t)
    (h : SetResult self key obj (t (slot key)) depth s r) :
    ∃ new, New key obj new ∧
      ((tableEntries (Function.update t (slot key) r.1)).map Entry.pair).Perm
        (new ++ ((tableEntries t).map Entry.pair).filter fun x => x.1 ≠ key) := by
  obtain ⟨new, hnew, hperm⟩ := h.entries
  have hothers : key ∉ (others t (slot key)).map Entry.key := by
    intro hmem
    obtain ⟨e, he, rfl⟩ := List.mem_map.1 hmem
    exact slot_of_mem_others hs he rfl
  refine ⟨new, hnew, ?_⟩
  calc ((tableEntries (Function.update t (slot key) r.1)).map Entry.pair).Perm
        ((r.1.entries ++ others t (slot key)).map Entry.pair) := (tableEntries_update ..).map _
    _ = r.1.entries.map Entry.pair ++ (others t (slot key)).map Entry.pair := List.map_append
    _ |>.Perm ((new ++ ((t (slot key)).entries.map Entry.pair).filter fun x => x.1 ≠ key) ++
        (others t (slot key)).map Entry.pair) := hperm.append_right _
    _ = new ++ (((t (slot key)).entries ++ others t (slot key)).map Entry.pair).filter
        fun x => x.1 ≠ key := by
      rw [List.map_append, List.filter_append, filter_pairs_of_not_mem hothers, List.append_assoc]
    _ |>.Perm (new ++ ((tableEntries t).map Entry.pair).filter fun x => x.1 ≠ key) :=
      (((tableEntries_perm t _).symm.map _).filter _).append_left _

theorem SetResult.table_calls (hs : Slotted slot t)
    (h : SetResult self key obj (t (slot key)) depth s r) :
    r.2.calls = s.calls ++ (entryOf key (tableEntries t)).toList.flatMap self.delete := by
  rw [h.calls, entryOf_table hs key]

theorem SetResult.table_count (h : SetResult self key obj (t (slot key)) depth s r)
    (hs : (tableEntries t).length ≤ s.count) : r.2.count + (tableEntries t).length =
      s.count + (tableEntries (Function.update t (slot key) r.1)).length := by
  have hold := (tableEntries_perm t (slot key)).length_eq
  have hnew := (tableEntries_update t (slot key) r.1).length_eq
  rw [List.length_append] at hold hnew
  have hc := h.count (by omega)
  omega

end Table

/-- A slot of a small table is set. -/
theorem SetResult.ht4 {t : Fin 16 → Bucket α φ} {depth : ℕ} {s : Tally α φ}
    {r : Bucket α φ × Tally α φ} (hd : 2 ≤ depth) (ht : ∀ i, (t i).Ok self.hash (depth + 1))
    (hs : Slotted (slot4 self.hash depth) t)
    (h : SetResult self key obj (t (slot4 self.hash depth key)) (depth + 1) s r) :
    SetResult self key obj (.ht4 t) depth s
      (.ht4 (Function.update t (slot4 self.hash depth key) r.1), r.2) where
  ok := ⟨hd, ok_update ht h.ok, h.slotted hs⟩
  entries := h.table_entries hs
  calls := show r.2.calls = _ from h.table_calls hs
  count := h.table_count

/-- A slot of a second-level table is set. -/
theorem SetResult.ht8 {t : Fin 256 → Bucket α φ} {s : Tally α φ} {r : Bucket α φ × Tally α φ}
    (ht : ∀ i, (t i).Ok self.hash 2) (hs : Slotted (slot8 self.hash) t)
    (h : SetResult self key obj (t (slot8 self.hash key)) 2 s r) :
    SetResult self key obj (.ht8 t) 1 s
      (.ht8 (Function.update t (slot8 self.hash key) r.1), r.2) where
  ok := ⟨rfl, ok_update ht h.ok, h.slotted hs⟩
  entries := h.table_entries hs
  calls := show r.2.calls = _ from h.table_calls hs
  count := h.table_count

/-! ### A table with one entry -/

/-- The table an entry moves to. -/
def single {m : ℕ} (i : Fin m) (e : Entry α φ) : Fin m → Bucket α φ :=
  Function.update (fun _ => .empty) i (.item e [])

theorem single_self {m : ℕ} (i : Fin m) (e : Entry α φ) : single i e i = .item e [] :=
  Function.update_self ..

theorem single_of_ne {m : ℕ} {i j : Fin m} (h : j ≠ i) (e : Entry α φ) : single i e j = .empty :=
  Function.update_of_ne h ..

theorem ok_single {m : ℕ} (hash : Key → UInt64) (i : Fin m) (e : Entry α φ) (depth : ℕ)
    (j : Fin m) : (single i e j).Ok hash depth := by
  by_cases hj : j = i
  · rw [hj, single_self]
    exact ⟨fun _ => rfl, List.nodup_singleton _⟩
  · rw [single_of_ne hj]
    trivial

theorem slotted_single {m : ℕ} (slot : Key → Fin m) (e : Entry α φ) :
    Slotted slot (single (slot e.key) e) := by
  intro i e' he'
  by_cases hi : i = slot e.key
  · rw [hi, single_self] at he'
    rw [List.mem_singleton.1 he', hi]
  · rw [single_of_ne hi] at he'
    simp [Bucket.entries] at he'

theorem entries_single {m : ℕ} (i : Fin m) (e : Entry α φ) : tableEntries (single i e) = [e] := by
  have hothers : others (fun _ => Bucket.empty : Fin m → Bucket α φ) i = [] := by
    simp [others, Bucket.entries]
  have h := tableEntries_update (fun _ => .empty) i (.item e [])
  rw [hothers] at h
  exact List.perm_singleton.1 h

/-- `set` on the slot of the new key, in a table with one entry. -/
theorem set_single {m : ℕ} {i j : Fin m} {e : Entry α φ} {depth : ℕ} {s : Tally α φ}
    {r : Bucket α φ × Tally α φ} (h : SetResult self key obj (.item e []) depth s r) :
    SetResult self key obj (single i e j) depth s
      (if i = j then r else setEmpty self key obj deleter depth s) := by
  by_cases hij : i = j
  · subst hij
    rw [if_pos rfl, single_self]
    exact h
  · rw [if_neg hij, single_of_ne (Ne.symm hij)]
    exact setEmpty_result depth s

/-! ### An entry -/

theorem setItem_of_eq {n depth hash : ℕ} {e : Entry α φ} {next : List (Entry α φ)} {s : Tally α φ}
    (he : e.key = key) : setItem self key obj deleter (n + 1) depth hash e next s =
      match obj with
      | some o => (.item (replace self e o deleter) next, s.deleted (self.delete e))
      | none => (.empty, s.removed (self.delete e)) := by
  cases obj <;> simp [setItem, he]

/-- An entry in the way, below the second level. -/
theorem setItem_ht4 {n depth hash : ℕ} {e : Entry α φ} {next : List (Entry α φ)} {s : Tally α φ}
    (he : e.key ≠ key) (hd : 1 < depth) :
    setItem self key obj deleter (n + 1) depth hash e next s =
      let moved := if maxnest - 1 ≤ depth then { e with linked := true } else e
      let i := slot4 self.hash depth e.key
      let j := Fin.ofNat 16 hash
      let r := if i = j then setItem self key obj deleter n (depth + 1) (hash >>> 4) moved [] s
        else setEmpty self key obj deleter (depth + 1) s
      (.ht4 (Function.update (single i moved) j r.1), r.2) := by
  have hshift : 16 + (depth - 2) * 4 = shift depth := by rw [shift, if_neg (Nat.not_le.2 hd)]
  simp only [setItem, he, hd, if_true, if_false, hshift]
  rfl

/-- An entry in the way in a bucket of the dictionary itself. -/
theorem setItem_ht8 {n hash : ℕ} {e : Entry α φ} {next : List (Entry α φ)} {s : Tally α φ}
    (he : e.key ≠ key) :
    setItem self key obj deleter (n + 1) 1 hash e next s =
      let i := slot8 self.hash e.key
      let j := Fin.ofNat 256 hash
      let r := if i = j then setItem self key obj deleter n 2 (hash >>> 8) e [] s
        else setEmpty self key obj deleter 2 s
      (.ht8 (Function.update (single i e) j r.1), r.2) := by
  simp only [setItem, he, if_false, Nat.lt_irrefl]
  rfl

/-- `set` on a bucket with the entry of the key. -/
theorem setItem_same {e : Entry α φ} {depth : ℕ} (s : Tally α φ) (he : e.key = key) :
    SetResult self key obj (.item e []) depth s
      (match obj with
        | some o => (.item (replace self e o deleter) [], s.deleted (self.delete e))
        | none => (.empty, s.removed (self.delete e))) := by
  subst he
  have hentry : entryOf e.key [e] = some e := by simp [entryOf]
  have hrest : ([e].map Entry.pair).filter (fun x => x.1 ≠ e.key) = [] := by simp [Entry.pair]
  cases obj with
  | some o =>
    refine ⟨⟨fun _ => rfl, List.nodup_singleton _⟩, ⟨_, rfl, ?_⟩, ?_, fun _ => rfl⟩
    · rw [Bucket.entries, Bucket.entries, hrest]
      exact .refl _
    · simp [Bucket.entries, hentry, Tally.deleted]
  | none =>
    refine ⟨trivial, ⟨[], .inl rfl, ?_⟩, ?_, fun hs => ?_⟩
    · rw [Bucket.entries, Bucket.entries, hrest]
      exact .refl _
    · simp [Bucket.entries, hentry, Tally.removed]
    · simp only [Tally.removed, Bucket.entries, List.length_nil, List.length_singleton] at hs ⊢
      omega

/-- `set` on a bucket with an entry. -/
theorem setItem_result : ∀ (n : ℕ) {depth : ℕ} {e : Entry α φ} {next : List (Entry α φ)}
    (s : Tally α φ), n = maxnest - depth → 1 ≤ depth → (Bucket.item e next).Ok self.hash depth →
    SetResult self key obj (.item e next) depth s
      (setItem self key obj deleter n depth (path self.hash key depth) e next s)
  | 0, depth, e, next, s, hn, hd, hok => by
      have hmax : maxnest ≤ depth := Nat.sub_eq_zero_iff_le.1 hn.symm
      have hitem : Bucket.item e next = .ofList (e :: next) := rfl
      rw [setItem, hitem]
      refine ⟨ok_ofList hmax (nodup_setList depth s hok.2), ?_, ?_, ?_⟩
      · rw [entries_ofList, entries_ofList]
        exact pairs_setList depth s hok.2
      · rw [entries_ofList]
        exact calls_setList depth _ s
      · rw [entries_ofList, entries_ofList]
        exact count_setList depth _ s
  | n + 1, depth, e, next, s, hn, hd, hok => by
      have hlt : depth < maxnest := Nat.lt_of_sub_pos (by omega)
      obtain rfl : next = [] := hok.1 hlt
      have hn' : n = maxnest - (depth + 1) := by omega
      by_cases hkey : e.key = key
      · rw [setItem_of_eq hkey]
        exact setItem_same s hkey
      have ih (e' : Entry α φ) : SetResult self key obj (.item e' []) (depth + 1) s
          (setItem self key obj deleter n (depth + 1) (path self.hash key (depth + 1)) e' [] s) :=
        setItem_result n s hn' (by omega) ⟨fun _ => rfl, List.nodup_singleton _⟩
      by_cases hdepth : 1 < depth
      · rw [setItem_ht4 hkey hdepth, ← path_succ _ _ hdepth]
        generalize hm : (if maxnest - 1 ≤ depth then { e with linked := true } else e) = moved
        -- a moved entry may be a copy with a `next` pointer
        have hk : moved.key = e.key := by rw [← hm]; split_ifs <;> rfl
        have hpair : moved.pair = e.pair := by rw [← hm]; split_ifs <;> rfl
        rw [← hk]
        refine (SetResult.ht4 hdepth (ok_single _ _ moved _) (slotted_single _ moved)
          (set_single (ih moved))).of_eq ?_ ?_
        · exact (congrArg (fun x => [x]) hpair.symm).trans
            (congrArg (List.map Entry.pair) (entries_single _ moved)).symm
        · have hnone (e' : Entry α φ) (he' : e'.key ≠ key) : entryOf key [e'] = none := by
            simp [entryOf, he']
          rw [Bucket.entries, hnone e hkey]
          exact congrArg (fun o => o.toList.flatMap self.delete)
            ((congrArg (entryOf key) (entries_single _ moved)).trans (hnone _ (hk ▸ hkey))).symm
      · obtain rfl : depth = 1 := by omega
        rw [setItem_ht8 hkey, ← path_two]
        refine (SetResult.ht8 (ok_single _ _ e _) (slotted_single _ e) (set_single (ih e))).of_eq
          ?_ ?_
        · exact (congrArg (List.map Entry.pair) (entries_single _ e)).symm
        · exact congrArg (fun es => (entryOf key es).toList.flatMap self.delete)
            (entries_single _ e).symm

/-- `set` on any bucket. -/
theorem set_result (b : Bucket α φ) : ∀ {depth : ℕ} (s : Tally α φ), 1 ≤ depth →
    b.Ok self.hash depth → SetResult self key obj b depth s
      (b.set self key obj deleter depth (path self.hash key depth) s) := by
  induction b with
  | empty => exact fun s _ _ => setEmpty_result _ s
  | item e next => exact fun s hd hok => setItem_result _ s rfl hd hok
  | ht8 t ih =>
    rintro depth s hd ⟨rfl, ht, hs⟩
    rw [Bucket.set, ← path_two]
    exact .ht8 ht hs (ih _ s (by decide) (ht _))
  | ht4 t ih =>
    rintro depth s hd ⟨hd', ht, hs⟩
    rw [Bucket.set, ← path_succ _ _ hd']
    exact .ht4 hd' ht hs (ih _ s (by omega) (ht _))

/-- What lookups see after `set`. -/
theorem SetResult.find {b : Bucket α φ} {depth : ℕ} {s : Tally α φ} {r : Bucket α φ × Tally α φ}
    (h : SetResult self key obj b depth s r) (hb : b.Ok self.hash depth) (k : Key) :
    findList k r.1.entries = if k = key then obj else findList k b.entries := by
  obtain ⟨new, hnew, hperm⟩ := h.entries
  have hnd := nodup_entries r.1 h.ok
  have hmem (x : Option α) : (k, x) ∈ r.1.entries.map Entry.pair ↔
      (k, x) ∈ new ∨ (k, x) ∈ b.entries.map Entry.pair ∧ k ≠ key := by
    rw [hperm.mem_iff, List.mem_append, List.mem_filter, decide_eq_true_eq]
  have hkey (x : Option α) (hx : (k, x) ∈ new) : k = key ∧ x = obj := by
    simpa using hnew.fst_eq _ hx
  split_ifs with hk
  · subst hk
    cases obj with
    | some o =>
      rw [New] at hnew
      exact findList_of_mem hnd ((hmem _).2 (.inl (by simp [hnew])))
    | none =>
      -- an entry without an object is found as nothing
      by_contra hne
      obtain ⟨o, ho⟩ := Option.ne_none_iff_exists'.1 hne
      rcases (hmem _).1 (mem_of_findList ho) with hnew' | ⟨-, habs⟩
      · exact Option.some_ne_none o (hkey _ hnew').2
      · exact habs rfl
  · cases hfind : findList k b.entries with
    | some o => exact findList_of_mem hnd ((hmem _).2 (.inr ⟨mem_of_findList hfind, hk⟩))
    | none =>
      by_contra hne
      obtain ⟨o, ho⟩ := Option.ne_none_iff_exists'.1 hne
      rcases (hmem _).1 (mem_of_findList ho) with hnew' | ⟨hold, -⟩
      · exact hk (hkey _ hnew').1
      · rw [findList_of_mem (nodup_entries b hb) hold] at hfind
        exact Option.some_ne_none o hfind

end Set

/-! ## `removeAll` -/

section RemoveAll

variable (matcher : Key → Option α → Bool)

theorem removeList_eq (es : List (Entry α φ)) : removeList matcher es =
    (es.filter fun e => !matcher e.key e.obj, es.filter fun e => matcher e.key e.obj) := by
  induction es with
  | nil => rfl
  | cons e es ih =>
    rw [removeList, ih]
    by_cases h : matcher e.key e.obj
    · simp [h]
    · simp [h]

/-- The entries that stay and those that go. -/
theorem removeAll_bucket {hash : Key → UInt64} (b : Bucket α φ) : ∀ {depth : ℕ}, b.Ok hash depth →
    (b.removeAll matcher depth).1.Ok hash depth ∧
      (b.removeAll matcher depth).1.entries = b.entries.filter (fun e => !matcher e.key e.obj) ∧
      (b.removeAll matcher depth).2 = b.entries.filter fun e => matcher e.key e.obj := by
  induction b with
  | empty => exact fun _ => ⟨trivial, rfl, rfl⟩
  | item e next =>
    intro depth hok
    by_cases hd : maxnest ≤ depth
    · simp only [Bucket.removeAll, hd, if_true, removeList_eq]
      exact ⟨ok_ofList hd (((List.filter_sublist.map _).nodup hok.2)), entries_ofList _, rfl⟩
    · obtain rfl : next = [] := hok.1 (Nat.lt_of_not_le hd)
      simp only [Bucket.removeAll, hd, if_false]
      split_ifs with hm
      · exact ⟨trivial, by simp [Bucket.entries, hm], by simp [Bucket.entries, hm]⟩
      · exact ⟨hok, by simp [Bucket.entries, hm], by simp [Bucket.entries, hm]⟩
  | ht8 t ih =>
    rintro depth ⟨rfl, ht, hs⟩
    refine ⟨⟨rfl, fun i => (ih i (ht i)).1, fun i e he => hs i e ?_⟩, ?_, ?_⟩
    · rw [(ih i (ht i)).2.1] at he
      exact List.mem_of_mem_filter he
    · rw [Bucket.entries, List.filter_flatMap]
      exact List.flatMap_congr fun i _ => (ih i (ht i)).2.1
    · rw [Bucket.entries, List.filter_flatMap]
      exact List.flatMap_congr fun i _ => (ih i (ht i)).2.2
  | ht4 t ih =>
    rintro depth ⟨hd, ht, hs⟩
    refine ⟨⟨hd, fun i => (ih i (ht i)).1, fun i e he => hs i e ?_⟩, ?_, ?_⟩
    · rw [(ih i (ht i)).2.1] at he
      exact List.mem_of_mem_filter he
    · rw [Bucket.entries, List.filter_flatMap]
      exact List.flatMap_congr fun i _ => (ih i (ht i)).2.1
    · rw [Bucket.entries, List.filter_flatMap]
      exact List.flatMap_congr fun i _ => (ih i (ht i)).2.2

end RemoveAll

/-! ## `destroy` -/

theorem destroy_bucket {hash : Key → UInt64} (b : Bucket α φ) : ∀ {depth : ℕ}, b.Ok hash depth →
    b.destroy depth = b.entries := by
  induction b with
  | empty => exact fun _ => rfl
  | item e next =>
    intro depth hok
    rw [Bucket.destroy]
    split_ifs with hd
    · rfl
    · rw [hok.1 (Nat.lt_of_not_le hd)]
      rfl
  | ht8 t ih =>
    rintro depth ⟨rfl, ht, -⟩
    exact List.flatMap_congr fun i _ => ih i (ht i)
  | ht4 t ih =>
    rintro depth ⟨-, ht, -⟩
    exact List.flatMap_congr fun i _ => ih i (ht i)

end PoserCore.Dictionary
