import PoserCore.Dictionary.Buckets

/-!
# The dictionary is a finite map

A call of `PSC_Dictionary_set` changes what `PSC_Dictionary_get` returns for its own key, and
`PSC_Dictionary_removeAll` takes away the objects the matcher accepts (`dictionary_refines`), for
every hash function.

The counter is the number of entries, which is why the early return of `removeAll` for an empty
dictionary is right.  It is not the number of keys with an object: at depth `MAXNEST` an entry can
hold none.
-/

namespace PoserCore.Dictionary

set_option linter.dupNamespace false

variable {α φ : Type}

/-- The slot of a key in the dictionary itself. -/
def slotRoot (hash : Key → UInt64) (key : Key) : Fin 256 := Fin.ofNat 256 (hash key).toNat

/-- The entries of the dictionary, in the order `destroy` meets them. -/
def Dictionary.entries (d : Dictionary α φ) : List (Entry α φ) := tableEntries d.buckets

/-- Between two calls, the counter is the number of entries. -/
structure Dictionary.Ok (d : Dictionary α φ) : Prop where
  buckets : ∀ i, (d.buckets i).Ok d.hash 1
  slotted : Slotted (slotRoot d.hash) d.buckets
  count : d.count = d.entries.length

theorem entries_create (hash : Key → UInt64) (deleter : Deleter φ) :
    (Dictionary.create hash deleter : Dictionary α φ).entries = [] := by
  simp [Dictionary.create, Dictionary.entries, tableEntries, Bucket.entries]

theorem ok_create (hash : Key → UInt64) (deleter : Deleter φ) :
    (Dictionary.create hash deleter : Dictionary α φ).Ok where
  buckets _ := trivial
  slotted _ e he := by simp [Dictionary.create, Bucket.entries] at he
  count := by rw [entries_create]; rfl

variable {d : Dictionary α φ}

theorem nodup_keys (h : d.Ok) : (d.entries.map Entry.key).Nodup :=
  nodup_table h.slotted fun i => nodup_entries _ (h.buckets i)

/-- A lookup finds the entry of its key. -/
theorem get_eq (h : d.Ok) (k : Key) : d.get k = findList k d.entries :=
  (get_eq_find k _ (h.buckets _)).trans
    (congrArg (·.bind Entry.obj) (entryOf_table h.slotted k).symm)

/-- `PSC_Dictionary_destroy` deletes every entry. -/
theorem destroy_eq (h : d.Ok) : d.destroy = d.entries.flatMap d.delete :=
  congrArg (·.flatMap d.delete) (List.flatMap_congr fun i _ => destroy_bucket _ (h.buckets i))

/-! ## `set` -/

section Set

variable (key : Key) (obj : Option α) (deleter : Deleter φ)

theorem set_root (h : d.Ok) (deleter : Option φ) :
    SetResult d key obj (d.buckets (slotRoot d.hash key)) 1 ⟨d.count, d.calls⟩
      ((d.buckets (slotRoot d.hash key)).set d key obj deleter 1 ((d.hash key).toNat >>> 8)
        ⟨d.count, d.calls⟩) :=
  set_result _ _ le_rfl (h.buckets _)

theorem ok_set (h : d.Ok) : (d.set key obj deleter).Ok where
  buckets := ok_update h.buckets (set_root key obj h deleter.given).ok
  slotted := (set_root key obj h deleter.given).slotted h.slotted
  count := by
    have hc := (set_root key obj h deleter.given).table_count h.count.ge
    have hcount : d.count = (tableEntries d.buckets).length := h.count
    rw [← hcount] at hc
    exact Nat.add_right_cancel (hc.trans (Nat.add_comm ..))

/-- The entries of other keys stay, and the new one takes the place of the old. -/
theorem pairs_set (h : d.Ok) : ∃ new, New key obj new ∧
    ((d.set key obj deleter).entries.map Entry.pair).Perm
      (new ++ (d.entries.map Entry.pair).filter fun x => x.1 ≠ key) :=
  (set_root key obj h deleter.given).table_entries h.slotted

/-- The object that was there is deleted. -/
theorem calls_set (h : d.Ok) : (d.set key obj deleter).calls =
    d.calls ++ (entryOf key d.entries).toList.flatMap d.delete :=
  (set_root key obj h deleter.given).calls.trans
    (congrArg (fun o => d.calls ++ o.toList.flatMap d.delete) (entryOf_table h.slotted key).symm)

theorem get_set (h : d.Ok) (k : Key) :
    (d.set key obj deleter).get k = if k = key then obj else d.get k := by
  by_cases hi : slotRoot d.hash k = slotRoot d.hash key
  · have hb := (set_root key obj h deleter.given).find (h.buckets _) k
    rw [← get_eq_find k _ (set_root key obj h deleter.given).ok,
      ← get_eq_find k _ (h.buckets _), ← hi] at hb
    simp only [Dictionary.get, Dictionary.set]
    rw [← slotRoot, ← slotRoot, ← hi, Function.update_self]
    exact hb
  · simp only [Dictionary.get, Dictionary.set]
    rw [← slotRoot, ← slotRoot, Function.update_of_ne hi,
      if_neg fun hk : k = key => hi (hk ▸ rfl)]

end Set

/-! ## `removeAll` -/

theorem entries_eq_nil (h : d.Ok) (hc : d.count = 0) : d.entries = [] :=
  List.eq_nil_of_length_eq_zero (h.count ▸ hc)

theorem removed_eq (h : d.Ok) (matcher : Key → Option α → Bool) :
    ((List.finRange 256).flatMap fun i => ((d.buckets i).removeAll matcher 1).2) =
      d.entries.filter fun e => matcher e.key e.obj := by
  rw [Dictionary.entries, tableEntries, List.filter_flatMap]
  exact List.flatMap_congr fun i _ => (removeAll_bucket matcher _ (h.buckets i)).2.2

theorem entries_removeAll (h : d.Ok) (matcher : Key → Option α → Bool) :
    (d.removeAll matcher).1.entries = d.entries.filter fun e => !matcher e.key e.obj := by
  rw [Dictionary.removeAll]
  split_ifs with hc
  · rw [entries_eq_nil h hc]
    rfl
  · have hfilter := List.filter_flatMap (l := List.finRange 256)
      (g := fun i => (d.buckets i).entries) (f := fun e => !matcher e.key e.obj)
    exact (List.flatMap_congr fun i _ => (removeAll_bucket matcher _ (h.buckets i)).2.1).trans
      hfilter.symm

/-- The objects of the entries that go are deleted. -/
theorem calls_removeAll (h : d.Ok) (matcher : Key → Option α → Bool) :
    (d.removeAll matcher).1.calls =
      d.calls ++ (d.entries.filter fun e => matcher e.key e.obj).flatMap d.delete := by
  rw [Dictionary.removeAll]
  split_ifs with hc
  · simp [entries_eq_nil h hc]
  · rw [← removed_eq h]

theorem ok_removeAll (h : d.Ok) (matcher : Key → Option α → Bool) : (d.removeAll matcher).1.Ok := by
  have hentries := entries_removeAll h matcher
  rw [Dictionary.removeAll] at hentries ⊢
  split_ifs at hentries ⊢ with hc
  · exact h
  · refine ⟨fun i => (removeAll_bucket matcher _ (h.buckets i)).1, fun i e he => ?_, ?_⟩
    · rw [(removeAll_bucket matcher _ (h.buckets i)).2.1] at he
      exact h.slotted i e (List.mem_of_mem_filter he)
    · have hlen := List.length_eq_length_filter_add (l := d.entries)
        (fun e => matcher e.key e.obj)
      rw [hentries, removed_eq h]
      simp only [h.count]
      omega

/-- What is left of the object of a key. -/
def kept (matcher : Key → Option α → Bool) (k : Key) (obj : Option α) : Option α :=
  obj.filter fun o => !matcher k (some o)

theorem find_filter (matcher : Key → Option α → Bool) {es : List (Entry α φ)}
    (h : (es.map Entry.key).Nodup) (k : Key) :
    findList k (es.filter fun e => !matcher e.key e.obj) = kept matcher k (findList k es) := by
  induction es with
  | nil => rfl
  | cons e es ih =>
    rw [List.map_cons, List.nodup_cons] at h
    have hrest (hk : e.key = k) : findList k (es.filter fun e => !matcher e.key e.obj) = none := by
      refine findList_eq_none fun hmem => h.1 ?_
      rw [hk]
      exact (List.filter_sublist.map _).subset hmem
    rw [findList_cons]
    by_cases hm : matcher e.key e.obj
    · rw [List.filter_cons_of_neg (by simp [hm])]
      split_ifs with hk
      · rw [hrest hk]
        subst hk
        cases ho : e.obj with
        | none => rfl
        | some o => simp [kept, Option.filter, ← ho, hm]
      · exact ih h.2
    · rw [List.filter_cons_of_pos (by simp [hm]), findList_cons]
      split_ifs with hk
      · subst hk
        cases ho : e.obj with
        | none => rfl
        | some o => simp [kept, Option.filter, ← ho, hm]
      · exact ih h.2

theorem get_removeAll (h : d.Ok) (matcher : Key → Option α → Bool) (k : Key) :
    (d.removeAll matcher).1.get k = kept matcher k (d.get k) := by
  rw [get_eq (ok_removeAll h matcher), get_eq h, entries_removeAll h,
    find_filter matcher (nodup_keys h)]

/-! ## Runs -/

/-- A call that changes a dictionary. -/
inductive Op (α φ : Type)
  | set (key : Key) (obj : Option α) (deleter : Deleter φ)
  | removeAll (matcher : Key → Option α → Bool)

def Op.apply (d : Dictionary α φ) : Op α φ → Dictionary α φ
  | .set key obj deleter => d.set key obj deleter
  | .removeAll matcher => (d.removeAll matcher).1

/-- What the call means for a map from keys to objects. -/
def Op.spec (m : Key → Option α) : Op α φ → Key → Option α
  | .set key obj _ => Function.update m key obj
  | .removeAll matcher => fun k => (m k).filter fun o => !matcher k (some o)

/-- One call keeps the invariant and does to lookups what it means. -/
theorem apply_refines (h : d.Ok) (op : Op α φ) :
    (op.apply d).Ok ∧ (op.apply d).get = op.spec d.get := by
  cases op with
  | set key obj deleter =>
    refine ⟨ok_set key obj deleter h, funext fun k => ?_⟩
    rw [Op.apply, get_set key obj deleter h, Op.spec, Function.update_apply]
  | removeAll matcher => exact ⟨ok_removeAll h matcher, funext fun k => get_removeAll h matcher k⟩

theorem run_refines (h : d.Ok) (ops : List (Op α φ)) :
    (ops.foldl Op.apply d).Ok ∧ (ops.foldl Op.apply d).get = ops.foldl Op.spec d.get := by
  induction ops generalizing d with
  | nil => exact ⟨h, rfl⟩
  | cons op ops ih =>
    obtain ⟨hok, hget⟩ := apply_refines h op
    rw [List.foldl_cons, List.foldl_cons, ← hget]
    exact ih hok

theorem get_create (hash : Key → UInt64) (deleter : Deleter φ) :
    (Dictionary.create hash deleter : Dictionary α φ).get = fun _ => none := rfl

/-- After any calls on a new dictionary, for any hash function, a lookup finds the object most
recently set for its key and not removed since. -/
theorem dictionary_refines (hash : Key → UInt64) (deleter : Deleter φ) (ops : List (Op α φ))
    (k : Key) :
    (ops.foldl Op.apply (Dictionary.create hash deleter)).get k =
      ops.foldl Op.spec (fun _ => none) k := by
  rw [(run_refines (ok_create hash deleter) ops).2, get_create]

end PoserCore.Dictionary
