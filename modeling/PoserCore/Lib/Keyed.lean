import Mathlib.Data.Finset.Erase
import Mathlib.Data.Finset.Insert
import Mathlib.Data.List.Nodup
import Mathlib.Data.Set.Card
import Mathlib.Tactic.SplitIfs

/-!
# Keyed lists and tables of flags

A list of entries with distinct keys is a finite map: `lookup key l k` is the entry of key `k`.
The rules say what appending an entry, changing one and removing one do to the map, the position of
the entry being the one a search returned.  `Enumerates key l m` says that `l` lists the entries of
the map `m` in any order, and `settle` keeps the account of entries that leave.

A map from keys to words of flags represents a set of pairs of a key and a flag
(`Flags.Represents`) when no word is empty and no word has a bit that is no flag's; setting a flag
and clearing one insert and erase a pair.
-/

namespace Lib

/-! ## Keyed lists -/

section Keyed

variable {α κ : Type*} [DecidableEq κ] (key : α → κ) {l : List α} {i : ℕ} {x y : α} {k : κ}

/-- The entry of key `k`. -/
def lookup (l : List α) (k : κ) : Option α :=
  l.find? fun x => key x = k

@[simp] theorem lookup_nil : lookup key [] k = none := rfl

theorem lookup_cons : lookup key (x :: l) k = if key x = k then some x else lookup key l k := by
  unfold lookup
  rw [List.find?_cons]
  split <;> rename_i h <;> simp_all

theorem lookup_eq_none : lookup key l k = none ↔ ∀ x ∈ l, key x ≠ k := by
  simp [lookup]

theorem key_of_lookup (h : lookup key l k = some x) : key x = k := by
  simpa using List.find?_some h

theorem mem_of_lookup (h : lookup key l k = some x) : x ∈ l :=
  List.mem_of_find?_eq_some h

variable {key}

theorem lookup_of_mem (hnd : (l.map key).Nodup) (hx : x ∈ l) : lookup key l (key x) = some x := by
  induction l with
  | nil => cases hx
  | cons z l ih =>
    have hz := List.nodup_cons.1 hnd
    rw [lookup_cons]
    cases hx with
    | head => exact if_pos rfl
    | tail _ hx =>
      have hzx : key z ≠ key x := fun e => hz.1 (e ▸ List.mem_map_of_mem hx)
      rw [if_neg hzx]
      exact ih hz.2 hx

theorem lookup_snoc (h : lookup key l (key x) = none) (k : κ) :
    lookup key (l ++ [x]) k = if k = key x then some x else lookup key l k := by
  unfold lookup
  rw [List.find?_append]
  split_ifs with hk
  · subst hk
    unfold lookup at h
    rw [h]
    simp
  · cases l.find? fun z => decide (key z = k) with
    | none => simp [Ne.symm hk]
    | some z => rfl

theorem nodup_snoc (h : lookup key l (key x) = none) (hnd : (l.map key).Nodup) :
    ((l ++ [x]).map key).Nodup := by
  rw [List.map_append, List.map_singleton]
  apply List.Nodup.append hnd (List.nodup_singleton _)
  rw [List.disjoint_singleton]
  intro hm
  obtain ⟨z, hz, hzx⟩ := List.mem_map.1 hm
  exact (lookup_eq_none key).1 h z hz hzx

/-- Replacing the entry at a position by one of the same key. -/
theorem lookup_set (hnd : (l.map key).Nodup) (hi : l[i]? = some x) (hy : key y = key x) (k : κ) :
    lookup key (l.set i y) k = if k = key x then some y else lookup key l k := by
  induction l generalizing i with
  | nil => simp at hi
  | cons z l ih =>
    have hz := List.nodup_cons.1 hnd
    cases i with
    | zero =>
      obtain rfl : z = x := by simpa using hi
      simp only [List.set_cons_zero, lookup_cons, hy, @eq_comm κ k]
      split_ifs <;> rfl
    | succ i =>
      have hi : l[i]? = some x := by simpa using hi
      have hzx : key z ≠ key x := fun e =>
        hz.1 (e ▸ List.mem_map_of_mem (List.mem_of_getElem? hi))
      rw [List.set_cons_succ, lookup_cons, lookup_cons, ih hz.2 hi]
      split_ifs <;> simp_all

omit [DecidableEq κ] in
theorem nodup_set (hnd : (l.map key).Nodup) (hi : l[i]? = some x) (hy : key y = key x) :
    ((l.set i y).map key).Nodup := by
  have hset : (l.map key).set i (key x) = l.map key := by
    apply List.ext_getElem?
    intro j
    rw [List.getElem?_set]
    split_ifs with hj hl
    · subst hj
      simp [hi]
    · subst hj
      simp at hl
      simp [List.getElem?_eq_none hl]
    · rfl
  rwa [List.map_set, hy, hset]

/-- Removing the entry at a position. -/
theorem lookup_eraseIdx (hnd : (l.map key).Nodup) (hi : l[i]? = some x) (k : κ) :
    lookup key (l.eraseIdx i) k = if k = key x then none else lookup key l k := by
  induction l generalizing i with
  | nil => simp at hi
  | cons z l ih =>
    have hz := List.nodup_cons.1 hnd
    cases i with
    | zero =>
      obtain rfl : z = x := by simpa using hi
      simp only [List.eraseIdx_cons_zero, lookup_cons, @eq_comm κ k]
      split_ifs with hk
      · subst hk
        exact (lookup_eq_none key).2 fun w hw e => hz.1 (e ▸ List.mem_map_of_mem hw)
      · rfl
    | succ i =>
      have hi : l[i]? = some x := by simpa using hi
      have hzx : key z ≠ key x := fun e =>
        hz.1 (e ▸ List.mem_map_of_mem (List.mem_of_getElem? hi))
      rw [List.eraseIdx_cons_succ, lookup_cons, lookup_cons, ih hz.2 hi]
      split_ifs <;> simp_all

omit [DecidableEq κ] in
theorem nodup_eraseIdx (hnd : (l.map key).Nodup) (i : ℕ) : ((l.eraseIdx i).map key).Nodup :=
  hnd.sublist ((List.eraseIdx_sublist l i).map key)

/-! ## Enumerating a finite map -/

/-- `l` lists the entries of the map, each once. -/
structure Enumerates (key : α → κ) (l : List α) (m : κ → Option α) : Prop where
  nodup : (l.map key).Nodup
  mem : ∀ k x, m k = some x ↔ x ∈ l ∧ key x = k

namespace Enumerates

variable {l' : List α} {m : κ → Option α}

omit [DecidableEq κ] in
theorem empty : Enumerates key [] fun _ => none where
  nodup := .nil
  mem k x := by simp

omit [DecidableEq κ] in
theorem perm (h : Enumerates key l m) (hl : l'.Perm l) : Enumerates key l' m where
  nodup := (hl.map key).nodup_iff.2 h.nodup
  mem k x := by rw [h.mem, hl.mem_iff]

omit [DecidableEq κ] in
/-- The entries that `p` rejects leave the map. -/
theorem filter (h : Enumerates key l m) (p : α → Bool) :
    Enumerates key (l.filter p) fun k => (m k).filter p where
  nodup := h.nodup.sublist (List.filter_sublist.map _)
  mem k x := by
    rw [Option.filter_eq_some_iff, h.mem, List.mem_filter]
    tauto

/-- An entry leaves the map. -/
theorem erase (h : Enumerates key l m) (k : κ) :
    Enumerates key (l.filter fun x => key x ≠ k) (Function.update m k none) where
  nodup := h.nodup.sublist (List.filter_sublist.map _)
  mem k' x := by
    rw [Function.update_apply, List.mem_filter, decide_eq_true_eq]
    split_ifs with hk
    · subst hk
      simp
    · rw [h.mem]
      constructor
      · rintro ⟨hx, rfl⟩
        exact ⟨⟨hx, hk⟩, rfl⟩
      · exact fun hx => ⟨hx.1.1, hx.2⟩

/-- An entry takes the place of the one with its key. -/
theorem insert (h : Enumerates key l m) (x : α) :
    Enumerates key (x :: l.filter fun y => key y ≠ key x) (Function.update m (key x) (some x)) where
  nodup := by
    rw [List.map_cons, List.nodup_cons]
    refine ⟨?_, (h.erase (key x)).nodup⟩
    simp
  mem k y := by
    have herase := (h.erase (key x)).mem k y
    rw [Function.update_apply] at herase ⊢
    rw [List.mem_cons]
    split_ifs at herase ⊢ with hk
    · subst hk
      simp only [Option.some.injEq, false_iff] at herase ⊢
      constructor
      · rintro rfl
        exact ⟨.inl rfl, rfl⟩
      · rintro ⟨rfl | hy, hkey⟩
        · rfl
        · exact absurd ⟨hy, hkey⟩ herase
    · rw [herase]
      constructor
      · exact fun hy => ⟨.inr hy.1, hy.2⟩
      · rintro ⟨rfl | hy, hkey⟩
        · exact absurd hkey.symm hk
        · exact ⟨hy, hkey⟩

omit [DecidableEq κ] in
/-- How many entries of the map `p` accepts. -/
theorem ncard (h : Enumerates key l m) (p : α → Bool) :
    {k | ∃ x, m k = some x ∧ p x}.ncard = (l.filter p).length := by
  classical
  have hset : {k | ∃ x, m k = some x ∧ p x} = (((l.filter p).map key).toFinset : Set κ) := by
    ext k
    simp only [h.mem, Set.mem_ofPred_eq, List.coe_toFinset, List.mem_map, List.mem_filter]
    exact exists_congr fun x => by tauto
  rw [hset, Set.ncard_coe_finset, List.toFinset_card_of_nodup, List.length_map]
  exact h.nodup.sublist (List.filter_sublist.map _)

end Enumerates

omit [DecidableEq κ] in
/-- Entries leave, and for each of them is paid what is due; others come. -/
theorem settle {β : Type*} (due : α → Option β) (takes : α → Bool) {paid : List β}
    {stored held held' : List α} (h : held'.Perm (stored ++ held.filter fun x => !takes x)) :
    (paid ++ (held.filter takes).filterMap due ++ held'.filterMap due).Perm
      (paid ++ held.filterMap due ++ stored.filterMap due) := by
  rw [List.append_assoc, List.append_assoc]
  refine List.Perm.append_left _ ?_
  calc (held.filter takes).filterMap due ++ held'.filterMap due
      |>.Perm ((held.filter takes).filterMap due ++
          (stored ++ held.filter fun x => !takes x).filterMap due) :=
        (h.filterMap due).append_left _
    _ |>.Perm ((held.filter takes ++ held.filter fun x => !takes x).filterMap due ++
          stored.filterMap due) := by
      rw [List.filterMap_append, List.filterMap_append, List.append_assoc]
      exact List.perm_append_comm.append_left _
    _ |>.Perm (held.filterMap due ++ stored.filterMap due) :=
      ((List.filter_append_perm _ _).filterMap due).append_right _

end Keyed

/-! ## Words of flags -/

/-- Pairwise disjoint, nonempty words, one for each flag. -/
structure Flags (ι : Type*) (w : ℕ) where
  mask : ι → BitVec w
  ne_zero : ∀ d, mask d ≠ 0
  disjoint : ∀ d d', d ≠ d' → mask d &&& mask d' = 0

namespace Flags

variable {ι κ : Type*} {w : ℕ} (F : Flags ι w) {m : BitVec w} {d d' : ι}

/-- The flag is set in the word. -/
def Has (m : BitVec w) (d : ι) : Prop := m &&& F.mask d ≠ 0

instance (m : BitVec w) (d : ι) : Decidable (F.Has m d) :=
  inferInstanceAs (Decidable (_ ≠ _))

/-- Every bit of the word belongs to a flag. -/
def Only (m : BitVec w) : Prop := ∀ i, m.getLsbD i = true → ∃ d, (F.mask d).getLsbD i = true

theorem has_iff : F.Has m d ↔ ∃ i, m.getLsbD i = true ∧ (F.mask d).getLsbD i = true := by
  constructor
  · intro h
    by_contra hn
    apply h
    apply BitVec.eq_of_getLsbD_eq
    intro i _
    simp only [not_exists, not_and] at hn
    have := hn i
    cases hm : m.getLsbD i <;> simp_all
  · rintro ⟨i, hm, hd⟩ h
    have hi := congrArg (fun v : BitVec w => v.getLsbD i) h
    simp [hm, hd] at hi

theorem getLsbD_unique {i : ℕ} (h : (F.mask d).getLsbD i = true)
    (h' : (F.mask d').getLsbD i = true) : d = d' := by
  by_contra hn
  have hi := congrArg (fun v : BitVec w => v.getLsbD i) (F.disjoint d d' hn)
  simp [h, h'] at hi

theorem has_mask : F.Has (F.mask d) d' ↔ d' = d := by
  constructor
  · intro h
    obtain ⟨i, h₁, h₂⟩ := F.has_iff.1 h
    exact F.getLsbD_unique h₂ h₁
  · rintro rfl
    unfold Has
    rw [BitVec.and_self]
    exact F.ne_zero _

theorem has_or : F.Has (m ||| F.mask d) d' ↔ F.Has m d' ∨ d' = d := by
  rw [← F.has_mask (d := d), F.has_iff, F.has_iff, F.has_iff, ← exists_or]
  apply exists_congr
  intro i
  rw [BitVec.getLsbD_or, Bool.or_eq_true, or_and_right]

theorem has_andNot : F.Has (m &&& ~~~F.mask d) d' ↔ F.Has m d' ∧ d' ≠ d := by
  rw [F.has_iff, F.has_iff]
  constructor
  · rintro ⟨i, hm, hi⟩
    simp only [BitVec.getLsbD_and, BitVec.getLsbD_not, Bool.and_eq_true, Bool.not_eq_true',
      decide_eq_true_eq] at hm
    refine ⟨⟨i, hm.1, hi⟩, ?_⟩
    rintro rfl
    rw [hi] at hm
    exact nomatch hm.2.2
  · rintro ⟨⟨i, hm, hi⟩, hd⟩
    refine ⟨i, ?_, hi⟩
    have hf : (F.mask d).getLsbD i = false := by
      rw [← Bool.not_eq_true]
      intro h
      exact hd (F.getLsbD_unique hi h)
    rw [BitVec.getLsbD_and, BitVec.getLsbD_not, hm, hf]
    simp [BitVec.lt_of_getLsbD hm]

theorem only_mask : F.Only (F.mask d) := fun _ h => ⟨d, h⟩

theorem Only.or (h : F.Only m) : F.Only (m ||| F.mask d) := by
  intro i hi
  rw [BitVec.getLsbD_or, Bool.or_eq_true] at hi
  rcases hi with hi | hi
  · exact h i hi
  · exact ⟨d, hi⟩

theorem Only.and {m' : BitVec w} (h : F.Only m) : F.Only (m &&& m') := by
  intro i hi
  rw [BitVec.getLsbD_and, Bool.and_eq_true] at hi
  exact h i hi.1

theorem or_mask_ne_zero : m ||| F.mask d ≠ 0 := by
  intro h
  have hd : F.Has (m ||| F.mask d) d := F.has_or.2 (Or.inr rfl)
  rw [h] at hd
  exact hd (BitVec.zero_and)

/-! ### Tables of words -/

variable [DecidableEq κ] [DecidableEq ι] {t t' : κ → Option (BitVec w)} {S : Finset (κ × ι)} {k : κ}

/-- The pairs of a key and a flag that the table's words have are those of the set; no word is
empty or has other bits. -/
structure Represents (t : κ → Option (BitVec w)) (S : Finset (κ × ι)) : Prop where
  mem : ∀ k d, (k, d) ∈ S ↔ ∃ m, t k = some m ∧ F.Has m d
  only : ∀ k m, t k = some m → F.Only m
  ne_zero : ∀ k m, t k = some m → m ≠ 0

omit [DecidableEq κ] [DecidableEq ι] in
theorem represents_empty : F.Represents (fun _ : κ => none) ∅ where
  only k m h := nomatch h
  ne_zero k m h := nomatch h
  mem k d := by simp

variable {F}

namespace Represents

/-- The word of a key after a flag was set. -/
theorem set (h : F.Represents t S)
    (ht : ∀ k', t' k' = if k' = k then some ((t k).getD 0 ||| F.mask d) else t k') :
    F.Represents t' (insert (k, d) S) := by
  constructor
  · intro k' d'
    rw [Finset.mem_insert, Prod.mk.injEq, ht, h.mem]
    split_ifs with hk
    · subst hk
      cases hw : t k' with
      | none => simp [F.has_mask]
      | some m => simp [F.has_or, or_comm]
    · simp [hk]
  · intro k' m hm
    rw [ht] at hm
    split_ifs at hm with hk
    · cases hw : t k with
      | none =>
        rw [hw] at hm
        obtain rfl : F.mask d = m := by simpa using hm
        exact F.only_mask
      | some v =>
        rw [hw] at hm
        obtain rfl : v ||| F.mask d = m := by simpa using hm
        exact (h.only k v hw).or F
    · exact h.only k' m hm
  · intro k' m hm
    rw [ht] at hm
    split_ifs at hm with hk
    · obtain rfl := Option.some.inj hm
      exact F.or_mask_ne_zero
    · exact h.ne_zero k' m hm

/-- A flag that was set already. -/
theorem set_of_has {m : BitVec w} (h : F.Represents t S) (hm : t k = some m) (hd : F.Has m d) :
    insert (k, d) S = S :=
  Finset.insert_eq_of_mem ((h.mem k d).2 ⟨m, hm, hd⟩)

/-- The word of a key after a flag was cleared; an empty word leaves the table. -/
theorem clear {m : BitVec w} (h : F.Represents t S) (hm : t k = some m)
    (ht : ∀ k', t' k' = if k' = k then
      (if m &&& ~~~F.mask d = 0 then none else some (m &&& ~~~F.mask d)) else t k') :
    F.Represents t' (S.erase (k, d)) := by
  constructor
  · intro k' d'
    rw [Finset.mem_erase, ne_eq, Prod.mk.injEq, ht, h.mem]
    split_ifs with hk hz
    · subst hk
      have hnone : ¬ F.Has (m &&& ~~~F.mask d) d' := by
        rw [hz]
        exact fun hn => hn BitVec.zero_and
      rw [F.has_andNot] at hnone
      simp only [hm, Option.some.injEq, exists_eq_left', true_and, false_and,
        exists_false, iff_false]
      exact fun hd => hnone ⟨hd.2, hd.1⟩
    · subst hk
      simp only [hm, Option.some.injEq, exists_eq_left', true_and, F.has_andNot]
      exact and_comm
    · simp [hk]
  · intro k' v hv
    rw [ht] at hv
    split_ifs at hv with hk hz
    · obtain rfl := Option.some.inj hv
      exact (h.only k m hm).and F
    · exact h.only k' v hv
  · intro k' v hv
    rw [ht] at hv
    split_ifs at hv with hk hz
    · obtain rfl := Option.some.inj hv
      exact hz
    · exact h.ne_zero k' v hv

/-- A flag that was not set. -/
theorem clear_of_not (h : F.Represents t S) (hn : ∀ m, t k = some m → ¬ F.Has m d) :
    S.erase (k, d) = S := by
  apply Finset.erase_eq_of_notMem
  rw [h.mem]
  rintro ⟨m, hm, hd⟩
  exact hn m hm hd

end Represents

end Flags

end Lib
