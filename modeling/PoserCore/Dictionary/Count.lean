import Mathlib.Data.Finset.Card
import Mathlib.Data.Finset.Dedup
import PoserCore.Dictionary.Refine
import PoserCore.Lib.Machine

/-!
# The counter of the dictionary

The counter is the number of entries.  It is the number of keys with an object as long as no call
removes a key that is not there while another key with the same hash is (`dictionary_counted`): at
depth `MAXNEST`, `set` appends an entry for the missing key, without an object.
-/

namespace PoserCore.Dictionary

open Lib (Machine)

variable {α φ : Type}

/-! ## Keys with the same hash -/

theorem eq_of_shift {a b m : ℕ} (hm : a % 2 ^ m = b % 2 ^ m) (hs : a >>> m = b >>> m) : a = b := by
  rw [Nat.shiftRight_eq_div_pow, Nat.shiftRight_eq_div_pow] at hs
  rw [← Nat.div_add_mod a (2 ^ m), ← Nat.div_add_mod b (2 ^ m), hs, hm]

section Path

variable {hash : Key → UInt64} {k k' : Key}

/-- At depth `MAXNEST` the hash is used up. -/
theorem path_of_le {depth : ℕ} (h : maxnest ≤ depth) : path hash k depth = 0 := by
  have hshift : 64 ≤ shift depth := by
    rw [maxnest] at h
    rw [shift, if_neg (by omega)]
    omega
  have hlt : (hash k).toNat < 2 ^ shift depth :=
    (hash k).toNat_lt.trans_le (Nat.pow_le_pow_right (by decide) hshift)
  rw [path, Nat.shiftRight_eq_div_pow, Nat.div_eq_of_lt hlt]

theorem path_of_slot4 {depth : ℕ} (hd : 2 ≤ depth)
    (hslot : slot4 hash depth k = slot4 hash depth k')
    (hpath : path hash k (depth + 1) = path hash k' (depth + 1)) :
    path hash k depth = path hash k' depth := by
  rw [path_succ hash k hd, path_succ hash k' hd] at hpath
  exact eq_of_shift (m := 4) (Fin.val_eq_of_eq hslot) hpath

theorem path_of_slot8 (hslot : slot8 hash k = slot8 hash k') (hpath : path hash k 2 = path hash k' 2) :
    path hash k 1 = path hash k' 1 := by
  rw [path_two, path_two] at hpath
  exact eq_of_shift (m := 8) (Fin.val_eq_of_eq hslot) hpath

theorem hash_of_slotRoot (hslot : slotRoot hash k = slotRoot hash k')
    (hpath : path hash k 1 = path hash k' 1) : hash k = hash k' :=
  UInt64.toNat_inj.1 (eq_of_shift (m := 8) (Fin.val_eq_of_eq hslot) hpath)

end Path

/-! ## Entries without an object -/

section Set

variable {self : Dictionary α φ} {key : Key} {deleter : Option φ}

/-- The key stands in its slot of a table, if at all. -/
theorem mem_slot {m : ℕ} {slot : Key → Fin m} {t : Fin m → Bucket α φ} (hs : Slotted slot t)
    {b : Bucket α φ}
    (h : key ∈ (tableEntries (Function.update t (slot key) b)).map Entry.key) :
    key ∈ b.entries.map Entry.key := by
  have hperm := (tableEntries_update t (slot key) b).map Entry.key
  rw [List.map_append] at hperm
  rcases List.mem_append.1 (hperm.subset h) with h | h
  · exact h
  · obtain ⟨e, he, rfl⟩ := List.mem_map.1 h
    exact absurd rfl (slot_of_mem_others hs he)

/-- A key that is still in a list after its removal was not there before. -/
theorem not_mem_of_setList {depth : ℕ} {es : List (Entry α φ)} {s : Tally α φ}
    (hnd : (es.map Entry.key).Nodup)
    (h : key ∈ (setList self key none deleter depth es s).1.map Entry.key) :
    key ∉ es.map Entry.key := by
  induction es with
  | nil => simp
  | cons e es ih =>
    rw [List.map_cons, List.nodup_cons] at hnd
    by_cases hk : e.key = key
    · rw [setList_none hk] at h
      exact absurd (hk ▸ h) hnd.1
    · rw [setList_ne hk, List.map_cons, List.mem_cons] at h
      have := ih hnd.2 (h.resolve_left fun he => hk he.symm)
      simpa [Ne.symm hk] using this

/-- The key is not there, and an entry goes with it all the way down. -/
def Meets (hash : Key → UInt64) (key : Key) (depth : ℕ) (es : List (Entry α φ)) : Prop :=
  key ∉ es.map Entry.key ∧ ∃ e ∈ es, path hash e.key depth = path hash key depth

/-- A key that is not in its slot is not in the table. -/
theorem not_mem_table {m : ℕ} {slot : Key → Fin m} {t : Fin m → Bucket α φ} (hs : Slotted slot t)
    (h : key ∉ (t (slot key)).entries.map Entry.key) : key ∉ (tableEntries t).map Entry.key := by
  intro hmem
  obtain ⟨e, he, rfl⟩ := List.mem_map.1 hmem
  obtain ⟨i, hi⟩ := mem_tableEntries.1 he
  exact h (List.mem_map_of_mem (hs i e hi ▸ hi))

theorem meets_of_setItem : ∀ (n : ℕ) {depth : ℕ} {e : Entry α φ} {next : List (Entry α φ)}
    {s : Tally α φ}, n = maxnest - depth → 1 ≤ depth → (Bucket.item e next).Ok self.hash depth →
    key ∈ (setItem self key none deleter n depth (path self.hash key depth) e next
      s).1.entries.map Entry.key → Meets self.hash key depth (e :: next)
  | 0, depth, e, next, s, hn, hd, hok, h => by
      have hmax : maxnest ≤ depth := Nat.sub_eq_zero_iff_le.1 hn.symm
      rw [setItem, entries_ofList] at h
      refine ⟨not_mem_of_setList hok.2 h, e, List.mem_cons_self, ?_⟩
      rw [path_of_le hmax, path_of_le hmax]
  | n + 1, depth, e, next, s, hn, hd, hok, h => by
      have hlt : depth < maxnest := Nat.lt_of_sub_pos (by omega)
      obtain rfl : next = [] := hok.1 hlt
      have hn' : n = maxnest - (depth + 1) := by omega
      by_cases hkey : e.key = key
      · rw [setItem_of_eq hkey] at h
        simp [Bucket.entries] at h
      have hnew : key ∉ [e].map Entry.key := by simpa using Ne.symm hkey
      -- below the new table the other entry is met again
      have ih {e' : Entry α φ} (he' : e'.key = e.key)
          (h : key ∈ (setItem self key none deleter n (depth + 1) (path self.hash key (depth + 1))
            e' [] s).1.entries.map Entry.key) :
          path self.hash e.key (depth + 1) = path self.hash key (depth + 1) := by
        obtain ⟨-, e'', hmem, hpath⟩ := meets_of_setItem n hn' (by omega)
          ⟨fun _ => rfl, List.nodup_singleton _⟩ h
        rw [← he', ← List.mem_singleton.1 hmem, hpath]
      by_cases hdepth : 1 < depth
      · rw [setItem_ht4 hkey hdepth, ← path_succ _ _ hdepth] at h
        generalize hm : (if maxnest - 1 ≤ depth then { e with linked := true } else e) = moved at h
        have hk : moved.key = e.key := by rw [← hm]; split_ifs <;> rfl
        rw [← hk] at h
        have h := mem_slot (slotted_single (slot4 self.hash depth) moved) h
        split_ifs at h with hslot
        · rw [hk] at hslot
          exact ⟨hnew, e, List.mem_singleton_self e, path_of_slot4 hdepth hslot (ih hk h)⟩
        · simp [setEmpty, Bucket.entries] at h
      · obtain rfl : depth = 1 := by omega
        rw [setItem_ht8 hkey, ← path_two] at h
        have h := mem_slot (slotted_single (slot8 self.hash) e) h
        split_ifs at h with hslot
        · exact ⟨hnew, e, List.mem_singleton_self e, path_of_slot8 hslot (ih rfl h)⟩
        · simp [setEmpty, Bucket.entries] at h

/-- The removal of a key leaves an entry for it only where another one goes with it all the way. -/
theorem meets_of_set (b : Bucket α φ) : ∀ {depth : ℕ} {s : Tally α φ}, 1 ≤ depth →
    b.Ok self.hash depth →
    key ∈ (b.set self key none deleter depth (path self.hash key depth) s).1.entries.map Entry.key →
    Meets self.hash key depth b.entries := by
  induction b with
  | empty =>
    intro depth s _ _ h
    simp [Bucket.set, setEmpty, Bucket.entries] at h
  | item e next => exact fun hd hok h => meets_of_setItem _ rfl hd hok h
  | ht8 t ih =>
    rintro depth s hd ⟨rfl, ht, hs⟩ h
    rw [Bucket.set, ← path_two] at h
    obtain ⟨hnew, e, he, hpath⟩ := ih _ (by decide) (ht _) (mem_slot hs h)
    exact ⟨not_mem_table hs hnew, e, mem_tableEntries.2 ⟨_, he⟩, path_of_slot8 (hs _ e he) hpath⟩
  | ht4 t ih =>
    rintro depth s hd ⟨hd', ht, hs⟩ h
    rw [Bucket.set, ← path_succ _ _ hd'] at h
    obtain ⟨hnew, e, he, hpath⟩ := ih _ (by omega) (ht _) (mem_slot hs h)
    exact ⟨not_mem_table hs hnew, e, mem_tableEntries.2 ⟨_, he⟩,
      path_of_slot4 hd' (hs _ e he) hpath⟩

end Set

/-! ## The counter -/

variable {d : Dictionary α φ}

/-- Every entry has an object. -/
def Bound (d : Dictionary α φ) : Prop := ∀ e ∈ d.entries, e.obj ≠ none

/-- The call does not remove a key that is not there while one with the same hash is. -/
def Op.Apart (d : Dictionary α φ) : Op α φ → Prop
  | .set key none _ => d.get key = none → ∀ k, d.get k ≠ none → d.hash k ≠ d.hash key
  | _ => True

theorem mem_iff_get (h : d.Ok) (k : Key) (o : α) :
    (k, some o) ∈ d.entries.map Entry.pair ↔ d.get k = some o := by
  rw [get_eq h]
  exact ⟨findList_of_mem (nodup_keys h), mem_of_findList⟩

/-- In a bound dictionary, the keys are those a lookup finds. -/
theorem mem_keys (h : d.Ok) (hb : Bound d) (k : Key) :
    k ∈ d.entries.map Entry.key ↔ d.get k ≠ none := by
  constructor
  · intro hk
    obtain ⟨e, he, rfl⟩ := List.mem_map.1 hk
    obtain ⟨o, ho⟩ := Option.ne_none_iff_exists'.1 (hb e he)
    have hmem : (e.key, some o) ∈ d.entries.map Entry.pair :=
      List.mem_map.2 ⟨e, he, by rw [Entry.pair, ho]⟩
    rw [(mem_iff_get h _ _).1 hmem]
    exact Option.some_ne_none o
  · intro hk
    obtain ⟨o, ho⟩ := Option.ne_none_iff_exists'.1 hk
    obtain ⟨e, he, hpair⟩ := List.mem_map.1 ((mem_iff_get h k o).2 ho)
    exact List.mem_map.2 ⟨e, he, congrArg Prod.fst hpair⟩

/-- A removal that keeps apart from other keys leaves no entry. -/
theorem not_mem_set_none (h : d.Ok) (hb : Bound d) {key : Key} {deleter : Deleter φ}
    (ha : (Op.set key none deleter).Apart d) :
    key ∉ (d.set key none deleter).entries.map Entry.key := by
  intro hmem
  have hslot : key ∈ ((d.buckets (slotRoot d.hash key)).set d key none deleter.given 1
      (path d.hash key 1) ⟨d.count, d.calls⟩).1.entries.map Entry.key := mem_slot h.slotted hmem
  obtain ⟨hnew, e, he, hpath⟩ := meets_of_set _ le_rfl (h.buckets _) hslot
  have hhash : d.hash e.key = d.hash key := hash_of_slotRoot (h.slotted _ e he) hpath
  have hkey : e.key ∈ d.entries.map Entry.key :=
    List.mem_map_of_mem (mem_tableEntries.2 ⟨_, he⟩)
  have hnone : d.get key = none := by
    rw [get_eq h]
    exact findList_eq_none (not_mem_table h.slotted hnew)
  exact ha hnone e.key ((mem_keys h hb _).1 hkey) hhash

theorem pairs_set_none (h : d.Ok) (hb : Bound d) {key : Key} {deleter : Deleter φ}
    (ha : (Op.set key none deleter).Apart d) :
    ((d.set key none deleter).entries.map Entry.pair).Perm
      ((d.entries.map Entry.pair).filter fun x => x.1 ≠ key) := by
  obtain ⟨new, hnew, hperm⟩ := pairs_set key none deleter h
  rcases hnew with rfl | rfl
  · exact hperm
  · obtain ⟨e, he, hpair⟩ := List.mem_map.1 (hperm.symm.subset List.mem_cons_self)
    exact absurd (List.mem_map.2 ⟨e, he, congrArg Prod.fst hpair⟩) (not_mem_set_none h hb ha)

theorem bound_of_pairs (h : ∀ x ∈ d.entries.map Entry.pair, x.2 ≠ none) : Bound d :=
  fun e he => h e.pair (List.mem_map_of_mem he)

/-- Every entry has an object after a call that keeps apart. -/
theorem bound_apply (h : d.Ok) (hb : Bound d) {op : Op α φ} (ha : op.Apart d) :
    Bound (op.apply d) := by
  have hold : ∀ x ∈ d.entries.map Entry.pair, x.2 ≠ none := by
    intro x hx
    obtain ⟨e, he, rfl⟩ := List.mem_map.1 hx
    exact hb e he
  cases op with
  | set key obj deleter =>
    refine bound_of_pairs fun x hx => ?_
    cases obj with
    | none => exact hold x (List.mem_of_mem_filter ((pairs_set_none h hb ha).subset hx))
    | some o =>
      obtain ⟨new, hnew, hperm⟩ := pairs_set key (some o) deleter h
      rcases List.mem_append.1 (hperm.subset hx) with hx | hx
      · rw [hnew.fst_eq x hx]
        exact Option.some_ne_none o
      · exact hold x (List.mem_of_mem_filter hx)
  | removeAll matcher =>
    intro e he
    rw [Op.apply, entries_removeAll h] at he
    exact hb e (List.mem_of_mem_filter he)

/-- The counter and the results of `removeAll` are numbers of keys with an object, and to remove a
key that is not there changes nothing. -/
structure Counted (d : Dictionary α φ) : Prop where
  count : ∃ bound : Finset Key, (∀ k, k ∈ bound ↔ d.get k ≠ none) ∧ d.count = bound.card
  removed : ∀ matcher, ∃ matched : Finset Key,
    (∀ k, k ∈ matched ↔ ∃ o, d.get k = some o ∧ matcher k (some o) = true) ∧
      (d.removeAll matcher).2 = matched.card
  absent : ∀ key deleter, (Op.set key none deleter).Apart d → d.get key = none →
    (d.set key none deleter).count = d.count ∧
      ((d.set key none deleter).entries.map Entry.pair).Perm (d.entries.map Entry.pair)

theorem removed_length (h : d.Ok) (matcher : Key → Option α → Bool) :
    (d.removeAll matcher).2 = (d.entries.filter fun e => matcher e.key e.obj).length := by
  rw [Dictionary.removeAll]
  split_ifs with hc
  · rw [entries_eq_nil h hc]
    rfl
  · exact congrArg List.length (removed_eq h matcher)

/-- The keys of some of the entries, as a set. -/
theorem exists_keys {es : List (Entry α φ)} (h : (es.map Entry.key).Nodup) :
    ∃ keys : Finset Key, (∀ k, k ∈ keys ↔ ∃ e ∈ es, e.key = k) ∧ es.length = keys.card :=
  ⟨⟨es.map Entry.key, h⟩, fun _ => List.mem_map, (List.length_map Entry.key).symm⟩

theorem counted_of_bound (h : d.Ok) (hb : Bound d) : Counted d where
  count := by
    obtain ⟨keys, hkeys, hcard⟩ := exists_keys (nodup_keys h)
    refine ⟨keys, fun k => ?_, h.count.trans hcard⟩
    rw [hkeys, ← mem_keys h hb, List.mem_map]
  removed matcher := by
    have hnd : ((d.entries.filter fun e => matcher e.key e.obj).map Entry.key).Nodup :=
      (nodup_keys h).sublist (List.filter_sublist.map _)
    obtain ⟨keys, hkeys, hcard⟩ := exists_keys hnd
    refine ⟨keys, fun k => ?_, (removed_length h matcher).trans hcard⟩
    rw [hkeys]
    constructor
    · rintro ⟨e, he, rfl⟩
      obtain ⟨he, hm⟩ := List.mem_filter.1 he
      obtain ⟨o, ho⟩ := Option.ne_none_iff_exists'.1 (hb e he)
      refine ⟨o, (mem_iff_get h _ _).1 (List.mem_map.2 ⟨e, he, ?_⟩), ho ▸ hm⟩
      rw [Entry.pair, ho]
    · rintro ⟨o, ho, hm⟩
      obtain ⟨e, he, hpair⟩ := List.mem_map.1 ((mem_iff_get h k o).2 ho)
      obtain ⟨rfl, hobj⟩ := Prod.ext_iff.1 hpair
      have hobj : e.obj = some o := hobj
      exact ⟨e, List.mem_filter.2 ⟨he, by rw [hobj]; exact hm⟩, rfl⟩
  absent key deleter ha hnone := by
    have hkey : key ∉ d.entries.map Entry.key := fun hk => (mem_keys h hb key).1 hk hnone
    have hperm := pairs_set_none h hb ha
    rw [filter_pairs_of_not_mem hkey] at hperm
    refine ⟨?_, hperm⟩
    have hlen := hperm.length_eq
    rw [List.length_map, List.length_map] at hlen
    rw [(ok_set key none deleter h).count, h.count, hlen]

/-! ## Runs -/

/-- Calls on a new dictionary. -/
def machine (hash : Key → UInt64) (deleter : Deleter φ) : Machine (Dictionary α φ) (Op α φ) where
  init d := d = .create hash deleter
  step d op := some (op.apply d)

/-- As long as the calls keep apart, the dictionary counts its keys. -/
theorem dictionary_counted {hash : Key → UInt64} {deleter : Deleter φ} {d : Dictionary α φ}
    (h : (machine hash deleter).Run (fun d op => op.Apart d) d) : Counted d := by
  have hinv : d.Ok ∧ Bound d := by
    refine h.invariant (I := fun d => d.Ok ∧ Bound d) ?_ ?_
    · rintro _ rfl
      refine ⟨ok_create hash deleter, fun e he => ?_⟩
      rw [entries_create] at he
      cases he
    · rintro d op _ ⟨hok, hb⟩ ha ⟨⟩
      exact ⟨(apply_refines hok op).1, bound_apply hok hb ha⟩
  exact counted_of_bound hinv.1 hinv.2

/-- A key is only removed while it is there. -/
def Op.apartTest (d : Dictionary α φ) : Op α φ → Bool
  | .set key none _ => (d.get key).isSome
  | _ => true

theorem apart_of_test (d : Dictionary α φ) (op : Op α φ) (h : op.apartTest d = true) :
    op.Apart d := by
  cases op with
  | set key obj deleter =>
    cases obj with
    | some obj => trivial
    | none =>
      intro hnone
      rw [Op.apartTest, hnone] at h
      cases h
  | removeAll matcher => trivial

/-- Of three keys with the same hash one is removed, and another one by `removeAll`. -/
theorem dictionary_counted_colliding : ∃ d : Dictionary ℕ Unit,
    Counted d ∧ d.count = 1 ∧ d.get [2] = none ∧ d.get [3] = some 7 := by
  have hrun : ((machine (fun _ => 0) (.all ())).execOk (fun d op => op.apartTest d)
      [.set [1] (some 5) .individual, .set [2] (some 6) .individual, .set [3] (some 7) .individual,
        .set [1] none .individual, .removeAll fun key _ => key = [2]]
      (.create (fun _ => 0) (.all ()) : Dictionary ℕ Unit)).any
      (fun d => d.count = 1 ∧ d.get [2] = none ∧ d.get [3] = some 7) = true := by decide +kernel
  obtain ⟨d, hd, hp⟩ := Machine.exists_run rfl apart_of_test hrun
  exact ⟨d, dictionary_counted hd, of_decide_eq_true hp⟩

/-- Two keys with the same hash, of which the second is removed without ever being set. -/
theorem dictionary_miscounts : ∃ d d' : Dictionary ℕ Unit,
    (machine (fun _ => 0) (.all ())).Reachable d ∧ d' = d.set [2] none .individual ∧
      d.get [2] = none ∧ d.count = 1 ∧ d'.count = 2 ∧ ∀ k, d'.get k ≠ none ↔ k = [1] := by
  have hok : (Dictionary.create (fun _ => 0) (.all ()) : Dictionary ℕ Unit).Ok := ok_create _ _
  have hok1 := ok_set [1] (some 5) .individual hok
  refine ⟨(Dictionary.create (fun _ => 0) (.all ())).set [1] (some 5) .individual, _,
    .step (a := .set [1] (some 5) .individual) (.init rfl) trivial rfl, rfl, rfl, rfl, rfl,
    fun k => ?_⟩
  rw [get_set _ _ _ hok1, get_set _ _ _ hok, get_create]
  split_ifs with h2 h1
  · simp [h2]
  · simp [h1]
  · simp [h1]

end PoserCore.Dictionary
