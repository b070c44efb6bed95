import PoserCore.Dictionary.Refine

/-!
# The structure of a dictionary

The slots that lead to a bucket are cut from the hash of every key below it: eight bits for the
dictionary itself, eight for a second-level table, four for every table below, until at depth
`MAXNEST` the hash is used up and entries are chained (`dictionary_structured`).

An entry in the way is placed by its hash computed anew, the other one by what is left of its hash
after the levels above; `levels` says what both have to agree on, without either.
-/

namespace PoserCore.Dictionary

set_option linter.dupNamespace false

variable {α φ : Type}

/-- The bits of the hash used at each level. -/
def levels : List ℕ := 8 :: 8 :: List.replicate 12 4

/-- The slots a hash selects, one for each number of bits. -/
def slots : ℕ → List ℕ → List ℕ
  | _, [] => []
  | hash, bits :: rest => hash % 2 ^ bits :: slots (hash / 2 ^ bits) rest

/-- The slots that lead to the buckets at `depth`. -/
def slotsTo (hash depth : ℕ) : List ℕ := slots hash (levels.take depth)

/-- The buckets of a dictionary, with their depths and the slots that lead to them. -/
inductive Dictionary.At (d : Dictionary α φ) : ℕ → List ℕ → Bucket α φ → Prop
  | root (i : Fin 256) : d.At 1 [i.val] (d.buckets i)
  | ht8 {depth : ℕ} {path : List ℕ} {t : Fin 256 → Bucket α φ} (h : d.At depth path (.ht8 t))
      (i : Fin 256) : d.At (depth + 1) (path ++ [i.val]) (t i)
  | ht4 {depth : ℕ} {path : List ℕ} {t : Fin 16 → Bucket α φ} (h : d.At depth path (.ht4 t))
      (i : Fin 16) : d.At (depth + 1) (path ++ [i.val]) (t i)

structure Dictionary.Structured (d : Dictionary α φ) : Prop where
  /-- No bucket is deeper than `MAXNEST`. -/
  depth_le : ∀ {depth path b}, d.At depth path b → depth ≤ maxnest
  /-- A table of eight bits is a second-level table. -/
  second : ∀ {depth path t}, d.At depth path (.ht8 t) → depth = 1
  /-- Tables of four bits are deeper, and hang above depth `MAXNEST`. -/
  deeper : ∀ {depth path t}, d.At depth path (.ht4 t) → 2 ≤ depth ∧ depth < maxnest
  /-- Only at depth `MAXNEST` more than one entry shares a bucket. -/
  chained : ∀ {depth path e next}, d.At depth path (.item e next) → next ≠ [] → depth = maxnest
  /-- An entry is where the hash of its key leads. -/
  placed : ∀ {depth path e next}, d.At depth path (.item e next) →
    ∀ x ∈ e :: next, path = slotsTo (d.hash x.key).toNat depth
  /-- The entries with a `next` pointer are those at depth `MAXNEST`. -/
  linked : ∀ {depth path e next}, d.At depth path (.item e next) →
    ∀ x ∈ e :: next, (x.linked = true ↔ depth = maxnest)
  /-- A key has one place at most. -/
  once : ∀ {depth path e next depth' path' e' next'},
    d.At depth path (.item e next) → d.At depth' path' (.item e' next') →
    ∀ {i j : ℕ} {x y : Entry α φ}, (e :: next)[i]? = some x → (e' :: next')[j]? = some y →
      x.key = y.key → depth = depth' ∧ path = path' ∧ i = j

/-! ## Slots -/

theorem slots_append (hash b : ℕ) (bits : List ℕ) :
    slots hash (bits ++ [b]) = slots hash bits ++ [hash / 2 ^ bits.sum % 2 ^ b] := by
  induction bits generalizing hash with
  | nil => simp [slots]
  | cons c bits ih =>
    rw [List.cons_append, slots, ih, slots, List.cons_append, List.sum_cons, Nat.pow_add,
      Nat.div_div_eq_div_mul]

theorem take_slots (hash n : ℕ) (bits : List ℕ) :
    (slots hash bits).take n = slots hash (bits.take n) := by
  induction bits generalizing hash n with
  | nil => simp [slots]
  | cons b bits ih =>
    cases n with
    | zero => simp [slots]
    | succ n => rw [slots, List.take_succ_cons, ih, List.take_succ_cons, slots]

theorem take_slotsTo (hash : ℕ) {m n : ℕ} (h : m ≤ n) :
    (slotsTo hash n).take m = slotsTo hash m := by
  rw [slotsTo, take_slots, List.take_take, Nat.min_eq_left h, slotsTo]

/-- One level more. -/
theorem slotsTo_succ (hash : ℕ) {depth bits : ℕ} (h : levels[depth]? = some bits)
    (hsum : 1 ≤ depth) :
    slotsTo hash (depth + 1) = slotsTo hash depth ++ [hash >>> shift depth % 2 ^ bits] := by
  obtain ⟨hlt, rfl⟩ := List.getElem?_eq_some_iff.1 h
  have hall : ∀ m < 14, 1 ≤ m → (levels.take m).sum = shift m := by decide
  rw [slotsTo, List.take_succ_eq_append_getElem hlt, slots_append, hall depth hlt hsum,
    Nat.shiftRight_eq_div_pow, slotsTo]

/-! ## Levels -/

/-- Tables hang above depth `MAXNEST`, and the entries with a `next` pointer are those at it. -/
def Bucket.Leveled : Bucket α φ → ℕ → Prop
  | .empty, _ => True
  | .item e next, depth => ∀ x ∈ e :: next, x.linked = decide (maxnest ≤ depth)
  | .ht8 t, depth => depth < maxnest ∧ ∀ i, (t i).Leveled (depth + 1)
  | .ht4 t, depth => depth < maxnest ∧ ∀ i, (t i).Leveled (depth + 1)

theorem leveled_ofList {es : List (Entry α φ)} {depth : ℕ}
    (h : ∀ x ∈ es, x.linked = decide (maxnest ≤ depth)) : (Bucket.ofList es).Leveled depth := by
  cases es with
  | nil => trivial
  | cons e es => exact h

theorem leveled_update {m : ℕ} {t : Fin m → Bucket α φ} {j : Fin m} {b : Bucket α φ} {depth : ℕ}
    (ht : ∀ i, (t i).Leveled depth) (hb : b.Leveled depth) (i : Fin m) :
    (Function.update t j b i).Leveled depth := by
  by_cases hi : i = j
  · rw [hi, Function.update_self]
    exact hb
  · rw [Function.update_of_ne hi]
    exact ht i

theorem leveled_single {m : ℕ} {e : Entry α φ} {depth : ℕ}
    (h : e.linked = decide (maxnest ≤ depth)) (i j : Fin m) : (single i e j).Leveled depth := by
  apply leveled_update
  · exact fun _ => trivial
  · exact List.forall_mem_singleton.2 h

section Set

variable {self : Dictionary α φ} {key : Key} {obj : Option α} {deleter : Option φ}

theorem leveled_setList (depth : ℕ) {es : List (Entry α φ)} (s : Tally α φ)
    (h : ∀ x ∈ es, x.linked = decide (maxnest ≤ depth)) :
    ∀ x ∈ (setList self key obj deleter depth es s).1, x.linked = decide (maxnest ≤ depth) := by
  induction es with
  | nil => exact List.forall_mem_singleton.2 rfl
  | cons e es ih =>
    obtain ⟨he, hes⟩ := List.forall_mem_cons.1 h
    by_cases hk : e.key = key
    · cases obj with
      | some o =>
        rw [setList_some hk]
        exact List.forall_mem_cons.2 ⟨he, hes⟩
      | none =>
        rw [setList_none hk]
        exact hes
    · rw [setList_ne hk]
      exact List.forall_mem_cons.2 ⟨he, ih hes⟩

theorem leveled_setEmpty (depth : ℕ) (s : Tally α φ) :
    (setEmpty self key obj deleter depth s).1.Leveled depth := by
  cases obj with
  | none => trivial
  | some o => exact List.forall_mem_singleton.2 rfl

theorem leveled_setItem : ∀ (n hash : ℕ) {depth : ℕ} {e : Entry α φ} {next : List (Entry α φ)}
    (s : Tally α φ), n = maxnest - depth → 1 ≤ depth → (Bucket.item e next).Leveled depth →
    (setItem self key obj deleter n depth hash e next s).1.Leveled depth
  | 0, hash, depth, e, next, s, hn, hd, h => by
      rw [setItem]
      exact leveled_ofList (leveled_setList depth s h)
  | n + 1, hash, depth, e, next, s, hn, hd, h => by
      have hlt : depth < maxnest := by omega
      by_cases hkey : e.key = key
      · rw [setItem_of_eq hkey]
        cases obj with
        | some o =>
          obtain ⟨he, hnext⟩ := List.forall_mem_cons.1 h
          exact List.forall_mem_cons.2 ⟨he, hnext⟩
        | none => trivial
      have ih {hash : ℕ} {e' : Entry α φ} (he' : e'.linked = decide (maxnest ≤ depth + 1)) :=
        leveled_setItem n hash s (by omega) (Nat.le_succ_of_le hd)
          (List.forall_mem_singleton.2 he' : (Bucket.item e' []).Leveled (depth + 1))
      have he : e.linked = false := by
        rw [h e List.mem_cons_self, decide_eq_false_iff_not]
        exact Nat.not_le.2 hlt
      by_cases hdepth : 1 < depth
      · rw [setItem_ht4 hkey hdepth]
        generalize hm : (if maxnest - 1 ≤ depth then { e with linked := true } else e) = moved
        -- the entry gets its `next` pointer exactly on the way to depth `MAXNEST`
        have hmoved : moved.linked = decide (maxnest ≤ depth + 1) := by
          rw [← hm]
          split_ifs with hlast
          · exact (decide_eq_true (by omega)).symm
          · exact he.trans (decide_eq_false (by omega)).symm
        refine ⟨hlt, leveled_update (leveled_single hmoved _) ?_⟩
        split_ifs
        · exact ih hmoved
        · exact leveled_setEmpty _ s
      · obtain rfl : depth = 1 := by omega
        rw [setItem_ht8 hkey]
        refine ⟨hlt, leveled_update (leveled_single he _) ?_⟩
        split_ifs
        · exact ih he
        · exact leveled_setEmpty _ s

theorem leveled_set (b : Bucket α φ) : ∀ {depth hash : ℕ} (s : Tally α φ), 1 ≤ depth →
    b.Leveled depth → (b.set self key obj deleter depth hash s).1.Leveled depth := by
  induction b with
  | empty => exact fun s _ _ => leveled_setEmpty _ s
  | item e next => exact fun s hd h => leveled_setItem _ _ s rfl hd h
  | ht8 t ih =>
    rintro depth hash s hd ⟨hlt, ht⟩
    exact ⟨hlt, leveled_update ht (ih _ s (Nat.le_succ_of_le hd) (ht _))⟩
  | ht4 t ih =>
    rintro depth hash s hd ⟨hlt, ht⟩
    exact ⟨hlt, leveled_update ht (ih _ s (Nat.le_succ_of_le hd) (ht _))⟩

end Set

theorem leveled_removeAll (matcher : Key → Option α → Bool) (b : Bucket α φ) : ∀ {depth : ℕ},
    b.Leveled depth → (b.removeAll matcher depth).1.Leveled depth := by
  induction b with
  | empty => exact fun _ => trivial
  | item e next =>
    intro depth h
    rw [Bucket.removeAll, removeList_eq]
    split_ifs
    · exact leveled_ofList fun x hx => h x (List.mem_filter.1 hx).1
    · trivial
    · exact h
  | ht8 t ih =>
    rintro depth ⟨hlt, ht⟩
    exact ⟨hlt, fun i => ih i (ht i)⟩
  | ht4 t ih =>
    rintro depth ⟨hlt, ht⟩
    exact ⟨hlt, fun i => ih i (ht i)⟩

/-! ## The dictionary -/

variable {d : Dictionary α φ}

theorem leveled_apply (h : ∀ i, (d.buckets i).Leveled 1) (op : Op α φ) (i : Fin 256) :
    ((op.apply d).buckets i).Leveled 1 := by
  cases op with
  | set key obj deleter => exact leveled_update h (leveled_set _ _ le_rfl (h _)) i
  | removeAll matcher =>
    rw [Op.apply, Dictionary.removeAll]
    split_ifs
    · exact h i
    · exact leveled_removeAll matcher _ (h i)

theorem leveled_run (h : ∀ i, (d.buckets i).Leveled 1) (ops : List (Op α φ)) :
    ∀ i, ((ops.foldl Op.apply d).buckets i).Leveled 1 := by
  induction ops generalizing d with
  | nil => exact h
  | cons op ops ih => exact ih (leveled_apply h op)

/-- What the invariants say about a bucket that the slots `path` lead to. -/
structure Dictionary.Bound (d : Dictionary α φ) (depth : ℕ) (path : List ℕ) (b : Bucket α φ) :
    Prop where
  pos : 1 ≤ depth
  depth_le : depth ≤ maxnest
  ok : b.Ok d.hash depth
  leveled : b.Leveled depth
  placed : ∀ x ∈ b.entries, path = slotsTo (d.hash x.key).toNat depth

theorem bound_of_at (hok : d.Ok) (hl : ∀ i, (d.buckets i).Leveled 1) {depth : ℕ} {path : List ℕ}
    {b : Bucket α φ} (h : d.At depth path b) : d.Bound depth path b := by
  induction h with
  | root i =>
    refine ⟨le_rfl, by decide, hok.buckets i, hl i, fun x hx => ?_⟩
    rw [← hok.slotted i x hx]
    rfl
  | @ht8 depth path t h i ih =>
    obtain ⟨rfl, ht, hs⟩ := ih.ok
    refine ⟨by omega, ih.leveled.1, ht i, ih.leveled.2 i, fun x hx => ?_⟩
    rw [ih.placed x (mem_tableEntries.2 ⟨i, hx⟩), slotsTo_succ _ rfl le_rfl, ← hs i x hx]
    rfl
  | @ht4 depth path t h i ih =>
    obtain ⟨hd, ht, hs⟩ := ih.ok
    have hbits : levels[depth]? = some 4 := by
      have hall : ∀ m < maxnest, 2 ≤ m → levels[m]? = some 4 := by decide
      exact hall depth ih.leveled.1 hd
    refine ⟨by omega, ih.leveled.1, ht i, ih.leveled.2 i, fun x hx => ?_⟩
    rw [ih.placed x (mem_tableEntries.2 ⟨i, hx⟩), slotsTo_succ _ hbits (by omega), ← hs i x hx]
    rfl

/-! ### Places -/

theorem Dictionary.At.length {depth : ℕ} {path : List ℕ} {b : Bucket α φ} (h : d.At depth path b) :
    path.length = depth := by
  induction h with
  | root i => rfl
  | ht8 h i ih => rw [List.length_append, ih, List.length_singleton]
  | ht4 h i ih => rw [List.length_append, ih, List.length_singleton]

theorem Dictionary.At.pos {depth : ℕ} {path : List ℕ} {b : Bucket α φ} (h : d.At depth path b) :
    1 ≤ depth := by
  cases h <;> omega

theorem Dictionary.At.ne_root {depth : ℕ} {path : List ℕ} {b : Bucket α φ} (h : d.At depth path b)
    (i j : ℕ) : path ++ [i] ≠ [j] := by
  intro heq
  have hlen := congrArg List.length heq
  rw [List.length_append, h.length, List.length_singleton, List.length_singleton] at hlen
  have := h.pos
  omega

/-- The slots lead to one bucket. -/
theorem Dictionary.At.unique {depth : ℕ} {path : List ℕ} {b : Bucket α φ} (h : d.At depth path b) :
    ∀ {depth' path' b'}, d.At depth' path' b' → path' = path → b' = b := by
  induction h with
  | root i =>
    intro depth' path' b' h' hp
    cases h' with
    | root j => rw [Fin.ext (List.singleton_inj.1 hp)]
    | ht8 h' j => exact absurd hp (h'.ne_root j i)
    | ht4 h' j => exact absurd hp (h'.ne_root j i)
  | ht8 h i ih =>
    intro depth' path' b' h' hp
    cases h' with
    | root j => exact absurd hp.symm (h.ne_root i j)
    | ht8 h' j =>
      obtain ⟨hp, hi⟩ := List.append_inj' hp rfl
      obtain rfl := Bucket.ht8.inj (ih h' hp)
      rw [Fin.ext (List.singleton_inj.1 hi)]
    | ht4 h' j => cases ih h' (List.append_inj' hp rfl).1
  | ht4 h i ih =>
    intro depth' path' b' h' hp
    cases h' with
    | root j => exact absurd hp.symm (h.ne_root i j)
    | ht8 h' j => cases ih h' (List.append_inj' hp rfl).1
    | ht4 h' j =>
      obtain ⟨hp, hi⟩ := List.append_inj' hp rfl
      obtain rfl := Bucket.ht4.inj (ih h' hp)
      rw [Fin.ext (List.singleton_inj.1 hi)]

/-- At depth `m` of the path is a table. -/
def Dictionary.TableAt (d : Dictionary α φ) (m : ℕ) (path : List ℕ) : Prop :=
  ∃ b, d.At m (path.take m) b ∧ ∀ e next, b ≠ .item e next

/-- From a table to one of its buckets. -/
theorem Dictionary.At.tableAt_append {depth : ℕ} {path : List ℕ} {b : Bucket α φ}
    (h : d.At depth path b) (hb : ∀ e next, b ≠ .item e next) {m : ℕ} (hlt : m < depth + 1)
    (ih : m < depth → d.TableAt m path) (i : ℕ) : d.TableAt m (path ++ [i]) := by
  rw [Dictionary.TableAt, List.take_append_of_le_length (h.length.symm ▸ Nat.le_of_lt_succ hlt)]
  rcases Nat.lt_succ_iff_lt_or_eq.1 hlt with hlt | rfl
  · exact ih hlt
  · rw [List.take_of_length_le h.length.le]
    exact ⟨b, h, hb⟩

/-- Above a bucket are tables. -/
theorem Dictionary.At.above {depth : ℕ} {path : List ℕ} {b : Bucket α φ} (h : d.At depth path b)
    {m : ℕ} (hm : 1 ≤ m) (hlt : m < depth) : d.TableAt m path := by
  induction h with
  | root i => omega
  | ht8 h i ih => exact h.tableAt_append (fun e next heq => by cases heq) hlt ih i.val
  | ht4 h i ih => exact h.tableAt_append (fun e next heq => by cases heq) hlt ih i.val

/-- Two buckets that the hash of one key leads to are not at different depths, if both have
entries. -/
theorem Dictionary.At.not_lt {hash depth depth' : ℕ} {e e' : Entry α φ}
    {next next' : List (Entry α φ)} (h : d.At depth (slotsTo hash depth) (.item e next))
    (h' : d.At depth' (slotsTo hash depth') (.item e' next')) : ¬ depth < depth' := by
  intro hlt
  obtain ⟨b, hb, hne⟩ := h'.above h.pos hlt
  rw [take_slotsTo hash hlt.le] at hb
  exact hne e next (h.unique hb rfl)

/-- After any calls on a new dictionary, for any hash function, every entry is where the hash of its
key leads, and the levels of the tables are those of the hash. -/
theorem dictionary_structured (hash : Key → UInt64) (deleter : Deleter φ) (ops : List (Op α φ)) :
    (ops.foldl Op.apply (Dictionary.create hash deleter)).Structured := by
  have hok := (run_refines (ok_create hash deleter) ops).1
  have hl := leveled_run (d := Dictionary.create hash deleter) (fun _ => trivial) ops
  generalize ops.foldl Op.apply (Dictionary.create hash deleter) = d at hok hl
  have hb {depth path b} (h : d.At depth path b) := bound_of_at hok hl h
  constructor
  case depth_le => exact fun h => (hb h).depth_le
  case second => exact fun h => (hb h).ok.1
  case deeper => exact fun h => ⟨(hb h).ok.1, (hb h).leveled.1⟩
  case chained =>
    intro depth path e next h hne
    exact Nat.le_antisymm (hb h).depth_le (Nat.not_lt.1 fun hlt => hne ((hb h).ok.1 hlt))
  case placed => exact fun h => (hb h).placed
  case linked =>
    intro depth path e next h x hx
    rw [(hb h).leveled x hx, decide_eq_true_eq]
    exact ⟨Nat.le_antisymm (hb h).depth_le, fun heq => heq.ge⟩
  case once =>
    intro depth path e next depth' path' e' next' h h' i j x y hx hy hk
    have hpath := (hb h).placed x (List.mem_of_getElem? hx)
    have hpath' := (hb h').placed y (List.mem_of_getElem? hy)
    subst hpath hpath'
    rw [hk] at h ⊢
    obtain rfl : depth = depth' := Nat.le_antisymm (Nat.not_lt.1 (h'.not_lt h))
      (Nat.not_lt.1 (h.not_lt h'))
    obtain ⟨rfl, rfl⟩ := Bucket.item.inj (h.unique h' rfl)
    refine ⟨rfl, rfl, ?_⟩
    have hkeys : ((e' :: next').map Entry.key).Nodup := (hb h).ok.2
    have hlt : i < ((e' :: next').map Entry.key).length := by
      rw [List.length_map]
      exact (List.getElem?_eq_some_iff.1 hx).1
    apply (List.getElem?_inj hlt hkeys).1
    rw [List.getElem?_map, List.getElem?_map, hx, hy, Option.map_some, Option.map_some, hk]

end PoserCore.Dictionary
