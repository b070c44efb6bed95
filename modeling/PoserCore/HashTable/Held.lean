import PoserCore.HashTable.Chains

/-!
# What the functions of a hash table do

In terms of the entries that are held (`HashTable.held`): setting a key puts its entry in the place of
the one that had the key, deleting takes entries out and calls their deleters, and the functions that
read find what is held.
-/

namespace PoserCore.HashTable

set_option linter.dupNamespace false

open Lib

variable {α φ : Type} {s s' : HashTable α φ} {ch ch' : ℕ → List Addr} {h n : ℕ} {a b : Addr}
  {l done todo : List Addr} {key : Key} {x y : Item α φ}

/-- What the entries store. -/
def HashTable.held (self : HashTable α φ) (ch : ℕ → List Addr) : List (Item α φ) :=
  (self.all ch).filterMap self.item

/-- The table is in order, and its hash function is the given one. -/
structure Keeps (s s' : HashTable α φ) (ch' : ℕ → List Addr) : Prop where
  shape : Shape s' ch'
  hash : s'.hash = s.hash
  mask : s'.mask = s.mask

namespace Shape

theorem mem_held (hs : Shape s ch) : x ∈ s.held ch ↔ ∃ a, s.item a = some x := by
  rw [HashTable.held, List.mem_filterMap]
  exact exists_congr fun a => and_iff_right_of_imp fun hx => hs.mem_all.2 ⟨x, hx⟩

theorem nodup_keys (hs : Shape s ch) : ((s.held ch).map Item.key).Nodup := by
  rw [HashTable.held, List.map_filterMap]
  refine hs.nodup_all.filterMap fun a b k hk hk' => ?_
  obtain ⟨x, hx, rfl⟩ := Option.map_eq_some_iff.1 hk
  obtain ⟨y, hy, hyx⟩ := Option.map_eq_some_iff.1 hk'
  exact hs.keys a b x y hx hy hyx.symm

theorem length_held (hs : Shape s ch) : (s.held ch).length = s.count := by
  rw [hs.count, HashTable.held]
  have hall : ∀ a ∈ s.all ch, ∃ x, s.item a = some x := fun a => hs.mem_all.1
  generalize s.all ch = l at hall
  induction l with
  | nil => rfl
  | cons a l ih =>
    obtain ⟨x, hx⟩ := hall a List.mem_cons_self
    rw [List.filterMap_cons_some hx, List.length_cons, List.length_cons,
      ih fun b hb => hall b (List.mem_cons_of_mem _ hb)]

theorem held_perm (hs : Shape s ch) {l : List (Item α φ)} (hl : l.Nodup)
    (hmem : ∀ x, (∃ a, s.item a = some x) ↔ x ∈ l) : (s.held ch).Perm l :=
  (List.perm_ext_iff_of_nodup hs.nodup_keys.of_map hl).2 fun x => hs.mem_held.trans (hmem x)

/-- An entry comes in the place of the one with its key, if there is one. -/
theorem held_put (hs : Shape s ch) (hs' : Shape s' ch')
    (hitem : s'.item = Function.update s.item a (some x))
    (ha : ∀ b y, s.item b = some y → (y.key = x.key ↔ b = a)) :
    (s'.held ch').Perm (x :: (s.held ch).filter fun y => y.key ≠ x.key) := by
  refine hs'.held_perm (List.nodup_cons.2 ⟨by simp, hs.nodup_keys.of_map.filter _⟩) fun y => ?_
  rw [hitem, List.mem_cons, List.mem_filter, hs.mem_held, decide_eq_true_eq]
  constructor
  · rintro ⟨b, hb⟩
    rw [Function.update_apply] at hb
    split_ifs at hb with hba
    · exact .inl (Option.some.inj hb).symm
    · exact .inr ⟨⟨b, hb⟩, fun hkey => hba ((ha b y hb).1 hkey)⟩
  · rintro (rfl | ⟨⟨b, hb⟩, hkey⟩)
    · exact ⟨a, Function.update_self ..⟩
    · exact ⟨b, by rw [Function.update_of_ne fun hba => hkey ((ha b y hb).2 hba), hb]⟩

/-- The entry for a key. -/
theorem filter_key (hs : Shape s ch) (hx : s.item a = some x) :
    ((s.held ch).filter fun y => y.key = x.key) = [x] := by
  refine List.perm_singleton.1 ((List.perm_ext_iff_of_nodup (hs.nodup_keys.of_map.filter _)
    (List.nodup_singleton x)).2 fun y => ?_)
  rw [List.mem_filter, decide_eq_true_eq, hs.mem_held, List.mem_singleton]
  constructor
  · rintro ⟨⟨b, hy⟩, hkey⟩
    obtain rfl := hs.keys a b x y hx hy hkey.symm
    exact Option.some.inj (hy.symm.trans hx)
  · rintro rfl
    exact ⟨⟨a, hx⟩, rfl⟩

theorem filter_key_nil (hs : Shape s ch) (hkey : ∀ b y, s.item b = some y → y.key ≠ key) :
    ((s.held ch).filter fun y => y.key = key) = [] := by
  rw [List.filter_eq_nil_iff]
  intro y hy
  obtain ⟨b, hb⟩ := hs.mem_held.1 hy
  simpa using hkey b y hb

end Shape

/-! ## Looking for a key -/

/-- The loop finds the entry for the key, or the end of the chain. -/
theorem find_spec (hs : Shape s ch) (key : Key) (done : List Addr) (hch : ch h = done ++ todo)
    (hdone : ∀ b ∈ done, ∀ x, s.item b = some x → x.key ≠ key) (hn : todo.length ≤ n) :
    (∃ l₁ a l₂ entry, ch h = l₁ ++ a :: l₂ ∧ s.entries a = some entry ∧ entry.key = key ∧
      s.find key n done.getLast? todo.head? = some (l₁.getLast?, some a)) ∨
    ((∀ b ∈ ch h, ∀ x, s.item b = some x → x.key ≠ key) ∧
      s.find key n done.getLast? todo.head? = some ((ch h).getLast?, none)) := by
  induction todo generalizing done n with
  | nil =>
    rw [List.append_nil] at hch
    rw [hch]
    refine .inr ⟨hdone, ?_⟩
    cases n <;> rfl
  | cons a todo ih =>
    obtain ⟨n, rfl, hle⟩ := fuel_cons hn
    obtain ⟨entry, he, hnext, -⟩ := (hch ▸ hs.chain h : Chain s (done ++ a :: todo)).of_append.cons
    rw [List.head?_cons, HashTable.find, he, Option.bind_eq_bind, Option.bind_some]
    by_cases hkey : entry.key = key
    · rw [if_pos hkey]
      exact .inl ⟨done, a, todo, entry, hch, he, hkey, rfl⟩
    · rw [if_neg hkey, hnext]
      have hlast : some a = (done ++ [a]).getLast? := by rw [List.getLast?_append_cons]; rfl
      rw [hlast]
      refine ih (done ++ [a]) (by rw [hch, List.append_assoc]; rfl) (fun b hb x hx => ?_) hle
      rcases List.mem_append.1 hb with hb | hb
      · exact hdone b hb x hx
      · obtain rfl := List.mem_singleton.1 hb
        obtain rfl := Option.some.inj (hx.symm.trans (item_of_entry he))
        exact hkey

/-- The first loop of `PSC_HashTable_set` and `PSC_HashTable_delete`. -/
theorem find_bucket (hs : Shape s ch) (key : Key) :
    (∃ l₁ a l₂ entry, ch (s.hashstr key) = l₁ ++ a :: l₂ ∧ s.entries a = some entry ∧
      entry.key = key ∧
      s.find key s.count none (s.bucket (s.hashstr key)) = some (l₁.getLast?, some a)) ∨
    ((∀ b x, s.item b = some x → x.key ≠ key) ∧
      s.find key s.count none (s.bucket (s.hashstr key)) =
        some ((ch (s.hashstr key)).getLast?, none)) := by
  rw [hs.bucket]
  rcases find_spec hs key [] (List.nil_append _).symm
    (fun b hb => absurd hb List.not_mem_nil) (hs.length_le (hashstr_le s key)) with hf | ⟨hno, hf⟩
  · exact .inl hf
  · refine .inr ⟨fun b x hx hkey => ?_, hf⟩
    exact hno b ((hs.mem _ b).2 ⟨x, hx, congrArg _ hkey⟩) x hx hkey

/-! ## Setting and deleting -/

theorem filterMap_due (x : Item α φ) : [x].filterMap Item.due = x.due.toList := by
  rw [List.filterMap_cons]
  cases x.due <;> rfl

theorem set_spec (hs : Shape s ch) (key : Key) (obj : Option α) (deleter : Option φ)
    (hfresh : s.entries a = none) :
    ∃ s' ch', s.set key obj deleter a = some s' ∧ Keeps s s' ch' ∧
      (s'.held ch').Perm (⟨key, obj, deleter⟩ :: (s.held ch).filter fun x => x.key ≠ key) ∧
      s'.calls = s.calls ++ ((s.held ch).filter fun x => x.key = key).filterMap Item.due := by
  rcases find_bucket hs key with ⟨l₁, b, l₂, entry, -, he, rfl, hf⟩ | ⟨hno, hf⟩
  · have hb := item_of_entry he
    obtain ⟨hs', hitem⟩ := replace_spec hs he obj deleter
    refine ⟨_, ch, ?_, ⟨hs', rfl, rfl⟩, hs.held_put hs' hitem fun c y hy => ⟨fun hkey => ?_, ?_⟩, ?_⟩
    · rw [HashTable.set, hf, Option.bind_eq_bind, Option.bind_some]
      dsimp only
      rw [he]
      rfl
    · exact hs.keys c b y entry.item hy hb hkey
    · rintro rfl
      rw [Option.some.inj (hy.symm.trans hb)]
      rfl
    · have hone : (s.held ch).filter (fun y => y.key = entry.key) = [entry.item] := hs.filter_key hb
      rw [hone, filterMap_due]
      rfl
  · obtain ⟨s', hlink, hs', hitem, hcalls, hhash, hmask⟩ :=
      append_spec hs ⟨none, key, obj, deleter⟩ hfresh hno rfl
    refine ⟨_, _, ?_, ⟨hs', hhash, hmask⟩,
      hs.held_put hs' hitem fun c y hy => ⟨fun hkey => ?_, ?_⟩, ?_⟩
    · rw [HashTable.set, hf, Option.bind_eq_bind, Option.bind_some]
      dsimp only at hlink ⊢
      rw [hlink]
      rfl
    · exact absurd hkey (hno c y hy)
    · rintro rfl
      rw [HashTable.item, hfresh] at hy
      cases hy
    · rw [hs.filter_key_nil hno, List.filterMap_nil, List.append_nil]
      exact hcalls

theorem delete_spec (hs : Shape s ch) (key : Key) :
    ∃ s' ch' r, s.delete key = some (s', r) ∧ Keeps s s' ch' ∧
      (s'.held ch').Perm ((s.held ch).filter fun x => x.key ≠ key) ∧
      s'.calls = s.calls ++ ((s.held ch).filter fun x => x.key = key).filterMap Item.due ∧
      r = if ∃ x ∈ s.held ch, x.key = key then 1 else 0 := by
  rcases find_bucket hs key with ⟨l₁, b, l₂, entry, hch, he, rfl, hf⟩ | ⟨hno, hf⟩
  · have hb := item_of_entry he
    obtain ⟨s', hdrop, hs', hitem, hcalls, hhash, hmask⟩ :=
      drop_spec hs (hashstr_le s entry.key) hch he
    refine ⟨s', _, 1, ?_, ⟨hs', hhash, hmask⟩,
      hs'.held_perm (hs.nodup_keys.of_map.filter _) fun y => ?_, ?_, ?_⟩
    · rw [HashTable.delete, hf, Option.bind_eq_bind, Option.bind_some]
      dsimp only
      rw [he, Option.bind_eq_bind, Option.bind_some, hdrop]
      rfl
    · rw [hitem, List.mem_filter, hs.mem_held, decide_eq_true_eq]
      simp only [item_free]
      constructor
      · rintro ⟨c, hc, hcb⟩
        exact ⟨⟨c, hc⟩, fun hkey => hcb (hs.keys c b y entry.item hc hb hkey)⟩
      · rintro ⟨⟨c, hc⟩, hkey⟩
        refine ⟨c, hc, ?_⟩
        rintro rfl
        obtain rfl := Option.some.inj (hc.symm.trans hb)
        exact hkey rfl
    · have hone : (s.held ch).filter (fun y => y.key = entry.key) = [entry.item] := hs.filter_key hb
      rw [hone, filterMap_due, hcalls]
    · rw [if_pos ⟨entry.item, hs.mem_held.2 ⟨b, hb⟩, rfl⟩]
  · refine ⟨s, ch, 0, ?_, ⟨hs, rfl, rfl⟩, ?_, ?_, ?_⟩
    · rw [HashTable.delete, hf]
      rfl
    · rw [List.filter_eq_self.2]
      intro y hy
      obtain ⟨c, hc⟩ := hs.mem_held.1 hy
      simpa using hno c y hc
    · rw [hs.filter_key_nil hno, List.filterMap_nil, List.append_nil]
    · rw [if_neg]
      rintro ⟨y, hy, hkey⟩
      obtain ⟨c, hc⟩ := hs.mem_held.1 hy
      exact hno c y hc hkey

/-! ## Deleting what matches -/

/-- The matcher accepts an entry. -/
def accepts (matcher : Key → Option α → Bool) (x : Item α φ) : Bool := matcher x.key x.obj

/-- The part of a chain in front of the inner loop. -/
theorem deleteMatching_spec (matcher : Key → Option α → Bool) (done : List Addr) (hs : Shape s ch)
    (hh : h ≤ s.mask) (hch : ch h = done ++ todo) (hn : todo.length ≤ n) (deleted : Int32) :
    ∃ s' l, deleteMatching matcher h n s deleted done.getLast? todo.head? =
        some (s', deleted + Int32.ofNat ((todo.filterMap s.item).filter (accepts matcher)).length) ∧
      Keeps s s' (Function.update ch h l) ∧
      (∀ b, s'.item b =
        if b ∈ todo then (s.item b).filter fun x => !accepts matcher x else s.item b) ∧
      s'.calls = s.calls ++
        ((todo.filterMap s.item).filter (accepts matcher)).filterMap Item.due := by
  induction todo generalizing s ch done n deleted with
  | nil =>
    refine ⟨s, ch h, ?_, ⟨?_, rfl, rfl⟩, fun b => (if_neg List.not_mem_nil).symm, ?_⟩
    · rw [List.filterMap_nil, List.filter_nil, List.length_nil, show Int32.ofNat 0 = 0 from rfl,
        Int32.add_zero]
      cases n <;> rfl
    · rwa [Function.update_eq_self]
    · exact (List.append_nil _).symm
  | cons a todo ih =>
    obtain ⟨n, rfl, hle⟩ := fuel_cons hn
    obtain ⟨entry, he, hnext, -⟩ := (hch ▸ hs.chain h : Chain s (done ++ a :: todo)).of_append.cons
    have hitem := item_of_entry he
    have ha : a ∉ todo :=
      (List.nodup_cons.1 (List.nodup_append.1 (hch ▸ hs.nodup h : (done ++ a :: todo).Nodup)).2.1).1
    have haccepts : matcher entry.key entry.obj = accepts matcher entry.item := rfl
    rw [List.head?_cons, deleteMatching, he, Option.bind_eq_bind, Option.bind_some, haccepts,
      List.filterMap_cons_some hitem, List.filter_cons]
    by_cases hm : accepts matcher entry.item = true
    · obtain ⟨s₁, hdrop, hs₁, hitem₁, hcalls₁, hhash₁, hmask₁⟩ := drop_spec hs hh hch he
      have hsame : todo.filterMap s₁.item = todo.filterMap s.item := by
        refine List.filterMap_congr fun b hb => ?_
        rw [hitem₁]
        apply Function.update_of_ne
        rintro rfl
        exact ha hb
      obtain ⟨s', l, hrun, hk, hitem', hcalls'⟩ := ih done hs₁ (hmask₁ ▸ hh)
        (Function.update_self ..) hle (deleted + 1)
      rw [Function.update_idem] at hk
      rw [hsame] at hrun hcalls'
      refine ⟨s', l, ?_, ⟨hk.shape, hk.hash.trans hhash₁, hk.mask.trans hmask₁⟩, fun b => ?_, ?_⟩
      · rw [if_pos hm, if_pos hm, hdrop,
          Option.bind_eq_bind, Option.bind_some, hnext, hrun, List.length_cons, Int32.ofNat_add,
          Int32.add_assoc, Int32.add_comm 1]
        rfl
      · rw [hitem', hitem₁, Function.update_apply]
        by_cases hba : b = a
        · subst hba
          rw [if_neg ha, if_pos rfl, if_pos List.mem_cons_self, hitem, Option.filter_some, hm]
          rfl
        · rw [if_neg hba]
          simp only [List.mem_cons, hba, false_or]
      · rw [hcalls', hcalls₁, if_pos hm,
          List.append_assoc, ← filterMap_due, ← List.filterMap_append]
        rfl
    · have hlast : some a = (done ++ [a]).getLast? := by rw [List.getLast?_append_cons]; rfl
      obtain ⟨s', l, hrun, hk, hitem', hcalls'⟩ := ih (done ++ [a]) hs hh
        (by rw [hch, List.append_assoc]; rfl) hle deleted
      refine ⟨s', l, ?_, hk, fun b => ?_, ?_⟩
      · rw [if_neg hm, if_neg hm, hnext, hlast, hrun]
      · rw [hitem']
        by_cases hba : b = a
        · subst hba
          rw [if_neg ha, if_pos List.mem_cons_self, hitem, Option.filter_some,
            Bool.eq_false_iff.2 hm]
          rfl
        · simp only [List.mem_cons, hba, false_or]
      · rw [hcalls', if_neg hm]

/-- The buckets that the outer loop still has to visit. -/
theorem deleteAll_loop (matcher : Key → Option α → Bool) (hs : Shape s ch) {hashes : List ℕ}
    (hnd : hashes.Nodup) (hle : ∀ h ∈ hashes, h ≤ s.mask) (deleted : Int32) :
    ∃ s' ch', hashes.foldlM (fun (r : HashTable α φ × Int32) h =>
          deleteMatching matcher h r.1.count r.1 r.2 none (r.1.bucket h)) (s, deleted) =
        some (s', deleted +
          Int32.ofNat (((hashes.flatMap ch).filterMap s.item).filter (accepts matcher)).length) ∧
      Keeps s s' ch' ∧
      (∀ b, s'.item b =
        if b ∈ hashes.flatMap ch then (s.item b).filter fun x => !accepts matcher x
        else s.item b) ∧
      s'.calls = s.calls ++
        (((hashes.flatMap ch).filterMap s.item).filter (accepts matcher)).filterMap Item.due := by
  induction hashes generalizing s ch deleted with
  | nil =>
    refine ⟨s, ch, ?_, ⟨hs, rfl, rfl⟩, fun b => (if_neg List.not_mem_nil).symm, ?_⟩
    · rw [List.flatMap_nil, List.filterMap_nil, List.filter_nil, List.length_nil,
        show Int32.ofNat 0 = 0 from rfl, Int32.add_zero]
      rfl
    · exact (List.append_nil _).symm
  | cons h hashes ih =>
    have hh := hle h List.mem_cons_self
    obtain ⟨hnotin, hnd⟩ := List.nodup_cons.1 hnd
    obtain ⟨s₁, l, hrun₁, hk₁, hitem₁, hcalls₁⟩ := deleteMatching_spec matcher [] hs hh
      (List.nil_append _).symm (hs.length_le hh) deleted
    -- the other chains are as they were
    have hrest : hashes.flatMap (Function.update ch h l) = hashes.flatMap ch := by
      refine List.flatMap_congr fun h' hh' => Function.update_of_ne ?_ ..
      rintro rfl
      exact hnotin hh'
    have hother : ∀ b ∈ hashes.flatMap ch, b ∉ ch h := by
      intro b hb hb'
      obtain ⟨h', hh', hb⟩ := List.mem_flatMap.1 hb
      exact hnotin (hs.disjoint hb hb' ▸ hh')
    have hsame : (hashes.flatMap ch).filterMap s₁.item = (hashes.flatMap ch).filterMap s.item := by
      refine List.filterMap_congr fun b hb => ?_
      rw [hitem₁, if_neg (hother b hb)]
    obtain ⟨s', ch', hrun, hk, hitem', hcalls'⟩ := ih hk₁.shape hnd
      (fun h' hh' => hk₁.mask ▸ hle h' (List.mem_cons_of_mem _ hh'))
      (deleted + Int32.ofNat (((ch h).filterMap s.item).filter (accepts matcher)).length)
    rw [hrest] at hitem'
    rw [hrest, hsame] at hrun hcalls'
    refine ⟨s', ch', ?_, ⟨hk.shape, hk.hash.trans hk₁.hash, hk.mask.trans hk₁.mask⟩, fun b => ?_, ?_⟩
    · rw [List.foldlM_cons, hs.bucket, Option.bind_eq_bind]
      rw [List.getLast?_nil] at hrun₁
      rw [hrun₁, Option.bind_some, hrun, List.flatMap_cons, List.filterMap_append,
        List.filter_append, List.length_append, Int32.ofNat_add, Int32.add_assoc]
    · rw [hitem', hitem₁, List.flatMap_cons]
      simp only [List.mem_append]
      by_cases hb : b ∈ hashes.flatMap ch
      · rw [if_pos hb, if_pos (Or.inr hb), if_neg (hother b hb)]
      · simp only [hb, or_false, if_false]
    · rw [hcalls', hcalls₁, List.append_assoc, ← List.filterMap_append, ← List.filter_append,
        ← List.filterMap_append, List.flatMap_cons]

theorem deleteAll_spec (hs : Shape s ch) (matcher : Key → Option α → Bool) :
    ∃ s' ch', s.deleteAll matcher =
        some (s', Int32.ofNat ((s.held ch).filter (accepts matcher)).length) ∧
      Keeps s s' ch' ∧ (s'.held ch').Perm ((s.held ch).filter fun x => !accepts matcher x) ∧
      s'.calls = s.calls ++ ((s.held ch).filter (accepts matcher)).filterMap Item.due := by
  obtain ⟨s', ch', hrun, hk, hitem, hcalls⟩ := deleteAll_loop matcher hs
    List.nodup_range (fun h hh => Nat.le_of_lt_succ (List.mem_range.1 hh)) 0
  rw [Int32.zero_add] at hrun
  refine ⟨s', ch', hrun, hk, hk.shape.held_perm (hs.nodup_keys.of_map.filter _) fun x => ?_, hcalls⟩
  rw [List.mem_filter, hs.mem_held]
  constructor
  · rintro ⟨b, hb⟩
    rw [hitem] at hb
    split_ifs at hb with hall
    · obtain ⟨hb, hm⟩ := Option.filter_eq_some_iff.1 hb
      exact ⟨⟨b, hb⟩, hm⟩
    · exact absurd (hs.mem_all.2 ⟨x, hb⟩) hall
  · rintro ⟨⟨b, hb⟩, hm⟩
    refine ⟨b, ?_⟩
    have hall : b ∈ (List.range (s.mask + 1)).flatMap ch := hs.mem_all.2 ⟨x, hb⟩
    rw [hitem, if_pos hall]
    exact Option.filter_eq_some_iff.2 ⟨hb, hm⟩

/-! ## Reading -/

theorem getFrom_spec (hc : Chain s l) (hn : l.length ≤ n) :
    s.getFrom key n l.head? = some ((lookup Item.key (l.filterMap s.item) key).bind Item.obj) := by
  induction l generalizing n with
  | nil => cases n <;> rfl
  | cons a l ih =>
    obtain ⟨n, rfl, hle⟩ := fuel_cons hn
    obtain ⟨entry, he, hnext, hrest⟩ := hc.cons
    rw [List.head?_cons, HashTable.getFrom, he, Option.bind_eq_bind, Option.bind_some,
      List.filterMap_cons_some (item_of_entry he), lookup_cons,
      show entry.item.key = entry.key from rfl]
    by_cases hkey : entry.key = key
    · rw [if_pos hkey, if_pos hkey]
      rfl
    · rw [if_neg hkey, if_neg hkey, hnext, ih hrest hle]

/-- `PSC_HashTable_get` finds the object of the key. -/
theorem get_spec (hs : Shape s ch) {m : Key → Option (Item α φ)}
    (hm : Enumerates Item.key (s.held ch) m) (key : Key) :
    s.get key = some ((m key).bind Item.obj) := by
  rw [HashTable.get, hs.bucket, getFrom_spec (hs.chain _) (hs.length_le (hashstr_le s key))]
  cases hl : lookup Item.key ((ch (s.hashstr key)).filterMap s.item) key with
  | some x =>
    obtain ⟨a, -, ha⟩ := List.mem_filterMap.1 (mem_of_lookup _ hl)
    rw [(hm.mem key x).2 ⟨hs.mem_held.2 ⟨a, ha⟩, key_of_lookup _ hl⟩]
  | none =>
    cases hmk : m key with
    | none => rfl
    | some x =>
      obtain ⟨hx, rfl⟩ := (hm.mem key x).1 hmk
      obtain ⟨a, ha⟩ := hs.mem_held.1 hx
      refine absurd rfl ((lookup_eq_none _).1 hl x (List.mem_filterMap.2 ⟨a, ?_, ha⟩))
      exact (hs.mem _ a).2 ⟨x, ha, rfl⟩

/-- What an iterator shows of an entry. -/
def Item.shown (x : Item α φ) : IteratorEntry α := ⟨x.key, x.obj⟩

/-- The part of a chain in front of the inner loop. -/
theorem fill_spec (hc : Chain s l) (hn : l.length ≤ n) (seen : List (IteratorEntry α)) {k : ℕ}
    (hk : l.length ≤ k) :
    s.fill n (seen.map some ++ List.replicate k none) seen.length l.head? =
      some ((seen ++ (l.filterMap s.item).map Item.shown).map some ++
          List.replicate (k - l.length) none,
        (seen ++ (l.filterMap s.item).map Item.shown).length) := by
  induction l generalizing n k seen with
  | nil =>
    rw [List.filterMap_nil, List.map_nil, List.append_nil]
    cases n <;> rfl
  | cons a l ih =>
    obtain ⟨n, rfl, hle⟩ := fuel_cons hn
    obtain ⟨k, rfl, hlek⟩ := fuel_cons hk
    obtain ⟨entry, he, hnext, hrest⟩ := hc.cons
    have hset : (seen.map some ++ List.replicate (k + 1) none).set seen.length
          (some entry.item.shown) =
        (seen ++ [entry.item.shown]).map some ++ List.replicate k none := by
      rw [List.replicate_succ, List.set_append_right _ _ (by rw [List.length_map]), List.length_map,
        Nat.sub_self, List.map_append, List.append_assoc]
      rfl
    have hlen : seen.length + 1 = (seen ++ [entry.item.shown]).length := by
      rw [List.length_append]
      rfl
    rw [List.head?_cons, HashTable.fill, he, Option.bind_eq_bind, Option.bind_some, if_pos (by simp),
      show (⟨entry.key, entry.obj⟩ : IteratorEntry α) = entry.item.shown from rfl, hset, hnext, hlen,
      ih hrest hle _ hlek,
      List.filterMap_cons_some (item_of_entry he), List.append_assoc, List.length_cons,
      Nat.succ_sub_succ]
    rfl

/-- The buckets that the outer loop still has to visit. -/
theorem iterator_loop (hs : Shape s ch) {hashes : List ℕ} (hle : ∀ h ∈ hashes, h ≤ s.mask)
    (seen : List (IteratorEntry α)) {k : ℕ} (hk : (hashes.flatMap ch).length ≤ k) :
    hashes.foldlM (fun (r : List (Option (IteratorEntry α)) × ℕ) h =>
          s.fill s.count r.1 r.2 (s.bucket h))
        (seen.map some ++ List.replicate k none, seen.length) =
      some ((seen ++ ((hashes.flatMap ch).filterMap s.item).map Item.shown).map some ++
        List.replicate (k - (hashes.flatMap ch).length) none,
        (seen ++ ((hashes.flatMap ch).filterMap s.item).map Item.shown).length) := by
  induction hashes generalizing seen k with
  | nil =>
    rw [List.flatMap_nil, List.filterMap_nil, List.map_nil, List.append_nil]
    rfl
  | cons h hashes ih =>
    rw [List.flatMap_cons, List.length_append] at hk
    have hlen := hs.length_le (hle h List.mem_cons_self)
    have hshown : ((ch h ++ hashes.flatMap ch).filterMap s.item).map Item.shown =
        ((ch h).filterMap s.item).map Item.shown ++
          ((hashes.flatMap ch).filterMap s.item).map Item.shown := by
      rw [List.filterMap_append, List.map_append]
    rw [List.foldlM_cons, hs.bucket, fill_spec (hs.chain h) hlen seen (Nat.le_of_add_right_le hk),
      Option.bind_eq_bind, Option.bind_some,
      ih (fun h' hh' => hle h' (List.mem_cons_of_mem _ hh')) _ (Nat.le_sub_of_add_le' hk),
      List.flatMap_cons, hshown, ← List.append_assoc seen, @List.length_append _ (ch h), Nat.sub_sub]

/-- The entries are written in the order of the chains, up to the end of the iterator. -/
theorem iterator_spec (hs : Shape s ch) :
    s.iterator = some ⟨s.count, s.count, ((s.held ch).map Item.shown).map some⟩ := by
  have hcount : ((List.range (s.mask + 1)).flatMap ch).length = s.count := hs.count.symm
  have hloop := iterator_loop hs (fun h hh => Nat.le_of_lt_succ (List.mem_range.1 hh)) []
    (Nat.le_of_eq hcount)
  rw [hcount, Nat.sub_self, List.replicate_zero, List.append_nil] at hloop
  exact congrArg (fun o => Option.bind o fun r => some (⟨s.count, s.count, r.1⟩ : Iterator α)) hloop

/-- From a position on, the iterator shows the entries behind it. -/
theorem visit_from (shown : List (IteratorEntry α)) {i : ℕ} (hi : i < shown.length)
    (hn : shown.length = i + n) :
    Iterator.visit n ⟨shown.length, i, shown.map some⟩ =
      some ((shown.drop (i + 1)).map some, ⟨shown.length, shown.length, shown.map some⟩) := by
  induction n generalizing i with
  | zero => exact absurd hn (Nat.ne_of_gt hi)
  | succ n ih =>
    rw [Iterator.visit, Iterator.moveNext]
    dsimp only
    rw [if_neg (Nat.not_le_of_gt hi)]
    by_cases hlast : i + 1 < shown.length
    · rw [decide_eq_true hlast, if_pos rfl, ih hlast (by omega), Option.map_some,
        Iterator.current, if_neg (Nat.not_le_of_gt hlast), List.getElem?_map,
        List.getElem?_eq_getElem hlast, List.drop_eq_getElem_cons hlast]
      rfl
    · have hend : i + 1 = shown.length := by omega
      rw [decide_eq_false hlast, if_neg Bool.false_ne_true, hend, List.drop_length]
      rfl

/-- A new iterator shows all its entries. -/
theorem visit_new (shown : List (IteratorEntry α)) :
    Iterator.visit (shown.length + 1) ⟨shown.length, shown.length, shown.map some⟩ =
      some (shown.map some, ⟨shown.length, shown.length, shown.map some⟩) := by
  rw [Iterator.visit, Iterator.moveNext]
  dsimp only
  rw [if_pos (Nat.le_refl _)]
  cases shown with
  | nil => rfl
  | cons x shown =>
    have hpos : 0 < (x :: shown).length := Nat.succ_pos _
    rw [decide_eq_true hpos, if_pos rfl, visit_from _ hpos (Nat.zero_add _).symm]
    rfl

/-! ## The end -/

theorem destroyFrom_spec (hc : Chain s l) (hnd : l.Nodup) (hn : l.length ≤ n) :
    ∃ s', destroyFrom n s l.head? = some s' ∧ s'.bucket = s.bucket ∧
      (∀ b, s'.entries b = if b ∈ l then none else s.entries b) ∧
      s'.calls = s.calls ++ (l.filterMap s.item).filterMap Item.due := by
  induction l generalizing s n with
  | nil =>
    refine ⟨s, ?_, rfl, fun b => (if_neg List.not_mem_nil).symm, (List.append_nil _).symm⟩
    cases n <;> rfl
  | cons a l ih =>
    obtain ⟨n, rfl, hle⟩ := fuel_cons hn
    obtain ⟨entry, he, hnext, hrest⟩ := hc.cons
    obtain ⟨ha, hnd⟩ := List.nodup_cons.1 hnd
    have hkeep : ∀ b ∈ l, ((s.delObj entry).store a none).entries b = s.entries b := by
      intro b hb
      rw [entries_store, if_neg]
      · rfl
      · rintro rfl
        exact ha hb
    obtain ⟨s', hrun, hbucket, hentries, hcalls⟩ := ih (hrest.keep hkeep) hnd hle
    refine ⟨s', ?_, hbucket, fun b => ?_, ?_⟩
    · rw [List.head?_cons, destroyFrom, he, Option.bind_eq_bind, Option.bind_some, hnext, hrun]
    · rw [hentries, entries_store]
      by_cases hb : b = a
      · subst hb
        rw [if_pos rfl, if_pos List.mem_cons_self, ite_self]
      · simp only [List.mem_cons, hb, false_or, if_false]
        rfl
    · rw [hcalls, filterMap_item hkeep, List.filterMap_cons_some (item_of_entry he)]
      change (s.calls ++ entry.item.due.toList) ++ _ = _
      rw [List.append_assoc, ← filterMap_due, ← List.filterMap_append]
      rfl

theorem destroy_loop {hashes : List ℕ} (hc : ∀ h ∈ hashes, Chain s (ch h))
    (hb : ∀ h, s.bucket h = (ch h).head?) (hnd : (hashes.flatMap ch).Nodup)
    (hn : ∀ h ∈ hashes, (ch h).length ≤ n) :
    ∃ s', hashes.foldlM (fun (table : HashTable α φ) h => destroyFrom n table (table.bucket h)) s =
        some s' ∧
      (∀ b, s'.entries b = if b ∈ hashes.flatMap ch then none else s.entries b) ∧
      s'.calls = s.calls ++ ((hashes.flatMap ch).filterMap s.item).filterMap Item.due := by
  induction hashes generalizing s with
  | nil => exact ⟨s, rfl, fun b => (if_neg List.not_mem_nil).symm, (List.append_nil _).symm⟩
  | cons h hashes ih =>
    rw [List.flatMap_cons] at hnd
    obtain ⟨hnd₁, hnd₂, hdisj⟩ := List.nodup_append.1 hnd
    obtain ⟨s₁, hrun₁, hbucket, hentries₁, hcalls₁⟩ := destroyFrom_spec (hc h List.mem_cons_self) hnd₁
      (hn h List.mem_cons_self)
    -- the other chains are as they were
    have hkeep : ∀ b ∈ hashes.flatMap ch, s₁.entries b = s.entries b := by
      intro b hb'
      rw [hentries₁, if_neg]
      exact fun hb'' => hdisj b hb'' b hb' rfl
    obtain ⟨s', hrun, hentries, hcalls⟩ := ih
      (fun h' hh' => (hc h' (List.mem_cons_of_mem _ hh')).keep fun b hb' =>
        hkeep b (List.mem_flatMap_of_mem hh' hb'))
      (fun h' => hbucket ▸ hb h') hnd₂ fun h' hh' => hn h' (List.mem_cons_of_mem _ hh')
    refine ⟨s', ?_, fun b => ?_, ?_⟩
    · rw [List.foldlM_cons, hb, hrun₁, Option.bind_eq_bind, Option.bind_some, hrun]
    · rw [hentries, hentries₁, List.flatMap_cons]
      simp only [List.mem_append]
      by_cases hb' : b ∈ hashes.flatMap ch
      · rw [if_pos hb', if_pos (Or.inr hb')]
      · simp only [hb', or_false, if_false]
    · rw [hcalls, hcalls₁, filterMap_item hkeep, List.flatMap_cons, List.append_assoc,
        ← List.filterMap_append, ← List.filterMap_append]

/-- Nothing stays allocated. -/
theorem destroy_spec (hs : Shape s ch) :
    ∃ s', s.destroy = some s' ∧ s'.entries = (fun _ => none) ∧
      s'.calls = s.calls ++ (s.held ch).filterMap Item.due := by
  obtain ⟨s', hrun, hentries, hcalls⟩ := destroy_loop (n := s.count)
    (fun h _ => hs.chain h) hs.bucket hs.nodup_all
    fun h hh => hs.length_le (Nat.le_of_lt_succ (List.mem_range.1 hh))
  refine ⟨s', hrun, ?_, hcalls⟩
  funext b
  rw [hentries]
  split_ifs with hb
  · rfl
  · cases he : s.entries b with
    | none => rfl
    | some entry => exact absurd (hs.mem_all.2 ⟨_, item_of_entry he⟩) hb

end PoserCore.HashTable
