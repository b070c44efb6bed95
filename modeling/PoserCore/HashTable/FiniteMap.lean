import Mathlib.Data.Nat.Digits.Defs
import PoserCore.HashTable.Held

/-!
# The hash table is a finite map

After any calls, whatever the hash function, a table holds what the calls made of the map: it finds
and counts what is stored, an iterator shows each stored pair once, and every object that was stored
has its deleter called when it is replaced or deleted or when the table is destroyed.

The number that `PSC_HashTable_deleteAll` returns is an `int`.  It is the number of entries deleted as
long as there are fewer than `2 ^ 31` of them (`isMap_iff`).
-/

namespace PoserCore.HashTable

open Lib

variable {α φ : Type}

/-- The calls made, the latest first, with what they returned. -/
abbrev History (α φ : Type) := List (Op α φ × Option Int32)

/-- The map after the call. -/
def Op.owns (m : Key → Option (Item α φ)) : Op α φ → Key → Option (Item α φ)
  | .set key obj deleter _ => Function.update m key (some ⟨key, obj, deleter⟩)
  | .delete key => Function.update m key none
  | .deleteAll matcher => fun key => (m key).filter fun x => !accepts matcher x

/-- What the call stores. -/
def Op.stored : Op α φ → Option (Item α φ)
  | .set key obj deleter _ => some ⟨key, obj, deleter⟩
  | .delete _ => none
  | .deleteAll _ => none

/-- The call replaces or deletes the object. -/
def Op.takes (x : Item α φ) : Op α φ → Bool
  | .set key _ _ _ => x.key = key
  | .delete key => x.key = key
  | .deleteAll matcher => accepts matcher x

/-- The number of entries that the matcher accepts. -/
noncomputable def matched (m : Key → Option (Item α φ)) (matcher : Key → Option α → Bool) : ℕ :=
  {key | ∃ x, m key = some x ∧ accepts matcher x}.ncard

/-- What the call should return. -/
def Op.Answer (m : Key → Option (Item α φ)) (r : Option Int32) : Op α φ → Prop
  | .set _ _ _ _ => r = none
  | .delete key => r = some (if (m key).isSome then 1 else 0)
  | .deleteAll matcher => ∃ deleted, r = some deleted ∧ deleted.toInt = matched m matcher

/-- The entries that the call deletes can be counted with an `int`. -/
def Op.Small (m : Key → Option (Item α φ)) : Op α φ → Prop
  | .deleteAll matcher => matched m matcher < 2 ^ 31
  | _ => True

/-- The map that the calls make. -/
def contents : History α φ → Key → Option (Item α φ)
  | [] => fun _ => none
  | (op, _) :: hist => op.owns (contents hist)

/-- All objects that the calls store. -/
def stores : History α φ → List (Item α φ)
  | [] => []
  | (op, _) :: hist => op.stored.toList ++ stores hist

/-- Every call returned what it should. -/
def Answers : History α φ → Prop
  | [] => True
  | (op, r) :: hist => op.Answer (contents hist) r ∧ Answers hist

/-- No call deleted too many entries to count. -/
def Small : History α φ → Prop
  | [] => True
  | (op, _) :: hist => op.Small (contents hist) ∧ Small hist

/-- The table `s` is the map that the calls make, and they returned what they should. -/
structure IsMap (hist : History α φ) (s : HashTable α φ) : Prop where
  answers : Answers hist
  /-- Every other call returns as well. -/
  returns : ∀ op : Op α φ, op.Fresh s → ∃ s' r, op.apply s = some (s', r)
  get : ∀ key, s.get key = some ((contents hist key).bind Item.obj)
  count : s.count = {key | ∃ x, contents hist key = some x}.ncard
  /-- An iterator shows each pair once, and then ends. -/
  iterator : ∃ l, Enumerates Item.key l (contents hist) ∧ ∃ iter last, s.iterator = some iter ∧
    iter.visit (l.length + 1) = some (l.map fun x => some x.shown, last)
  /-- The deleters are called when the objects are replaced or deleted. -/
  calls : ∃ l, Enumerates Item.key l (contents hist) ∧
    ∀ (op : Op α φ) (s' : HashTable α φ) (r : Option Int32), op.Fresh s → op.apply s = some (s', r) →
      s'.calls = s.calls ++ (l.filter fun x => op.takes x).filterMap Item.due
  /-- The deleters of the others are called in the end, when nothing stays allocated. -/
  destroy : ∃ l, Enumerates Item.key l (contents hist) ∧ ∃ s', s.destroy = some s' ∧
    s'.entries = (fun _ => none) ∧ s'.calls = s.calls ++ l.filterMap Item.due ∧
      s'.calls.Perm ((stores hist).filterMap Item.due)

variable {hash : Key → UInt64} {bits : UInt8} {hist : History α φ} {s s' : HashTable α φ}
  {ch : ℕ → List Addr} {m : Key → Option (Item α φ)} {op : Op α φ} {r : Option Int32}

/-! ## One call -/

theorem toInt_ofNat_iff (n : ℕ) : (Int32.ofNat n).toInt = n ↔ n < 2 ^ 31 := by
  constructor
  · intro h
    have hlt := (Int32.ofNat n).toInt_lt
    rw [h] at hlt
    exact_mod_cast hlt
  · exact fun h => Int32.toInt_ofNat_of_lt h

/-- What a call does. -/
theorem apply_spec (hs : Shape s ch) (hm : Enumerates Item.key (s.held ch) m) (op : Op α φ)
    (hfresh : op.Fresh s) :
    ∃ s' ch' r, op.apply s = some (s', r) ∧ Shape s' ch' ∧
      (s'.held ch').Perm (op.stored.toList ++ (s.held ch).filter fun x => !op.takes x) ∧
      s'.calls = s.calls ++ ((s.held ch).filter fun x => op.takes x).filterMap Item.due ∧
      (op.Answer m r ↔ op.Small m) := by
  cases op with
  | set key obj deleter alloc =>
    obtain ⟨s', ch', hrun, hk, hheld, hcalls⟩ := set_spec hs key obj deleter hfresh
    refine ⟨s', ch', none, by rw [Op.apply, hrun]; rfl, hk.shape, ?_, hcalls, iff_of_true rfl trivial⟩
    simpa [Op.stored, Op.takes] using hheld
  | delete key =>
    obtain ⟨s', ch', r, hrun, hk, hheld, hcalls, rfl⟩ := delete_spec hs key
    refine ⟨s', ch', _, by rw [Op.apply, hrun]; rfl, hk.shape, ?_, hcalls, iff_of_true ?_ trivial⟩
    · simpa [Op.stored, Op.takes] using hheld
    · have hiff : (∃ x ∈ s.held ch, x.key = key) ↔ (m key).isSome := by
        rw [Option.isSome_iff_exists]
        exact exists_congr fun x => (hm.mem key x).symm
      rw [Op.Answer]
      simp only [hiff]
  | deleteAll matcher =>
    obtain ⟨s', ch', hrun, hk, hheld, hcalls⟩ := deleteAll_spec hs matcher
    refine ⟨s', ch', _, by rw [Op.apply, hrun]; rfl, hk.shape, hheld, hcalls, ?_⟩
    rw [Op.Answer, Op.Small, matched, hm.ncard (accepts matcher)]
    constructor
    · rintro ⟨deleted, hr, hn⟩
      rw [← Option.some.inj hr] at hn
      exact (toInt_ofNat_iff _).1 hn
    · exact fun hn => ⟨_, rfl, (toInt_ofNat_iff _).2 hn⟩

theorem enumerates_owns (hm : Enumerates Item.key (s.held ch) m) (op : Op α φ) :
    Enumerates Item.key (op.stored.toList ++ (s.held ch).filter fun x => !op.takes x)
      (op.owns m) := by
  cases op with
  | set key obj deleter alloc =>
    simpa [Op.takes, Op.stored, Op.owns] using hm.insert ⟨key, obj, deleter⟩
  | delete key => simpa [Op.takes, Op.stored, Op.owns] using hm.erase key
  | deleteAll matcher => exact hm.filter _

/-! ## Runs -/

/-- The table holds the map, and the deleter calls made and those to come are for all objects that
were stored. -/
structure Holds (hist : History α φ) (s : HashTable α φ) (ch : ℕ → List Addr) : Prop where
  shape : Shape s ch
  held : Enumerates Item.key (s.held ch) (contents hist)
  balance : (s.calls ++ (s.held ch).filterMap Item.due).Perm ((stores hist).filterMap Item.due)

theorem holds_create (hash : Key → UInt64) (bits : UInt8) :
    Holds [] (.create hash bits : HashTable α φ) fun _ => [] := by
  have hheld : (HashTable.create hash bits : HashTable α φ).held (fun _ => []) = [] := by
    simp [HashTable.held, HashTable.all]
  refine ⟨shape_create hash bits, ?_, ?_⟩
  · rw [hheld]
    exact .empty
  · rw [hheld]
    exact .refl _

/-- A call keeps the map. -/
theorem Holds.apply (hh : Holds hist s ch) (op : Op α φ) (hfresh : op.Fresh s) :
    ∃ s' ch' r, op.apply s = some (s', r) ∧ Holds ((op, r) :: hist) s' ch' ∧
      s'.calls = s.calls ++ ((s.held ch).filter fun x => op.takes x).filterMap Item.due ∧
      (op.Answer (contents hist) r ↔ op.Small (contents hist)) := by
  obtain ⟨s', ch', r, hrun, hs', hheld, hcalls, hanswer⟩ :=
    apply_spec hh.shape hh.held op hfresh
  refine ⟨s', ch', r, hrun, ⟨hs', ?_, ?_⟩, hcalls, hanswer⟩
  · exact (enumerates_owns hh.held op).perm hheld
  · rw [hcalls, stores, List.filterMap_append]
    refine (settle Item.due (fun x => op.takes x) hheld).trans ?_
    exact (hh.balance.append_right _).trans List.perm_append_comm

/-- The invariant of the runs, and when the calls returned what they should. -/
theorem Run.holds (hr : Run hash bits hist s) :
    (∃ ch, Holds hist s ch) ∧ (Answers hist ↔ Small hist) := by
  induction hr with
  | create => exact ⟨⟨_, holds_create hash bits⟩, Iff.rfl⟩
  | call _ hfresh hcall ih =>
    obtain ⟨⟨ch, hh⟩, hiff⟩ := ih
    obtain ⟨s', ch', r, hrun, hh', -, hanswer⟩ := hh.apply _ hfresh
    obtain ⟨rfl, rfl⟩ := Prod.mk.inj (Option.some.inj (hrun.symm.trans hcall))
    exact ⟨⟨ch', hh'⟩, and_congr hanswer hiff⟩

/-- Whatever the hash function and the number of buckets, a table is the map that the calls made of it
exactly when each `PSC_HashTable_deleteAll` among them deleted fewer than `2 ^ 31` entries. -/
theorem isMap_iff (hash : Key → UInt64) (bits : UInt8) {hist : History α φ} {s : HashTable α φ}
    (hr : Run hash bits hist s) : IsMap hist s ↔ Small hist := by
  obtain ⟨⟨ch, hh⟩, hiff⟩ := hr.holds
  refine ⟨fun h => hiff.1 h.answers, fun h => ⟨hiff.2 h, fun op hfresh => ?_, ?_, ?_, ?_, ?_, ?_⟩⟩
  · obtain ⟨s', -, r, hrun, -⟩ := hh.apply _ hfresh
    exact ⟨s', r, hrun⟩
  · exact get_spec hh.shape hh.held
  · have hcard := hh.held.ncard fun _ => true
    rw [List.filter_true, hh.shape.length_held] at hcard
    simpa using hcard.symm
  · have hvisit := visit_new ((s.held ch).map Item.shown)
    rw [List.length_map] at hvisit
    have hiter := iterator_spec hh.shape
    rw [← hh.shape.length_held] at hiter
    rw [List.map_map] at hvisit hiter
    exact ⟨_, hh.held, _, _, hiter, hvisit⟩
  · refine ⟨_, hh.held, fun op s' r hfresh hcall => ?_⟩
    obtain ⟨s'', -, r', hrun, -, hcalls, -⟩ := hh.apply _ hfresh
    obtain ⟨rfl, rfl⟩ := Prod.mk.inj (Option.some.inj (hrun.symm.trans hcall))
    exact hcalls
  · obtain ⟨s', hrun, hentries, hcalls⟩ := destroy_spec hh.shape
    exact ⟨_, hh.held, s', hrun, hentries, hcalls, hcalls ▸ hh.balance⟩

/-- Of two keys in one bucket the first one is deleted. -/
theorem isMap_two : ∃ s : HashTable ℕ ℕ,
    IsMap [(.delete [0x61], some 1), (.set [0x62] (some 20) (some 2) 1, none),
      (.set [0x61] (some 10) (some 1) 0, none)] s ∧ s.calls = [(1, some 10)] := by
  apply Exists.intro
  constructor
  · apply Iff.mpr
    · apply isMap_iff (fun _ => 0) 2
      apply Run.call
      · apply Run.call
        · apply Run.call .create
          · rfl
          · rfl
        · rfl
        · rfl
      · trivial
      · rfl
    · exact ⟨trivial, trivial, trivial, trivial⟩
  · rfl

/-! ## More entries than an `int` can count -/

/-- There is always memory that is not in use. -/
theorem exists_fresh (hs : Shape s ch) : ∃ a, s.entries a = none := by
  obtain ⟨a, ha⟩ := Infinite.exists_notMem_finset (s.all ch).toFinset
  rw [List.mem_toFinset, hs.mem_all] at ha
  refine ⟨a, ?_⟩
  cases he : s.entries a with
  | none => rfl
  | some entry => exact absurd ⟨_, item_of_entry he⟩ ha

/-- The calls that store `n` objects under different keys. -/
theorem exists_run (hash : Key → UInt64) (bits : UInt8) {name : ℕ → Key}
    (hname : Function.Injective name) (n : ℕ) :
    ∃ (hist : History α φ) (s : HashTable α φ) (l : List (Item α φ)), Run hash bits hist s ∧
      Enumerates Item.key l (contents hist) ∧ l.length = n ∧ ∀ x ∈ l, ∃ i < n, name i = x.key := by
  induction n with
  | zero => exact ⟨[], _, [], .create, .empty, rfl, fun x hx => absurd hx List.not_mem_nil⟩
  | succ n ih =>
    obtain ⟨hist, s, l, hr, hl, hlen, hnames⟩ := ih
    obtain ⟨⟨ch, hh⟩, -⟩ := hr.holds
    obtain ⟨a, ha⟩ := exists_fresh hh.shape
    obtain ⟨s', -, r, hrun, -⟩ := hh.apply (.set (name n) none none a) ha
    -- the key is a new one
    have hnew : l.filter (fun x => x.key ≠ name n) = l := by
      refine List.filter_eq_self.2 fun x hx => ?_
      obtain ⟨i, hi, hix⟩ := hnames x hx
      rw [decide_eq_true_eq, ← hix]
      exact fun he => Nat.ne_of_lt hi (hname he)
    have hr' : Run hash bits ((.set (name n) none none a, r) :: hist) s' := hr.call ha hrun
    refine ⟨_, s', ⟨name n, none, none⟩ :: l, hr', ?_, congrArg Nat.succ hlen, ?_⟩
    · have hins := hl.insert ⟨name n, none, none⟩
      rwa [hnew] at hins
    · intro x hx
      rcases List.mem_cons.1 hx with rfl | hx
      · exact ⟨n, Nat.lt_succ_self n, rfl⟩
      · obtain ⟨i, hi, hix⟩ := hnames x hx
        exact ⟨i, Nat.lt_succ_of_lt hi, hix⟩

/-- Different keys of at most four bytes for all numbers below `2 ^ 31`. -/
def numeral (i : ℕ) : Key := (Nat.digits 255 i).map fun d => UInt8.ofNat (d + 1)

theorem numeral_injective : Function.Injective numeral := by
  refine Function.LeftInverse.injective (g := fun key => Nat.ofDigits 255 (key.map fun b =>
    b.toNat - 1)) fun i => ?_
  have hdigits : (numeral i).map (fun b => b.toNat - 1) = Nat.digits 255 i := by
    rw [numeral, List.map_map]
    refine (List.map_congr_left fun d hd => ?_).trans (List.map_id _)
    have hlt := Nat.digits_lt_base (by decide) hd
    rw [Function.comp, UInt8.toNat_ofNat', Nat.mod_eq_of_lt (by omega), Nat.add_sub_cancel]
    rfl
  exact (congrArg _ hdigits).trans (Nat.ofDigits_digits 255 i)

theorem deleteAll_overflows : ¬ ∀ (hash : Key → UInt64) (bits : UInt8) (hist : History Unit Unit)
    (s : HashTable Unit Unit), Run hash bits hist s → IsMap hist s := by
  intro h
  obtain ⟨(hist : History Unit Unit), s, l, hr, hl, hlen, -⟩ :=
    exists_run (fun _ => 0) 2 numeral_injective (2 ^ 31)
  obtain ⟨⟨ch, hh⟩, -⟩ := hr.holds
  obtain ⟨s', -, r, hrun, -, -, hanswer⟩ := hh.apply (.deleteAll fun _ _ => true) trivial
  have hr' : Run (fun _ => 0) 2 ((.deleteAll fun _ _ => true, r) :: hist) s' := hr.call trivial hrun
  have hsmall : matched (contents hist) (fun _ _ => true) < 2 ^ 31 :=
    hanswer.1 (h _ _ _ _ hr').answers.1
  have hall : l.filter (accepts fun _ _ => true) = l := List.filter_eq_self.2 fun _ _ => rfl
  rw [matched, hl.ncard, hall, hlen] at hsmall
  exact Nat.lt_irrefl _ hsmall

end PoserCore.HashTable
