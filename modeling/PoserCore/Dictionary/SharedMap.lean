import PoserCore.Dictionary.Count
import PoserCore.Dictionary.Shared

/-!
# The shared dictionary is a map

Every bucket that nobody is changing holds the entries of the map with keys of its slot (`Agrees`), and
a writer's bucket holds them before its change to the counter or with the new content after it
(`Claim`).  The locks keep readers and other writers out in between, so for any number of threads and
in every interleaving the shared dictionary is the map (`implements_sharedMap`), and the counter is at
any time the number of entries.
-/

namespace PoserCore.Dictionary.Shared

open Lib BucketLocks

variable {T α φ : Type}

/-! ## Buckets of the map -/

/-- The pairs are the entries of the map with keys of the slot `b`. -/
structure Agrees (hash : Key → UInt64) (m : Entries α) (b : Fin 256) (ps : List (Key × Option α)) :
    Prop where
  nodup : (ps.map Prod.fst).Nodup
  slotted : ∀ p ∈ ps, slotRoot hash p.1 = b
  mem : ∀ k obj, slotRoot hash k = b → (m k = some obj ↔ (k, obj) ∈ ps)

def pairsOf (b : Bucket α φ) : List (Key × Option α) := b.entries.map Entry.pair

section Agrees

variable {hash : Key → UInt64} {m m' : Entries α} {b : Fin 256} {ps ps' : List (Key × Option α)}
variable {key k : Key} {obj : Option α}

theorem Agrees.congr (h : Agrees hash m b ps) (hm : ∀ k, slotRoot hash k = b → m' k = m k) :
    Agrees hash m' b ps :=
  ⟨h.nodup, h.slotted, fun k obj hk => by rw [hm k hk, h.mem k obj hk]⟩

theorem Agrees.perm (h : Agrees hash m b ps) (hp : ps.Perm ps') : Agrees hash m b ps' :=
  ⟨(hp.map Prod.fst).nodup_iff.1 h.nodup, fun p hp' => h.slotted p (hp.mem_iff.2 hp'),
    fun k obj hk => (h.mem k obj hk).trans hp.mem_iff⟩

theorem Agrees.eq_none (h : Agrees hash m b ps) (hk : slotRoot hash k = b) :
    m k = none ↔ k ∉ ps.map Prod.fst := by
  constructor
  · intro hm hmem
    obtain ⟨⟨k', obj⟩, hp, rfl⟩ := List.mem_map.1 hmem
    rw [(h.mem k' obj hk).2 hp] at hm
    cases hm
  · intro hmem
    cases hm : m k with
    | none => rfl
    | some obj => exact absurd (List.mem_map_of_mem ((h.mem k obj hk).1 hm)) hmem

theorem Agrees.filter (h : Agrees hash m b ps) (hk : slotRoot hash key = b) :
    Agrees hash (Function.update m key none) b (ps.filter fun p => p.1 ≠ key) := by
  refine ⟨(List.filter_sublist.map _).nodup h.nodup, fun p hp => h.slotted p (List.mem_of_mem_filter hp),
    fun k obj hkb => ?_⟩
  by_cases hkey : k = key
  · subst hkey
    simp
  · rw [Function.update_of_ne hkey, h.mem k obj hkb]
    simp [hkey]

theorem Agrees.cons (h : Agrees hash m b ps) (hk : slotRoot hash key = b) (hnew : m key = none) :
    Agrees hash (Function.update m key (some obj)) b ((key, obj) :: ps) := by
  have hmem := (h.eq_none hk).1 hnew
  refine ⟨List.nodup_cons.2 ⟨hmem, h.nodup⟩, ?_, fun k obj' hkb => ?_⟩
  · intro p hp
    rcases List.mem_cons.1 hp with rfl | hp
    · exact hk
    · exact h.slotted p hp
  · by_cases hkey : k = key
    · subst hkey
      rw [Function.update_self, List.mem_cons]
      constructor
      · intro he
        rw [Option.some.inj he]
        exact .inl rfl
      · rintro (he | hp)
        · rw [(Prod.mk.inj he).2]
        · exact absurd (List.mem_map_of_mem hp) hmem
    · rw [Function.update_of_ne hkey, h.mem k obj' hkb, List.mem_cons]
      exact ⟨.inr, fun hp => hp.resolve_left fun he => hkey (Prod.mk.inj he).1⟩

/-- An entry for the key, or none, in place of the old one. -/
theorem Agrees.replace (h : Agrees hash m b ps) (hk : slotRoot hash key = b) (e : Option (Option α)) :
    Agrees hash (Function.update m key e) b
      (e.toList.map (key, ·) ++ ps.filter fun p => p.1 ≠ key) := by
  have hf := h.filter hk
  cases e with
  | none => exact hf
  | some obj =>
    have hc : Agrees hash (Function.update (Function.update m key none) key (some obj)) b _ :=
      hf.cons hk (Function.update_self ..)
    rwa [Function.update_idem] at hc

/-- Keys of another slot do not matter. -/
theorem Agrees.update (h : Agrees hash m b ps) (hk : slotRoot hash key ≠ b) (e : Option (Option α)) :
    Agrees hash (Function.update m key e) b ps := by
  refine h.congr fun k hkb => Function.update_of_ne ?_ ..
  rintro rfl
  exact hk hkb

end Agrees

/-- A key is among the pairs once, if at all. -/
theorem length_filter_key {ps : List (Key × Option α)} (h : (ps.map Prod.fst).Nodup) (key : Key) :
    ps.length = (ps.filter fun p => p.1 ≠ key).length + if key ∈ ps.map Prod.fst then 1 else 0 := by
  induction ps with
  | nil => rfl
  | cons p ps ih =>
    rw [List.map_cons, List.nodup_cons] at h
    have hrest := ih h.2
    by_cases hp : p.1 = key
    · subst hp
      rw [if_neg h.1] at hrest
      simp only [List.map_cons, List.mem_cons, true_or, if_true, List.length_cons]
      rw [List.filter_cons_of_neg (by simp)]
      omega
    · have hmem : key ∈ (p :: ps).map Prod.fst ↔ key ∈ ps.map Prod.fst := by
        simp [Ne.symm hp]
      simp only [hmem]
      rw [List.filter_cons_of_pos (by simpa using hp), List.length_cons, List.length_cons]
      omega

/-! ## `set` on a bucket -/

/-- The bucket is well-formed and holds the entries of the map. -/
structure Inside (hash : Key → UInt64) (m : Entries α) (b : Fin 256) (content : Bucket α φ) : Prop where
  ok : content.Ok hash 1
  agrees : Agrees hash m b (pairsOf content)

variable {hash : Key → UInt64} {deleter : Deleter φ} {m m' : Entries α} {b : Fin 256}

theorem Inside.congr {content : Bucket α φ} (h : Inside hash m b content)
    (hm : ∀ k, slotRoot hash k = b → m' k = m k) : Inside hash m' b content :=
  ⟨h.ok, h.agrees.congr hm⟩

/-- What `set` leaves under its key -/
theorem setBucket_leaves (deleter d : Deleter φ) (obj : Option α) {old : Bucket α φ} {key : Key}
    (h : Inside hash m b old) (hk : slotRoot hash key = b) :
    ∃ e : Option (Option α),
      (pairsOf (setBucket (.create hash deleter) key obj d old).1).Perm
        (e.toList.map (key, ·) ++ (pairsOf old).filter fun p => p.1 ≠ key) ∧
      Act hash m (.set key obj) (Function.update m key e) (.inr .set) := by
  set self : Dictionary α φ := .create hash deleter
  have hresult : SetResult self key obj old 1 ⟨old.entries.length, []⟩
      (old.set self key obj d.given 1 _ _) :=
    set_result old _ le_rfl h.ok
  obtain ⟨new, hnew, hperm⟩ := hresult.entries
  cases obj with
  | some o =>
    rw [New] at hnew
    subst hnew
    exact ⟨some (some o), hperm, .set m key o⟩
  | none =>
    rcases hnew with rfl | rfl
    · exact ⟨none, hperm, .unset m key⟩
    · refine ⟨some none, hperm, ?_⟩
      -- the entry is new, and another one has the same hash
      obtain ⟨hnot, e, he, hpath⟩ := meets_of_set old le_rfl h.ok
        (List.mem_map.2 (by
          obtain ⟨e, he, hpair⟩ := List.mem_map.1 (hperm.mem_iff.2 (List.mem_cons_self ..))
          exact ⟨e, he, congrArg Prod.fst hpair⟩))
      have hfst : (pairsOf old).map Prod.fst = old.entries.map Entry.key := by
        rw [pairsOf, List.map_map]
        rfl
      have hpair : e.pair ∈ pairsOf old := List.mem_map_of_mem he
      have hslot : slotRoot hash e.key = b := h.agrees.slotted e.pair hpair
      refine .setNothing m key e.key ((h.agrees.eq_none hk).2 (hfst ▸ hnot)) ?_
        (hash_of_slotRoot (hslot.trans hk.symm) hpath)
      rw [Present, (h.agrees.mem e.key e.obj hslot).2 hpair]
      simp

theorem setBucket_eq (self : Dictionary α φ) (key : Key) (obj : Option α) (d : Deleter φ)
    (old : Bucket α φ) {r : Bucket α φ × Tally α φ}
    (hr : old.set self key obj d.given 1 (path self.hash key 1) ⟨old.entries.length, []⟩ = r) :
    setBucket self key obj d old = (r.1, if old.entries.length < r.2.count then .created
      else if r.2.count < old.entries.length then .removed else .kept) := by
  subst hr
  rfl

/-- `set` on a bucket of the map is `set` on the map, and tells how the number of entries changes. -/
theorem setBucket_act (deleter d : Deleter φ) (obj : Option α) {old : Bucket α φ} {key : Key}
    {n : ℕ} (h : Inside hash m b old) (hk : slotRoot hash key = b) (hn : Census Present m n) :
    ∃ e : Option (Option α), Act hash m (.set key obj) (Function.update m key e) (.inr .set) ∧
      Inside hash (Function.update m key e) b
        (setBucket (.create hash deleter) key obj d old).1 ∧
      Census Present (Function.update m key e)
        ((setBucket (.create hash deleter) key obj d old).2.apply n) := by
  obtain ⟨e, hperm, hact⟩ := setBucket_leaves deleter d obj h hk
  have hresult : SetResult (.create hash deleter) key obj old 1 ⟨old.entries.length, []⟩
      (old.set (.create hash deleter) key obj d.given 1 _ _) :=
    set_result old _ le_rfl h.ok
  refine ⟨e, hact, ⟨hresult.ok, (h.agrees.replace hk e).perm hperm.symm⟩, ?_⟩
  obtain ⟨r, hr⟩ : ∃ r, old.set (.create hash deleter) key obj d.given 1
    (path (Dictionary.create hash deleter : Dictionary α φ).hash key 1)
      ⟨old.entries.length, []⟩ = r := ⟨_, rfl⟩
  rw [setBucket_eq _ _ _ _ _ hr] at hperm ⊢
  rw [hr] at hresult
  dsimp only at hperm ⊢
  -- the counter of the call is the number of entries that are there afterwards
  have hcount : r.2.count + old.entries.length = old.entries.length + r.1.entries.length :=
    hresult.count le_rfl
  have hold := length_filter_key h.agrees.nodup key
  have hlen := hperm.length_eq
  have hpairs : ∀ b : Bucket α φ, (pairsOf b).length = b.entries.length :=
    fun b => List.length_map ..
  rw [hpairs, List.length_append, List.length_map] at hlen
  rw [hpairs] at hold
  have hmk := h.agrees.eq_none hk
  by_cases hnone : m key = none
  · rw [if_neg (hmk.1 hnone)] at hold
    cases e with
    | none =>
      have hr : r.2.count = old.entries.length := by
        simp only [Option.toList_none, List.length_nil] at hlen
        omega
      rw [hr, if_neg (Nat.lt_irrefl _), if_neg (Nat.lt_irrefl _)]
      exact hn.keep (by simp [Present, hnone])
    | some o =>
      have hr : r.2.count = old.entries.length + 1 := by
        simp only [Option.toList_some, List.length_singleton] at hlen
        omega
      rw [hr, if_pos (Nat.lt_succ_self _)]
      exact hn.enter (by simp [Present, hnone]) (by simp [Present])
  · rw [if_pos (by rwa [hmk, not_not] at hnone)] at hold
    cases e with
    | none =>
      have hr : r.2.count + 1 = old.entries.length := by
        simp only [Option.toList_none, List.length_nil] at hlen
        omega
      rw [if_neg (by omega), if_pos (by omega)]
      exact hn.leave hnone (by simp [Present])
    | some o =>
      have hr : r.2.count = old.entries.length := by
        simp only [Option.toList_some, List.length_singleton] at hlen
        omega
      rw [hr, if_neg (Nat.lt_irrefl _), if_neg (Nat.lt_irrefl _)]
      exact hn.keep (iff_of_true (by simp [Present]) hnone)

/-! ## Where a thread is -/

/-- The lock that a task waits for or holds -/
def Fits (hash : Key → UInt64) : Task α φ → Pc → Prop
  | .get key found, p => p = .get (slotRoot hash key) ∨
      found = none ∧ (p = .getLoad (slotRoot hash key) ∨ ∃ res, p = .getCas (slotRoot hash key) res)
  | .set key _ _ work, p => p = .set (slotRoot hash key) ∨
      work = .start ∧ p = .setCas (slotRoot hash key)
  | .remove _ _ work, p => ∃ b, p = .removeAll b ∨ work = .start ∧ p = .removeCas b
  | _, p => p = .idle

/-- The bucket that `removeAll` has come to -/
def bucketOf : Pc → Fin 256
  | .removeCas b | .removeAll b => b
  | _ => 0

/-- What the call of a thread still does to the map, or its result. -/
def Task.phase (p : Pc) : Task α φ → Phase (Op α) (Result α)
  | .idle => .idle
  | .done r => .done r
  | .count => .active .count
  | .load matcher => .active (.removeAll matcher)
  | .get key none => .active (.get key)
  | .get _ (some obj) => .done (.object obj)
  | .set key obj _ .start | .set key obj _ (.busy _ (_ :: _)) => .active (.set key obj)
  | .set _ _ _ _ => .done .set
  | .remove matcher n .leave =>
      if h : (bucketOf p).val + 1 < 256 then .active (.removing matcher ⟨(bucketOf p).val + 1, h⟩ n)
      else .done (.removed n)
  | .remove matcher n _ => .active (.removing matcher (bucketOf p) n)

/-- How far the map is ahead of the bucket that a thread changes. -/
def Claim (hash : Key → UInt64) (deleter : Deleter φ) (m : Entries α) (b : Fin 256) :
    Task α φ → Prop
  | .set key obj d (.busy new changes) => slotRoot hash key = b ∧
      (changes = [] ∧ Inside hash m b new ∨ ∃ old c, changes = [c] ∧ Inside hash m b old ∧
        setBucket (.create hash deleter) key obj d old = (new, c))
  | .remove matcher _ (.busy new changes) => new.Ok hash 1 ∧
      ∃ gone : List (Key × Option α), changes = gone.map (fun _ => .removed) ∧
        Agrees hash m b (gone ++ pairsOf new) ∧ (∀ p ∈ gone, matcher p.1 p.2 = true) ∧
        ∀ p ∈ pairsOf new, matcher p.1 p.2 = false
  | _ => True

theorem Claim.congr {task : Task α φ} (h : Claim hash deleter m b task)
    (hm : ∀ k, slotRoot hash k = b → m' k = m k) : Claim hash deleter m' b task := by
  cases task with
  | set key obj d work =>
    cases work with
    | busy new changes =>
      obtain ⟨hk, ⟨hc, hin⟩ | ⟨old, c, hc, hin, heq⟩⟩ := h
      · exact ⟨hk, .inl ⟨hc, hin.congr hm⟩⟩
      · exact ⟨hk, .inr ⟨old, c, hc, hin.congr hm, heq⟩⟩
    | _ => trivial
  | remove matcher n work =>
    cases work with
    | busy new changes =>
      obtain ⟨hok, gone, hc, hag, hgone, hstay⟩ := h
      exact ⟨hok, gone, hc, hag.congr hm, hgone, hstay⟩
    | _ => trivial
  | _ => trivial

theorem claim_of_not_busy {task : Task α φ} (h : task.busy = false) : Claim hash deleter m b task := by
  cases task with
  | set key obj d work =>
    cases work with
    | busy new changes => cases h
    | _ => trivial
  | remove matcher n work =>
    cases work with
    | busy new changes => cases h
    | _ => trivial
  | _ => trivial

/-- The map `m` is what the buckets hold and what writers are about to make of them. -/
structure Rel (hash : Key → UInt64) (deleter : Deleter φ) (s : State T α φ) (m : Entries α)
    (ph : T → Phase (Op α) (Result α)) : Prop where
  locks : BucketLocks.Inv s.locks
  fits : ∀ t, Fits hash (s.task t) (s.locks.pc t)
  phase : ∀ t, ph t = (s.task t).phase (s.locks.pc t)
  clean : ∀ b, (∀ t, (s.locks.pc t).Writes b → (s.task t).busy = false) →
    Inside hash m b (s.buckets b)
  claim : ∀ t b, (s.locks.pc t).Writes b → Claim hash deleter m b (s.task t)
  count : Census Present m s.count

section Rel

variable [DecidableEq T] {s s' : State T α φ} {ph : T → Phase (Op α) (Result α)} {t u : T} {p : Pc}
variable {w : Task α φ}

omit [DecidableEq T] in
theorem writes_unique {pc : T → Pc} {r : ℤ} (h : Held b r pc) (ht : (pc t).Writes b)
    (hu : (pc u).Writes b) : u = t := by
  cases h with
  | shared n hr hreaders hw => exact absurd ht (hw t)
  | owned v hr hv honly hn => exact (honly u hu).trans (honly t ht).symm

omit [DecidableEq T] in
theorem not_writes_of_reads {pc : T → Pc} {r : ℤ} (h : Held b r pc) (ht : (pc t).Reads b) :
    ¬ (pc u).Writes b := by
  cases h with
  | shared n hr hreaders hw => exact hw u
  | owned v hr hv honly hn => exact absurd ht (hn t)

theorem fits_update (h : Rel hash deleter s m ph) (hf : Fits hash w p) (u : T) :
    Fits hash (Function.update s.task t w u) (Function.update s.locks.pc t p u) := by
  by_cases hu : u = t
  · rw [hu, Function.update_self, Function.update_self]
    exact hf
  · rw [Function.update_of_ne hu, Function.update_of_ne hu]
    exact h.fits u

theorem phase_update (h : Rel hash deleter s m ph) (u : T) :
    Function.update ph t (w.phase p) u =
      (Function.update s.task t w u).phase (Function.update s.locks.pc t p u) := by
  by_cases hu : u = t
  · rw [hu, Function.update_self, Function.update_self, Function.update_self]
  · rw [Function.update_of_ne hu, Function.update_of_ne hu, Function.update_of_ne hu]
    exact h.phase u

/-- A step of a thread that does not touch the entries -/
theorem Rel.quiet (h : Rel hash deleter s m ph) {l : BucketLocks.State T}
    (hinv : BucketLocks.Inv l) (hpc : l.pc = Function.update s.locks.pc t p)
    (hold : (s.task t).busy = false) (hnew : w.busy = false) (hfits : Fits hash w p) :
    Rel hash deleter ({ s with locks := l }.doing t w) m
      (Function.update ph t (w.phase p)) := by
  constructor
  case locks => exact hinv
  case fits =>
    intro u
    simp only [State.doing, hpc]
    exact fits_update h hfits u
  case phase =>
    intro u
    simp only [State.doing, hpc]
    exact phase_update h u
  case clean =>
    intro b hfree
    refine h.clean b fun u hu => ?_
    by_cases hut : u = t
    · rw [hut]
      exact hold
    · have := hfree u
      simp only [State.doing, hpc, Function.update_of_ne hut] at this
      exact this hu
  case claim =>
    intro u b hu
    by_cases hut : u = t
    · simp only [State.doing, hut, Function.update_self]
      exact claim_of_not_busy hnew
    · simp only [State.doing, hpc, Function.update_of_ne hut] at hu ⊢
      exact h.claim u b hu
  case count => exact h.count

/-- A step of a writer in its bucket: only there the map changes. -/
theorem Rel.within (h : Rel hash deleter s m ph) (hw : (s.locks.pc t).Writes b)
    (hm : ∀ k, slotRoot hash k ≠ b → m' k = m k) {n : ℕ} {c : Bucket α φ}
    (hfits : Fits hash w (s.locks.pc t)) (hclaim : Claim hash deleter m' b w)
    (hclean : w.busy = false → Inside hash m' b c) (hcount : Census Present m' n) :
    Rel hash deleter (({ s with count := n }.write b c).doing t w) m'
      (Function.update ph t (w.phase (s.locks.pc t))) := by
  have hpc : Function.update s.locks.pc t (s.locks.pc t) = s.locks.pc := Function.update_eq_self ..
  have hother : ∀ b', b' ≠ b → ∀ k, slotRoot hash k = b' → m' k = m k := by
    rintro b' hb' k rfl
    exact hm k hb'
  constructor
  case locks => exact h.locks
  case fits =>
    intro u
    have := fits_update (t := t) h hfits u
    rwa [hpc] at this
  case phase =>
    intro u
    have := phase_update h (w := w) (t := t) (p := s.locks.pc t) u
    rwa [hpc] at this
  case clean =>
    intro b' hfree
    by_cases hb : b' = b
    · subst hb
      have ht := hfree t hw
      simp only [State.doing, State.write, Function.update_self] at ht ⊢
      exact hclean ht
    · simp only [State.doing, State.write, Function.update_of_ne hb]
      refine (h.clean b' fun u hu => ?_).congr (hother b' hb)
      have hut : u ≠ t := by
        rintro rfl
        have := (at_of_writes hu).symm.trans (at_of_writes hw)
        exact hb (Option.some.inj this)
      have := hfree u hu
      simpa only [State.doing, State.write, Function.update_of_ne hut] using this
  case claim =>
    intro u b' hu
    by_cases hut : u = t
    · subst hut
      have := (at_of_writes hu).symm.trans (at_of_writes hw)
      obtain rfl : b' = b := Option.some.inj this
      simp only [State.doing, Function.update_self]
      exact hclaim
    · have hb : b' ≠ b := by
        rintro rfl
        exact hut (writes_unique (h.locks b') hw hu)
      simp only [State.doing, Function.update_of_ne hut]
      exact (h.claim u b' hu).congr (hother b' hb)
  case count => exact hcount

/-! ## The steps of the locks -/

/-- Where the next access to a lock leads. -/
def Next : Pc → Pc → Prop
  | .idle, _ => False
  | .getLoad b, p | .getCas b _, p => p = .get b ∨ p = .getLoad b ∨ ∃ res, p = .getCas b res
  | .setCas b, p => p = .set b ∨ p = .setCas b
  | .removeCas b, p => p = .removeAll b ∨ p = .removeCas b
  | .get _, p | .set _, p => p = .idle
  | .removeAll b, p => (∃ h : b.val + 1 < 256, p = .removeCas ⟨b.val + 1, h⟩) ∨
      ¬ b.val + 1 < 256 ∧ p = .idle

theorem pc_expect (s : BucketLocks.State T) (b : Fin 256) (res : ℤ) :
    ∃ p, (s.expect t b res).pc = Function.update s.pc t p ∧
      (p = .getLoad b ∨ ∃ res, p = .getCas b res) := by
  unfold State.expect
  split_ifs
  · exact ⟨_, rfl, .inr ⟨_, rfl⟩⟩
  · exact ⟨_, rfl, .inl rfl⟩

theorem pc_reserve (s : BucketLocks.State T) (b : Fin 256) (spurious : Bool) (p : Pc) :
    ∃ p', (s.reserve t b spurious p).pc = Function.update s.pc t p' ∧ (p' = p ∨ p' = s.pc t) := by
  unfold State.reserve
  split_ifs
  · exact ⟨p, rfl, .inl rfl⟩
  · exact ⟨s.pc t, (Function.update_eq_self ..).symm, .inr rfl⟩

theorem pc_runThread {l l' : BucketLocks.State T} {spurious : Bool}
    (hs : runThread l t spurious = some l') :
    ∃ p, l'.pc = Function.update l.pc t p ∧ Next (l.pc t) p := by
  unfold runThread at hs
  cases hpc : l.pc t with
  | idle =>
    rw [hpc] at hs
    cases hs
  | getLoad b =>
    rw [hpc] at hs
    obtain rfl := Option.some.inj hs
    obtain ⟨p, hp, hnext⟩ := pc_expect (t := t) l b (l.reserved b)
    exact ⟨p, hp, .inr hnext⟩
  | getCas b res =>
    rw [hpc] at hs
    dsimp only at hs
    split_ifs at hs
    · obtain rfl := Option.some.inj hs
      exact ⟨.get b, rfl, .inl rfl⟩
    · obtain rfl := Option.some.inj hs
      obtain ⟨p, hp, hnext⟩ := pc_expect (t := t) l b (l.reserved b)
      exact ⟨p, hp, .inr hnext⟩
  | setCas b =>
    rw [hpc] at hs
    obtain rfl := Option.some.inj hs
    obtain ⟨p, hp, hnext⟩ := pc_reserve (t := t) l b spurious (.set b)
    rw [hpc] at hnext
    exact ⟨p, hp, hnext⟩
  | removeCas b =>
    rw [hpc] at hs
    obtain rfl := Option.some.inj hs
    obtain ⟨p, hp, hnext⟩ := pc_reserve (t := t) l b spurious (.removeAll b)
    rw [hpc] at hnext
    exact ⟨p, hp, hnext⟩
  | get b | set b =>
    rw [hpc] at hs
    obtain rfl := Option.some.inj hs
    exact ⟨.idle, rfl, rfl⟩
  | removeAll b =>
    rw [hpc] at hs
    dsimp only at hs
    split_ifs at hs with hlast
    · obtain rfl := Option.some.inj hs
      exact ⟨_, rfl, .inl ⟨hlast, rfl⟩⟩
    · obtain rfl := Option.some.inj hs
      exact ⟨_, rfl, .inr ⟨hlast, rfl⟩⟩

theorem locks_call {l l' : BucketLocks.State T} {a : BucketLocks.Action T}
    (h : BucketLocks.Inv l) (hs : BucketLocks.step l a = some l') : BucketLocks.Inv l' :=
  h.step (a := a) hs

/-- The next access to a lock, with the task it leaves -/
theorem Rel.access (h : Rel hash deleter s m ph) {spurious : Bool} (hs : s.lock t spurious = some s')
    (hold : (s.task t).busy = false) :
    ∃ p, s'.locks.pc t = p ∧ Next (s.locks.pc t) p ∧
      ∀ task : Task α φ, task.busy = false → Fits hash task p →
        Rel hash deleter (s'.doing t task) m (Function.update ph t (task.phase p)) := by
  obtain ⟨l, hl, rfl⟩ := Option.map_eq_some_iff.1 hs
  obtain ⟨p, hp, hnext⟩ := pc_runThread hl
  refine ⟨p, ?_, hnext, fun task hnew hfits => h.quiet (h.locks.run hl) hp hold hnew hfits⟩
  show l.pc t = p
  rw [hp, Function.update_self]

/-! ## Steps -/

/-- A step that the map does not see -/
theorem stutter (h : Rel hash deleter s m ph) (hp : w.phase p = (s.task t).phase (s.locks.pc t)) :
    (sharedMap hash).Path m ph [] m (Function.update ph t (w.phase p)) := by
  rw [hp, ← h.phase, Function.update_eq_self]
  exact .refl

/-- The step at which a call happens -/
theorem happen (h : Rel hash deleter s m ph) {o : Op α} {r : Result α}
    (hop : (s.task t).phase (s.locks.pc t) = .active o) (ha : Act hash m o m' (.inr r)) :
    (sharedMap hash).Path m ph [] m' (Function.update ph t (.done r)) :=
  .single (.finish ((h.phase t).trans hop) ha)

/-- One of the actions of `removeAll` -/
theorem advance (h : Rel hash deleter s m ph) {op op' : Op α}
    (hop : (s.task t).phase (s.locks.pc t) = .active op) (ha : Act hash m op m' (.inl op')) :
    (sharedMap hash).Path m ph [] m' (Function.update ph t (.active op')) :=
  .single (.act ((h.phase t).trans hop) ha)

theorem doing_self (s : State T α φ) (t : T) : s.doing t (s.task t) = s := by
  rw [State.doing, Function.update_eq_self]

/-- A thread that waits for a lock, or takes it -/
theorem waiting_rel (h : Rel hash deleter s m ph) {spurious : Bool}
    (hs : s.lock t spurious = some s') (hold : (s.task t).busy = false)
    (hfits : ∀ p, Next (s.locks.pc t) p → Fits hash (s.task t) p ∧
      (s.task t).phase p = (s.task t).phase (s.locks.pc t)) :
    ∃ m' ph', (sharedMap hash).Path m ph [] m' ph' ∧ Rel hash deleter s' m' ph' := by
  obtain ⟨p, -, hnext, hrel⟩ := h.access hs hold
  obtain ⟨hf, hphase⟩ := hfits p hnext
  have hrel := hrel (s.task t) hold hf
  have htask : s'.doing t (s.task t) = s' := by
    obtain ⟨l, -, rfl⟩ := Option.map_eq_some_iff.1 hs
    exact doing_self _ t
  rw [htask] at hrel
  exact ⟨m, _, stutter h hphase, hrel⟩

/-- A lookup in the map -/
theorem Inside.get {content : Bucket α φ} (h : Inside hash m b content) {key : Key}
    (hk : slotRoot hash key = b) :
    content.get key 1 ((hash key).toNat >>> 8) = (m key).join := by
  have hfind : content.get key 1 ((hash key).toNat >>> 8) = findList key content.entries :=
    get_eq_find key content h.ok
  rw [hfind]
  have hnd : (content.entries.map Entry.key).Nodup := nodup_entries content h.ok
  have hmem := h.agrees.mem key
  cases hm : m key with
  | none =>
    refine findList_eq_none fun hin => ?_
    obtain ⟨e, he, rfl⟩ := List.mem_map.1 hin
    have := (hmem e.obj hk).2 (List.mem_map_of_mem he)
    rw [hm] at this
    cases this
  | some obj => exact findList_of_mem hnd ((hmem obj hk).1 hm)

theorem getBody_rel (h : Rel hash deleter s m ph) {spurious : Bool} {key : Key}
    {found : Option (Option α)} (htask : s.task t = .get key found)
    (hpc : s.locks.pc t = .get (slotRoot hash key))
    (hs : getBody (.create hash deleter) s t spurious (slotRoot hash key) key found = some s') :
    ∃ m' ph', (sharedMap hash).Path m ph [] m' ph' ∧ Rel hash deleter s' m' ph' := by
  cases found with
  | none =>
    obtain rfl := Option.some.inj hs
    have hfree : ∀ u, ¬ (s.locks.pc u).Writes (slotRoot hash key) :=
      fun u => not_writes_of_reads (h.locks (slotRoot hash key)) (t := t) hpc
    have hget := (h.clean _ fun u hu => absurd hu (hfree u)).get rfl
    refine ⟨m, _, happen h (t := t) (o := .get key) (by rw [htask]; rfl) (.get m key), ?_⟩
    have hrel := h.quiet (t := t) (l := s.locks) (p := s.locks.pc t)
      (w := .get key (some (m key).join)) h.locks (Function.update_eq_self ..).symm
      (by rw [htask]; rfl) rfl (.inl hpc)
    have hobj : (s.buckets (slotRoot hash key)).get key 1
        (((Dictionary.create hash deleter : Dictionary α φ).hash key).toNat >>> 8) =
          (m key).join := hget
    rw [hobj]
    exact hrel
  | some obj =>
    obtain ⟨s₁, hs₁, rfl⟩ := Option.map_eq_some_iff.1 hs
    obtain ⟨p, -, hnext, hrel⟩ := h.access hs₁ (by rw [htask]; rfl)
    rw [hpc] at hnext
    exact ⟨m, _, stutter h (p := p) (w := .done (.object obj)) (by rw [htask]; rfl),
      hrel _ rfl hnext⟩

theorem setBody_rel (h : Rel hash deleter s m ph) {spurious : Bool} {key : Key} {obj : Option α}
    {d : Deleter φ} {work : Work α φ} (htask : s.task t = .set key obj d work)
    (hpc : s.locks.pc t = .set (slotRoot hash key))
    (hs : setBody (.create hash deleter) s t spurious (slotRoot hash key) key obj d work = some s') :
    ∃ m' ph', (sharedMap hash).Path m ph [] m' ph' ∧ Rel hash deleter s' m' ph' := by
  have hw : (s.locks.pc t).Writes (slotRoot hash key) := .inl hpc
  have hfits : ∀ work : Work α φ, Fits hash (.set key obj d work) (s.locks.pc t) :=
    fun _ => .inl hpc
  cases work with
  | start =>
    obtain rfl := Option.some.inj hs
    -- nobody else writes here, and this thread has not begun
    have hin : Inside hash m (slotRoot hash key) (s.buckets (slotRoot hash key)) := by
      refine h.clean _ fun u hu => ?_
      rw [writes_unique (h.locks _) hw hu, htask]
      rfl
    obtain ⟨new, c, heq⟩ : ∃ new c, setBucket (.create hash deleter) key obj d
      (s.buckets (slotRoot hash key)) = (new, c) := ⟨_, _, rfl⟩
    simp only [heq]
    refine ⟨m, _, stutter h (p := s.locks.pc t) (w := .set key obj d (.busy new [c]))
      (by rw [htask]; rfl), ?_⟩
    have hrel := h.within (t := t) (n := s.count) (c := s.buckets (slotRoot hash key))
      (w := .set key obj d (.busy new [c])) hw (fun _ _ => rfl) (hfits _)
      ⟨rfl, .inr ⟨_, c, rfl, hin, heq⟩⟩ (fun hb => by cases hb) h.count
    rwa [State.write, Function.update_eq_self] at hrel
  | busy new changes =>
    have hclaim := h.claim t _ hw
    rw [htask] at hclaim
    obtain ⟨-, hclaim⟩ := hclaim
    cases changes with
    | nil =>
      obtain rfl := Option.some.inj hs
      have hin : Inside hash m (slotRoot hash key) new := by
        rcases hclaim with ⟨-, hin⟩ | ⟨old, c, hc, -⟩
        · exact hin
        · cases hc
      exact ⟨m, _, stutter h (p := s.locks.pc t) (w := .set key obj d .leave) (by rw [htask]; rfl),
        h.within (t := t) hw (fun _ _ => rfl) (hfits _) trivial (fun _ => hin) h.count⟩
    | cons c cs =>
      obtain rfl := Option.some.inj hs
      obtain ⟨hc, -⟩ | ⟨old, c', hc, hin, heq⟩ := hclaim
      · cases hc
      obtain ⟨rfl, rfl⟩ := List.cons.inj hc
      obtain ⟨e, hact, hin', hcount⟩ := setBucket_act deleter d obj hin rfl h.count
      rw [heq] at hin' hcount
      refine ⟨_, _, happen h (t := t) (o := .set key obj) (by rw [htask]; rfl) hact, ?_⟩
      have hrel := h.within (t := t) (c := s.buckets (slotRoot hash key))
        (w := .set key obj d (.busy new [])) hw
        (fun k hk => Function.update_of_ne (fun hkey => hk (congrArg (slotRoot hash) hkey)) ..)
        (hfits _) ⟨rfl, .inl ⟨rfl, hin'⟩⟩ (fun hb => by cases hb) hcount
      rwa [State.write, Function.update_eq_self] at hrel
  | leave =>
    obtain ⟨s₁, hs₁, rfl⟩ := Option.map_eq_some_iff.1 hs
    obtain ⟨p, -, hnext, hrel⟩ := h.access hs₁ (by rw [htask]; rfl)
    rw [hpc] at hnext
    exact ⟨m, _, stutter h (p := p) (w := .done .set) (by rw [htask]; rfl), hrel _ rfl hnext⟩

theorem removeBody_rel (h : Rel hash deleter s m ph) {spurious : Bool}
    {matcher : Key → Option α → Bool} {n : ℕ} {work : Work α φ}
    (htask : s.task t = .remove matcher n work) (hpc : s.locks.pc t = .removeAll b)
    (hs : removeBody s t spurious b matcher n work = some s') :
    ∃ m' ph', (sharedMap hash).Path m ph [] m' ph' ∧ Rel hash deleter s' m' ph' := by
  have hw : (s.locks.pc t).Writes b := .inr hpc
  have hfits : ∀ n, ∀ work : Work α φ, Fits hash (.remove matcher n work) (s.locks.pc t) :=
    fun _ _ => ⟨b, .inl hpc⟩
  have hbucket : bucketOf (s.locks.pc t) = b := by
    rw [hpc]
    rfl
  cases work with
  | start =>
    obtain rfl := Option.some.inj hs
    have hin : Inside hash m b (s.buckets b) := by
      refine h.clean _ fun u hu => ?_
      rw [writes_unique (h.locks _) hw hu, htask]
      rfl
    obtain ⟨hok, hstay, hgone⟩ := removeAll_bucket matcher (s.buckets b) hin.ok
    obtain ⟨new, gone, heq⟩ : ∃ new gone, (s.buckets b).removeAll matcher 1 = (new, gone) :=
      ⟨_, _, rfl⟩
    rw [heq] at hok hstay hgone
    dsimp only at hok hstay hgone
    simp only [heq]
    refine ⟨m, _, stutter h (p := s.locks.pc t)
      (w := .remove matcher n (.busy new (gone.map fun _ => .removed))) (by rw [htask]; rfl), ?_⟩
    have hclaim : Claim hash deleter m b
        (.remove matcher n (.busy new (gone.map fun _ => .removed)) : Task α φ) := by
      refine ⟨hok, gone.map Entry.pair, by rw [List.map_map]; rfl, hin.agrees.perm ?_, ?_, ?_⟩
      · -- those that go and those that stay are all of them
        have hperm := List.filter_append_perm (fun e : Entry α φ => matcher e.key e.obj)
          (s.buckets b).entries
        rw [pairsOf, pairsOf, ← List.map_append]
        refine (List.Perm.map _ ?_).symm
        rw [hgone, hstay]
        exact hperm
      · intro p hp
        obtain ⟨e, he, rfl⟩ := List.mem_map.1 hp
        rw [hgone] at he
        exact (List.mem_filter.1 he).2
      · intro p hp
        obtain ⟨e, he, rfl⟩ := List.mem_map.1 hp
        rw [hstay] at he
        simpa [Entry.pair] using (List.mem_filter.1 he).2
    have hrel := h.within (t := t) (n := s.count) (c := s.buckets b)
      (w := .remove matcher n (.busy new (gone.map fun _ => .removed))) hw (fun _ _ => rfl)
      (hfits _ _) hclaim (fun hb => by cases hb) h.count
    rwa [State.write, Function.update_eq_self] at hrel
  | busy new changes =>
    have hclaim := h.claim t _ hw
    rw [htask] at hclaim
    obtain ⟨hok, gone, hc, hag, hgone, hstay⟩ := hclaim
    have hphase : (s.task t).phase (s.locks.pc t) = .active (.removing matcher b n) := by
      rw [htask, ← hbucket]
      rfl
    cases changes with
    | nil =>
      obtain rfl := Option.some.inj hs
      obtain rfl : gone = [] := List.map_eq_nil_iff.1 hc.symm
      have hclear : Cleared hash matcher b m := by
        intro k obj hk hm
        exact hstay (k, obj) ((hag.mem k obj hk).1 hm)
      have hrel := h.within (t := t) (n := s.count) (c := new)
        (w := .remove matcher n .leave) hw (fun _ _ => rfl) (hfits _ _) trivial
        (fun _ => ⟨hok, hag⟩) h.count
      refine ⟨m, _, ?_, hrel⟩
      by_cases hlast : b.val + 1 < 256
      · have hleave : (Task.remove matcher n .leave : Task α φ).phase (s.locks.pc t) =
            .active (.removing matcher ⟨b.val + 1, hlast⟩ n) := by
          simp only [Task.phase, hbucket, hlast, dif_pos]
        rw [hleave]
        exact advance h hphase (.next m matcher b ⟨b.val + 1, hlast⟩ n hclear rfl)
      · have hleave : (Task.remove matcher n .leave : Task α φ).phase (s.locks.pc t) =
            .done (.removed n) := by
          simp only [Task.phase, hbucket, hlast, dif_neg, not_false_eq_true]
        rw [hleave]
        exact happen h hphase (.finish m matcher b n hclear hlast)
    | cons c cs =>
      obtain rfl := Option.some.inj hs
      cases gone with
      | nil => cases hc
      | cons p gone =>
        obtain ⟨rfl, rfl⟩ := List.cons.inj hc
        obtain ⟨k, obj⟩ := p
        have hk : slotRoot hash k = b := hag.slotted (k, obj) (by simp)
        have hm : m k = some obj := (hag.mem k obj hk).2 (by simp)
        have hfilter : ((k, obj) :: gone ++ pairsOf new).filter (fun p => p.1 ≠ k) =
            gone ++ pairsOf new := by
          have hnd := hag.nodup
          rw [List.cons_append, List.map_cons, List.nodup_cons] at hnd
          rw [List.cons_append, List.filter_cons_of_neg (by simp)]
          refine List.filter_eq_self.2 fun p hp => ?_
          simp only [ne_eq, decide_eq_true_eq]
          intro hpk
          exact hnd.1 (List.mem_map.2 ⟨p, hp, hpk⟩)
        have hag' := hag.filter hk
        rw [hfilter] at hag'
        have hrel := h.within (t := t) (c := s.buckets b) (n := s.count - 1)
          (w := .remove matcher (n + 1) (.busy new (gone.map fun _ => .removed))) hw
          (fun k' hk' => Function.update_of_ne (fun he => hk' ((congrArg _ he).trans hk)) ..)
          (hfits _ _)
          ⟨hok, gone, rfl, hag', fun p hp => hgone p (List.mem_cons_of_mem _ hp), hstay⟩
          (fun hb => by cases hb) (h.count.leave (by simp [Present, hm]) (by simp [Present]))
        rw [State.write, Function.update_eq_self] at hrel
        refine ⟨_, _, ?_, hrel⟩
        have hbusy : (Task.remove matcher (n + 1) (.busy new (gone.map fun _ => .removed)) :
            Task α φ).phase (s.locks.pc t) = .active (.removing matcher b (n + 1)) := by
          rw [← hbucket]
          rfl
        rw [hbusy]
        exact advance h hphase (.remove m matcher b n k obj hk hm (hgone (k, obj) (by simp)))
  | leave =>
    obtain ⟨s₁, hs₁, rfl⟩ := Option.map_eq_some_iff.1 hs
    obtain ⟨p, hp, hnext, hrel⟩ := h.access hs₁ (by rw [htask]; rfl)
    rw [hpc] at hnext
    rw [hp]
    rcases hnext with ⟨hlast, rfl⟩ | ⟨hlast, rfl⟩
    · rw [if_neg (by simp)]
      refine ⟨m, _, stutter h (p := .removeCas ⟨b.val + 1, hlast⟩)
        (w := .remove matcher n .start) ?_, hrel _ rfl ⟨_, .inr ⟨rfl, rfl⟩⟩⟩
      rw [htask]
      simp only [Task.phase, hbucket, hlast, dif_pos]
      rfl
    · rw [if_pos rfl]
      refine ⟨m, _, stutter h (p := .idle) (w := .done (.removed n)) ?_, hrel _ rfl rfl⟩
      rw [htask]
      simp only [Task.phase, hbucket, hlast, dif_neg, not_false_eq_true]

theorem busy_start {key : Key} {obj : Option α} {d : Deleter φ} {work : Work α φ}
    (h : work = .start) : (Task.set key obj d work).busy = false := by
  subst h
  rfl

theorem runTask_rel (h : Rel hash deleter s m ph) {spurious : Bool}
    (hs : runTask (.create hash deleter) s t spurious = some s') :
    ∃ m' ph', (sharedMap hash).Path m ph (seen s (.run t spurious)) m' ph' ∧
      Rel hash deleter s' m' ph' := by
  have hfits := h.fits t
  cases htask : s.task t with
  | idle => simp [runTask, htask] at hs
  | done r =>
    rw [runTask, htask] at hs
    obtain rfl := Option.some.inj hs
    rw [htask] at hfits
    simp only [seen, htask]
    exact ⟨m, _, .single (.ret (by rw [h.phase, htask]; rfl)),
      h.quiet (l := s.locks) (p := s.locks.pc t) (w := .idle) h.locks
        (Function.update_eq_self ..).symm (by rw [htask]; rfl) rfl hfits⟩
  | count =>
    rw [runTask, htask] at hs
    obtain rfl := Option.some.inj hs
    rw [htask] at hfits
    simp only [seen, htask]
    exact ⟨m, _, happen h (o := .count) (by rw [htask]; rfl) (.count m s.count h.count),
      h.quiet (l := s.locks) (p := s.locks.pc t) (w := .done (.count s.count)) h.locks
        (Function.update_eq_self ..).symm (by rw [htask]; rfl) rfl hfits⟩
  | load matcher =>
    rw [runTask, htask] at hs
    obtain ⟨l, hl, rfl⟩ := Option.map_eq_some_iff.1 hs
    rw [htask] at hfits
    simp only [seen, htask]
    have hinv := locks_call h.locks hl
    simp only [BucketLocks.step] at hl
    split_ifs at hl with hidle
    obtain rfl := Option.some.inj hl
    have hphase : (s.task t).phase (s.locks.pc t) = .active (.removeAll matcher) := by
      rw [htask]
      rfl
    by_cases hz : s.count = 0
    · rw [if_pos hz]
      have hcount := h.count
      rw [hz] at hcount
      exact ⟨m, _, happen h hphase (.removeNone m matcher hcount),
        h.quiet (p := .idle) (w := .done (.removed 0)) hinv (by simp [Call.start, hz, State.goto])
          (by rw [htask]; rfl) rfl rfl⟩
    · rw [if_neg hz]
      -- some key has an entry
      obtain ⟨k, hk⟩ : ∃ k, Present (m k) := by
        obtain ⟨S, hS, hcard⟩ := h.count
        obtain ⟨k, hk⟩ := Finset.card_pos.1 (by omega : 0 < S.card)
        exact ⟨k, (hS k).1 hk⟩
      exact ⟨m, _, advance h hphase (.removeSome m matcher k hk),
        h.quiet (p := .removeCas 0) (w := .remove matcher 0 .start) hinv
          (by simp [Call.start, hz, State.goto]) (by rw [htask]; rfl) rfl ⟨0, .inr ⟨rfl, rfl⟩⟩⟩
  | get key found =>
    rw [htask] at hfits
    rw [runTask, htask] at hs
    simp only [seen, htask]
    rcases hfits with hpc | ⟨rfl, hpc⟩
    · simp only [hpc] at hs
      exact getBody_rel h htask hpc hs
    · have hlock : s.lock t spurious = some s' := by
        rcases hpc with hpc | ⟨res, hpc⟩ <;> simpa only [hpc] using hs
      refine waiting_rel h hlock (by rw [htask]; rfl) fun p hnext => ?_
      rw [htask]
      refine ⟨?_, rfl⟩
      rcases hpc with hpc | ⟨res, hpc⟩ <;> rw [hpc] at hnext <;>
        exact hnext.imp id fun h => ⟨rfl, h⟩
  | set key obj d work =>
    rw [htask] at hfits
    rw [runTask, htask] at hs
    simp only [seen, htask]
    rcases hfits with hpc | ⟨hw, hpc⟩
    · simp only [hpc] at hs
      exact setBody_rel h htask hpc hs
    · simp only [hpc] at hs
      refine waiting_rel h hs (by rw [htask]; exact busy_start hw) fun p hnext => ?_
      rw [htask]
      rw [hpc] at hnext
      exact ⟨hnext.imp id fun h => ⟨hw, h⟩, by subst hw; rfl⟩
  | remove matcher n work =>
    rw [htask] at hfits
    rw [runTask, htask] at hs
    simp only [seen, htask]
    obtain ⟨b, hpc | ⟨hw, hpc⟩⟩ := hfits
    · simp only [hpc] at hs
      exact removeBody_rel h htask hpc hs
    · simp only [hpc] at hs
      subst hw
      refine waiting_rel h hs (by rw [htask]; rfl) fun p hnext => ?_
      rw [htask, hpc]
      rw [hpc] at hnext
      exact ⟨⟨b, hnext.imp id fun h => ⟨rfl, h⟩⟩, by rcases hnext with rfl | rfl <;> rfl⟩

theorem callTask_rel (h : Rel hash deleter s m ph) {c : Call α φ} (htask : s.task t = .idle)
    (hs : callTask (.create hash deleter) s t c = some s') :
    ∃ ph', (sharedMap hash).Path m ph [.call t c.op] m ph' ∧ Rel hash deleter s' m ph' := by
  have hpath : (sharedMap hash).Path m ph [.call t c.op] m
      (Function.update ph t (.active c.op)) := .single (.call (by rw [h.phase, htask]; rfl))
  have hold : (s.task t).busy = false := by
    rw [htask]
    rfl
  have hfits := h.fits t
  rw [htask] at hfits
  cases c with
  | get key =>
    obtain ⟨l, hl, rfl⟩ := Option.map_eq_some_iff.1 hs
    have hinv := locks_call h.locks hl
    simp only [BucketLocks.step] at hl
    split_ifs at hl
    obtain rfl := Option.some.inj hl
    exact ⟨_, hpath, h.quiet (p := .getLoad (slotRoot hash key)) (w := .get key none) hinv rfl hold
      rfl (.inr ⟨rfl, .inl rfl⟩)⟩
  | set key obj d =>
    obtain ⟨l, hl, rfl⟩ := Option.map_eq_some_iff.1 hs
    have hinv := locks_call h.locks hl
    simp only [BucketLocks.step] at hl
    split_ifs at hl
    obtain rfl := Option.some.inj hl
    exact ⟨_, hpath, h.quiet (p := .setCas (slotRoot hash key)) (w := .set key obj d .start) hinv
      rfl hold rfl (.inr ⟨rfl, rfl⟩)⟩
  | count =>
    obtain rfl := Option.some.inj hs
    exact ⟨_, hpath, h.quiet (l := s.locks) (p := s.locks.pc t) (w := .count) h.locks
      (Function.update_eq_self ..).symm hold rfl hfits⟩
  | removeAll matcher =>
    obtain rfl := Option.some.inj hs
    exact ⟨_, hpath, h.quiet (l := s.locks) (p := s.locks.pc t) (w := .load matcher) h.locks
      (Function.update_eq_self ..).symm hold rfl hfits⟩

/-- Whatever a writer leaves in its bucket in the meantime, nobody sees it. -/
theorem Rel.scribble (h : Rel hash deleter s m ph) (hw : (s.locks.pc t).Writes b)
    (hbusy : (s.task t).busy = true) (content : Bucket α φ) :
    Rel hash deleter (s.write b content) m ph := by
  have hrel := h.within (t := t) (n := s.count) (c := content) (w := s.task t) hw
    (fun _ _ => rfl) (h.fits t) (h.claim t b hw) (fun hb => by rw [hb] at hbusy; cases hbusy) h.count
  rw [← h.phase, Function.update_eq_self] at hrel
  have hself : ({ s with count := s.count }.write b content).doing t (s.task t) = s.write b content :=
    doing_self (s.write b content) t
  rwa [hself] at hrel

theorem step_rel {a : Action T α φ} (h : Rel hash deleter s m ph)
    (hs : step (.create hash deleter) s a = some s') :
    ∃ m' ph', (sharedMap hash).Path m ph (seen s a) m' ph' ∧ Rel hash deleter s' m' ph' := by
  cases a with
  | run t spurious => exact runTask_rel h hs
  | call t c =>
    rw [step] at hs
    split at hs
    next htask =>
      obtain ⟨ph', hpath, hrel⟩ := callTask_rel h htask hs
      exact ⟨m, ph', hpath, hrel⟩
    next => cases hs
  | scribble t content =>
    rw [step] at hs
    split at hs
    next b hpc =>
      split_ifs at hs with hbusy
      obtain rfl := Option.some.inj hs
      exact ⟨m, ph, .refl, h.scribble (t := t) (.inl hpc) hbusy content⟩
    next b hpc =>
      split_ifs at hs with hbusy
      obtain rfl := Option.some.inj hs
      exact ⟨m, ph, .refl, h.scribble (t := t) (.inr hpc) hbusy content⟩
    next => cases hs

end Rel

theorem rel_create (T : Type) (hash : Key → UInt64) (deleter : Deleter φ) :
    Rel hash deleter (create : State T α φ) (fun _ => none) fun _ => .idle where
  locks b := .shared 0 rfl (.of_forall_not fun _ => Pc.noConfusion) fun _ => by
    simp [create, Pc.Writes]
  fits _ := rfl
  phase _ := rfl
  clean b _ := ⟨trivial, List.nodup_nil, fun p hp => absurd hp List.not_mem_nil, fun k obj _ =>
    iff_of_false (by simp) List.not_mem_nil⟩
  claim t b h := by simp [create, Pc.Writes] at h
  count := .of_forall_not fun k h => h rfl

/-- For any number of threads and in every interleaving a shared dictionary is a map: each `get` and
`set` takes effect at one moment between its call and its return, `count` returns the number of entries
at such a moment, and `removeAll` takes away every entry that its matcher accepts when it comes to
the bucket, each of them at one moment, and returns their number. -/
theorem implements_sharedMap (T α : Type) {φ : Type} [DecidableEq T] (hash : Key → UInt64)
    (deleter : Deleter φ) :
    Implements (machine T hash deleter : Machine (State T α φ) _) seen (sharedMap hash) := by
  refine .of_simulation (Rel hash deleter) ?_ fun s a s' m ph h hs => step_rel h hs
  rintro s rfl
  exact ⟨_, rfl, rel_create T hash deleter⟩

end PoserCore.Dictionary.Shared
