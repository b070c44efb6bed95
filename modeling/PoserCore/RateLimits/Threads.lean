import PoserCore.RateLimits.Exact

/-!
# Checks of one key by many threads

`PSC_RateLimit_check` as it runs in any number of threads at once, all for one key and in one second.
Every call of `PSC_Dictionary_get`, `PSC_Dictionary_set` and `checkLimit` is a step of its own, and so
is what comes before the first of them, the clean-up.  Between its steps a call keeps the address of
the entries it found, and nothing keeps the entries from being freed meanwhile: by a
`PSC_Dictionary_set` that replaces them, or by a clean-up.

The calls are numbered in the order in which they begin.  The state records which of them each limit
counted (`counted`) and which of them returned 1 (`admitted`).
-/

namespace PoserCore.RateLimits.Threads

open Lib (Machine)
open Dictionary (Key)

variable {Tid : Type}

/-- Where a thread is in `PSC_RateLimit_check`; each constructor is named after the call that comes
next. -/
inductive Pc
  | idle
  | get
  | set
  | check (e : Addr) (i : ℕ) (ok : Bool)
  deriving DecidableEq

structure State (Tid : Type) where
  limiter : RateLimit
  pc : Tid → Pc
  /-- The number of calls that began. -/
  calls : ℕ
  /-- The number of the latest call of a thread. -/
  call : Tid → ℕ
  counted : ℕ → List ℕ
  admitted : List ℕ

/-- A thread calls the function, or performs its next step; `alloc` is where `PSC_malloc` finds
memory. -/
inductive Action (Tid : Type)
  | call (t : Tid)
  | run (t : Tid) (alloc : Addr)

/-- New entries for the key; those they replace are freed. -/
def setEntries (self : RateLimit) (key : Key) (sec alloc : ℕ) : RateLimit :=
  let entries := self.entries.set key (some alloc) .individual
  { self with
    entries := entries
    mem := fun a =>
      if (entries.calls.drop self.entries.calls.length).any (fun call => call.2 == some a) then none
      else Function.update self.mem alloc (some (newEntries self.limits sec)) a }

variable [DecidableEq Tid]

def State.goto (s : State Tid) (t : Tid) (p : Pc) : State Tid :=
  { s with pc := Function.update s.pc t p }

/-- The next step of a thread.  The behaviour is undefined, and there is no step, where the entries
were freed. -/
def runThread (key : Key) (sec : ℕ) (s : State Tid) (t : Tid) (alloc : Addr) : Option (State Tid) :=
  match s.pc t with
  | .idle => none
  | .get =>
      match s.limiter.entries.get key with
      | some e => some (s.goto t (.check e 0 true))
      | none => some (s.goto t .set)
  | .set =>
      if (s.limiter.mem alloc).isSome then none
      else some ({ s with limiter := setEntries s.limiter key sec alloc }.goto t .get)
  | .check e i ok =>
      match s.limiter.limits[i]? with
      | none => some ({ s with
          admitted := if ok then s.call t :: s.admitted else s.admitted }.goto t .idle)
      | some l => (s.limiter.mem e).map fun es =>
          let r := checkLimit l (es i) sec
          { s with
            limiter := { s.limiter with
              mem := Function.update s.limiter.mem e (some (Function.update es i r.1)) }
            counted := if r.2 then Function.update s.counted i (s.call t :: s.counted i)
              else s.counted }.goto t (.check e (i + 1) (ok && r.2))

def step (key : Key) (sec : ℕ) (s : State Tid) : Action Tid → Option (State Tid)
  | .call t =>
      if s.pc t = .idle then
        some ({ s with
          limiter := s.limiter.countdown sec
          calls := s.calls + 1
          call := Function.update s.call t s.calls }.goto t .get)
      else none
  | .run t alloc => runThread key sec s t alloc

/-- The limiter before the second: any dictionary, with any counters of the key. -/
structure Sane (opts : List Limit) (key : Key) (rl : RateLimit) : Prop where
  limits : rl.limits = opts
  entries : rl.entries.Ok
  deleter : rl.entries.deleter = .all ()
  present : ∀ a, rl.entries.get key = some a → ∃ es, rl.mem a = some es ∧
    ∀ i l, opts[i]? = some l → Shape l (es i)

def start (self : RateLimit) : State Tid where
  limiter := self
  pc := fun _ => .idle
  calls := 0
  call := fun _ => 0
  counted := fun _ => []
  admitted := []

def machine (Tid : Type) [DecidableEq Tid] (opts : List Limit) (key : Key) (sec : ℕ) :
    Machine (State Tid) (Action Tid) where
  init := fun s => ∃ rl, Sane opts key rl ∧ s = start rl
  step := step key sec

variable {opts : List Limit} {key : Key} {sec : ℕ} {rl : RateLimit}
  {s s' : State Tid} {t : Tid}

/-! ## What is to hold -/

/-- No more calls return 1 than a limit allows, and a call that still has to check limits uses the
entries that are in the dictionary. -/
structure Safe (opts : List Limit) (key : Key) (s : State Tid) : Prop where
  admitted : ∀ l ∈ opts, s.admitted.length ≤ l.limit
  current : ∀ t e i ok, s.pc t = .check e i ok →
    s.limiter.entries.get key = some e ∧ (s.limiter.mem e).isSome

/-- Entries are stored only where there are none, and a clean-up does not remove the entries of the
key from under a call. -/
def Alone (key : Key) (sec : ℕ) (s : State Tid) : Action Tid → Prop
  | .call _ => (∃ t e i ok, s.pc t = .check e i ok) →
      (s.limiter.countdown sec).entries.get key = s.limiter.entries.get key
  | .run t _ => s.pc t = .set → s.limiter.entries.get key = none

/-- What the checks of this second have counted is in the entries of the key, in the slot of this
second. -/
structure Inv (opts : List Limit) (key : Key) (sec : ℕ) (s : State Tid) : Prop where
  sane : Sane opts key s.limiter
  holds : ∀ t e i ok, s.pc t = .check e i ok → s.limiter.entries.get key = some e
  begun : ∀ t, s.pc t ≠ .idle → s.call t < s.calls
  apart : ∀ t u, s.pc t ≠ .idle → s.pc u ≠ .idle → s.call t = s.call u → t = u
  ended : ∀ n ∈ s.admitted, n < s.calls ∧ ∀ t, s.pc t ≠ .idle → s.call t ≠ n
  nodup : s.admitted.Nodup
  passed : ∀ t e i, s.pc t = .check e i true → ∀ j < i, j < opts.length → s.call t ∈ s.counted j
  counted : ∀ n ∈ s.admitted, ∀ j < opts.length, n ∈ s.counted j
  ledger : ∀ i l, opts[i]? = some l → s.counted i ≠ [] → ∃ e es,
    s.limiter.entries.get key = some e ∧ s.limiter.mem e = some es ∧ (es i).last = l.now sec ∧
      (s.counted i).length ≤ (es i).total

omit [DecidableEq Tid] in
theorem Inv.safe (h : Inv opts key sec s) : Safe opts key s where
  admitted := by
    intro l hl
    obtain ⟨i, hi, rfl⟩ := List.getElem_of_mem hl
    have hget : opts[i]? = some opts[i] := List.getElem?_eq_getElem hi
    have hsub : s.admitted ⊆ s.counted i := fun n hn => h.counted n hn i hi
    have hlen : s.admitted.length ≤ (s.counted i).length :=
      (List.subperm_of_subset h.nodup hsub).length_le
    by_cases hne : s.counted i = []
    · rw [hne] at hlen
      exact hlen.trans (Nat.zero_le _)
    · obtain ⟨e, es, he, hm, -, htotal⟩ := h.ledger i _ hget hne
      obtain ⟨es', hm', hshape⟩ := h.sane.present e he
      obtain rfl : es = es' := Option.some.inj (hm.symm.trans hm')
      exact hlen.trans (htotal.trans (hshape i _ hget).limit)
  current := by
    intro t e i ok hpc
    have he := h.holds t e i ok hpc
    obtain ⟨es, hm, -⟩ := h.sane.present e he
    exact ⟨he, by rw [hm]; rfl⟩

/-! ## The entries of the key -/

theorem sane_countdown (h : Sane opts key rl) : Sane opts key (rl.countdown sec) where
  limits := limits_countdown.trans h.limits
  entries := by
    obtain ⟨c, hc | hc⟩ := countdown_cases rl sec <;> rw [hc]
    · exact Dictionary.ok_removeAll h.entries (rl.matcher sec)
    · exact h.entries
  deleter := by
    obtain ⟨c, hc | hc⟩ := countdown_cases rl sec <;> rw [hc]
    · rw [← h.deleter]
      simp only [RateLimit.clean, Dictionary.Dictionary.removeAll]
      split_ifs <;> rfl
    · exact h.deleter
  present := by
    intro a ha
    obtain ⟨hget, hmem⟩ := kept_countdown h.entries h.deleter ha
    rw [hmem]
    exact h.present a hget

/-- A clean-up leaves the entries alone that a limit has just counted in. -/
theorem get_countdown (h : Sane opts key rl) {e : Addr} {es : ℕ → Entry} {i : ℕ} {l : Limit}
    (hok : l.Ok) (hl : opts[i]? = some l) (hget : rl.entries.get key = some e)
    (hmem : rl.mem e = some es) (hlast : (es i).last = l.now sec) :
    (rl.countdown sec).entries.get key = some e := by
  obtain ⟨c, hc | hc⟩ := countdown_cases rl sec <;> rw [hc]
  · refine (get_clean h.entries key).trans ?_
    rw [hget, Option.filter_eq_some_iff]
    refine ⟨rfl, ?_⟩
    have hexp : expired rl.limits sec es = false := by
      rw [expired, List.all_eq_false]
      refine ⟨(l, i), List.mk_mem_zipIdx_iff_getElem?.2 (h.limits ▸ hl), ?_⟩
      have := hok.ncounts
      simp only [hlast, sub_self, decide_eq_true_eq]
      omega
    simp [RateLimit.matcher, hmem, hexp]
  · exact hget

theorem sane_setEntries (h : Sane opts key rl) (hopts : ∀ l ∈ opts, l.Ok)
    (hnone : rl.entries.get key = none) (alloc : Addr) :
    Sane opts key (setEntries rl key sec alloc) ∧
      (setEntries rl key sec alloc).entries.get key = some alloc := by
  have hget := Dictionary.get_set key (some alloc) Dictionary.Deleter.individual h.entries key
  rw [if_pos rfl] at hget
  refine ⟨⟨h.limits, Dictionary.ok_set key (some alloc) _ h.entries, h.deleter, fun a ha => ?_⟩,
    hget⟩
  obtain rfl : alloc = a := Option.some.inj (hget.symm.trans ha)
  have hfreed : ((), some alloc) ∉ (rl.entries.set key (some alloc) .individual).calls.drop
      rl.entries.calls.length := by
    rw [Dictionary.calls_set key (some alloc) Dictionary.Deleter.individual h.entries, List.drop_left]
    intro hmem
    obtain ⟨e, he, hcall⟩ := List.mem_flatMap.1 hmem
    rw [Dictionary.Dictionary.delete, h.deleter, List.mem_singleton, Prod.mk.injEq] at hcall
    -- an entry with an object would have been found
    rw [Dictionary.get_eq h.entries, Dictionary.findList, Option.mem_toList.1 he, Option.bind_some,
      ← hcall.2] at hnone
    cases hnone
  refine ⟨newEntries rl.limits sec, ?_, fun i l hl => ?_⟩
  · simp only [setEntries]
    rw [if_neg, Function.update_self]
    intro hany
    obtain ⟨call, hmem, hcall⟩ := List.any_eq_true.1 hany
    have hpair : call = ((), some alloc) := Prod.ext rfl (eq_of_beq hcall)
    exact hfreed (hpair ▸ hmem)
  · have hnew : newEntries rl.limits sec i = { Entry.zero with last := l.now sec } := by
      simp [newEntries, h.limits, hl]
    rw [hnew]
    exact shape_zero (hopts l (List.mem_of_getElem? hl)) (now_lt l sec)

theorem rotate_same {l : Limit} {e : Entry} {now : ℕ} (h : e.last = now) (n : ℕ) :
    rotate l now n e = e := by
  cases n with
  | zero => rfl
  | succ n => rw [rotate, if_pos h]

/-- What one limit does to its entry, which holds the `n` checks it has counted in this second. -/
theorem checkLimit_ledger {l : Limit} {e : Entry} (hl : l.Ok) {n : ℕ}
    (hn : n ≠ 0 → e.last = l.now sec ∧ n ≤ e.total) :
    n + (if (checkLimit l e sec).2 then 1 else 0) ≤ (checkLimit l e sec).1.total := by
  have hrefresh : n ≤ (refresh l e (l.now sec)).total := by
    rcases Nat.eq_zero_or_pos n with rfl | hpos
    · exact Nat.zero_le _
    · obtain ⟨hlast, hle⟩ := hn hpos.ne'
      have hcounts := hl.ncounts
      rw [refresh, if_pos (by omega), if_neg (by omega), rotate_same hlast]
      exact hle
  have hlt := hl.limit
  by_cases hroom : (refresh l e (l.now sec)).total < l.limit
  · have hmod : ((refresh l e (l.now sec)).total + 1) % 2 ^ 16 =
        (refresh l e (l.now sec)).total + 1 := Nat.mod_eq_of_lt (by omega)
    simp only [checkLimit, if_pos hroom, if_true, hmod]
    omega
  · simpa only [checkLimit, if_neg hroom, Bool.false_eq_true, if_false, Nat.add_zero] using hrefresh

/-! ## Steps -/

/-- A call goes from one of its steps to the next. -/
theorem Inv.move (h : Inv opts key sec s) (ht : s.pc t ≠ .idle) {p : Pc}
    {counted : ℕ → List ℕ} (hsane : Sane opts key rl)
    (hget : ∀ e, s.limiter.entries.get key = some e → rl.entries.get key = some e)
    (hself : ∀ e i ok, p = .check e i ok → rl.entries.get key = some e ∧
      (ok = true → ∀ j < i, j < opts.length → s.call t ∈ counted j))
    (hcounted : ∀ j, s.counted j ⊆ counted j)
    (hledger : ∀ i l, opts[i]? = some l → counted i ≠ [] → ∃ e es, rl.entries.get key = some e ∧
      rl.mem e = some es ∧ (es i).last = l.now sec ∧ (counted i).length ≤ (es i).total) :
    Inv opts key sec ({ s with limiter := rl, counted := counted }.goto t p) := by
  have hactive : ∀ u, Function.update s.pc t p u ≠ .idle → s.pc u ≠ .idle := by
    intro u hu
    by_cases he : u = t
    · rw [he]
      exact ht
    · rwa [Function.update_of_ne he] at hu
  refine ⟨hsane, fun u e i ok hu => ?_, fun u hu => h.begun u (hactive u hu),
    fun u v hu hv => h.apart u v (hactive u hu) (hactive v hv), fun n hn => ?_, h.nodup,
    fun u e i hu j hj hlen => ?_, fun n hn j hj => hcounted j (h.counted n hn j hj), hledger⟩
  · by_cases he : u = t
    · subst he
      exact (hself e i ok ((Function.update_self ..).symm.trans hu)).1
    · exact hget e (h.holds u e i ok ((Function.update_of_ne he ..).symm.trans hu))
  · exact ⟨(h.ended n hn).1, fun u hu => (h.ended n hn).2 u (hactive u hu)⟩
  · by_cases he : u = t
    · subst he
      exact (hself e i true ((Function.update_self ..).symm.trans hu)).2 rfl j hj hlen
    · exact hcounted j (h.passed u e i ((Function.update_of_ne he ..).symm.trans hu) j hj hlen)

/-- A call begins. -/
theorem Inv.begin (h : Inv opts key sec s) (hsane : Sane opts key rl)
    (hcurrent : ∀ u e i ok, s.pc u = .check e i ok → rl.entries.get key = some e)
    (hledger : ∀ i l, opts[i]? = some l → s.counted i ≠ [] → ∃ e es, rl.entries.get key = some e ∧
      rl.mem e = some es ∧ (es i).last = l.now sec ∧ (s.counted i).length ≤ (es i).total) :
    Inv opts key sec ({ s with
      limiter := rl
      calls := s.calls + 1
      call := Function.update s.call t s.calls }.goto t .get) := by
  have hother : ∀ u, u ≠ t → Function.update s.pc t .get u = s.pc u := fun u hu =>
    Function.update_of_ne hu ..
  have hnum : ∀ u, Function.update s.pc t .get u ≠ .idle →
      Function.update s.call t s.calls u = s.calls ∧ u = t ∨
      Function.update s.call t s.calls u = s.call u ∧ u ≠ t ∧ s.pc u ≠ .idle := by
    intro u hu
    by_cases he : u = t
    · subst he
      exact .inl ⟨Function.update_self .., rfl⟩
    · exact .inr ⟨Function.update_of_ne he .., he, hother u he ▸ hu⟩
  have hcheck : ∀ u e i ok, Function.update s.pc t .get u = .check e i ok →
      u ≠ t ∧ s.pc u = .check e i ok := by
    intro u e i ok hu
    have he : u ≠ t := by
      rintro rfl
      rw [Function.update_self] at hu
      cases hu
    exact ⟨he, (hother u he).symm.trans hu⟩
  constructor
  case sane => exact hsane
  case holds =>
    intro u e i ok hu
    obtain ⟨-, hu⟩ := hcheck u e i ok hu
    exact hcurrent u e i ok hu
  case begun =>
    intro u hu
    show Function.update s.call t s.calls u < s.calls + 1
    rcases hnum u hu with ⟨hc, -⟩ | ⟨hc, -, hpc⟩
    · omega
    · have := h.begun u hpc
      omega
  case apart =>
    intro u v hu hv huv
    rcases hnum u hu with ⟨hcu, rfl⟩ | ⟨hcu, -, hpu⟩ <;>
      rcases hnum v hv with ⟨hcv, rfl⟩ | ⟨hcv, -, hpv⟩
    · rfl
    · have := h.begun v hpv
      exact absurd (hcu.symm.trans (huv.trans hcv)) (by omega)
    · have := h.begun u hpu
      exact absurd (hcu.symm.trans (huv.trans hcv)) (by omega)
    · exact h.apart u v hpu hpv (hcu.symm.trans (huv.trans hcv))
  case ended =>
    intro n hn
    have hlt := (h.ended n hn).1
    refine ⟨Nat.lt_succ_of_lt hlt, fun u hu he => ?_⟩
    rcases hnum u hu with ⟨hc, -⟩ | ⟨hc, -, hpc⟩
    · exact hlt.ne (he.symm.trans hc)
    · exact (h.ended n hn).2 u hpc (hc.symm.trans he)
  case nodup => exact h.nodup
  case passed =>
    intro u e i hu j hj hlen
    obtain ⟨he, hu⟩ := hcheck u e i true hu
    show Function.update s.call t s.calls u ∈ s.counted j
    rw [Function.update_of_ne he]
    exact h.passed u e i hu j hj hlen
  case counted => exact h.counted
  case ledger => exact hledger

theorem Inv.call (h : Inv opts key sec s) (hopts : ∀ l ∈ opts, l.Ok)
    (hok : Alone key sec s (.call t)) (hs : step key sec s (.call t) = some s') :
    Inv opts key sec s' := by
  simp only [step] at hs
  split_ifs at hs with hidle
  obtain rfl := Option.some.inj hs
  have hsane : Sane opts key (s.limiter.countdown sec) := sane_countdown h.sane
  have hcurrent : ∀ u e i ok, s.pc u = .check e i ok →
      (s.limiter.countdown sec).entries.get key = some e := fun u e i ok hu =>
    (hok ⟨u, e, i, ok, hu⟩).trans (h.holds u e i ok hu)
  have hledger : ∀ i l, opts[i]? = some l → s.counted i ≠ [] → ∃ e es,
      (s.limiter.countdown sec).entries.get key = some e ∧
        (s.limiter.countdown sec).mem e = some es ∧ (es i).last = l.now sec ∧
          (s.counted i).length ≤ (es i).total := by
    intro i l hl hne
    obtain ⟨e, es, hget, hmem, hlast, hle⟩ := h.ledger i l hl hne
    have hkept := get_countdown h.sane (hopts l (List.mem_of_getElem? hl)) hl hget hmem hlast
    have hmem' := (kept_countdown h.sane.entries h.sane.deleter hkept).2
    exact ⟨e, es, hkept, hmem'.trans hmem, hlast, hle⟩
  exact h.begin hsane hcurrent hledger

/-- A call that has checked all limits returns. -/
theorem Inv.finish (h : Inv opts key sec s) {e : Addr} {i : ℕ} {ok : Bool}
    (hpc : s.pc t = .check e i ok) (hi : opts.length ≤ i) :
    Inv opts key sec ({ s with
      admitted := if ok then s.call t :: s.admitted else s.admitted }.goto t .idle) := by
  have ht : s.pc t ≠ .idle := by simp [hpc]
  have hactive : ∀ u, Function.update s.pc t .idle u ≠ .idle → u ≠ t ∧ s.pc u ≠ .idle := by
    intro u hu
    have he : u ≠ t := by
      rintro rfl
      exact hu (Function.update_self ..)
    exact ⟨he, by rwa [Function.update_of_ne he] at hu⟩
  have hcheck : ∀ u e i ok, Function.update s.pc t .idle u = .check e i ok →
      s.pc u = .check e i ok := by
    intro u e i ok hu
    have he := (hactive u (by simp [hu])).1
    exact (Function.update_of_ne he ..).symm.trans hu
  have hlist : ∀ n ∈ (if ok then s.call t :: s.admitted else s.admitted),
      n ∈ s.admitted ∨ n = s.call t ∧ ok = true := by
    intro n hn
    cases ok with
    | false => exact .inl hn
    | true => exact (List.mem_cons.1 hn).symm.imp_right fun hn => ⟨hn, rfl⟩
  constructor
  case sane => exact h.sane
  case holds => exact fun u e i ok hu => h.holds u e i ok (hcheck u e i ok hu)
  case begun => exact fun u hu => h.begun u (hactive u hu).2
  case apart => exact fun u v hu hv => h.apart u v (hactive u hu).2 (hactive v hv).2
  case ended =>
    intro n hn
    rcases hlist n hn with hn | ⟨rfl, -⟩
    · exact ⟨(h.ended n hn).1, fun u hu => (h.ended n hn).2 u (hactive u hu).2⟩
    · refine ⟨h.begun t ht, fun u hu he => ?_⟩
      exact (hactive u hu).1 (h.apart u t (hactive u hu).2 ht he)
  case nodup =>
    show (if ok then s.call t :: s.admitted else s.admitted).Nodup
    split_ifs
    · exact List.nodup_cons.2 ⟨fun hn => (h.ended _ hn).2 t ht rfl, h.nodup⟩
    · exact h.nodup
  case passed => exact fun u e i hu => h.passed u e i (hcheck u e i true hu)
  case counted =>
    intro n hn j hj
    rcases hlist n hn with hn | ⟨rfl, rfl⟩
    · exact h.counted n hn j hj
    · exact h.passed t e i hpc j (hj.trans_le hi) hj
  case ledger => exact h.ledger

/-- A limit checks its entry. -/
theorem Inv.check (h : Inv opts key sec s) (hopts : ∀ l ∈ opts, l.Ok) {e : Addr} {i : ℕ} {ok : Bool}
    (hpc : s.pc t = .check e i ok) {l : Limit} (hl : opts[i]? = some l) {es : ℕ → Entry}
    (hmem : s.limiter.mem e = some es) {r : Entry × Bool} (hr : checkLimit l (es i) sec = r) :
    Inv opts key sec ({ s with
      limiter := { s.limiter with
        mem := Function.update s.limiter.mem e (some (Function.update es i r.1)) }
      counted := if r.2 then Function.update s.counted i (s.call t :: s.counted i)
        else s.counted }.goto t (.check e (i + 1) (ok && r.2))) := by
  have hget := h.holds t e i ok hpc
  obtain ⟨es', hmem', hshape⟩ := h.sane.present e hget
  obtain rfl : es = es' := Option.some.inj (hmem.symm.trans hmem')
  have hokl : l.Ok := hopts l (List.mem_of_getElem? hl)
  obtain ⟨hshape', hlast', -⟩ := checkLimit_spec hokl (hshape i l hl) sec
  rw [hr] at hshape' hlast'
  have hledger : (s.counted i).length + (if r.2 then 1 else 0) ≤ r.1.total := by
    rw [← hr]
    refine checkLimit_ledger hokl fun hne => ?_
    obtain ⟨e', es', hget', hmem', hlast, hle⟩ := h.ledger i l hl fun hnil => hne (by rw [hnil]; rfl)
    obtain rfl : e = e' := Option.some.inj (hget.symm.trans hget')
    obtain rfl : es = es' := Option.some.inj (hmem.symm.trans hmem')
    exact ⟨hlast, hle⟩
  have hother : ∀ j, j ≠ i →
      (if r.2 then Function.update s.counted i (s.call t :: s.counted i) else s.counted) j =
        s.counted j := by
    intro j hj
    split_ifs
    · exact Function.update_of_ne hj ..
    · rfl
  have hself : (if r.2 then Function.update s.counted i (s.call t :: s.counted i)
      else s.counted) i = if r.2 then s.call t :: s.counted i else s.counted i := by
    split_ifs
    · exact Function.update_self ..
    · rfl
  refine h.move (by simp [hpc]) ⟨h.sane.limits, h.sane.entries, h.sane.deleter, ?_⟩ (fun _ => id)
    ?_ ?_ ?_
  · intro a ha
    obtain rfl : e = a := Option.some.inj (hget.symm.trans ha)
    refine ⟨_, Function.update_self .., fun j lj hj => ?_⟩
    by_cases he : j = i
    · subst he
      obtain rfl : l = lj := Option.some.inj (hl.symm.trans hj)
      rwa [Function.update_self]
    · rw [Function.update_of_ne he]
      exact hshape j lj hj
  · intro e' i' ok' hp
    obtain ⟨rfl, rfl, rfl⟩ := Pc.check.inj hp
    refine ⟨hget, fun hok j hj hlen => ?_⟩
    obtain ⟨rfl, hcount⟩ := Bool.and_eq_true_iff.1 hok
    by_cases he : j = i
    · subst he
      rw [hself, if_pos hcount]
      exact List.mem_cons_self
    · rw [hother j he]
      exact h.passed t e i hpc j (by omega) hlen
  · intro j
    by_cases he : j = i
    · subst he
      rw [hself]
      split_ifs
      · exact List.subset_cons_self ..
      · exact List.Subset.refl _
    · rw [hother j he]
      exact List.Subset.refl _
  · intro j lj hj hne
    refine ⟨e, _, hget, Function.update_self .., ?_⟩
    by_cases he : j = i
    · subst he
      obtain rfl : l = lj := Option.some.inj (hl.symm.trans hj)
      rw [Function.update_self, hself]
      refine ⟨hlast', ?_⟩
      split_ifs at hledger ⊢ <;> simpa using hledger
    · rw [Function.update_of_ne he, hother j he]
      rw [hother j he] at hne
      obtain ⟨e', es', hget', hmem', hlast, hle⟩ := h.ledger j lj hj hne
      obtain rfl : e = e' := Option.some.inj (hget.symm.trans hget')
      obtain rfl : es = es' := Option.some.inj (hmem.symm.trans hmem')
      exact ⟨hlast, hle⟩

theorem Inv.run (h : Inv opts key sec s) (hopts : ∀ l ∈ opts, l.Ok) {alloc : Addr}
    (hok : Alone key sec s (.run t alloc)) (hs : runThread key sec s t alloc = some s') :
    Inv opts key sec s' := by
  rw [runThread] at hs
  cases hpc : s.pc t with
  | idle => simp [hpc] at hs
  | get =>
    have ht : s.pc t ≠ .idle := by simp [hpc]
    simp only [hpc] at hs
    split at hs <;> obtain rfl := Option.some.inj hs
    next e hget =>
      refine h.move ht h.sane (fun _ => id) (fun e' i ok hp => ?_) (fun _ => List.Subset.refl _)
        h.ledger
      obtain ⟨rfl, rfl, -⟩ := Pc.check.inj hp
      exact ⟨hget, fun _ j hj => absurd hj (Nat.not_lt_zero j)⟩
    next =>
      exact h.move ht h.sane (fun _ => id) (fun _ _ _ hp => by cases hp) (fun _ => List.Subset.refl _)
        h.ledger
  | set =>
    have hnone := hok hpc
    simp only [hpc] at hs
    split_ifs at hs
    obtain rfl := Option.some.inj hs
    obtain ⟨hsane, -⟩ := sane_setEntries h.sane hopts hnone alloc
    refine h.move (by simp [hpc]) hsane (fun e he => ?_) (fun _ _ _ hp => by cases hp)
      (fun _ => List.Subset.refl _) fun i l hl hne => ?_
    · rw [hnone] at he
      cases he
    · obtain ⟨e, es, hget, -⟩ := h.ledger i l hl hne
      rw [hnone] at hget
      cases hget
  | check e i ok =>
    simp only [hpc] at hs
    split at hs
    next hl =>
      rw [h.sane.limits] at hl
      obtain rfl := Option.some.inj hs
      exact h.finish hpc (List.getElem?_eq_none_iff.1 hl)
    next l hl =>
      rw [h.sane.limits] at hl
      obtain ⟨es, hmem, rfl⟩ := Option.map_eq_some_iff.1 hs
      exact h.check hopts hpc hl hmem rfl

omit [DecidableEq Tid] in
theorem inv_start (h : Sane opts key rl) : Inv opts key sec (start rl : State Tid) where
  sane := h
  holds _ _ _ _ hpc := by cases hpc
  begun _ hpc := absurd rfl hpc
  apart _ _ hpc := absurd rfl hpc
  ended _ hn := by cases hn
  nodup := .nil
  passed _ _ _ hpc := by cases hpc
  counted _ hn := by cases hn
  ledger _ _ _ hne := absurd rfl hne

/-! ## Runs -/

theorem inv_of_run (hopts : ∀ l ∈ opts, l.Ok)
    (h : (machine Tid opts key sec).Run (Alone key sec) s) : Inv opts key sec s := by
  refine h.invariant (I := Inv opts key sec) ?_ ?_
  · rintro s ⟨rl, hsane, rfl⟩
    exact inv_start hsane
  · intro s a s' hi hok hs
    cases a with
    | call t => exact hi.call hopts hok hs
    | run t alloc => exact hi.run hopts hok hs

/-- In every run in which no call stores entries over entries, and no clean-up removes the entries of
the key from under a call, no limit lets more calls through than it allows. -/
theorem checks_safe (hconf : Configured opts)
    (h : (machine Tid opts key sec).Run (Alone key sec) s) : Safe opts key s :=
  (inv_of_run hconf.ok h).safe

/-- Every state of the limiter that checks of one thread lead to is a start. -/
theorem sane_of_reachable {hash : Key → UInt64} (hconf : Configured opts) {s : RateLimits.State}
    (h : (RateLimits.machine hash opts).Reachable s) : Sane opts key s.limiter := by
  have hgood : Good (· ≤ ·) opts s := by
    refine h.invariant (I := Good (· ≤ ·) opts) (fun _ => good_init hconf) fun s a s' hi _ hs => ?_
    exact (good_step le_refl (fun x y => Nat.succ_le_succ) hi (.inl Nat.zero_le) hs).1
  refine ⟨hgood.limits, hgood.inv.entries, hgood.inv.deleter, fun a ha => ?_⟩
  obtain ⟨es, _, hmem, -, -, hf⟩ := hgood.inv.present key a ha
  exact ⟨es, hmem, fun i l hl => (hf i l (hgood.limits ▸ hl)).shape⟩

/-! ## Fixed runs -/

/-- A test for `Alone`. -/
def alone (key : Key) (sec : ℕ) (s : State Bool) : Action Bool → Bool
  | .call _ => decide ((s.limiter.countdown sec).entries.get key = s.limiter.entries.get key)
  | .run t _ => decide (s.pc t ≠ .set) || (s.limiter.entries.get key).isNone

theorem alone_sound {s : State Bool} {a : Action Bool} (h : alone key sec s a = true) :
    Alone key sec s a := by
  cases a with
  | call t =>
    simp only [alone, decide_eq_true_eq] at h
    exact fun _ => h
  | run t alloc =>
    intro hpc
    simpa [alone, hpc] using h

theorem sane_create : Sane onceInTen key (.create (fun _ => 0) onceInTen) :=
  sane_of_reachable configured_onceInTen (.init rfl)

theorem init_create : (machine Bool onceInTen [1] 5).init (start (.create (fun _ => 0) onceInTen)) :=
  ⟨_, sane_create, rfl⟩

/-- Of two calls of which the second begins before the first returns, one is let through. -/
theorem checks_safe_two : ∃ s : State Bool, Safe onceInTen [1] s ∧ s.admitted = [0] ∧
    ∀ t, s.pc t = .idle := by
  have hrun : ((machine Bool onceInTen [1] 5).execOk (alone [1] 5)
      [.call true, .run true 0, .run true 100, .call false, .run false 0, .run true 0, .run true 0,
        .run false 0, .run false 0, .run true 0]
      (start (.create (fun _ => 0) onceInTen))).any
      (fun s => decide (s.admitted = [0] ∧ ∀ t, s.pc t = .idle)) = true := by decide +kernel
  obtain ⟨s, hs, hp⟩ := Machine.exists_run init_create (fun _ _ => alone_sound) hrun
  exact ⟨s, checks_safe configured_onceInTen hs, of_decide_eq_true hp⟩

/-- Both threads find no entries.  If one of them checks before the other stores its new ones, both
are let through; and if it only looks its entries up before that, it is left with freed ones. -/
theorem checks_unsafe :
    ¬ (∀ s, (machine Bool onceInTen [1] 5).Reachable s →
      ∀ l ∈ onceInTen, s.admitted.length ≤ l.limit) ∧
    ¬ (∀ s, (machine Bool onceInTen [1] 5).Reachable s → ∀ t e i ok, s.pc t = .check e i ok →
      s.limiter.entries.get [1] = some e ∧ (s.limiter.mem e).isSome) := by
  constructor
  · intro hall
    have hrun : ((machine Bool onceInTen [1] 5).exec
        [.call true, .run true 0, .call false, .run false 0, .run true 100, .run true 0, .run true 0,
          .run true 0, .run false 101, .run false 0, .run false 0, .run false 0]
        (start (.create (fun _ => 0) onceInTen))).any
        (fun s => decide (s.admitted = [1, 0])) = true := by decide +kernel
    obtain ⟨s, hs, hp⟩ := Machine.exists_reachable init_create hrun
    have hle := hall s hs ⟨10, 1, 1, 10⟩ List.mem_cons_self
    rw [of_decide_eq_true hp] at hle
    exact absurd hle (by decide)
  · intro hall
    have hrun : ((machine Bool onceInTen [1] 5).exec
        [.call true, .run true 0, .call false, .run false 0, .run true 100, .run true 0,
          .run false 101]
        (start (.create (fun _ => 0) onceInTen))).any
        (fun s => decide (s.pc true = .check 100 0 true ∧ (s.limiter.mem 100).isNone)) = true := by
      decide +kernel
    obtain ⟨s, hs, hp⟩ := Machine.exists_reachable init_create hrun
    obtain ⟨hpc, hfreed⟩ := of_decide_eq_true hp
    have hmem := (hall s hs true 100 0 true hpc).2
    rw [Option.isNone_iff_eq_none.1 hfreed] at hmem
    cases hmem

end PoserCore.RateLimits.Threads
