import Mathlib.Data.Finset.Dedup
import PoserCore.Events.Registry
import PoserCore.Lib.Links

/-!
# The list of entries

`Event.Holds l` says that `first`, `last` and the `next` pointers make up the list `l`, whose
entries are those in use.  Registering appends to it and unregistering takes an entry out, and
neither touches what the other entries hold.  The machine refines the registry: the entries up to
the loop variable of a raise are behind it, and `handling` points to the first one ahead.
-/

namespace PoserCore.Events

open Lib

/-! ## Finding an entry -/

theorem findFrom_eq {entry : Addr → EvHandlerEntry} {l : List Addr}
    (hl : Linked (fun a => (entry a).next) l) (hdl : EvHandler) {fuel : ℕ}
    (hf : l.length ≤ fuel) (p : Option Addr) :
    ((∀ a ∈ l, (entry a).reg.handler ≠ hdl) ∧ Event.findFrom entry hdl fuel l.head? p = none) ∨
      ∃ l₁ a l₂, l = l₁ ++ a :: l₂ ∧ (entry a).reg.handler = hdl ∧
        Event.findFrom entry hdl fuel l.head? p = some (a, l₁.getLast?.or p) := by
  induction l generalizing fuel p with
  | nil =>
    left
    refine ⟨fun a ha => (nomatch ha), ?_⟩
    cases fuel <;> rfl
  | cons x l ih =>
    cases fuel with
    | zero => simp at hf
    | succ fuel =>
      have hx : (entry x).next = l.head? := hl.1
      rw [List.head?_cons, Event.findFrom]
      split_ifs with h
      · exact Or.inr ⟨[], x, l, rfl, h, rfl⟩
      · rw [hx]
        rcases ih hl.2 (Nat.le_of_succ_le_succ hf) (some x) with
          ⟨hn, hfind⟩ | ⟨l₁, a, l₂, rfl, ha, hfind⟩
        · left
          refine ⟨?_, hfind⟩
          intro a ha
          rcases List.mem_cons.1 ha with rfl | ha
          · exact h
          · exact hn a ha
        · right
          refine ⟨x :: l₁, a, l₂, rfl, ha, ?_⟩
          rw [hfind]
          cases l₁ with
          | nil => rfl
          | cons y l₁ => rw [List.getLast?_cons_cons, List.getLast?_cons, Option.some_or,
              Option.some_or]

namespace Event

/-- The registrations of some entries. -/
def regs (e : Event) (l : List Addr) : List Reg := l.map fun a => (e.entry a).reg

structure Holds (e : Event) (l : List Addr) : Prop where
  first : e.first = l.head?
  last : e.last = l.getLast?
  linked : Linked (fun a => (e.entry a).next) l
  nodup : l.Nodup
  used : e.used = l.toFinset

variable {e : Event} {l l₁ l₂ : List Addr} {a : Addr} {hdl : EvHandler}

theorem holds_create (sender : Addr) (entry : Addr → EvHandlerEntry) :
    (create sender entry).Holds [] := ⟨rfl, rfl, trivial, List.nodup_nil, rfl⟩

theorem regs_congr {e' : Event} (h : ∀ a ∈ l, (e'.entry a).reg = (e.entry a).reg) :
    e'.regs l = e.regs l :=
  List.map_congr_left h

theorem next_setNext (e : Event) (a : Addr) (next : Option Addr) :
    (fun b => ((e.setNext a next).entry b).next) =
      Function.update (fun b => (e.entry b).next) a next := by
  funext b
  unfold setNext
  simp only [Function.update_apply]
  split_ifs <;> rfl

theorem reg_setNext (e : Event) (a b : Addr) (next : Option Addr) :
    ((e.setNext a next).entry b).reg = (e.entry b).reg := by
  unfold setNext
  simp only [Function.update_apply]
  split_ifs with h
  · rw [h]
  · rfl

/-- What `findEntry` returns. -/
theorem Holds.findEntry (h : e.Holds l) (hdl : EvHandler) :
    ((∀ a ∈ l, (e.entry a).reg.handler ≠ hdl) ∧ e.findEntry hdl = none) ∨
      ∃ l₁ a l₂, l = l₁ ++ a :: l₂ ∧ (e.entry a).reg.handler = hdl ∧
        e.findEntry hdl = some (a, l₁.getLast?) := by
  have hcard : l.length ≤ e.used.card := by
    rw [h.used, List.toFinset_card_of_nodup h.nodup]
  unfold Event.findEntry
  rw [h.first]
  rcases findFrom_eq h.linked hdl hcard none with hn | ⟨l₁, a, l₂, hl, ha, hfind⟩
  · exact Or.inl hn
  · refine Or.inr ⟨l₁, a, l₂, hl, ha, ?_⟩
    rw [hfind, Option.or_none]

/-! ## Registering -/

/-- What `PSC_Event_register` does for a new handler. -/
theorem Holds.register (h : e.Holds l) (pool : Pool) (hn : e.findEntry hdl = none) :
    ∃ a, a ∉ l ∧ (e.register pool hdl).Holds (l ++ [a]) ∧
      (∀ b ∈ l, ((e.register pool hdl).entry b).reg = (e.entry b).reg) ∧
      ((e.register pool hdl).entry a).reg = ⟨e.count, hdl⟩ ∧
      (e.register pool hdl).handling = e.handling ∧
      (e.register pool hdl).count = e.count + 1 ∧
      (e.register pool hdl).trace = e.trace ++ [.registered ⟨e.count, hdl⟩] := by
  have hfresh : pool.alloc e.count e.used ∉ l := by
    have hf := pool.fresh e.count e.used
    rwa [h.used, List.mem_toFinset, ← h.used] at hf
  unfold Event.register
  rw [hn]
  dsimp only
  generalize pool.alloc e.count e.used = a at hfresh ⊢
  refine ⟨a, hfresh, ?_⟩
  have hused : insert a e.used = (l ++ [a]).toFinset := by
    rw [h.used, List.toFinset_append, List.toFinset_cons, List.toFinset_nil]
    ext x
    simp
  have hnd : (l ++ [a]).Nodup := by
    apply List.Nodup.append h.nodup (List.nodup_singleton a)
    rwa [List.disjoint_singleton]
  have hmem : ∀ b ∈ l, Function.update e.entry a ⟨none, ⟨e.count, hdl⟩⟩ b = e.entry b := by
    intro b hb
    apply Function.update_of_ne
    rintro rfl
    exact hfresh hb
  have hlinked : Linked
      (fun b => (Function.update e.entry a ⟨none, ⟨e.count, hdl⟩⟩ b).next) l :=
    h.linked.congr fun b hb => by rw [hmem b hb]
  have hself : Function.update e.entry a ⟨none, ⟨e.count, hdl⟩⟩ a =
      ⟨none, ⟨e.count, hdl⟩⟩ := Function.update_self ..
  rcases List.eq_nil_or_concat l with rfl | ⟨l', x, rfl⟩
  · rw [h.last]
    refine ⟨⟨rfl, rfl, ⟨by simp, trivial⟩, hnd, hused⟩, fun b hb => (nomatch hb), ?_, rfl, rfl, rfl⟩
    simp
  · rw [List.concat_eq_append] at *
    rw [h.last, List.getLast?_append_cons]
    refine ⟨⟨?_, ?_, ?_, hnd, hused⟩, ?_, ?_, rfl, rfl, rfl⟩
    · change e.first = _
      rw [h.first]
      cases l' <;> rfl
    · rw [List.getLast?_append_cons]
      rfl
    · change Linked (fun b => ((setNext _ x (some a)).entry b).next) _
      rw [next_setNext]
      exact hlinked.snoc h.nodup hfresh (by rw [hself])
    · intro b hb
      change ((setNext _ x (some a)).entry b).reg = _
      rw [reg_setNext]
      exact congrArg EvHandlerEntry.reg (hmem b hb)
    · change ((setNext _ x (some a)).entry a).reg = _
      rw [reg_setNext]
      exact congrArg EvHandlerEntry.reg hself

/-! ## Unregistering -/

/-- The steps of `PSC_Event_unregister` for an entry that is not its own predecessor. -/
theorem unregister_eq {p : Option Addr} (hfirst : e.first ≠ none)
    (hfind : e.findEntry hdl = some (a, p)) (hp : p ≠ some a) :
    e.unregister hdl =
      { e with
        first := if p = none then (e.entry a).next else e.first
        last := if (e.entry a).next = none then p else e.last
        handling := if e.handling = some a then (e.entry a).next else e.handling
        entry := p.elim e.entry fun p => (e.setNext p (e.entry a).next).entry
        used := e.used.erase a
        trace := e.trace ++ [.unregistered (e.entry a).reg] } := by
  unfold Event.unregister
  rw [if_neg hfirst, hfind]
  cases p with
  | none =>
    dsimp only
    rw [if_pos rfl]
    split_ifs <;> rfl
  | some p =>
    have hpa : a ≠ p := fun he => hp (congrArg some he.symm)
    unfold setNext
    dsimp only
    split_ifs <;> simp_all

/-- What `PSC_Event_unregister` does for the handler of an entry. -/
theorem Holds.unregister (h : e.Holds (l₁ ++ a :: l₂))
    (hfind : e.findEntry hdl = some (a, l₁.getLast?)) :
    (e.unregister hdl).Holds (l₁ ++ l₂) ∧
      (∀ b, ((e.unregister hdl).entry b).reg = (e.entry b).reg) ∧
      (e.unregister hdl).handling = (if e.handling = some a then l₂.head? else e.handling) ∧
      (e.unregister hdl).count = e.count ∧
      (e.unregister hdl).trace = e.trace ++ [.unregistered (e.entry a).reg] := by
  have hfirst : e.first ≠ none := by
    rw [h.first]
    cases l₁ <;> simp
  have hnext : (e.entry a).next = l₂.head? := h.linked.next_eq
  have hnd := h.nodup
  have hused : (l₁ ++ a :: l₂).toFinset.erase a = (l₁ ++ l₂).toFinset := by
    have ha : a ∉ l₁ ++ l₂ := (List.nodup_cons.1 (List.nodup_middle.1 hnd)).1
    rw [List.toFinset_eq_of_perm _ _ List.perm_middle, List.toFinset_cons,
      Finset.erase_insert (by simpa using ha)]
  have hlast : (if l₂.head? = none then l₁.getLast? else e.last) = (l₁ ++ l₂).getLast? := by
    rw [h.last]
    cases l₂ with
    | nil => simp
    | cons y l₂ =>
      rw [if_neg (by simp), List.getLast?_append_cons, List.getLast?_append_cons,
        List.getLast?_cons_cons]
  rcases List.eq_nil_or_concat l₁ with rfl | ⟨l, p, rfl⟩
  · rw [unregister_eq hfirst hfind (by simp), hnext]
    refine ⟨⟨rfl, ?_, ?_, ?_, ?_⟩, fun b => rfl, rfl, rfl, rfl⟩
    · exact hlast
    · exact h.linked.2
    · exact (List.nodup_cons.1 hnd).2
    · change e.used.erase a = _
      rw [h.used, hused]
  · rw [List.concat_eq_append] at *
    rw [List.getLast?_append_cons, List.getLast?_singleton] at *
    have hap : p ≠ a := by
      rintro rfl
      simp [List.nodup_append] at hnd
    rw [unregister_eq hfirst hfind (by simpa using hap), hnext]
    refine ⟨⟨?_, ?_, ?_, ?_, ?_⟩, ?_, rfl, rfl, rfl⟩
    · change e.first = _
      rw [h.first]
      cases l <;> rfl
    · exact hlast
    · change Linked (fun b => ((e.setNext p l₂.head?).entry b).next) _
      rw [next_setNext, ← hnext, List.append_assoc]
      have hl := h.linked
      rw [List.append_assoc] at hl hnd
      exact hl.unlink hnd
    · exact hnd.sublist ((List.sublist_cons_self a l₂).append_left _)
    · change e.used.erase a = _
      rw [h.used, hused]
    · exact fun b => reg_setNext e p b _

end Event

/-! ## The machine refines the registry -/

/-- Where the raise stands: the first entry ahead of it, or nowhere when none is running. -/
def Cursor (s : State) (c : Option Addr) : Prop :=
  match s.frame with
  | none => c = none ∧ s.event.handling = none
  | some ⟨_, _, _, true⟩ => s.event.handling = c
  | some ⟨_, _, entry, false⟩ => entry = c ∧ (s.event.handling = none ∨ s.event.handling = c)

/-- The entries behind the raise hold the registrations it has passed, the others those ahead. -/
structure Refines (s : State) (A : Registry) (l₁ l₂ : List Addr) : Prop where
  holds : s.event.Holds (l₁ ++ l₂)
  before : A.before = s.event.regs l₁
  ahead : A.ahead = s.event.regs l₂
  count : A.count = s.event.count
  trace : A.trace = s.event.trace
  cursor : Cursor s l₂.head?

variable {pool : Pool} {s s' : State} {A : Registry} {l₁ l₂ : List Addr} {id : ℤ} {a : Act}

theorem Refines.regs (h : Refines s A l₁ l₂) : A.regs = s.event.regs (l₁ ++ l₂) := by
  unfold Registry.regs Event.regs
  rw [h.before, h.ahead, List.map_append]
  rfl

theorem Refines.init (sender : Addr) (entry : Addr → EvHandlerEntry) :
    Refines ⟨.create sender entry, none⟩ ⟨[], [], 0, []⟩ [] [] :=
  ⟨Event.holds_create sender entry, rfl, rfl, rfl, rfl, rfl, rfl⟩

/-- Registering and unregistering, where the machine lets a caller do so. -/
def Open (s : State) : Prop := ∀ f, s.frame = some f → f.calling = true

/-- A caller that may call sees `handling` at the cut. -/
theorem Refines.handling (h : Refines s A l₁ l₂) (ho : Open s) :
    s.event.handling = l₂.head? ∧ (s.frame = none → l₂ = []) := by
  have hc := h.cursor
  unfold Cursor at hc
  cases hf : s.frame with
  | none =>
    rw [hf] at hc
    refine ⟨hc.2.trans hc.1.symm, fun _ => List.head?_eq_none_iff.1 hc.1⟩
  | some f =>
    have hcalling := ho f hf
    obtain ⟨i, args, entry, calling⟩ := f
    obtain rfl : calling = true := hcalling
    rw [hf] at hc
    exact ⟨hc, fun hn => nomatch hn⟩

theorem cursor_of_handling {e : Event} {c : Option Addr} (ho : Open s)
    (h : e.handling = c) (hnone : s.frame = none → c = none) : Cursor { s with event := e } c := by
  unfold Cursor
  cases hf : s.frame with
  | none =>
    obtain rfl := hnone hf
    exact ⟨rfl, h⟩
  | some f =>
    have hcalling := ho f hf
    obtain ⟨i, args, entry, calling⟩ := f
    obtain rfl : calling = true := hcalling
    exact h

theorem Refines.known (h : Refines s A l₁ l₂) (hdl : EvHandler) :
    ((∀ r ∈ A.regs, r.handler ≠ hdl) ∧ s.event.findEntry hdl = none) ∨
      ∃ k₁ a k₂, l₁ ++ l₂ = k₁ ++ a :: k₂ ∧ (s.event.entry a).reg.handler = hdl ∧
        s.event.findEntry hdl = some (a, k₁.getLast?) := by
  rcases h.holds.findEntry hdl with ⟨hn, hfind⟩ | hsome
  · left
    refine ⟨?_, hfind⟩
    intro r hr
    rw [h.regs] at hr
    obtain ⟨a, ha, rfl⟩ := List.mem_map.1 hr
    exact hn a ha
  · exact Or.inr hsome

theorem Refines.register (h : Refines s A l₁ l₂) (ho : Open s) (hdl : EvHandler) :
    ∃ A' k₁ k₂, Registry.Step id A (.op (.register hdl)) A' ∧
      Refines { s with event := s.event.register pool hdl } A' k₁ k₂ := by
  obtain ⟨hhandling, hnone⟩ := h.handling ho
  rcases h.known hdl with ⟨hnew, hfind⟩ | ⟨k₁, a, k₂, hl, ha, hfind⟩
  · obtain ⟨a, -, hholds, hregs, hreg, hhand, hcount, htrace⟩ :=
      h.holds.register pool hfind
    have hregs₁ : (s.event.register pool hdl).regs l₁ = s.event.regs l₁ :=
      Event.regs_congr fun b hb => hregs b (List.mem_append_left _ hb)
    have hregs₂ : (s.event.register pool hdl).regs l₂ = s.event.regs l₂ :=
      Event.regs_congr fun b hb => hregs b (List.mem_append_right _ hb)
    have hone : (s.event.register pool hdl).regs [a] = [⟨A.count, hdl⟩] := by
      rw [h.count, ← hreg]
      rfl
    have hcount' : (A.add hdl).count = (s.event.register pool hdl).count :=
      (congrArg (· + 1) h.count).trans hcount.symm
    have htrace' : (A.add hdl).trace = (s.event.register pool hdl).trace := by
      refine Eq.trans ?_ htrace.symm
      unfold Registry.add
      rw [h.trace, h.count]
    -- the new entry is ahead of the raise only when another one is
    by_cases hl₂ : l₂ = []
    · subst hl₂
      have hahead : A.ahead = [] := h.ahead
      refine ⟨A.add hdl, l₁ ++ [a], [], .register hdl hnew, ?_, ?_, ?_, hcount', htrace', ?_⟩
      · simpa using hholds
      · refine (if_pos hahead).trans ?_
        rw [h.before, ← hregs₁, ← hone]
        exact List.map_append.symm
      · exact if_pos hahead
      · exact cursor_of_handling ho (hhand.trans hhandling) fun _ => rfl
    · have hahead : A.ahead ≠ [] := by
        rw [h.ahead]
        unfold Event.regs
        simpa using hl₂
      refine ⟨A.add hdl, l₁, l₂ ++ [a], .register hdl hnew, ?_, ?_, ?_, hcount', htrace', ?_⟩
      · rwa [← List.append_assoc]
      · refine (if_neg hahead).trans ?_
        rw [h.before]
        exact hregs₁.symm
      · refine (if_neg hahead).trans ?_
        rw [h.ahead, ← hregs₂, ← hone]
        exact List.map_append.symm
      · have hhead : (l₂ ++ [a]).head? = l₂.head? := by
          cases l₂ with
          | nil => exact absurd rfl hl₂
          | cons x l₂ => rfl
        rw [hhead]
        exact cursor_of_handling ho (hhand.trans hhandling) fun hf => absurd (hnone hf) hl₂
  · have hsame : s.event.register pool hdl = s.event := by
      unfold Event.register
      rw [hfind]
    refine ⟨A, l₁, l₂, .known hdl ⟨(s.event.entry a).reg, ?_, ha⟩, ?_⟩
    · rw [h.regs, hl]
      exact List.mem_map_of_mem (List.mem_append_right _ (.head _))
    · rw [hsame]
      exact h

/-- Taking one registration out of a list of entries that hold different ones. -/
theorem Event.regs_filter {e : Event} {k₁ k₂ : List Addr} {a : Addr}
    (hnd : (e.regs (k₁ ++ a :: k₂)).Nodup) :
    ((e.regs (k₁ ++ a :: k₂)).filter fun r => r ≠ (e.entry a).reg) = e.regs (k₁ ++ k₂) := by
  unfold Event.regs at hnd ⊢
  rw [List.map_append, List.map_cons] at hnd ⊢
  have ha := (List.nodup_cons.1 (List.nodup_middle.1 hnd)).1
  rw [List.filter_append, List.filter_cons_of_neg (by simp), List.map_append]
  congr 1
  · rw [List.filter_eq_self]
    rintro r hr
    rw [decide_eq_true_eq]
    rintro rfl
    exact ha (List.mem_append_left _ hr)
  · rw [List.filter_eq_self]
    rintro r hr
    rw [decide_eq_true_eq]
    rintro rfl
    exact ha (List.mem_append_right _ hr)

theorem Event.regs_filter_of_not_mem {e : Event} {l : List Addr} {r : Reg} (h : r ∉ e.regs l) :
    ((e.regs l).filter fun x => x ≠ r) = e.regs l := by
  rw [List.filter_eq_self]
  rintro x hx
  rw [decide_eq_true_eq]
  rintro rfl
  exact h hx

theorem Registry.Good.nodup (hg : A.Good) : A.regs.Nodup := by
  apply hg.sorted.imp
  rintro r r' hlt rfl
  exact absurd hlt (Nat.lt_irrefl _)

/-- An element of two lists in a row is in the second or in the first. -/
theorem append_eq_append_cons {α : Type*} {l₁ l₂ m₁ m₂ : List α} {a : α}
    (h : l₁ ++ l₂ = m₁ ++ a :: m₂) :
    (∃ k, m₁ = l₁ ++ k ∧ l₂ = k ++ a :: m₂) ∨ ∃ k, l₁ = m₁ ++ a :: k ∧ m₂ = k ++ l₂ := by
  rcases List.append_eq_append_iff.1 h with hk | ⟨k, hl₁, hm₂⟩
  · exact Or.inl hk
  · cases k with
    | nil => exact Or.inl ⟨[], by simp [hl₁], hm₂.symm⟩
    | cons x k =>
      obtain ⟨rfl, hk⟩ := List.cons.inj hm₂
      exact Or.inr ⟨k, hl₁, hk⟩

theorem Refines.unregister (h : Refines s A l₁ l₂) (hg : A.Good) (ho : Open s) (hdl : EvHandler) :
    ∃ A' k₁ k₂, Registry.Step id A (.op (.unregister hdl)) A' ∧
      Refines { s with event := s.event.unregister hdl } A' k₁ k₂ := by
  obtain ⟨hhandling, hnone⟩ := h.handling ho
  rcases h.known hdl with ⟨hnew, hfind⟩ | ⟨m₁, a, m₂, hl, rfl, hfind⟩
  · have hsame : s.event.unregister hdl = s.event := by
      unfold Event.unregister
      rw [hfind]
      split_ifs <;> rfl
    refine ⟨A, l₁, l₂, .unknown hdl hnew, ?_⟩
    rw [hsame]
    exact h
  · have hholds := h.holds
    rw [hl] at hholds
    obtain ⟨hholds', hregs, hhand, hcount, htrace⟩ := hholds.unregister hfind
    have hmem : (s.event.entry a).reg ∈ A.regs := by
      rw [h.regs, hl]
      exact List.mem_map_of_mem (List.mem_append_right _ (.head _))
    have hstep : Registry.Step id A (.op (.unregister (s.event.entry a).reg.handler))
        (A.drop (s.event.entry a).reg) := .unregister _ hmem
    have hnd := hg.nodup
    rw [h.regs] at hnd
    have hregs' : ∀ l, (s.event.unregister (s.event.entry a).reg.handler).regs l =
        s.event.regs l := fun l => Event.regs_congr fun b _ => hregs b
    have hsplit : s.event.regs (l₁ ++ l₂) = s.event.regs l₁ ++ s.event.regs l₂ := List.map_append
    rw [hsplit, List.nodup_append] at hnd
    have hand : a ∉ m₁ ++ m₂ := (List.nodup_cons.1 (List.nodup_middle.1 hholds.nodup)).1
    have hcount' : A.count = (s.event.unregister (s.event.entry a).reg.handler).count :=
      h.count.trans hcount.symm
    have htrace' : (A.drop (s.event.entry a).reg).trace =
        (s.event.unregister (s.event.entry a).reg.handler).trace :=
      (congrArg (· ++ _) h.trace).trans htrace.symm
    rcases append_eq_append_cons hl with ⟨k, hm₁, hl₂⟩ | ⟨k, hl₁, hm₂⟩
    · -- the entry is ahead
      subst hm₁ hl₂
      refine ⟨_, l₁, k ++ m₂, hstep, ?_, ?_, ?_, hcount', htrace', ?_⟩
      · rwa [← List.append_assoc]
      · change (A.before.filter _) = _
        rw [h.before, hregs']
        apply Event.regs_filter_of_not_mem
        intro hm
        refine hnd.2.2 _ hm _ ?_ rfl
        exact List.mem_map_of_mem (List.mem_append_right _ (.head _))
      · change (A.ahead.filter _) = _
        rw [h.ahead, hregs']
        exact Event.regs_filter hnd.2.1
      · apply cursor_of_handling ho
        · rw [hhand, hhandling]
          cases k with
          | nil => simp
          | cons x k =>
            have hxa : x ≠ a := by
              rintro rfl
              simp at hand
            simp [hxa]
        · exact fun hf => absurd (hnone hf) (by simp)
    · -- the entry is behind
      subst hl₁ hm₂
      refine ⟨_, m₁ ++ k, l₂, hstep, ?_, ?_, ?_, hcount', htrace', ?_⟩
      · rwa [List.append_assoc]
      · change (A.before.filter _) = _
        rw [h.before, hregs']
        exact Event.regs_filter hnd.1
      · change (A.ahead.filter _) = _
        rw [h.ahead, hregs']
        apply Event.regs_filter_of_not_mem
        intro hm
        refine hnd.2.2 _ ?_ _ hm rfl
        exact List.mem_map_of_mem (List.mem_append_right _ (.head _))
      · apply cursor_of_handling ho
        · rw [hhand, hhandling, if_neg]
          intro hh
          apply hand
          exact List.mem_append_right _ (List.mem_append_right _ (List.mem_of_head? hh))
        · intro hf
          rw [hnone hf]
          rfl

/-- What a step can do. -/
theorem step_cases (hs : step pool s a = some s') :
    (∃ o, a = .op o ∧ Open s ∧ s' = { s with event := s.event.apply pool o }) ∨
    (∃ i args, a = .raise i args ∧ s.frame = none ∧
      s' = { s with frame := some ⟨i, args, s.event.first, false⟩ }) ∨
    (∃ i args entry, a = .visit ∧ s.frame = some ⟨i, args, some entry, false⟩ ∧
      s' = visit s.event ⟨i, args, some entry, false⟩ entry) ∨
    (∃ i args entry, a = .ret ∧ s.frame = some ⟨i, args, some entry, true⟩ ∧
      s' = { s with frame := some ⟨i, args, s.event.handling, false⟩ }) ∨
    (∃ i args, a = .done ∧ s.frame = some ⟨i, args, none, false⟩ ∧
      s' = { s with frame := none }) := by
  obtain ⟨e, frame⟩ := s
  cases a with
  | op o =>
    refine Or.inl ⟨o, rfl, ?_⟩
    cases frame with
    | none => exact ⟨fun f hf => (nomatch hf), (Option.some.inj hs).symm⟩
    | some f =>
      simp only [step] at hs
      split_ifs at hs with hcalling
      refine ⟨?_, (Option.some.inj hs).symm⟩
      intro f' hf'
      obtain rfl := Option.some.inj hf'
      exact hcalling
  | raise i args =>
    cases frame with
    | none => exact Or.inr (Or.inl ⟨i, args, rfl, rfl, (Option.some.inj hs).symm⟩)
    | some f => cases hs
  | visit =>
    rcases frame with - | ⟨i, args, - | entry, - | -⟩
    case some.some.false =>
      exact Or.inr (Or.inr (Or.inl ⟨i, args, entry, rfl, rfl, (Option.some.inj hs).symm⟩))
    all_goals cases hs
  | ret =>
    rcases frame with - | ⟨i, args, - | entry, - | -⟩
    case some.some.true =>
      exact Or.inr (Or.inr (Or.inr (Or.inl ⟨i, args, entry, rfl, rfl, (Option.some.inj hs).symm⟩)))
    all_goals cases hs
  | done =>
    rcases frame with - | ⟨i, args, - | entry, - | -⟩
    case some.none.false =>
      exact Or.inr (Or.inr (Or.inr (Or.inr ⟨i, args, rfl, rfl, (Option.some.inj hs).symm⟩)))
    all_goals cases hs

/-- Every step of the machine is a step of the registry. -/
theorem Refines.step (h : Refines s A l₁ l₂) (hg : A.Good) (hs : step pool s a = some s')
    (hid : ∀ f, s.frame = some f → f.id = id) :
    ∃ A' k₁ k₂, Registry.Step id A a A' ∧ Refines s' A' k₁ k₂ := by
  have hc := h.cursor
  unfold Cursor at hc
  rcases step_cases hs with ⟨o, rfl, ho, rfl⟩ | ⟨i, args, rfl, hf, rfl⟩ |
    ⟨i, args, entry, rfl, hf, rfl⟩ | ⟨i, args, entry, rfl, hf, rfl⟩ | ⟨i, args, rfl, hf, rfl⟩
  · cases o with
    | register hdl => exact h.register ho hdl
    | unregister hdl => exact h.unregister hg ho hdl
  · simp only [hf] at hc
    obtain rfl : l₂ = [] := List.head?_eq_none_iff.1 hc.1
    have hholds := h.holds
    rw [List.append_nil] at hholds
    refine ⟨_, [], l₁, .raise i args, hholds, rfl, ?_, h.count, h.trace, ?_⟩
    · change A.regs = s.event.regs l₁
      rw [h.regs, List.append_nil]
    · exact ⟨hholds.first, Or.inl hc.2⟩
  · simp only [hf] at hc
    obtain ⟨rest, rfl⟩ := List.head?_eq_some_iff.1 hc.1.symm
    have hnext : (s.event.entry entry).next = rest.head? := h.holds.linked.next_eq
    have hahead : A.ahead = (s.event.entry entry).reg :: s.event.regs rest := h.ahead
    have hbefore : A.before ++ [(s.event.entry entry).reg] = s.event.regs (l₁ ++ [entry]) := by
      unfold Event.regs
      rw [h.before, List.map_append, List.map_singleton]
      rfl
    obtain rfl : i = id := hid _ hf
    let f : Raise := ⟨i, args, some entry, false⟩
    have hholds := h.holds
    rw [List.append_cons] at hholds
    unfold visit
    dsimp only
    split_ifs with hm
    · refine ⟨_, l₁ ++ [entry], rest, .call _ _ s.event.sender f.callArgs hahead hm, ?_, hbefore, rfl,
        h.count, ?_, hnext⟩
      · exact ⟨hholds.first, hholds.last, hholds.linked, hholds.nodup, hholds.used⟩
      · exact congrArg (· ++ _) h.trace
    · refine ⟨_, l₁ ++ [entry], rest, .skip _ _ hahead hm, ?_, hbefore, rfl, h.count, h.trace,
        hnext, Or.inr hnext⟩
      exact ⟨hholds.first, hholds.last, hholds.linked, hholds.nodup, hholds.used⟩
  · simp only [hf] at hc
    exact ⟨A, l₁, l₂, .ret, h.holds, h.before, h.ahead, h.count, h.trace, hc, Or.inr hc⟩
  · simp only [hf] at hc
    obtain rfl : l₂ = [] := List.head?_eq_none_iff.1 hc.1.symm
    exact ⟨A, l₁, [], .done h.ahead, h.holds, h.before, h.ahead, h.count, h.trace, rfl,
      hc.2.elim (fun hn => hn) fun hn => hn⟩

/-- Only the start of a raise changes which id is raised. -/
theorem id_of_step (hs : step pool s a = some s') (hid : ∀ f, s.frame = some f → f.id = id)
    (ha : ∀ i args, a = .raise i args → i = id) : ∀ f, s'.frame = some f → f.id = id := by
  intro f' hf'
  rcases step_cases hs with ⟨o, rfl, ho, rfl⟩ | ⟨i, args, rfl, hf, rfl⟩ |
    ⟨i, args, entry, rfl, hf, rfl⟩ | ⟨i, args, entry, rfl, hf, rfl⟩ | ⟨i, args, rfl, hf, rfl⟩
  · exact hid f' hf'
  · obtain rfl := Option.some.inj hf'
    exact ha i args rfl
  · have hi : i = id := hid _ hf
    unfold visit at hf'
    dsimp only at hf'
    split_ifs at hf'
    · obtain rfl := Option.some.inj hf'
      exact hi
    · obtain rfl := Option.some.inj hf'
      exact hi
  · have hi : i = id := hid _ hf
    obtain rfl := Option.some.inj hf'
    exact hi
  · cases hf'

end PoserCore.Events
