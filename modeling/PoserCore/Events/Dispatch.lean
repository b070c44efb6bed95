import Mathlib.Data.Finset.Range
import PoserCore.Events.Entries

/-!
# Dispatch under mutation

Callbacks of a running `PSC_Event_raise` register and unregister handlers of the same event.  The
list of entries stays in order whatever they do, every registration that was there when the raise
began gets its turn exactly once unless it is ended before, in the order of registration, and none
is called after its end.  A handler that its callback unregisters and registers again is a new
registration, at the end of the list, which the same raise still reaches.
-/

namespace PoserCore.Events

open Lib

variable {pool : Pool} {s s' s₀ s₁ s₂ : State} {A A' : Registry} {id : ℤ} {a : Act}

/-! ## What a run keeps -/

/-- Every reachable state refines a registry that is in order. -/
theorem refines_of_reachable (h : (machine pool).Reachable s) :
    ∃ A l₁ l₂, Refines s A l₁ l₂ ∧ A.Good := by
  refine h.invariant (I := fun s => ∃ A l₁ l₂, Refines s A l₁ l₂ ∧ A.Good) ?_ ?_
  · rintro s ⟨sender, entry, rfl⟩
    refine ⟨⟨[], [], 0, []⟩, [], [], .init sender entry, ?_⟩
    exact ⟨.nil, fun r hr => (nomatch hr), List.nodup_nil, fun r hr => (nomatch hr),
      fun r hr => (nomatch hr), orderly_nil⟩
  · rintro s a s' ⟨A, l₁, l₂, hr, hg⟩ - hs
    have hid : ∀ f, s.frame = some f → f.id = (s.frame.map Raise.id).getD 0 := by
      intro f hf
      rw [hf]
      rfl
    obtain ⟨A', k₁, k₂, hstep, hr'⟩ := hr.step hg hs hid
    exact ⟨A', k₁, k₂, hr', hg.step hstep⟩

section Turns

variable {n₀ v : ℕ} {L₀ P Q : List Reg} {t₀ tr : List Ev}

/-- The turn of the next registration. -/
theorem Registry.Turns.pass (h : Registry.Turns id n₀ L₀ t₀ v A tr P Q) (hg : A.Good)
    (hsorted : L₀.Pairwise fun r r' => r.ref < r'.ref) (hold : ∀ r ∈ L₀, r.ref < n₀)
    {r : Reg} {rest : List Reg} (hr : A.ahead = r :: rest) {ext : List Ev}
    (hext : Registry.Called id r ext) :
    ∃ P' Q', Registry.Turns id n₀ L₀ t₀ (v + 1)
      { A with before := A.before ++ [r], ahead := rest, trace := A.trace ++ ext } (tr ++ ext)
      P' Q' := by
  by_cases hrn : r.ref < n₀
  · exact h.pass_old hsorted hr hrn hext
  · exact h.pass_new hg hold hr hrn hext

/-- One step of a raise that has begun. -/
theorem Registry.Turns.step (h : Registry.Turns id n₀ L₀ t₀ v A tr P Q) (hg : A.Good)
    (hsorted : L₀.Pairwise fun r r' => r.ref < r'.ref) (hold : ∀ r ∈ L₀, r.ref < n₀)
    (hs : Registry.Step id A a A') (ha : ∀ i args, a ≠ .raise i args) :
    ∃ tr' P' Q', Registry.Turns id n₀ L₀ t₀ (v + [a].count .visit) A' tr' P' Q' := by
  cases hs with
  | known hdl hk => exact ⟨tr, P, Q, h⟩
  | register hdl hn => exact ⟨_, P, Q, h.add hdl⟩
  | unknown hdl hn => exact ⟨tr, P, Q, h⟩
  | unregister r hr => exact ⟨_, P, Q, h.drop r⟩
  | raise i args => exact absurd rfl (ha i args)
  | call r rest sender args hr hid =>
    obtain ⟨P', Q', h'⟩ := h.pass hg hsorted hold hr (Or.inl ⟨hid, sender, args, rfl⟩)
    exact ⟨_, P', Q', h'⟩
  | skip r rest hr hid =>
    obtain ⟨P', Q', h'⟩ := h.pass hg hsorted hold hr (Or.inr ⟨hid, rfl⟩)
    rw [List.append_nil, List.append_nil] at h'
    exact ⟨_, P', Q', h'⟩
  | ret => exact ⟨tr, P, Q, h⟩
  | done hd => exact ⟨tr, P, Q, h⟩

/-- A run in which the raise that has begun is the only one. -/
theorem Registry.Turns.run {acts : List Act} {l₁ l₂ : List Addr} (hr : Refines s A l₁ l₂)
    (hg : A.Good) (h : Registry.Turns id n₀ L₀ t₀ v A tr P Q)
    (hid : ∀ f, s.frame = some f → f.id = id)
    (hsorted : L₀.Pairwise fun r r' => r.ref < r'.ref) (hold : ∀ r ∈ L₀, r.ref < n₀)
    (hacts : ∀ a ∈ acts, ∀ i args, a ≠ .raise i args)
    (he : (machine pool).exec acts s = some s') :
    ∃ A' k₁ k₂ tr' P' Q', Refines s' A' k₁ k₂ ∧ A'.Good ∧
      Registry.Turns id n₀ L₀ t₀ (v + acts.count .visit) A' tr' P' Q' := by
  induction acts generalizing s A l₁ l₂ v tr P Q with
  | nil =>
    obtain rfl : s = s' := Option.some.inj he
    exact ⟨A, l₁, l₂, tr, P, Q, hr, hg, h⟩
  | cons a acts ih =>
    obtain ⟨t, hs, he⟩ := Option.bind_eq_some_iff.1 he
    have ha := hacts a (.head _)
    obtain ⟨A', k₁, k₂, hstep, hr'⟩ := hr.step hg hs hid
    obtain ⟨tr', P', Q', h'⟩ := h.step hg hsorted hold hstep ha
    have hid' := id_of_step hs hid fun i args e => absurd e (ha i args)
    have hrun := ih hr' (hg.step hstep) h' hid' (fun b hb => hacts b (.tail _ hb)) he
    have hcount : (a :: acts).count .visit = [a].count .visit + acts.count .visit := by
      rw [← List.count_append]
      rfl
    rwa [hcount, ← Nat.add_assoc]

/-- A raise begins with the turns of all registrations before it. -/
theorem Registry.Turns.begin (hg : A.Good) :
    Registry.Turns id A.count A.regs A.trace 0 { A with before := [], ahead := A.regs } [] []
      A.regs := by
  refine ⟨(List.append_nil _).symm, rfl, Nat.le_refl _, ?_, fun r hr => (nomatch hr),
    fun r _ hr => (nomatch hr), fun r hr => (nomatch hr), List.nil_sublist _,
    Or.inl (Nat.le_refl _)⟩
  apply List.filter_congr
  intro r hr
  simp [drops, hg.bound r hr]

/-- The first registrations are called in order, and all of them have the raised id. -/
theorem Registry.Turns.sublist (h : Registry.Turns id n₀ L₀ t₀ v A tr P Q)
    (hold : ∀ r ∈ L₀, r.ref < n₀) :
    ((calls tr).filter fun r => r ∈ L₀).Sublist (L₀.filter fun r => r.handler.id = id) := by
  have hfilter : ((calls tr).filter fun r => r ∈ L₀).Sublist L₀ := by
    have hle : ((calls tr).filter fun r => r ∈ L₀).Sublist
        ((calls tr).filter fun r => r.ref < n₀) := by
      apply List.monotone_filter_right
      intro r hm
      rw [decide_eq_true_eq] at hm ⊢
      exact hold r hm
    have hcalls := hle.trans h.inOrder
    rw [h.split] at hcalls ⊢
    exact hcalls.trans (List.sublist_append_left P Q)
  have hsame : (((calls tr).filter fun r => r ∈ L₀).filter fun r => r.handler.id = id) =
      (calls tr).filter fun r => r ∈ L₀ := by
    rw [List.filter_eq_self]
    intro r hm
    rw [decide_eq_true_eq]
    exact h.ids r (List.mem_filter.1 hm).1
  rw [← hsame]
  exact hfilter.filter _

end Turns

/-- A raise starts at the first entry, and none is running before. -/
theorem step_raise {args : Args} (hs : step pool s (.raise id args) = some s') :
    s.frame = none ∧ s' = { s with frame := some ⟨id, args, s.event.first, false⟩ } := by
  rcases step_cases hs with ⟨o, ho, -⟩ | ⟨i, x, hi, hf, rfl⟩ | ⟨i, x, e, hv, -⟩ |
    ⟨i, x, e, hv, -⟩ | ⟨i, x, hd, -⟩
  · cases ho
  · obtain ⟨rfl, rfl⟩ := Act.raise.inj hi
    exact ⟨hf, rfl⟩
  · cases hv
  · cases hv
  · cases hd

/-- When no raise is running, no registration is ahead. -/
theorem Refines.ahead_nil {l₁ l₂ : List Addr} (hr : Refines s A l₁ l₂) (hf : s.frame = none) :
    A.ahead = [] := by
  have hc := hr.cursor
  unfold Cursor at hc
  rw [hf] at hc
  obtain rfl : l₂ = [] := List.head?_eq_none_iff.1 hc.1
  exact hr.ahead

/-! ## The event -/

/-- The list of entries of an event is determined. -/
theorem Event.Holds.unique {e : Event} {l l' : List Addr} (h : e.Holds l) (h' : e.Holds l') :
    l = l' := by
  have hl := h.linked
  have hl' := h'.linked
  have hhead : l.head? = l'.head? := h.first.symm.trans h'.first
  clear h h'
  induction l generalizing l' with
  | nil => exact (List.head?_eq_none_iff.1 hhead.symm).symm
  | cons x l ih =>
    cases l' with
    | nil => cases hhead
    | cons y l' =>
      obtain rfl : x = y := Option.some.inj hhead
      rw [ih hl.2 hl'.2 (hl.1.symm.trans hl'.1)]

/-- In every reachable state the entries are a list without duplicates that ends with `last`, and
nothing was called after its end.  Of the registrations an event has when it is raised, those of the
raised id are called in their order, only those, and each exactly once by the time the raise is over
or has visited as many entries, unless it was ended before its turn. -/
theorem event_dispatch (pool : Pool) :
    (∀ s, (machine pool).Reachable s → ∃ l, s.event.Holds l ∧
      ((s.event.regs l).map Reg.handler).Nodup ∧ Orderly s.event.trace) ∧
    ∀ s₀ s₁ s₂ id args acts l, (machine pool).Reachable s₀ → s₀.event.Holds l →
      step pool s₀ (.raise id args) = some s₁ → (∀ a ∈ acts, ∀ i x, a ≠ .raise i x) →
      (machine pool).exec acts s₁ = some s₂ →
      ∃ tr, s₂.event.trace = s₀.event.trace ++ tr ∧
        (∀ r ∈ calls tr, r.handler.id = id) ∧
        ((calls tr).filter fun r => r ∈ s₀.event.regs l).Sublist
          ((s₀.event.regs l).filter fun r => r.handler.id = id) ∧
        (s₂.frame = none ∨ l.length ≤ acts.count .visit →
          ∀ r ∈ s₀.event.regs l, r.handler.id = id → OnceIn r tr ∨ DroppedIn r tr) := by
  constructor
  · intro s h
    obtain ⟨A, l₁, l₂, hr, hg⟩ := refines_of_reachable h
    refine ⟨l₁ ++ l₂, hr.holds, ?_, ?_⟩
    · rw [← hr.regs]
      exact hg.handlers
    · rw [← hr.trace]
      exact hg.orderly
  · intro s₀ s₁ s₂ id args acts l h₀ hl hraise hacts he
    obtain ⟨A, l₁, l₂, hr, hg⟩ := refines_of_reachable h₀
    obtain rfl := hl.unique hr.holds
    obtain ⟨hnone, rfl⟩ := step_raise hraise
    have hid₀ : ∀ f, s₀.frame = some f → f.id = id := fun f hf => by simp [hnone] at hf
    obtain ⟨A₁, k₁, k₂, hstep, hr₁⟩ := hr.step hg hraise hid₀
    obtain rfl : A₁ = { A with before := [], ahead := A.regs } := by
      cases hstep
      rfl
    have hid₁ : ∀ f, ({ s₀ with frame := some ⟨id, args, s₀.event.first, false⟩ } : State).frame =
        some f → f.id = id := by
      intro f hf
      obtain rfl := Option.some.inj hf
      rfl
    obtain ⟨A', m₁, m₂, tr, P, Q, hr', hg', h'⟩ := (Registry.Turns.begin hg).run hr₁
      (hg.step hstep) hid₁ hg.sorted hg.bound hacts he
    rw [Nat.zero_add] at h'
    have hregs : s₀.event.regs (l₁ ++ l₂) = A.regs := hr.regs.symm
    rw [hregs]
    refine ⟨tr, ?_, h'.ids, h'.sublist hg.bound, ?_⟩
    · rw [← hr'.trace, ← hr.trace]
      exact h'.trace
    · intro hend r hm hid
      have hlen : A.regs.length = (l₁ ++ l₂).length := by
        rw [← hregs]
        exact List.length_map _
      refine h'.settled ?_ r hm hid
      rw [hlen]
      exact hend.imp_left hr'.ahead_nil

/-! ## Two handlers -/

/-- Entries from an arena: the first address that is not in use. -/
def arena : Pool where
  alloc _ used := ((List.range (used.card + 1)).find? fun a => a ∉ used).getD 0
  fresh _ used := by
    cases h : (List.range (used.card + 1)).find? fun a => a ∉ used with
    | some a => simpa using List.find?_some h
    | none =>
      -- there are more addresses than entries
      exfalso
      have hsub : Finset.range (used.card + 1) ⊆ used := by
        intro a ha
        have hn := List.find?_eq_none.1 h a (List.mem_range.2 (Finset.mem_range.1 ha))
        simpa using hn
      have hcard := Finset.card_le_card hsub
      rw [Finset.card_range] at hcard
      omega

/-- Two handlers, registered in this order. -/
def twoHandlers (h h' : EvHandler) : State :=
  ⟨((Event.create 7 fun _ => ⟨none, ⟨0, h⟩⟩).register arena h).register arena h', none⟩

theorem twoHandlers_reachable (h h' : EvHandler) :
    (machine arena).Reachable (twoHandlers h h') := by
  have hinit : (machine arena).Reachable ⟨.create 7 fun _ => ⟨none, ⟨0, h⟩⟩, none⟩ :=
    .init ⟨7, _, rfl⟩
  have hexec : (machine arena).exec [.op (.register h), .op (.register h')]
      ⟨.create 7 fun _ => ⟨none, ⟨0, h⟩⟩, none⟩ = some (twoHandlers h h') := rfl
  exact hinit.exec hexec

theorem twoHandlers_holds : (twoHandlers ⟨100, 1, 0⟩ ⟨200, 2, 0⟩).event.Holds [0, 1] :=
  ⟨by decide +kernel, by decide +kernel, ⟨by decide +kernel, by decide +kernel, trivial⟩,
    by decide, by decide +kernel⟩

/-- The first handler takes out the second, whose turn does not come. -/
theorem event_dispatch_removed :
    let h : EvHandler := ⟨100, 1, 0⟩
    let h' : EvHandler := ⟨200, 2, 0⟩
    let s₀ := twoHandlers h h'
    ∃ s₂ tr, (machine arena).exec [.visit, .op (.unregister h'), .ret, .done]
        { s₀ with frame := some ⟨0, .null, s₀.event.first, false⟩ } = some s₂ ∧
      s₂.event.trace = s₀.event.trace ++ tr ∧ DroppedIn ⟨1, h'⟩ tr := by
  intro h h' s₀
  have hrun : ((machine arena).exec [.visit, .op (.unregister h'), .ret, .done]
      { s₀ with frame := some ⟨0, .null, s₀.event.first, false⟩ }).map
        (fun s => (s.frame.isNone, s.event.trace)) =
      some (true, s₀.event.trace ++ [.called ⟨0, h⟩ 7 .null, .unregistered ⟨1, h'⟩]) := by
    decide +kernel
  obtain ⟨s₂, he, hs₂⟩ := Option.map_eq_some_iff.1 hrun
  obtain ⟨hf, ht⟩ := Prod.mk.inj hs₂
  obtain ⟨tr, htr, -, -, hall⟩ := (event_dispatch arena).2 s₀ _ s₂ 0 .null _ [0, 1]
    (twoHandlers_reachable h h') twoHandlers_holds rfl (by simp) he
  have hr : (⟨1, h'⟩ : Reg) ∈ s₀.event.regs [0, 1] := by decide +kernel
  refine ⟨s₂, tr, he, htr, ?_⟩
  rcases hall (Or.inl (Option.isNone_iff_eq_none.1 hf)) ⟨1, h'⟩ hr rfl with honce | hdrop
  · -- the record has no call of the second handler
    obtain rfl : tr = [.called ⟨0, h⟩ 7 .null, .unregistered ⟨1, h'⟩] :=
      List.append_cancel_left (htr.symm.trans ht)
    obtain ⟨t₁, t₂, sender, args, ht, -⟩ := honce
    have hm : (⟨1, h'⟩ : Reg) ∈ calls [.called ⟨0, h⟩ 7 .null, .unregistered ⟨1, h'⟩] := by
      rw [ht, calls_append]
      exact List.mem_append_right _ (.head _)
    exact absurd hm (by decide)
  · exact hdrop

/-- A handler that unregisters itself and registers again is called twice by one raise. -/
theorem registered_again :
    let h : EvHandler := ⟨100, 1, 0⟩
    let h' : EvHandler := ⟨200, 2, 0⟩
    let s₀ := twoHandlers h h'
    (machine arena).Reachable s₀ ∧ s₀.event.Holds [0, 1] ∧
      s₀.event.regs [0, 1] = [⟨0, h⟩, ⟨1, h'⟩] ∧
      ∃ s₁ s₂, step arena s₀ (.raise 0 .null) = some s₁ ∧
        (machine arena).exec [.visit, .op (.unregister h), .op (.register h), .ret, .visit, .ret,
          .visit, .ret, .done] s₁ = some s₂ ∧
        s₂.frame = none ∧
        s₂.event.trace = s₀.event.trace ++ [.called ⟨0, h⟩ 7 .null, .unregistered ⟨0, h⟩,
          .registered ⟨2, h⟩, .called ⟨1, h'⟩ 7 .null, .called ⟨2, h⟩ 7 .null] := by
  intro h h' s₀
  refine ⟨twoHandlers_reachable h h', twoHandlers_holds, by decide +kernel,
    { s₀ with frame := some ⟨0, .null, s₀.event.first, false⟩ }, ?_⟩
  have hrun : ((machine arena).exec [.visit, .op (.unregister h), .op (.register h), .ret, .visit,
        .ret, .visit, .ret, .done] { s₀ with frame := some ⟨0, .null, s₀.event.first, false⟩ }).map
          (fun s => (s.frame.isNone, s.event.trace)) =
        some (true, s₀.event.trace ++ [.called ⟨0, h⟩ 7 .null, .unregistered ⟨0, h⟩,
          .registered ⟨2, h⟩, .called ⟨1, h'⟩ 7 .null, .called ⟨2, h⟩ 7 .null]) := by
    decide +kernel
  obtain ⟨s₂, he, hs₂⟩ := Option.map_eq_some_iff.1 hrun
  obtain ⟨hf, ht⟩ := Prod.mk.inj hs₂
  exact ⟨s₂, rfl, he, Option.isNone_iff_eq_none.1 hf, ht⟩

end PoserCore.Events
