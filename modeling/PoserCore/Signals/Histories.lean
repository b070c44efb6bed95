import Mathlib.Data.Multiset.Count
import Mathlib.Tactic.Tauto
import PoserCore.Signals.Model

/-!
# Which signals a service takes

What a service does with a signal is told here by the history of its calls alone.  Each call of a
handler is one of the last that was registered (`Calls`).  In the loop a signal is taken from
the descriptor if it was registered and no null handler was registered for it since the loop began
(`Served`), and no other thread takes it first: one that was withdrawn in the loop is never taken
again, even with a new handler, because its record stays.
-/

namespace PoserCore.Signals

open Lib (Machine)

variable {H : Type} {valid : Finset ℤ} {s s' t : State H} {as bs : List (Action H)} {a : Action H}
variable {n m : ℤ} {h : Option H}

/-! ### Histories -/

/-- The handlers that were registered for a signal -/
def registrations (n : ℤ) (as : List (Action H)) : List (Option H) :=
  as.filterMap fun a =>
    match a with
    | .registerSignal m h => if m = n then some h else none
    | _ => none

/-- The handler that a signal has -/
def lastHandler (n : ℤ) (as : List (Action H)) : Option H := (registrations n as).getLast?.join

/-- The signals that were read -/
def reads (as : List (Action H)) : List ℤ :=
  as.filterMap fun a =>
    match a with
    | .handle n => some n
    | _ => none

def isStart : Action H → Bool
  | .start => true
  | _ => false

/-- What happened since the loop began -/
def sinceStart (as : List (Action H)) : List (Action H) := as.dropWhile fun a => !isStart a

/-- A signal was registered, and no null handler since the loop began. -/
def Served (n : ℤ) (as : List (Action H)) : Prop :=
  registrations n as ≠ [] ∧ ∀ h ∈ registrations n (sinceStart as), h.isSome

/-- What was read, each with the handler that its signal had then -/
structure Calls (as : List (Action H)) (l : List (ℤ × Option H)) : Prop where
  length : l.length = (reads as).length
  get : ∀ bs n cs, as = bs ++ Action.handle n :: cs →
    l[(reads bs).length]? = some (n, lastHandler n bs)

theorem registrations_append (n : ℤ) (as bs : List (Action H)) :
    registrations n (as ++ bs) = registrations n as ++ registrations n bs :=
  List.filterMap_append

theorem reads_append (as bs : List (Action H)) : reads (as ++ bs) = reads as ++ reads bs :=
  List.filterMap_append

theorem registrations_register (n m : ℤ) (h : Option H) :
    registrations n [.registerSignal m h] = if m = n then [h] else [] := by
  by_cases hm : m = n <;> simp [registrations, hm]

theorem sinceStart_append (h : sinceStart as ≠ []) (bs : List (Action H)) :
    sinceStart (as ++ bs) = sinceStart as ++ bs := by
  rw [sinceStart, List.dropWhile_append, if_neg]
  · rfl
  · rw [sinceStart] at h
    simpa only [List.isEmpty_iff] using h

theorem sinceStart_concat (h : sinceStart as = []) (a : Action H) :
    sinceStart (as ++ [a]) = if isStart a then [a] else [] := by
  rw [sinceStart] at h
  rw [sinceStart, List.dropWhile_append, h, if_pos List.isEmpty_nil, List.dropWhile_cons]
  cases isStart a
  · rfl
  · rfl

/-- A registered signal stays out once it is out. -/
theorem Served.of_append (hs : sinceStart as ≠ []) (hn : registrations n as ≠ [])
    (h : Served n (as ++ bs)) : Served n as := by
  refine ⟨hn, fun h' hh' => h.2 h' ?_⟩
  rw [sinceStart_append hs, registrations_append]
  exact List.mem_append_left _ hh'

theorem registrations_sinceStart (h : registrations n as = []) :
    registrations n (sinceStart as) = [] := by
  have hsuffix := (List.dropWhile_suffix (l := as) fun a => !isStart a).filterMap
    fun a : Action H =>
      match a with
      | .registerSignal m h => if m = n then some h else none
      | _ => none
  exact List.suffix_nil.1 (h ▸ hsuffix)

theorem served_register (hs : sinceStart as ≠ []) (n m : ℤ) (h : Option H) :
    Served n (as ++ [.registerSignal m h]) ↔
      if m = n then h.isSome ∧ ∀ h' ∈ registrations n (sinceStart as), h'.isSome
      else Served n as := by
  rw [Served, sinceStart_append hs, registrations_append, registrations_append,
    registrations_register]
  split_ifs with hm
  · simp [or_imp, forall_and, and_comm]
  · simp [Served]

theorem served_other (hs : sinceStart as ≠ []) (ha : registrations n [a] = []) :
    Served n (as ++ [a]) ↔ Served n as := by
  rw [Served, sinceStart_append hs, registrations_append, registrations_append, ha,
    List.append_nil, List.append_nil, Served]

/-- The last action of a history is one of its two parts' -/
theorem split_concat {bs cs : List (Action H)} {b : Action H} (h : as ++ [a] = bs ++ b :: cs) :
    as = bs ∧ a = b ∨ ∃ cs', as = bs ++ b :: cs' := by
  rcases List.eq_nil_or_concat cs with rfl | ⟨cs', c, rfl⟩
  · obtain ⟨h1, h2⟩ := List.append_inj' h rfl
    exact .inl ⟨h1, List.singleton_inj.1 h2⟩
  · rw [List.concat_eq_append, ← List.cons_append, ← List.append_assoc] at h
    exact .inr ⟨cs', (List.append_inj' h rfl).1⟩

theorem Calls.other {l : List (ℤ × Option H)} (hc : Calls as l) (ha : reads [a] = []) :
    Calls (as ++ [a]) l where
  length := by rw [reads_append, ha, List.append_nil, hc.length]
  get bs n cs h := by
    rcases split_concat h with ⟨-, rfl⟩ | ⟨cs', h'⟩
    · exact absurd ha (List.cons_ne_nil _ _)
    · exact hc.get _ _ _ h'

theorem Calls.handle {l : List (ℤ × Option H)} (hc : Calls as l) (n : ℤ) :
    Calls (as ++ [.handle n]) (l ++ [(n, lastHandler n as)]) where
  length := by
    rw [reads_append, List.length_append, List.length_append, hc.length]
    rfl
  get bs m cs h := by
    rcases split_concat h with ⟨rfl, ha⟩ | ⟨cs', h'⟩
    · obtain rfl : n = m := Action.handle.inj ha
      rw [← hc.length, List.getElem?_concat_length]
    · have hget := hc.get _ _ _ h'
      rw [List.getElem?_append_left (List.getElem?_eq_some_iff.1 hget).1, hget]

/-! ### The records -/

/-- The handler in the record of a signal, if it has one -/
def State.handler (s : State H) (n : ℤ) : Option (Option H) := (s.sighdlrec n).map SigHdlRec.hdl

theorem State.isSome_handler : (s.handler n).isSome = (s.sighdlrec n).isSome := Option.isSome_map

theorem sigcallbacks_setRecord (s : State H) (m : ℤ) (h : Option H) :
    (s.setRecord m h).sigcallbacks = Function.update s.sigcallbacks (slot m)
      (if (s.sighdlrec m).isSome then
        (s.sigcallbacks (slot m)).map fun r => if r.signo = m then { r with hdl := h } else r
      else s.sigcallbacks (slot m) ++ [⟨h, m⟩]) :=
  rfl

theorem signo_comp_set (m n : ℤ) (h : Option H) :
    ((fun r : SigHdlRec H => decide (r.signo = n)) ∘
      fun r => if r.signo = m then { r with hdl := h } else r) = fun r => decide (r.signo = n) := by
  funext r
  by_cases hm : r.signo = m <;> simp [hm]

theorem handler_setRecord (s : State H) (m n : ℤ) (h : Option H) :
    (s.setRecord m h).handler n = if m = n then some h else s.handler n := by
  by_cases hslot : slot n = slot m
  · have hchain : (s.setRecord m h).sigcallbacks (slot n) =
        if (s.sighdlrec m).isSome then
          (s.sigcallbacks (slot n)).map fun r => if r.signo = m then { r with hdl := h } else r
        else s.sigcallbacks (slot n) ++ [⟨h, m⟩] := by
      rw [sigcallbacks_setRecord, hslot, Function.update_self]
    rw [State.handler, State.sighdlrec, hchain]
    split_ifs with hrec hmn hmn
    · -- the record of the signal itself
      subst hmn
      obtain ⟨r, hr⟩ := Option.isSome_iff_exists.1 hrec
      rw [State.sighdlrec] at hr
      have hsigno := List.find?_some hr
      rw [decide_eq_true_eq] at hsigno
      rw [List.find?_map, signo_comp_set, hr]
      simp [hsigno]
    · rw [List.find?_map, signo_comp_set, State.handler, State.sighdlrec, Option.map_map]
      cases hf : (s.sigcallbacks (slot n)).find? fun r => decide (r.signo = n) with
      | none => rfl
      | some r =>
        have hsigno := List.find?_some hf
        rw [decide_eq_true_eq] at hsigno
        have hm : ¬r.signo = m := fun hm => hmn (hm.symm.trans hsigno)
        simp [hm]
    · subst hmn
      have hnone : (s.sigcallbacks (slot m)).find? (fun r => decide (r.signo = m)) = none := by
        simpa [State.sighdlrec] using hrec
      rw [List.find?_append, hnone]
      simp
    · rw [List.find?_append, List.find?_cons_of_neg (by simpa using hmn)]
      simp [State.handler, State.sighdlrec]
  · have hmn : m ≠ n := fun hmn => hslot (congrArg slot hmn.symm)
    rw [if_neg hmn, State.handler, State.sighdlrec, sigcallbacks_setRecord,
      Function.update_of_ne hslot]
    rfl

theorem slots_setRecord (hs : ∀ k, ∀ r ∈ s.sigcallbacks k, slot r.signo = k) (m : ℤ)
    (h : Option H) : ∀ k, ∀ r ∈ (s.setRecord m h).sigcallbacks k, slot r.signo = k := by
  intro k r hr
  rw [sigcallbacks_setRecord] at hr
  by_cases hk : k = slot m
  · subst hk
    rw [Function.update_self] at hr
    split_ifs at hr with hrec
    · obtain ⟨r', hr', rfl⟩ := List.mem_map.1 hr
      have hslot := hs _ _ hr'
      split_ifs with hm
      · exact hslot
      · exact hslot
    · rcases List.mem_append.1 hr with hr | hr
      · exact hs _ _ hr
      · rw [List.mem_singleton.1 hr]
  · rw [Function.update_of_ne hk] at hr
    exact hs _ _ hr

/-- The signals whose records `serviceLoop` finds are those that have one. -/
theorem mem_signos (hs : ∀ k, ∀ r ∈ s.sigcallbacks k, slot r.signo = k) :
    n ∈ ((List.finRange 32).flatMap fun k => (s.sigcallbacks k).map SigHdlRec.signo) ↔
      (s.handler n).isSome := by
  rw [State.isSome_handler, State.sighdlrec, List.find?_isSome]
  constructor
  · intro hn
    obtain ⟨k, -, hk⟩ := List.mem_flatMap.1 hn
    obtain ⟨r, hr, rfl⟩ := List.mem_map.1 hk
    exact ⟨r, by rwa [hs _ _ hr], by simp⟩
  · rintro ⟨r, hr, hn⟩
    obtain rfl : r.signo = n := by simpa using hn
    exact List.mem_flatMap.2 ⟨_, List.mem_finRange _, List.mem_map_of_mem hr⟩

theorem mem_foldl_sigaddset (signos : List ℤ) (set : Finset ℤ) :
    n ∈ signos.foldl (State.sigaddset valid) set ↔ n ∈ set ∨ n ∈ signos ∧ n ∈ valid := by
  induction signos generalizing set with
  | nil => simp
  | cons m signos ih =>
    rw [List.foldl_cons, ih, State.sigaddset]
    split_ifs with hm
    · rw [Finset.mem_insert, List.mem_cons]
      by_cases hnm : n = m
      · simp [hnm, hm]
      · simp [hnm]
    · rw [List.mem_cons]
      have hnm : n ∈ valid → n ≠ m := fun hn hnm => hm (hnm ▸ hn)
      tauto

/-! ### What a registration does -/

/-- The masks after a call of `PSC_Service_registerSignal`, before it sets the record -/
inductive Masked (valid : Finset ℤ) (s : State H) (n : ℤ) (h : Option H) : State H → Prop
  | keep (hkeep : s.phase = .running → n ∉ State.fixed → n ∈ valid →
      ((s.handler n).isSome ↔ h.isSome)) : Masked valid s n h s
  | drop (hr : s.phase = .running) (hn : n ∉ State.fixed) (hrec : (s.handler n).isSome)
      (hh : h = none) :
      Masked valid s n h (State.setMask { s with sigblockmask := s.sigblockmask.erase n })
  | add (hr : s.phase = .running) (hn : n ∉ State.fixed) (hrec : s.handler n = none)
      (hh : h.isSome) (hv : n ∈ valid) :
      Masked valid s n h (State.setMask { s with sigblockmask := insert n s.sigblockmask })

theorem registerSignal_cases (valid : Finset ℤ) (s : State H) (n : ℤ) (h : Option H) :
    ∃ t, Masked valid s n h t ∧ s.registerSignal valid n h = t.setRecord n h := by
  refine ⟨_, ?_, rfl⟩
  have hsome := State.isSome_handler (s := s) (n := n)
  have hnone : s.handler n = none ↔ ¬(s.sighdlrec n).isSome := by
    rw [← hsome, Option.isSome_iff_ne_none, not_not]
  by_cases hr : s.phase = .running ∧ n ∉ State.fixed
  · rw [if_pos hr]
    split_ifs with herase hinsert hv
    · exact .drop hr.1 hr.2 (hsome.trans herase.1) (Option.isNone_iff_eq_none.1 herase.2)
    · exact .add hr.1 hr.2 (hnone.2 (by simpa using hinsert.1)) hinsert.2 hv
    · exact .keep fun _ _ hv' => absurd hv' hv
    · refine .keep fun _ _ _ => ?_
      rw [hsome]
      cases hrec : s.sighdlrec n <;> cases h <;> simp_all
  · rw [if_neg hr]
    exact .keep fun h1 h2 => absurd ⟨h1, h2⟩ hr

/-! ### What a history makes of the state -/

structure Inv (valid : Finset ℤ) (as : List (Action H)) (s : State H) : Prop where
  handler : ∀ n, s.handler n = (registrations n as).getLast?
  slots : ∀ k, ∀ r ∈ s.sigcallbacks k, slot r.signo = k
  masks : s.phase ≠ .idle → s.blocked = s.sigblockmask \ unblockable ∧ s.sfd = s.blocked
  before : s.phase ≠ .running → sinceStart as = []
  since : s.phase = .running → sinceStart as ≠ []
  base : s.phase = .starting → s.sigblockmask = insert SIGPIPE State.fixed
  always : s.phase = .running → State.fixed ⊆ s.sigblockmask
  served : s.phase = .running → ∀ n ∈ valid, n ∉ insert SIGPIPE State.fixed →
    (n ∈ s.sigblockmask ↔ Served n as)
  calls : Calls as s.handled

theorem Inv.start (blocked : Finset ℤ) : Inv valid [] (init blocked : State H) where
  handler _ := rfl
  slots _ _ hr := absurd hr List.not_mem_nil
  masks h := absurd rfl h
  before _ := rfl
  since h := absurd h Phase.noConfusion
  base h := absurd h Phase.noConfusion
  always h := absurd h Phase.noConfusion
  served h := absurd h Phase.noConfusion
  calls := ⟨rfl, fun bs _ _ h => absurd h.symm (by simp)⟩

/-- An action that leaves the records and the masks alone -/
theorem Inv.other (hi : Inv valid as s) (hcb : s'.sigcallbacks = s.sigcallbacks)
    (hphase : s'.phase = s.phase) (hmask : s'.sigblockmask = s.sigblockmask)
    (hblocked : s'.blocked = s.blocked) (hsfd : s'.sfd = s.sfd) (hstart : isStart a = false)
    (hreg : ∀ n, registrations n [a] = []) (hcalls : Calls (as ++ [a]) s'.handled) :
    Inv valid (as ++ [a]) s' where
  handler n := by
    rw [registrations_append, hreg, List.append_nil, ← hi.handler, State.handler, State.sighdlrec,
      hcb]
    rfl
  slots := by
    rw [hcb]
    exact hi.slots
  masks h := by
    rw [hblocked, hsfd, hmask]
    exact hi.masks (hphase ▸ h)
  before h := by rw [sinceStart_concat (hi.before (hphase ▸ h)), hstart, if_neg Bool.false_ne_true]
  since h := by
    rw [sinceStart_append (hi.since (hphase ▸ h))]
    exact List.append_ne_nil_of_left_ne_nil (hi.since (hphase ▸ h)) _
  base h := by
    rw [hmask]
    exact hi.base (hphase ▸ h)
  always h := by
    rw [hmask]
    exact hi.always (hphase ▸ h)
  served h n hn hf := by
    rw [hmask, served_other (hi.since (hphase ▸ h)) (hreg n)]
    exact hi.served (hphase ▸ h) n hn hf
  calls := hcalls

theorem Masked.sigcallbacks (h' : Masked valid s n h t) : t.sigcallbacks = s.sigcallbacks := by
  cases h' with
  | keep => rfl
  | drop => rfl
  | add => rfl

theorem Masked.phase (h' : Masked valid s n h t) : t.phase = s.phase := by
  cases h' with
  | keep => rfl
  | drop => rfl
  | add => rfl

theorem Masked.handled (h' : Masked valid s n h t) : t.handled = s.handled := by
  cases h' with
  | keep => rfl
  | drop => rfl
  | add => rfl

theorem Masked.masks (h' : Masked valid s n h t)
    (hm : s.blocked = s.sigblockmask \ unblockable ∧ s.sfd = s.blocked) :
    t.blocked = t.sigblockmask \ unblockable ∧ t.sfd = t.blocked := by
  cases h' with
  | keep => exact hm
  | drop => exact ⟨rfl, rfl⟩
  | add => exact ⟨rfl, rfl⟩

theorem Masked.sigblockmask (h' : Masked valid s n h t) (hr : s.phase ≠ .running) :
    t.sigblockmask = s.sigblockmask := by
  cases h' with
  | keep => rfl
  | drop hr' => exact absurd hr' hr
  | add hr' => exact absurd hr' hr

theorem Masked.fixed (h' : Masked valid s n h t) (hf : State.fixed ⊆ s.sigblockmask) :
    State.fixed ⊆ t.sigblockmask := by
  cases h' with
  | keep => exact hf
  | drop _ hn =>
    intro m hm
    exact Finset.mem_erase.2 ⟨fun hmn => hn (hmn ▸ hm), hf hm⟩
  | add => exact hf.trans (Finset.subset_insert _ _)

/-- The mask holds a signal after its registration if it is served then. -/
theorem Masked.served (h' : Masked valid s m h t) (hi : Inv valid as s) (hr : s.phase = .running)
    (hn : n ∈ valid) (hf : n ∉ insert SIGPIPE State.fixed) :
    n ∈ t.sigblockmask ↔ Served n (as ++ [.registerSignal m h]) := by
  have hserved := hi.served hr n hn hf
  have hfixed : n ∉ State.fixed := fun h1 => hf (Finset.mem_insert_of_mem h1)
  rw [served_register (hi.since hr)]
  have hreg := hi.handler m
  by_cases hmn : m = n
  · subst hmn
    rw [if_pos rfl]
    cases h' with
    | keep hkeep =>
      rw [hserved, Served, ← hkeep hr hfixed hn, hreg]
      cases hregs : registrations m as with
      | nil => simp
      | cons r rs => simp
    | drop _ _ _ hh =>
      simp [State.setMask, hh]
    | add _ _ hrec hh =>
      have hnil : registrations m as = [] := by simpa [hreg] using hrec
      simp [State.setMask, hh, registrations_sinceStart hnil]
  · rw [if_neg hmn, ← hserved]
    cases h' with
    | keep => rfl
    | drop => simp [State.setMask, Ne.symm hmn]
    | add => simp [State.setMask, Ne.symm hmn]

theorem Inv.register (hi : Inv valid as s) (m : ℤ) (h : Option H) :
    Inv valid (as ++ [.registerSignal m h]) (s.registerSignal valid m h) := by
  obtain ⟨t, ht, hs⟩ := registerSignal_cases valid s m h
  rw [hs]
  have hhandler : ∀ n, t.handler n = s.handler n := by
    intro n
    rw [State.handler, State.sighdlrec, ht.sigcallbacks]
    rfl
  exact
    { handler := fun n => by
        rw [handler_setRecord, hhandler, hi.handler, registrations_append, registrations_register]
        split_ifs
        · rw [List.getLast?_concat]
        · rw [List.append_nil]
      slots := slots_setRecord (by rw [ht.sigcallbacks]; exact hi.slots) m h
      masks := fun h1 => ht.masks (hi.masks (ht.phase ▸ h1))
      before := fun h1 => sinceStart_concat (hi.before (ht.phase ▸ h1)) _
      since := fun h1 => by
        rw [sinceStart_append (hi.since (ht.phase ▸ h1))]
        exact List.append_ne_nil_of_left_ne_nil (hi.since (ht.phase ▸ h1)) _
      base := fun h1 => by
        have h1 : s.phase = .starting := ht.phase ▸ h1
        exact (ht.sigblockmask (h1 ▸ Phase.noConfusion)).trans (hi.base h1)
      always := fun h1 => ht.fixed (hi.always (ht.phase ▸ h1))
      served := fun h1 n hn hf => ht.served hi (ht.phase ▸ h1) hn hf
      calls := by
        have hcalls := hi.calls.other (a := .registerSignal m h) rfl
        rw [← ht.handled] at hcalls
        exact hcalls }

theorem Inv.prepare (hi : Inv valid as s) (hp : s.phase = .idle) :
    Inv valid (as ++ [.prepare]) s.prepare where
  handler n := by
    have hnil : registrations n [(.prepare : Action H)] = [] := rfl
    rw [registrations_append, hnil, List.append_nil]
    exact hi.handler n
  slots := hi.slots
  masks _ := ⟨rfl, rfl⟩
  before _ := sinceStart_concat (hi.before (hp ▸ Phase.noConfusion)) _
  since h := absurd h Phase.noConfusion
  base _ := rfl
  always h := absurd h Phase.noConfusion
  served h := absurd h Phase.noConfusion
  calls := hi.calls.other rfl

theorem Inv.begin (hi : Inv valid as s) (hp : s.phase = .starting) :
    Inv valid (as ++ [.start]) (s.start valid) where
  handler n := by
    have hnil : registrations n [(.start : Action H)] = [] := rfl
    rw [registrations_append, hnil, List.append_nil]
    exact hi.handler n
  slots := hi.slots
  masks _ := ⟨rfl, rfl⟩
  before h := absurd rfl h
  since _ := by
    rw [sinceStart_concat (hi.before (hp ▸ Phase.noConfusion))]
    exact List.cons_ne_nil _ _
  base h := absurd h Phase.noConfusion
  always _ := by
    intro n hn
    refine (mem_foldl_sigaddset _ _).2 (.inl ?_)
    rw [hi.base hp]
    exact Finset.mem_insert_of_mem hn
  served _ n hn hf := by
    have hmask : n ∈ (s.start valid).sigblockmask ↔ (s.handler n).isSome := by
      refine (mem_foldl_sigaddset _ _).trans ?_
      rw [mem_signos hi.slots, hi.base hp]
      tauto
    rw [hmask, hi.handler, Served, sinceStart_concat (hi.before (hp ▸ Phase.noConfusion)),
      registrations_append]
    cases hregs : registrations n as with
    | nil => simp [registrations, isStart]
    | cons r rs => simp [registrations, isStart]
  calls := hi.calls.other rfl

theorem Inv.step (hi : Inv valid as s) (hs : step valid s a = some s') :
    Inv valid (as ++ [a]) s' := by
  cases a with
  | registerSignal m h =>
    obtain rfl := Option.some.inj hs
    exact hi.register m h
  | prepare =>
    obtain ⟨hp, rfl⟩ := Option.ite_none_right_eq_some.1 hs |>.imp id Option.some.inj
    exact hi.prepare hp
  | start =>
    obtain ⟨hp, rfl⟩ := Option.ite_none_right_eq_some.1 hs |>.imp id Option.some.inj
    exact hi.begin hp
  | arrive m =>
    obtain rfl := Option.some.inj hs
    rw [State.arrive]
    split_ifs
    · exact hi.other rfl rfl rfl rfl rfl rfl (fun _ => rfl) (hi.calls.other rfl)
    · exact hi.other rfl rfl rfl rfl rfl rfl (fun _ => rfl) (hi.calls.other rfl)
  | threads others =>
    obtain rfl := Option.some.inj hs
    exact hi.other rfl rfl rfl rfl rfl rfl (fun _ => rfl) (hi.calls.other rfl)
  | handle m =>
    obtain ⟨-, rfl⟩ := Option.ite_none_right_eq_some.1 hs |>.imp id Option.some.inj
    have hlast : (s.sighdlrec m).bind SigHdlRec.hdl = lastHandler m as := by
      rw [lastHandler, ← hi.handler, State.handler]
      cases s.sighdlrec m <;> rfl
    refine hi.other rfl rfl rfl rfl rfl rfl (fun _ => rfl) ?_
    rw [State.handle, hlast]
    exact hi.calls.handle m

/-! ### What becomes of a signal -/

theorem count_missed_setMask (hn : n ∈ s.setMask.blocked) :
    s.setMask.missed.count n = s.missed.count n := by
  have hout : n ∉ (s.pending \ (s.sigblockmask \ unblockable)).val :=
    fun h => (Finset.mem_sdiff.1 h).2 hn
  refine (Multiset.count_add _ _ _).trans ?_
  rw [Multiset.count_eq_zero_of_notMem hout, Nat.zero_add]

theorem pending_setMask (hn : n ∈ s.setMask.blocked) (hp : n ∈ s.pending) :
    n ∈ s.setMask.pending :=
  Finset.mem_inter.2 ⟨hp, hn⟩

theorem step_handled (hs : step valid s a = some s') :
    s'.handled = s.handled ∧ reads [a] = [] ∨
      ∃ m f, a = .handle m ∧ m ∈ s.sfd ∧ s'.handled = s.handled ++ [(m, f)] := by
  cases a with
  | registerSignal m h =>
    obtain rfl := Option.some.inj hs
    obtain ⟨t, ht, hs⟩ := registerSignal_cases valid s m h
    rw [hs]
    exact .inl ⟨ht.handled, rfl⟩
  | prepare =>
    obtain ⟨-, rfl⟩ := Option.ite_none_right_eq_some.1 hs |>.imp id Option.some.inj
    exact .inl ⟨rfl, rfl⟩
  | start =>
    obtain ⟨-, rfl⟩ := Option.ite_none_right_eq_some.1 hs |>.imp id Option.some.inj
    exact .inl ⟨rfl, rfl⟩
  | arrive m =>
    obtain rfl := Option.some.inj hs
    rw [State.arrive]
    split_ifs
    · exact .inl ⟨rfl, rfl⟩
    · exact .inl ⟨rfl, rfl⟩
  | threads others =>
    obtain rfl := Option.some.inj hs
    exact .inl ⟨rfl, rfl⟩
  | handle m =>
    obtain ⟨⟨-, -, hm⟩, rfl⟩ := Option.ite_none_right_eq_some.1 hs |>.imp id Option.some.inj
    exact .inr ⟨m, _, rfl, hm, rfl⟩

/-- A step after which all threads still block a signal does not lose it. -/
theorem step_kept (hs : step valid s a = some s') (hn : n ∈ s.blocked) (hn' : n ∈ s'.blocked)
    (ho : n ∉ s.others) (ho' : ∀ others, a = .threads others → n ∉ others) :
    s'.missed.count n = s.missed.count n ∧
      (n ∈ s.pending ∨ a = .arrive n →
        n ∈ s'.pending ∨ ∃ f, s'.handled = s.handled ++ [(n, f)]) := by
  cases a with
  | registerSignal m h =>
    obtain rfl := Option.some.inj hs
    obtain ⟨t, ht, hs⟩ := registerSignal_cases valid s m h
    rw [hs] at hn' ⊢
    cases ht with
    | keep => exact ⟨rfl, fun hp => .inl (hp.resolve_right (by simp))⟩
    | drop =>
      exact ⟨count_missed_setMask hn', fun hp =>
        .inl (pending_setMask hn' (hp.resolve_right (by simp)))⟩
    | add =>
      exact ⟨count_missed_setMask hn', fun hp =>
        .inl (pending_setMask hn' (hp.resolve_right (by simp)))⟩
  | prepare =>
    obtain ⟨-, rfl⟩ := Option.ite_none_right_eq_some.1 hs |>.imp id Option.some.inj
    exact ⟨count_missed_setMask hn', fun hp =>
      .inl (pending_setMask hn' (hp.resolve_right (by simp)))⟩
  | start =>
    obtain ⟨-, rfl⟩ := Option.ite_none_right_eq_some.1 hs |>.imp id Option.some.inj
    exact ⟨count_missed_setMask hn', fun hp =>
      .inl (pending_setMask hn' (hp.resolve_right (by simp)))⟩
  | arrive m =>
    obtain rfl := Option.some.inj hs
    rw [State.arrive]
    by_cases hmn : m = n
    · subst hmn
      rw [if_pos ⟨hn, ho⟩]
      exact ⟨rfl, fun _ => .inl (Finset.mem_insert_self _ _)⟩
    · have hp : n ∈ s.pending ∨ Action.arrive (H := H) m = .arrive n →
          n ∈ s.pending := fun hp => hp.resolve_right fun h => hmn (Action.arrive.inj h)
      split_ifs
      · exact ⟨rfl, fun h => .inl (Finset.mem_insert_of_mem (hp h))⟩
      · exact ⟨Multiset.count_cons_of_ne (Ne.symm hmn) _, fun h => .inl (hp h)⟩
  | threads others =>
    obtain rfl := Option.some.inj hs
    have hout := ho' others rfl
    refine ⟨?_, fun hp => .inl (Finset.mem_sdiff.2 ⟨hp.resolve_right (by simp), hout⟩)⟩
    have hnot : n ∉ (s.pending ∩ others).val := fun h => hout (Finset.mem_inter.1 h).2
    refine (Multiset.count_add _ _ _).trans ?_
    rw [Multiset.count_eq_zero_of_notMem hnot, Nat.zero_add]
  | handle m =>
    obtain ⟨-, rfl⟩ := Option.ite_none_right_eq_some.1 hs |>.imp id Option.some.inj
    refine ⟨rfl, fun hp => ?_⟩
    have hp := hp.resolve_right (by simp)
    by_cases hmn : m = n
    · subst hmn
      exact .inr ⟨_, rfl⟩
    · exact .inl (Finset.mem_erase.2 ⟨Ne.symm hmn, hp⟩)

theorem step_others (hs : step valid s a = some s') (ho : n ∉ s.others)
    (ho' : ∀ others, a = .threads others → n ∉ others) : n ∉ s'.others := by
  cases a with
  | registerSignal m h =>
    obtain rfl := Option.some.inj hs
    obtain ⟨t, ht, hs⟩ := registerSignal_cases valid s m h
    rw [hs]
    cases ht with
    | keep => exact ho
    | drop => exact ho
    | add => exact ho
  | prepare => exact Option.some.inj (Option.ite_none_right_eq_some.1 hs).2 ▸ ho
  | start => exact Option.some.inj (Option.ite_none_right_eq_some.1 hs).2 ▸ ho
  | arrive m =>
    obtain rfl := Option.some.inj hs
    rw [State.arrive]
    split_ifs
    · exact ho
    · exact ho
  | threads others =>
    obtain rfl := Option.some.inj hs
    exact ho' others rfl
  | handle m => exact Option.some.inj (Option.ite_none_right_eq_some.1 hs).2 ▸ ho

theorem step_running (hs : step valid s a = some s') (hr : s.phase = .running) :
    s'.phase = .running := by
  cases a with
  | registerSignal m h =>
    obtain rfl := Option.some.inj hs
    obtain ⟨t, ht, hs⟩ := registerSignal_cases valid s m h
    rw [hs]
    exact ht.phase.trans hr
  | prepare =>
    obtain ⟨hp, -⟩ := Option.ite_none_right_eq_some.1 hs
    exact absurd (hr.symm.trans hp) Phase.noConfusion
  | start => exact Option.some.inj (Option.ite_none_right_eq_some.1 hs).2 ▸ rfl
  | arrive m =>
    obtain rfl := Option.some.inj hs
    rw [State.arrive]
    split_ifs
    · exact hr
    · exact hr
  | threads others =>
    obtain rfl := Option.some.inj hs
    exact hr
  | handle m =>
    obtain ⟨-, rfl⟩ := Option.ite_none_right_eq_some.1 hs |>.imp id Option.some.inj
    exact hr

theorem Inv.blocked_iff (hi : Inv valid as s) (hr : s.phase = .running) (hn : n ∈ valid)
    (hu : n ∉ unblockable) (hf : n ∉ insert SIGPIPE State.fixed) : n ∈ s.blocked ↔ Served n as := by
  rw [(hi.masks (hr ▸ Phase.noConfusion)).1, Finset.mem_sdiff, hi.served hr n hn hf]
  exact and_iff_left hu

/-- The run that goes on from a state of the loop -/
structure Onward (valid : Finset ℤ) (as : List (Action H)) (s : State H) (bs : List (Action H))
    (t : State H) : Prop where
  inv : Inv valid (as ++ bs) t
  running : t.phase = .running
  handled : s.handled <+: t.handled

theorem Onward.refl (hi : Inv valid as s) (hr : s.phase = .running) : Onward valid as s [] s where
  inv := by rwa [List.append_nil]
  running := hr
  handled := List.prefix_refl _

theorem Onward.step (ho : Onward valid as s bs t) (hs : step valid t a = some s') :
    Onward valid as s (bs ++ [a]) s' where
  inv := by
    rw [← List.append_assoc]
    exact ho.inv.step hs
  running := step_running hs ho.running
  handled := by
    rcases step_handled hs with ⟨heq, -⟩ | ⟨m, f, -, -, heq⟩
    · rw [heq]
      exact ho.handled
    · rw [heq]
      exact ho.handled.trans (List.prefix_append _ _)

/-- No signal is missed while it is served and the other threads block it: it is pending until its
handler is called. -/
theorem Inv.kept {blocked : Finset ℤ} (hi : Inv valid as s) (hr : s.phase = .running)
    (hn : n ∈ valid) (hu : n ∉ unblockable) (hf : n ∉ insert SIGPIPE State.fixed)
    (hserved : Served n as) (he : (signals valid blocked).exec bs s = some s')
    (hserved' : Served n (as ++ bs)) (hout : n ∉ s.others)
    (hothers : ∀ others, Action.threads others ∈ bs → n ∉ others) :
    s'.missed.count n = s.missed.count n ∧ (n ∈ s.pending ∨ Action.arrive n ∈ bs →
      n ∈ s'.pending ∨ ∃ f, (n, f) ∈ s'.handled.drop s.handled.length) := by
  have hsince := hi.since hr
  have h0 : Onward valid as s [] s ∧ (Served n (as ++ []) →
      (∀ others, Action.threads (H := H) others ∈ [] → n ∉ others) → n ∉ s.others ∧
      s.missed.count n = s.missed.count n ∧ (n ∈ s.pending ∨ Action.arrive (H := H) n ∈ [] →
        n ∈ s.pending ∨ ∃ f, (n, f) ∈ s.handled.drop s.handled.length)) :=
    ⟨.refl hi hr, fun _ _ => ⟨hout, rfl, fun h => .inl (h.resolve_right List.not_mem_nil)⟩⟩
  have key := Machine.exec_history (M := signals valid blocked)
    (I := fun bs t => Onward valid as s bs t ∧ (Served n (as ++ bs) →
      (∀ others, Action.threads others ∈ bs → n ∉ others) → n ∉ t.others ∧
      t.missed.count n = s.missed.count n ∧ (n ∈ s.pending ∨ Action.arrive n ∈ bs →
        n ∈ t.pending ∨ ∃ f, (n, f) ∈ t.handled.drop s.handled.length)))
    (fun bs t a t' ⟨ho, ih⟩ hs => ⟨ho.step hs, fun hserved' hothers => ?_⟩) h0 he
  · exact (key.2 hserved' hothers).2
  · have hmono : Served n (as ++ bs) := by
      rw [← List.append_assoc] at hserved'
      refine hserved'.of_append ?_ ?_
      · rw [sinceStart_append hsince]
        exact List.append_ne_nil_of_left_ne_nil hsince _
      · rw [registrations_append]
        exact List.append_ne_nil_of_left_ne_nil hserved.1 _
    have hnow : ∀ others, a = .threads others → n ∉ others := fun others ha =>
      hothers others (ha ▸ List.mem_append_right _ (List.mem_singleton_self _))
    obtain ⟨hout, hmissed, hpending⟩ := ih hmono fun others h =>
      hothers others (List.mem_append_left _ h)
    have ho' := ho.step hs
    obtain ⟨hmissed', hpending'⟩ := step_kept hs
      ((ho.inv.blocked_iff ho.running hn hu hf).2 hmono)
      ((ho'.inv.blocked_iff ho'.running hn hu hf).2 hserved') hout hnow
    refine ⟨step_others hs hout hnow, hmissed'.trans hmissed, fun h => ?_⟩
    have hlen := ho.handled.length_le
    have hold : n ∈ t.pending ∨ a = .arrive n ∨
        ∃ f, (n, f) ∈ t.handled.drop s.handled.length := by
      rw [List.mem_append, List.mem_singleton, ← or_assoc] at h
      rcases h with h | h
      · rcases hpending h with h | h
        · exact .inl h
        · exact .inr (.inr h)
      · exact .inr (.inl h.symm)
    rcases hold with h | h | ⟨f, h⟩
    · rcases hpending' (.inl h) with h | ⟨f, h⟩
      · exact .inl h
      · refine .inr ⟨f, ?_⟩
        rw [h, List.drop_append_of_le_length hlen]
        exact List.mem_append_right _ (List.mem_singleton_self _)
    · rcases hpending' (.inr h) with h | ⟨f, h⟩
      · exact .inl h
      · refine .inr ⟨f, ?_⟩
        rw [h, List.drop_append_of_le_length hlen]
        exact List.mem_append_right _ (List.mem_singleton_self _)
    · obtain ⟨l, hl⟩ := ((Onward.refl ho.inv ho.running).step hs).handled
      refine .inr ⟨f, ?_⟩
      rw [← hl, List.drop_append_of_le_length hlen]
      exact List.mem_append_left _ h

/-- A signal that is not served any more is never read again. -/
theorem Inv.dropped {blocked : Finset ℤ} (hi : Inv valid as s) (hr : s.phase = .running)
    (hn : n ∈ valid) (hu : n ∉ unblockable) (hf : n ∉ insert SIGPIPE State.fixed)
    (hreg : registrations n as ≠ []) (hserved : ¬Served n as)
    (he : (signals valid blocked).exec bs s = some s') (f : Option H) :
    (n, f) ∉ s'.handled.drop s.handled.length := by
  have hsince := hi.since hr
  have h0 : Onward valid as s [] s ∧ (n, f) ∉ s.handled.drop s.handled.length :=
    ⟨.refl hi hr, by simp⟩
  have key := Machine.exec_history (M := signals valid blocked)
    (I := fun bs t => Onward valid as s bs t ∧ (n, f) ∉ t.handled.drop s.handled.length)
    (fun bs t a t' ⟨ho, ih⟩ hs => ⟨ho.step hs, ?_⟩) h0 he
  · exact key.2
  · rcases step_handled hs with ⟨heq, -⟩ | ⟨m, g, -, hm, heq⟩
    · rwa [heq]
    · rw [heq, List.drop_append_of_le_length ho.handled.length_le, List.mem_append,
        List.mem_singleton]
      rintro (h | h)
      · exact ih h
      · obtain rfl : n = m := congrArg Prod.fst h
        rw [(ho.inv.masks (ho.running ▸ Phase.noConfusion)).2,
          ho.inv.blocked_iff ho.running hn hu hf] at hm
        exact hserved (hm.of_append hsince hreg)

end PoserCore.Signals
