import Mathlib.Data.List.Count
import PoserCore.CommandQueue.Preserve

/-!
# No command is lost, repeated or overtaken

A command is accounted for when it was run exactly once, or was not run and can be reached through
the links from `q->first` or from the node at which the owner's batch goes on (`Delivered`).  This
holds along every run in which no node is linked to one that was already passed to
`SharedObj_retire` (`commands_delivered`).

The second root is needed, since `runCommands` takes the batch out of the queue before it runs it.
The condition is not void either: `SharedObj_retire` resets the link of the node to the thread's list
of retired objects, which may be empty, and an enqueuer that read the node from `q->last` before takes
this for the end of the queue (`command_lost` shows both).
-/

namespace PoserCore.CommandQueue

open Lib SharedObj

variable {Tid Cmd : Type}

/-- `b` can be reached from `a` through the links. -/
def Reaches (s : State Tid Cmd) (a b : Obj) : Prop :=
  Relation.ReflTransGen (fun x y => s.mem.next x = some y) a b

/-- The node at which `runCommands` goes on. -/
def OwnPc.cursor : OwnPc → Option Obj
  | .retireFirst torun _ _ | .setFirst torun _ | .loadNext torun _ => some torun
  | .run torun _ | .retireRun _ torun _ => torun
  | _ => none

/-- The owner finds commands from here. -/
def Root (s : State Tid Cmd) (o : Obj) : Prop := o = s.first ∨ s.opc.cursor = some o

/-- Each command whose `enqueueLockfree` returned was run once or can still be reached from a root,
none was run twice, and the commands of a thread were run in the order in which it enqueued them. -/
structure Delivered (s : State Tid Cmd) (root : Obj → Prop) : Prop where
  accounted : ∀ o ∈ s.returned,
    (∃ r, root r ∧ Reaches s r o) ∧ o ∉ s.ran ∨ s.ran.count o = 1
  once : s.ran.Nodup
  in_order : ∀ a b t, s.issuer a = some t → s.issuer b = some t → [a, b].Sublist s.returned →
    b ∈ s.ran → [a, b].Sublist s.ran

/-- A command is missing if only `q->first` is a root, and leads nowhere. -/
theorem not_delivered {s : State Tid Cmd} {root : Obj → Prop} {o : Obj} (hret : o ∈ s.returned)
    (hran : o ∉ s.ran) (hroot : ∀ r, root r → r = s.first) (hne : s.first ≠ o)
    (hnext : s.mem.next s.first = none) : ¬ Delivered s root := by
  intro h
  rcases h.accounted o hret with ⟨⟨r, hr, hreach⟩, -⟩ | hcount
  · rw [hroot r hr] at hreach
    rcases Relation.ReflTransGen.cases_head hreach with he | ⟨n, hn, -⟩
    · exact hne he
    · rw [hnext] at hn
      cases hn
  · rw [List.count_eq_zero_of_not_mem hran] at hcount
    cases hcount

section Delivery

variable {s : State Tid Cmd} {c : Chain}

/-- The live nodes start at a root. -/
theorem Inv.root (h : Inv s c) : ∃ r l, c.live = r :: l ∧ Root s r := by
  have hqueued : ∀ {pre}, Queued s.first s.cmd c pre → ∃ r l, c.live = r :: l ∧ Root s r :=
    fun ⟨_, he, _⟩ => ⟨_, _, he, .inl rfl⟩
  have hdraining : ∀ {torun dummy}, s.opc.cursor = torun → Draining s.last s.cmd c torun dummy →
      ∃ r l, c.live = r :: l ∧ Root s r := by
    rintro torun dummy hc ⟨batch, post, he, ht, -⟩
    cases batch with
    | nil => exact ⟨_, _, he, .inr (hc.trans ht.symm)⟩
    | cons node batch => exact ⟨_, _, he, .inr (hc.trans ht.symm)⟩
  have hphase := h.phase
  cases hpc : s.opc with
  | storeMustwake torun =>
    rw [hpc] at hphase
    cases torun <;> exact hqueued hphase
  | link torun dummy pc =>
    rw [hpc] at hphase
    obtain ⟨-, hphase⟩ := hphase
    split_ifs at hphase
    · obtain ⟨⟨_, _, he, _⟩, _⟩ := hphase
      exact ⟨_, _, he, .inl rfl⟩
    · exact hqueued hphase.1
  | retireFirst torun dummy pc | setFirst torun dummy =>
    rw [hpc] at hphase
    exact hdraining (by rw [hpc]; rfl) hphase
  | run torun dummy | retireRun dummy torun pc =>
    rw [hpc] at hphase
    exact hdraining (by rw [hpc]; rfl) hphase.2
  | loadNext torun dummy =>
    rw [hpc] at hphase
    exact hdraining (by rw [hpc]; rfl) hphase.2.2
  | _ =>
    rw [hpc] at hphase
    exact hqueued hphase

/-- The commands run are an initial part of the commands in the chain. -/
theorem Inv.ran_prefix (h : Inv s c) :
    ∃ rest, (c.dead ++ c.live).filter (fun o => (s.cmd o).isSome) = s.ran ++ rest := by
  have hran := h.ran
  rw [Ran] at hran
  rw [List.filter_append, hran]
  cases hpc : s.opc with
  | loadNext torun dummy =>
    have hphase := h.phase
    rw [hpc] at hphase
    obtain ⟨-, hne, batch, post, he, ht, -, hb, -⟩ := hphase
    cases batch with
    | nil => exact absurd (by simpa using ht.symm) hne
    | cons node batch =>
      obtain rfl : node = torun := by simpa using ht
      refine ⟨(batch ++ dummy :: post).filter fun o => (s.cmd o).isSome, ?_⟩
      simp [he, hb node (.head _), OwnPc.current]
  | _ => exact ⟨_, congrArg (· ++ _) (List.append_nil _).symm⟩

theorem sublist_pair {α : Type} {R : α → α → Prop} {l : List α} (h : l.Pairwise R) {a b : α}
    (ha : a ∈ l) (hb : b ∈ l) (hne : a ≠ b) (hba : ¬ R b a) : [a, b].Sublist l := by
  obtain ⟨l₁, l₂, rfl⟩ := List.append_of_mem ha
  have hpos : b ∈ l₂ := by
    rcases List.mem_append.1 hb with hb | hb
    · exact absurd ((List.pairwise_append.1 h).2.2 b hb a (.head _)) hba
    · exact (List.mem_cons.1 hb).resolve_left hne.symm
  exact ((List.singleton_sublist.2 hpos).cons_cons a).trans (List.sublist_append_right ..)

/-- The invariant with no node lost gives the specification. -/
theorem Inv.delivered (h : Inv s c) (hlost : c.lost = []) : Delivered s (Root s) := by
  have hnodup : (c.dead ++ c.live).Nodup := by
    have := h.shape.nodup
    rw [Chain.off, hlost, List.append_nil] at this
    exact List.nodup_append_comm.1 this
  obtain ⟨rest, hrest⟩ := h.ran_prefix
  have hfull := (hnodup.filter fun o => (s.cmd o).isSome)
  rw [hrest] at hfull
  have hmem : ∀ o ∈ s.returned, o ∈ s.ran ++ rest := by
    intro o ho
    obtain ⟨hm, hcmd, -⟩ := h.history.returned o ho
    rw [← hrest]
    refine List.mem_filter.2 ⟨?_, hcmd⟩
    simpa [Chain.off, hlost, or_comm] using hm
  have horder : (s.ran ++ rest).Pairwise (Before s.issuer) :=
    hrest ▸ h.history.order.filter _
  refine ⟨fun o ho => ?_, (List.nodup_append.1 hfull).1, ?_⟩
  · by_cases hran : o ∈ s.ran
    · exact .inr (List.count_eq_one_of_mem (List.nodup_append.1 hfull).1 hran)
    · refine .inl ⟨?_, hran⟩
      obtain ⟨r, l, he, hr⟩ := h.root
      refine ⟨r, hr, (he ▸ h.shape.links).reaches (he ▸ ?_)⟩
      -- a retired node that holds a command was run
      obtain ⟨hm, hcmd, -⟩ := h.history.returned o ho
      rcases List.mem_append.1 hm with hm | hm
      · exact hm
      · rw [Chain.off, hlost, List.append_nil] at hm
        refine absurd ?_ hran
        rw [h.ran]
        exact List.mem_append_left _ (List.mem_filter.2 ⟨hm, hcmd⟩)
  · intro a b t ha hb hsub hbran
    have hlt : a < b := List.pairwise_iff_forall_sublist.1 h.history.returned_order hsub t ha hb
    have hnot : ¬ Before s.issuer b a := fun hba => Nat.lt_asymm hlt (hba t hb ha)
    have haran : a ∈ s.ran := by
      rcases List.mem_append.1 (hmem a (hsub.subset (.head _))) with hm | hm
      · exact hm
      · exact absurd ((List.pairwise_append.1 horder).2.2 b hbran a hm) hnot
    exact sublist_pair (List.pairwise_append.1 horder).1 haran hbran (Nat.ne_of_lt hlt) hnot

end Delivery

/-! ## Runs -/

section Runs

variable [DecidableEq Tid] {P : Params} {s : State Tid Cmd}

theorem inv_of_run (h : (machine Tid Cmd P).Run (fun s a => ¬ LinksRetired s a) s) :
    ∃ c, Inv s c ∧ c.lost = [] := by
  refine Machine.Run.invariant (I := fun s => ∃ c, Inv s c ∧ c.lost = []) ?_ ?_ h
  · exact fun s hs => ⟨_, Init.inv hs, rfl⟩
  · rintro s a s' ⟨c, hc, hlost⟩ hok hs
    obtain ⟨c', hc', hl⟩ := hc.step hs
    exact ⟨c', hc', (hl.resolve_right hok).trans hlost⟩

/-- In every run in which no node is linked to a retired one, every command is accounted for, none
is run twice, and the commands of each thread are run in their order. -/
theorem commands_delivered (h : (machine Tid Cmd P).Run (fun s a => ¬ LinksRetired s a) s) :
    Delivered s (Root s) := by
  obtain ⟨c, hc, hlost⟩ := inv_of_run h
  exact hc.delivered hlost

end Runs

/-! ## The lost command -/

/-- A queue with its dummy, and nobody in a function. -/
def created : State (Fin 2) Unit where
  mem :=
    { epoch := 0, nthr := 3, res := fun _ => 0, next := fun _ => none, created := fun _ => 0
      retired := fun _ => 0, fresh := 1, born := fun _ => 0, freed := fun _ => false }
  first := 0
  last := 0
  mustwake := true
  token := false
  cmd := fun _ => none
  loc := fun t => { Local.zero with tid := t + 1 }
  pc := fun _ => .idle
  oloc := Local.zero
  opc := .poll
  ran := []
  returned := []
  issuer := fun _ => none
  dead := fun _ => false

theorem created_init : Init created := by
  constructor <;> first | rfl | exact fun _ => rfl

/-- The intervals `serviceLoop` passes to `SOM_init`, on a backend with a descriptor. -/
def defaults : Params := { intEpoch := 128, intDestroy := 1024, latched := false }

/-- Thread 0 reads the dummy from `q->last` and finds its link empty.  Thread 1 then enqueues a
command, the owner runs it and retires the dummy, and thread 0 links its node to the dummy. -/
def slowEnqueuer : List (Action (Fin 2) Unit) :=
  .call 0 () :: List.replicate 10 (.run 0) ++ .call 1 () :: List.replicate 16 (.run 1) ++
  .poll true :: List.replicate 31 .owner ++ List.replicate 4 (.run 0)

/-- A test for `LinksRetired`. -/
def linksRetired (s : State Tid Cmd) : Action Tid Cmd → Bool
  | .run t =>
      match s.pc t with
      | .link _ (.casNext p) => (s.mem.next p).isNone && s.dead p
      | _ => false
  | _ => false

theorem linksRetired_sound {s : State Tid Cmd} {a : Action Tid Cmd}
    (h : (!linksRetired s a) = true) : ¬ LinksRetired s a := by
  cases a with
  | run t =>
    rintro ⟨node, p, hpc, hn, hd⟩
    simp [linksRetired, hpc, hn, hd] at h
  | _ => exact id

/-- Both threads enqueue a command, and the owner has run the first of them. -/
def batchOfTwo : List (Action (Fin 2) Unit) :=
  .call 0 () :: List.replicate 16 (.run 0) ++ .call 1 () :: List.replicate 15 (.run 1) ++
  .poll true :: List.replicate 24 .owner

/-- In two ways the commands are not where `q->first` leads.  While a batch is run the rest of it is
reachable from `torun` alone.  And two enqueuers are enough to lose a command for good: its
`enqueueLockfree` returned, the owner is done with its batch, and the command was neither run nor is
it in the queue. -/
theorem command_lost :
    (¬ ∀ s : State (Fin 2) Unit,
      (machine (Fin 2) Unit defaults).Run (fun s a => ¬ LinksRetired s a) s →
        Delivered s (· = s.first)) ∧
    ¬ ∀ s : State (Fin 2) Unit, (machine (Fin 2) Unit defaults).Reachable s →
      Delivered s (Root s) := by
  constructor
  · intro hall
    have hrun : ((machine (Fin 2) Unit defaults).execOk (fun s a => !linksRetired s a) batchOfTwo
        created).any (fun s => decide (2 ∈ s.returned ∧ 2 ∉ s.ran ∧ s.mem.next s.first = none ∧
          s.first = 3)) = true := by decide +kernel
    obtain ⟨s, hs, hbatch⟩ := Machine.exists_run created_init (fun _ _ => linksRetired_sound) hrun
    obtain ⟨hret, hran, hnext, hfirst⟩ := of_decide_eq_true hbatch
    exact not_delivered hret hran (fun _ hr => hr) (by rw [hfirst]; decide) hnext (hall s hs)
  · intro hall
    have hrun : ((machine (Fin 2) Unit defaults).exec slowEnqueuer created).any (fun s =>
        decide (1 ∈ s.returned ∧ 1 ∉ s.ran ∧ s.mem.next s.first = none ∧ s.first = 3 ∧
          s.opc = .poll)) = true := by decide
    obtain ⟨s, hreach, hlost⟩ := Machine.exists_reachable created_init hrun
    obtain ⟨hret, hran, hnext, hfirst, hopc⟩ := of_decide_eq_true hlost
    have hroot : ∀ r, Root s r → r = s.first := by
      rintro r (hr | hr)
      · exact hr
      · rw [hopc] at hr
        cases hr
    exact not_delivered hret hran hroot (by rw [hfirst]; decide) hnext (hall s hreach)

/-- The condition is met by runs with lagging enqueuers: thread 1 finds the node of thread 0 behind
the one it read and helps, thread 0 enqueues again, and the owner runs all three commands. -/
theorem commands_delivered_three : ∃ s : State (Fin 2) Unit,
    s.ran = [2, 1, 3] ∧ Delivered s (Root s) := by
  have hrun : ((machine (Fin 2) Unit defaults).execOk (fun s a => !linksRetired s a)
      (.call 1 () :: List.replicate 9 (.run 1) ++ .call 0 () :: List.replicate 11 (.run 0) ++
        List.replicate 8 (.run 1) ++ List.replicate 5 (.run 0) ++
        List.replicate 4 (.run 1) ++ .call 0 () :: List.replicate 15 (.run 0) ++
        .poll true :: List.replicate 43 .owner) created).any
      (fun s => s.ran = [2, 1, 3]) = true := by decide +kernel
  obtain ⟨s, hs, hran⟩ := Machine.exists_run created_init (fun _ _ => linksRetired_sound) hrun
  exact ⟨s, of_decide_eq_true hran, commands_delivered hs⟩

end PoserCore.CommandQueue
