import Mathlib.Data.List.Perm.Subperm
import Mathlib.Tactic.SplitIfs
import PoserCore.Server.Model

/-!
# Open connections

`nconn` is the number of open connections, and the semaphore is up if and only if there is none
(`Counts`), as long as the server is allocated; and nothing of a server happens twice before its
destruction begins (`Inv`).  This holds in every run.
-/

namespace PoserCore.Server

open Lib (Machine)

variable {workers : ℕ} {s s' : State}

/-! ## Connections -/

/-- `nconn` and `allclosed` for the open connections -/
def Counts (self : Server) (conns : List Conn) : Prop :=
  self.nconn = conns.length ∧ self.allclosed = if conns = [] then 1 else 0

/-- The state after connections were opened or closed. -/
def State.withConns (s : State) (nactive : ℕ → ℕ) (nconn allclosed : ℕ) (conns : List Conn) : State :=
  { s with
    server := { s.server with nactive := nactive, nconn := nconn, allclosed := allclosed }
    conns := conns }

/-- Connections of an allocated server were opened or closed, and counted. -/
structure Moved (s s' : State) : Prop where
  eq : ∃ nactive nconn allclosed conns, s' = s.withConns nactive nconn allclosed conns
  counts : s.freed = false → Counts s.server s.conns → Counts s'.server s'.conns

theorem Moved.refl (s : State) : Moved s s := ⟨⟨_, _, _, _, rfl⟩, fun _ h => h⟩

theorem Moved.trans {s'' : State} (h : Moved s s') (h' : Moved s' s'') : Moved s s'' := by
  obtain ⟨⟨nactive, nconn, allclosed, conns, rfl⟩, hc⟩ := h
  obtain ⟨⟨nactive', nconn', allclosed', conns', rfl⟩, hc'⟩ := h'
  exact ⟨⟨nactive', nconn', allclosed', conns', rfl⟩, fun hf hs => hc' hf (hc hf hs)⟩

theorem counts_removeConnection {self : Server} {conns : List Conn} {c : Conn} (hc : c ∈ conns)
    (h : Counts self conns) (thread : Option ℕ) :
    Counts (self.removeConnection thread) (conns.erase c) := by
  obtain ⟨hn, ha⟩ := h
  have hpos := List.length_pos_of_mem hc
  have hne : conns ≠ [] := List.ne_nil_of_mem hc
  have hlen := List.length_erase_of_mem hc
  have hnil : conns.erase c = [] ↔ self.nconn = 1 := by
    rw [← List.length_eq_zero_iff, hlen, hn]
    omega
  rw [if_neg hne] at ha
  refine ⟨?_, ?_⟩
  · show self.nconn - 1 = _
    rw [hn, hlen]
  · show (if self.nconn = 1 then self.allclosed + 1 else self.allclosed) = _
    rw [ha]
    simp only [hnil]

theorem moved_raiseClosed {c : Conn} (hc : c ∈ s.conns) : Moved s (s.raiseClosed c) where
  eq := ⟨_, _, _, _, rfl⟩
  counts _ h := counts_removeConnection hc h c.thread

theorem moved_closeAll {cs : List Conn} (h : cs.Subperm s.conns) :
    Moved s (cs.foldl State.raiseClosed s) := by
  induction cs generalizing s with
  | nil => exact .refl s
  | cons c cs ih =>
    have hc : c ∈ s.conns := h.subset List.mem_cons_self
    have hrest : cs.Subperm (s.raiseClosed c).conns := by
      have := h.erase c
      rwa [List.erase_cons_head] at this
    exact (moved_raiseClosed hc).trans (ih hrest)

theorem destroyPool_spec (s : State) (pool : ℕ) : ∃ s', Moved s s' ∧
    (s.conns = [] → s'.conns = []) ∧ destroyPool s pool = { s' with destroyed := pool :: s.destroyed } := by
  have h := moved_closeAll (s := s) (List.filter_sublist (p := fun c => c.pool = pool)).subperm
  refine ⟨_, h, fun hnil => by simp [hnil], ?_⟩
  obtain ⟨⟨nactive, nconn, allclosed, conns, heq⟩, -⟩ := h
  rw [destroyPool]
  simp only [heq]
  rfl

/-- What `doaccept` can do. -/
theorem doaccept_cases {thread : Option ℕ} {record : AcceptRecord} {created : Bool}
    (h : doaccept s thread record created = some s') :
    s.freed = true ∧ s' = { s with late := true } ∨
      s.freed = false ∧ Moved s s' ∧ s.server.nconn ≤ s'.server.nconn := by
  unfold doaccept at h
  by_cases hf : s.freed = true
  · rw [if_pos hf] at h
    exact .inl ⟨hf, (Option.some.inj h).symm⟩
  refine .inr ⟨Bool.eq_false_iff.2 hf, ?_⟩
  rw [if_neg hf] at h
  by_cases hcreated : (!created) = true
  · rw [if_pos hcreated] at h
    obtain rfl := Option.some.inj h
    exact ⟨⟨⟨_, _, _, _, rfl⟩, fun _ hc => hc⟩, Nat.le_refl _⟩
  rw [if_neg hcreated] at h
  by_cases hwait : s.server.nconn = 0 ∧ s.server.allclosed = 0
  · rw [if_pos hwait] at h
    cases h
  rw [if_neg hwait] at h
  obtain rfl := Option.some.inj h
  refine ⟨⟨⟨_, _, _, _, rfl⟩, fun _ hc => ?_⟩, Nat.le_succ _⟩
  obtain ⟨hn, ha⟩ := hc
  refine ⟨?_, ?_⟩
  · show s.server.nconn + 1 = _
    rw [hn, List.length_cons]
  · show (if s.server.nconn = 0 then s.server.allclosed - 1 else s.server.allclosed) = _
    rw [hn, ha, if_neg (List.cons_ne_nil _ s.conns)]
    cases s.conns with
    | nil => rfl
    | cons c cs => simp

theorem doaccept_moved {thread : Option ℕ} {record : AcceptRecord} {created : Bool}
    (h : doaccept s thread record created = some s') (hf : s.freed = false) :
    Moved s s' ∧ s.server.nconn ≤ s'.server.nconn :=
  (doaccept_cases h).elim (fun hlate => absurd (hf.symm.trans hlate.1) Bool.false_ne_true) And.right

/-! ## Messages -/

/-- The messages that destroy the pool and were not handled. -/
def pending (s : State) (p : ℕ) : ℕ := (s.queue p).count (.destroyPool p)

theorem runOnThread_queue (workers : ℕ) (s : State) (t : ℕ) (m : Message) : runOnThread workers s t m =
    { s with queue := fun u => if u = t ∧ t < workers then s.queue u ++ [m] else s.queue u } := by
  unfold runOnThread
  split_ifs with h
  · have hnot : ∀ u, ¬ (u = t ∧ t < workers) := fun u hu => by omega
    simp [hnot]
  · congr 1
    funext u
    by_cases hu : u = t
    · subst hu
      rw [Function.update_self, if_pos ⟨rfl, Nat.lt_of_not_le h⟩]
    · rw [Function.update_of_ne hu, if_neg fun hc => hu hc.1]

/-- Every worker is sent its message. -/
theorem sendAll {n : ℕ} (hn : n ≤ workers) (s : State) :
    (List.range n).foldl (fun s t => runOnThread workers s t (.destroyPool t)) s =
      { s with queue := fun u => if u < n then s.queue u ++ [.destroyPool u] else s.queue u } := by
  induction n with
  | zero => simp
  | succ n ih =>
    rw [List.range_succ, List.foldl_append, ih (Nat.le_of_succ_le hn), List.foldl_cons, List.foldl_nil,
      runOnThread_queue]
    congr 1
    funext u
    by_cases hu : u = n
    · subst hu
      rw [if_pos ⟨rfl, hn⟩]
      simp
    · have hlt : u < n ↔ u < n + 1 := by omega
      rw [if_neg fun hc => hu hc.1]
      simp only [hlt]

/-! ## Every run -/

structure Inv (workers : ℕ) (s : State) : Prop where
  counts : s.freed = false → Counts s.server s.conns
  closed : s.freed = true → s.conns = []
  waits : s.destroying = true → s.freed = false
  clients : s.server.nthr = none ∧ s.pools = 0 ∧ s.conns = [] ∧ (∀ t, s.queue t = []) ∨
    s.server.nthr = some workers ∧ s.pools = max workers 1
  own : ∀ t p, Message.destroyPool p ∈ s.queue t → p = t
  before : s.ready → s.destroyed = [] ∧ ∀ p, pending s p = 0

theorem Inv.moved (hi : Inv workers s) (hm : Moved s s') (hf : s.freed = false)
    (hnone : s.server.nthr = some workers) : Inv workers s' := by
  obtain ⟨⟨nactive, nconn, allclosed, conns, rfl⟩, hc⟩ := hm
  refine ⟨fun h => hc hf (hi.counts hf), fun h => ?_, hi.waits, .inr ?_, hi.own, hi.before⟩
  · rw [show s.freed = true from h] at hf
    cases hf
  · rcases hi.clients with ⟨hn, -⟩ | hcl
    · rw [hn] at hnone
      cases hnone
    · exact hcl

theorem inv_create : Inv workers create where
  counts _ := ⟨rfl, rfl⟩
  closed h := by cases h
  waits h := by cases h
  clients := .inl ⟨rfl, rfl, rfl, fun _ => rfl⟩
  own _ _ h := by cases h
  before _ := ⟨rfl, fun _ => rfl⟩

/-! ## Accepting -/

/-- The clients exist, and a socket was accepted. -/
def Started (workers : ℕ) (s s' : State) : Prop :=
  ∃ nextthr nactive, s' = { s with
    server := { s.server with nthr := some workers, nextthr := nextthr, nactive := nactive }
    accepted := s.accepted + 1
    pools := max workers 1 }

theorem Inv.started (hi : Inv workers s) (h : Started workers s s') : Inv workers s' := by
  obtain ⟨nextthr, nactive, rfl⟩ := h
  exact ⟨hi.counts, hi.closed, hi.waits, .inr ⟨rfl, rfl⟩, hi.own, hi.before⟩

theorem nextThread_nthr (self : Server) : ∃ nextthr nactive,
    self.nextThread = { self with nextthr := nextthr, nactive := nactive } := by
  unfold Server.nextThread
  split
  · exact ⟨_, _, rfl⟩
  · exact ⟨_, _, rfl⟩

/-- What `acceptConnection` can do: the socket is a connection at once, or goes to a worker. -/
theorem acceptConnection_cases (hi : Inv workers s) {created : Bool}
    (h : acceptConnection workers s created = some s') : ∃ s₁ record, Started workers s s₁ ∧
      (doaccept s₁ none record created = some s' ∨
        ∃ t, s' = runOnThread workers s₁ t (.doaccept record)) := by
  have hclients : ∃ nextthr nactive, createClients workers s = { s with
      server := { s.server with nthr := some workers, nextthr := nextthr, nactive := nactive }
      pools := max workers 1 } := by
    unfold createClients
    rcases hi.clients with ⟨hn, -⟩ | ⟨hn, hp⟩
    · rw [if_pos hn]
      exact ⟨_, _, rfl⟩
    · rw [if_neg (by simp [hn]), ← hn, ← hp]
      exact ⟨_, _, rfl⟩
  obtain ⟨nextthr, nactive, hc⟩ := hclients
  unfold acceptConnection at h
  simp only [hc] at h
  generalize hself : Server.nextThread _ = self at h
  obtain ⟨nextthr', nactive', hnext⟩ := nextThread_nthr { s.server with
    nthr := some workers, nextthr := nextthr, nactive := nactive }
  rw [hnext] at hself
  subst hself
  split at h
  · exact ⟨_, _, ⟨_, _, rfl⟩, .inl h⟩
  next t _ => exact ⟨_, _, ⟨_, _, rfl⟩, .inr ⟨t, (Option.some.inj h).symm⟩⟩

theorem pending_doaccept (workers : ℕ) (s : State) (t p : ℕ) (record : AcceptRecord) :
    pending (runOnThread workers s t (.doaccept record)) p = pending s p := by
  rw [runOnThread_queue, pending, pending]
  show List.count _ (if p = t ∧ t < workers then _ else _) = _
  split_ifs
  · rw [List.count_append]
    simp
  · rfl

theorem Inv.send (hi : Inv workers s) (hnthr : s.server.nthr = some workers) (t : ℕ)
    (record : AcceptRecord) : Inv workers (runOnThread workers s t (.doaccept record)) := by
  have hpending := fun p => pending_doaccept workers s t p record
  have hq := runOnThread_queue workers s t (.doaccept record)
  generalize runOnThread workers s t (.doaccept record) = s' at hpending hq
  have hbefore : s'.ready → s'.destroyed = [] ∧ ∀ p, pending s' p = 0 := by
    intro hr
    rw [hq] at hr
    obtain ⟨hd, hp⟩ := hi.before hr
    exact ⟨by rw [hq]; exact hd, fun p => (hpending p).trans (hp p)⟩
  subst hq
  refine ⟨hi.counts, hi.closed, hi.waits, .inr ⟨hnthr, ?_⟩, fun u p hmem => ?_, hbefore⟩
  · rcases hi.clients with ⟨hn, -⟩ | ⟨-, hp⟩
    · rw [hn] at hnthr
      cases hnthr
    · exact hp
  · simp only at hmem
    split_ifs at hmem
    · rcases List.mem_append.1 hmem with hmem | hmem
      · exact hi.own u p hmem
      · simp at hmem
    · exact hi.own u p hmem

theorem inv_acceptConnection (hi : Inv workers s) (hr : s.ready) {created : Bool}
    (h : acceptConnection workers s created = some s') : Inv workers s' := by
  obtain ⟨s₁, record, hstart, hcase⟩ := acceptConnection_cases hi h
  have hi₁ := hi.started hstart
  obtain ⟨nextthr, nactive, rfl⟩ := hstart
  rcases hcase with h | ⟨t, rfl⟩
  · exact hi₁.moved (doaccept_moved h hr.1).1 hr.1 rfl
  · exact hi₁.send rfl t record

/-! ## Shutting down -/

theorem inv_finish (hi : Inv workers s) (hconns : s.conns = []) : Inv workers (finish s) where
  counts h := by cases h
  closed _ := hconns
  waits h := by cases h
  clients := hi.clients
  own := hi.own
  before h := by cases h.1

theorem conns_nil (hi : Inv workers s) (hf : s.freed = false) (h : s.server.nconn = 0) :
    s.conns = [] := by
  obtain ⟨hn, -⟩ := hi.counts hf
  exact List.length_eq_zero_iff.1 (hn.symm.trans h)

theorem destroyPools_cases (hn : s.server.nthr = some workers) :
    (∃ s', workers = 0 ∧ Moved s s' ∧
      destroyPools workers s = { s' with destroyed := 0 :: s.destroyed }) ∨
    0 < workers ∧ destroyPools workers s = { s with
      queue := fun u => if u < workers then s.queue u ++ [.destroyPool u] else s.queue u } := by
  unfold destroyPools
  rw [hn]
  cases workers with
  | zero =>
    obtain ⟨s', hm, -, hd⟩ := destroyPool_spec s 0
    exact .inl ⟨s', rfl, hm, hd⟩
  | succ n => exact .inr ⟨Nat.succ_pos n, sendAll (Nat.le_refl _) s⟩

/-- What `PSC_Server_destroy` can do. -/
theorem destroy_cases (hi : Inv workers s) (hf : s.freed = false) :
    s.server.nconn = 0 ∧ s.conns = [] ∧
      destroy workers s = finish { s with server := { s.server with shutdownTimer := false } } ∨
    s.server.nconn ≠ 0 ∧ s.server.nthr = some workers ∧ destroy workers s =
      { destroyPools workers { s with server := { s.server with shutdownTimer := false } } with
        destroying := true } := by
  unfold destroy
  by_cases h0 : s.server.nconn = 0
  · exact .inl ⟨h0, conns_nil hi hf h0, if_pos h0⟩
  · refine .inr ⟨h0, ?_, if_neg h0⟩
    rcases hi.clients with ⟨-, -, hnil, -⟩ | ⟨hn, -⟩
    · obtain ⟨hlen, -⟩ := hi.counts hf
      rw [hnil] at hlen
      exact absurd hlen h0
    · exact hn

theorem inv_destroy (hi : Inv workers s) (hf : s.freed = false) : Inv workers (destroy workers s) := by
  have hi' : Inv workers { s with server := { s.server with shutdownTimer := false } } :=
    ⟨hi.counts, hi.closed, hi.waits, hi.clients, hi.own, hi.before⟩
  rcases destroy_cases hi hf with ⟨-, hnil, heq⟩ | ⟨-, hn, heq⟩
  · rw [heq]
    exact inv_finish hi' hnil
  · rw [heq]
    rcases destroyPools_cases (s := { s with server := { s.server with shutdownTimer := false } }) hn
      with ⟨s', -, hm, hd⟩ | ⟨-, hd⟩
    · rw [hd]
      have hi'' := hi'.moved hm hf hn
      obtain ⟨⟨nactive, nconn, allclosed, conns, rfl⟩, -⟩ := hm
      exact ⟨hi''.counts, hi''.closed, fun _ => hf, hi''.clients, hi''.own, fun h => by cases h.2⟩
    · rw [hd]
      refine ⟨hi.counts, hi.closed, fun _ => hf, .inr ⟨hn, ?_⟩, fun u p hmem => ?_,
        fun h => by cases h.2⟩
      · rcases hi.clients with ⟨hn', -⟩ | ⟨-, hp⟩
        · rw [hn'] at hn
          cases hn
        · exact hp
      · simp only at hmem
        split_ifs at hmem
        · rcases List.mem_append.1 hmem with hmem | hmem
          · exact hi.own u p hmem
          · obtain rfl : p = u := by simpa using hmem
            rfl
        · exact hi.own u p hmem

/-- What `PSC_Server_shutdown` can do: destroy the server, or stop listening. -/
theorem shutdown_cases (workers : ℕ) (s : State) (timeout : ℕ) (timer : Bool) :
    (s.server.nconn = 0 ∨ timeout ≠ 0 ∧ timer = false) ∧
      (∃ listening forceDestroy, shutdown workers s timeout timer = destroy workers { s with
        server := { s.server with listening := listening, forceDestroy := forceDestroy }
        requested := true }) ∨
    ¬ (s.server.nconn = 0 ∨ timeout ≠ 0 ∧ timer = false) ∧ s.server.nconn ≠ 0 ∧
      ∃ shutdownTimer, shutdown workers s timeout timer = { s with
        server := { s.server with
          listening := false, forceDestroy := true, shutdownTimer := shutdownTimer }
        requested := true } := by
  unfold shutdown
  by_cases h0 : s.server.nconn = 0
  · exact .inl ⟨.inl h0, _, _, if_pos h0⟩
  · simp only [if_neg h0]
    by_cases ht : timeout = 0
    · exact .inr ⟨fun h => h.elim h0 fun h => h.1 ht, h0, _, if_pos ht⟩
    · cases timer with
      | false => exact .inl ⟨.inr ⟨ht, rfl⟩, _, _, by rw [if_neg ht]; rfl⟩
      | true =>
        refine .inr ⟨fun h => h.elim h0 fun h => (by cases h.2), h0, true, ?_⟩
        rw [if_neg ht]
        rfl

theorem inv_shutdown (hi : Inv workers s) (hf : s.freed = false) (timeout : ℕ) (timer : Bool) :
    Inv workers (shutdown workers s timeout timer) := by
  rcases shutdown_cases workers s timeout timer with
    ⟨-, listening, force, heq⟩ | ⟨-, -, shutdownTimer, heq⟩
  · rw [heq]
    exact inv_destroy ⟨hi.counts, hi.closed, hi.waits, hi.clients, hi.own, hi.before⟩ hf
  · rw [heq]
    exact ⟨hi.counts, hi.closed, hi.waits, hi.clients, hi.own, hi.before⟩

/-! ## Steps -/

/-- A worker's next message is taken from its queue. -/
theorem Inv.pop {t : ℕ} {m : Message} {rest : List Message} (hi : Inv workers s)
    (hq : s.queue t = m :: rest) :
    Inv workers { s with queue := Function.update s.queue t rest } := by
  have hsub : ∀ u m', m' ∈ Function.update s.queue t rest u → m' ∈ s.queue u := by
    intro u m' hmem
    by_cases hu : u = t
    · subst hu
      rw [Function.update_self] at hmem
      rw [hq]
      exact List.mem_cons_of_mem m hmem
    · rwa [Function.update_of_ne hu] at hmem
  refine ⟨hi.counts, hi.closed, hi.waits, ?_, fun u p hmem => hi.own u p (hsub u _ hmem),
    fun hr => ⟨(hi.before hr).1, fun p => ?_⟩⟩
  · rcases hi.clients with ⟨-, -, -, hnil⟩ | hcl
    · rw [hnil t] at hq
      cases hq
    · exact .inr hcl
  · apply List.count_eq_zero.2
    intro hmem
    exact List.count_eq_zero.1 ((hi.before hr).2 p) (hsub p _ hmem)

theorem Inv.nthr_of_message {t : ℕ} {m : Message} {rest : List Message} (hi : Inv workers s)
    (hq : s.queue t = m :: rest) : s.server.nthr = some workers := by
  rcases hi.clients with ⟨-, -, -, hnil⟩ | ⟨hn, -⟩
  · rw [hnil t] at hq
    cases hq
  · exact hn

theorem begun_of_message {t : ℕ} {p : ℕ} (hi : Inv workers s)
    (hmem : Message.destroyPool p ∈ s.queue t) : ¬ s.ready := by
  intro hr
  obtain rfl := hi.own t p hmem
  exact List.count_eq_zero.1 ((hi.before hr).2 p) hmem

theorem inv_work (hi : Inv workers s) {t : ℕ} {created : Bool}
    (h : step workers s (.work t created) = some s') : Inv workers s' := by
  rw [step] at h
  split at h
  · cases h
  next m rest hq =>
    have hi₁ := hi.pop hq
    have hn := hi.nthr_of_message hq
    cases m with
    | doaccept record =>
      rcases doaccept_cases h with ⟨-, rfl⟩ | ⟨hf, hm, -⟩
      · exact ⟨hi₁.counts, hi₁.closed, hi₁.waits, hi₁.clients, hi₁.own, hi₁.before⟩
      · exact hi₁.moved hm hf hn
    | destroyPool p =>
      have hbegun := begun_of_message hi (t := t) (p := p) (by rw [hq]; exact List.mem_cons_self)
      obtain rfl := Option.some.inj h
      obtain ⟨s'', hm, hnil, hd⟩ :=
        destroyPool_spec { s with queue := Function.update s.queue t rest } p
      rw [hd]
      obtain ⟨⟨nactive, nconn, allclosed, conns, rfl⟩, hc⟩ := hm
      exact ⟨fun hf => hc hf (hi₁.counts hf), fun hf => hnil (hi₁.closed hf), hi₁.waits,
        .inr ((hi₁.clients.resolve_left fun hno => by rw [hn] at hno; cases hno.1)), hi₁.own,
        fun hr => absurd hr hbegun⟩

theorem inv_step {a : Action} (hi : Inv workers s) (h : step workers s a = some s') :
    Inv workers s' := by
  cases a with
  | acceptConnection created =>
    rw [step] at h
    split_ifs at h with hg
    exact inv_acceptConnection hi hg.1 h
  | work t created => exact inv_work hi h
  | close c =>
    rw [step] at h
    split_ifs at h with hg
    obtain rfl := Option.some.inj h
    have hf : s.freed = false := by
      cases hf : s.freed with
      | false => rfl
      | true =>
        have hmem := hg.1
        rw [hi.closed hf] at hmem
        cases hmem
    have hn : s.server.nthr = some workers := by
      rcases hi.clients with ⟨-, -, hnil, -⟩ | ⟨hn, -⟩
      · have hmem := hg.1
        rw [hnil] at hmem
        cases hmem
      · exact hn
    exact hi.moved (moved_raiseClosed hg.1) hf hn
  | shutdown timeout timer =>
    rw [step] at h
    split_ifs at h with hg
    obtain rfl := Option.some.inj h
    exact inv_shutdown hi hg.1.1 timeout timer
  | destroy =>
    rw [step] at h
    split_ifs at h with hg
    obtain rfl := Option.some.inj h
    exact inv_destroy hi hg.1
  | timerExpired =>
    rw [step] at h
    split_ifs at h with hg
    obtain rfl := Option.some.inj h
    exact inv_destroy hi hg.1.1
  | serviceShutdown =>
    rw [step] at h
    split_ifs at h with hg
    obtain rfl := Option.some.inj h
    exact inv_destroy hi hg.1.1
  | resume =>
    rw [step] at h
    split_ifs at h with hg
    obtain rfl := Option.some.inj h
    have hnil : s.conns = [] := by
      obtain ⟨-, ha⟩ := hi.counts (hi.waits hg.1)
      by_contra hne
      rw [if_neg hne] at ha
      exact hg.2 ha
    exact ⟨fun hf => (by cases hf), fun _ => hnil, fun hd => (by cases hd), hi.clients, hi.own,
      fun hr => (by cases hr.1)⟩

/-- `nconn` counts the open connections in every run. -/
theorem inv_of_reachable (h : (machine workers).Reachable s) : Inv workers s := by
  refine h.invariant (I := Inv workers) ?_ fun _ _ _ hi _ hs => inv_step hi hs
  rintro s rfl
  exact inv_create

end PoserCore.Server
