import PoserCore.Server.Counts

/-!
# Destruction and accepted sockets

`PSC_Server_destroy` only looks at `nconn`, which does not count the sockets whose `doaccept` did not
run yet.  If it finds no connection it leaves the pools alone, and it frees the server while messages
for it are queued.  Without these two situations (`Quiet`) a destruction is complete and comes after
the last message (`teardown_safe`).
-/

namespace PoserCore.Server

open Lib (Machine)

variable {workers : ℕ} {s s' : State}

/-- The action calls `PSC_Server_destroy`. -/
def Destroys (s : State) : Action → Prop
  | .destroy | .timerExpired | .serviceShutdown => True
  | .shutdown timeout timer => s.server.nconn = 0 ∨ timeout ≠ 0 ∧ timer = false
  | _ => False

/-- No destruction begins without a connection once there are pools, and none ends while an accepted
socket is still in a queue. -/
structure Quiet (s : State) (a : Action) : Prop where
  begins : Destroys s a → s.server.nthr = none ∨ s.server.nconn ≠ 0
  ends : a = .resume → ∀ t record, Message.doaccept record ∉ s.queue t

/-- No `doaccept` ran for a server that was freed, `nconn` is the number of open connections, and the
pools are destroyed once, or on their way to that, when the server is. -/
structure Safe (s : State) : Prop where
  late : s.late = false
  nconn : s.freed = false → s.server.nconn = s.conns.length
  pools : ∀ p < s.pools, s.destroyed.count p + pending s p = if s.ready then 0 else 1

/-- What holds beside `Inv` in runs that meet the condition. -/
structure Kept (s : State) : Prop where
  late : s.late = false
  empty : s.freed = true → ∀ t record, Message.doaccept record ∉ s.queue t
  pools : ¬ s.ready → ∀ p < s.pools, s.destroyed.count p + pending s p = 1

theorem Kept.moved (hk : Kept s) (hm : Moved s s') : Kept s' := by
  obtain ⟨⟨nactive, nconn, allclosed, conns, rfl⟩, -⟩ := hm
  exact ⟨hk.late, hk.empty, hk.pools⟩

/-! ## Accepting -/

theorem kept_of_ready (hr : s'.ready) (hl : s'.late = false) : Kept s' where
  late := hl
  empty hf := by
    rw [hr.1] at hf
    cases hf
  pools hno := absurd hr hno

theorem kept_acceptConnection (hi : Inv workers s) (hk : Kept s) (hr : s.ready) {created : Bool}
    (h : acceptConnection workers s created = some s') : Kept s' := by
  obtain ⟨s₁, record, ⟨nextthr, nactive, rfl⟩, hcase⟩ := acceptConnection_cases hi h
  rcases hcase with h | ⟨t, rfl⟩
  · obtain ⟨⟨⟨_, _, _, _, rfl⟩, -⟩, -⟩ := doaccept_moved h hr.1
    exact kept_of_ready hr hk.late
  · rw [runOnThread_queue]
    exact kept_of_ready hr hk.late

/-! ## Messages -/

theorem pending_pop {t : ℕ} {m : Message} {rest : List Message} (hq : s.queue t = m :: rest) (p : ℕ) :
    pending { s with queue := Function.update s.queue t rest } p +
      (if p = t ∧ m = .destroyPool p then 1 else 0) = pending s p := by
  unfold pending
  by_cases hp : p = t
  · subst hp
    show List.count _ (Function.update s.queue p rest p) + _ = _
    rw [Function.update_self, hq, List.count_cons]
    simp
  · show List.count _ (Function.update s.queue t rest p) + _ = _
    rw [Function.update_of_ne hp, if_neg fun hc => hp hc.1]
    rfl

theorem kept_work (hi : Inv workers s) (hk : Kept s) {t : ℕ} {created : Bool}
    (h : step workers s (.work t created) = some s') : Kept s' := by
  rw [step] at h
  split at h
  · cases h
  next m rest hq =>
    have hpop := pending_pop hq
    have hempty : s.freed = true → ∀ u record, Message.doaccept record ∉
        Function.update s.queue t rest u := by
      intro hf u record hmem
      by_cases hu : u = t
      · subst hu
        rw [Function.update_self] at hmem
        exact hk.empty hf u record (by rw [hq]; exact List.mem_cons_of_mem m hmem)
      · rw [Function.update_of_ne hu] at hmem
        exact hk.empty hf u record hmem
    cases m with
    | doaccept record =>
      have hsame : ∀ p, pending { s with queue := Function.update s.queue t rest } p = pending s p := by
        intro p
        have := hpop p
        rwa [if_neg fun hc => by cases hc.2] at this
      have hk₁ : Kept { s with queue := Function.update s.queue t rest } :=
        ⟨hk.late, hempty, fun hr p hp => by rw [hsame p]; exact hk.pools hr p hp⟩
      rcases doaccept_cases h with ⟨hf, -⟩ | ⟨-, hm, -⟩
      · exact absurd (by rw [hq]; exact List.mem_cons_self) (hk.empty hf t record)
      · exact hk₁.moved hm
    | destroyPool p =>
      have hmem : Message.destroyPool p ∈ s.queue t := by
        rw [hq]
        exact List.mem_cons_self
      obtain rfl := hi.own t p hmem
      have hbegun := begun_of_message hi hmem
      obtain rfl := Option.some.inj h
      obtain ⟨s'', hm, -, hd⟩ :=
        destroyPool_spec { s with queue := Function.update s.queue p rest } p
      rw [hd]
      obtain ⟨⟨nactive, nconn, allclosed, conns, rfl⟩, -⟩ := hm
      refine ⟨hk.late, hempty, fun _ q hlt => ?_⟩
      have hold := hk.pools hbegun q hlt
      have hnew := hpop q
      show (p :: s.destroyed).count q + pending { s with queue := Function.update s.queue p rest } q = 1
      rw [List.count_cons]
      by_cases hqp : q = p
      · subst hqp
        rw [if_pos ⟨rfl, rfl⟩] at hnew
        rw [if_pos (beq_self_eq_true q)]
        omega
      · rw [if_neg fun hc => hqp hc.1] at hnew
        rw [if_neg (by simpa using fun hc : p = q => hqp hc.symm)]
        omega

/-! ## Shutting down -/

theorem kept_destroy (hi : Inv workers s) (hk : Kept s) (hr : s.ready)
    (hq : s.server.nthr = none ∨ s.server.nconn ≠ 0) : Kept (destroy workers s) := by
  obtain ⟨hnil, hzero⟩ := hi.before hr
  rcases destroy_cases hi hr.1 with ⟨h0, -, heq⟩ | ⟨-, hn, heq⟩
  · have hnone := hq.resolve_right (not_not_intro h0)
    rcases hi.clients with ⟨-, hp, -, hempty⟩ | ⟨hn, -⟩
    · rw [heq]
      refine ⟨hk.late, fun _ t record hmem => ?_, fun _ p hlt => ?_⟩
      · have hmem' : Message.doaccept record ∈ s.queue t := hmem
        rw [hempty t] at hmem'
        cases hmem'
      · have hlt' : p < s.pools := hlt
        rw [hp] at hlt'
        cases hlt'
    · rw [hn] at hnone
      cases hnone
  · have hpools : s.pools = max workers 1 := by
      rcases hi.clients with ⟨hn', -⟩ | ⟨-, hp⟩
      · rw [hn'] at hn
        cases hn
      · exact hp
    rw [heq]
    rcases destroyPools_cases (s := { s with server := { s.server with shutdownTimer := false } }) hn
      with ⟨s', hw, hm, hd⟩ | ⟨hw, hd⟩
    · rw [hd]
      obtain ⟨⟨nactive, nconn, allclosed, conns, rfl⟩, -⟩ := hm
      refine ⟨hk.late, hk.empty, fun _ p hlt => ?_⟩
      have hlt' : p < s.pools := hlt
      obtain rfl : p = 0 := by omega
      show (0 :: s.destroyed).count 0 + pending s 0 = 1
      rw [hnil, hzero 0]
      rfl
    · rw [hd]
      refine ⟨hk.late, fun hf => ?_, fun _ p hlt => ?_⟩
      · have hfalse : s.freed = true := hf
        rw [hr.1] at hfalse
        cases hfalse
      · have hlt' : p < s.pools := hlt
        replace hlt' : p < workers := by omega
        show s.destroyed.count p + List.count _ (if p < workers then _ else _) = 1
        rw [hnil, if_pos hlt', List.count_append]
        have := hzero p
        rw [pending] at this
        rw [this]
        simp

theorem kept_shutdown (hi : Inv workers s) (hk : Kept s) (hr : s.ready) (timeout : ℕ) (timer : Bool)
    (hq : (s.server.nconn = 0 ∨ timeout ≠ 0 ∧ timer = false) →
      s.server.nthr = none ∨ s.server.nconn ≠ 0) : Kept (shutdown workers s timeout timer) := by
  rcases shutdown_cases workers s timeout timer with
    ⟨hd, listening, force, heq⟩ | ⟨-, -, shutdownTimer, heq⟩
  · rw [heq]
    exact kept_destroy ⟨hi.counts, hi.closed, hi.waits, hi.clients, hi.own, hi.before⟩
      ⟨hk.late, hk.empty, hk.pools⟩ hr (hq hd)
  · rw [heq]
    exact ⟨hk.late, hk.empty, hk.pools⟩

/-! ## Runs -/

theorem kept_step {a : Action} (hi : Inv workers s) (hk : Kept s) (hq : Quiet s a)
    (h : step workers s a = some s') : Kept s' := by
  cases a with
  | work t created => exact kept_work hi hk h
  | acceptConnection created =>
    rw [step] at h
    split_ifs at h with hg
    exact kept_acceptConnection hi hk hg.1 h
  | close c =>
    rw [step] at h
    split_ifs at h with hg
    obtain rfl := Option.some.inj h
    exact hk.moved (moved_raiseClosed hg.1)
  | shutdown timeout timer =>
    rw [step] at h
    split_ifs at h with hg
    obtain rfl := Option.some.inj h
    exact kept_shutdown hi hk hg.1 timeout timer hq.begins
  | destroy =>
    rw [step] at h
    split_ifs at h with hg
    obtain rfl := Option.some.inj h
    exact kept_destroy hi hk hg (hq.begins trivial)
  | timerExpired | serviceShutdown =>
    rw [step] at h
    split_ifs at h with hg
    obtain rfl := Option.some.inj h
    exact kept_destroy hi hk hg.1 (hq.begins trivial)
  | resume =>
    rw [step] at h
    split_ifs at h with hg
    obtain rfl := Option.some.inj h
    have hno : ¬ s.ready := fun hr => by
      rw [hr.2] at hg
      cases hg.1
    exact ⟨hk.late, fun _ => hq.ends rfl, fun _ => hk.pools hno⟩

theorem kept_of_run (h : (machine workers).Run Quiet s) : Inv workers s ∧ Kept s := by
  refine h.invariant (I := fun s => Inv workers s ∧ Kept s) ?_ ?_
  · rintro s rfl
    exact ⟨inv_create, kept_of_ready ⟨rfl, rfl⟩ rfl⟩
  · rintro s a s' ⟨hi, hk⟩ hq hs
    exact ⟨inv_step hi hs, kept_step hi hk hq hs⟩

/-- With any number of workers, in every run in which no destruction begins without a connection once
a socket was accepted, and none ends before every accepted socket was handled, no message comes too
late, connections are counted, and every pool is destroyed once. -/
theorem teardown_safe (h : (machine workers).Run Quiet s) : Safe s := by
  obtain ⟨hi, hk⟩ := kept_of_run h
  refine ⟨hk.late, fun hf => (hi.counts hf).1, fun p hp => ?_⟩
  by_cases hr : s.ready
  · rw [if_pos hr, (hi.before hr).1, (hi.before hr).2 p]
    rfl
  · rw [if_neg hr]
    exact hk.pools hr p hp

theorem quiet_of_not_destroys {a : Action} (h : ¬ Destroys s a) (hne : a ≠ .resume) : Quiet s a :=
  ⟨fun hd => absurd hd h, fun ha => absurd ha hne⟩

/-- A worker makes a connection and closes it when it destroys its pool; the main thread waits. -/
theorem drained_one : ∃ s, (machine 1).Run Quiet s ∧ (∀ t, s.queue t = []) ∧ s.destroying = true ∧
    s.server.allclosed = 1 ∧ s.destroyed = [0] := by
  have h₁ : (machine 1).Run Quiet _ :=
    .step (.init rfl) (quiet_of_not_destroys (a := .acceptConnection true) id (by simp)) rfl
  have h₂ : (machine 1).Run Quiet _ :=
    .step h₁ (quiet_of_not_destroys (a := .work 0 true) id (by simp)) rfl
  have h₃ : (machine 1).Run Quiet _ :=
    .step (a := .destroy) h₂ ⟨fun _ => .inr (by decide), fun ha => by cases ha⟩ rfl
  have h₄ : (machine 1).Run Quiet _ :=
    .step h₃ (quiet_of_not_destroys (a := .work 0 true) id (by simp)) rfl
  exact ⟨_, h₄, fun t => by cases t <;> rfl, rfl, rfl, rfl⟩

/-- The server is freed after its only pool was destroyed. -/
theorem teardown_safe_one : ∃ s, Safe s ∧ s.freed = true ∧ s.destroyed = [0] := by
  obtain ⟨s, hs, hempty, hd, ha, hpool⟩ := drained_one
  have hresume : (machine 1).step s .resume = some (finish { s with
      server := { s.server with allclosed := s.server.allclosed - 1 } }) :=
    if_pos ⟨hd, by rw [ha]; decide⟩
  have hquiet : Quiet s .resume :=
    ⟨False.elim, fun _ t record hmem => by rw [hempty t] at hmem; cases hmem⟩
  exact ⟨_, teardown_safe (.step hs hquiet hresume), rfl, hpool⟩

/-- A socket is accepted, and the server is destroyed before the worker handles it. -/
theorem teardown_late : ¬ ∀ workers s, (machine workers).Reachable s → Safe s := by
  intro hall
  have hrun : ((machine 1).exec [.acceptConnection true, .destroy, .work 0 true] create).any
      (fun s => s.late) = true := by decide
  obtain ⟨s, hs, hlate⟩ := Machine.exists_reachable rfl hrun
  rw [(hall 1 s hs).late] at hlate
  cases hlate

end PoserCore.Server
