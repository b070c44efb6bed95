import PoserCore.Server.Counts

/-!
# Graceful shutdown

After `PSC_Server_shutdown` the server should be destroyed when its last connection is closed.  But
`removeConnection` only raises the semaphore, so it is destroyed by the timer, by the shutdown of the
service, or not at all (`shutdown_graceful`).
-/

namespace PoserCore.Server

open Lib (Machine)

variable {workers : ℕ} {s s' : State}

/-- `shutdownComplete` is called once, when the server is freed, and after a shutdown was requested,
the server does not stay without a connection. -/
structure Graceful (s : State) : Prop where
  once : s.completed = if s.freed then 1 else 0
  ends : s.requested = true → s.server.nconn = 0 → s.freed = true ∨ s.destroying = true

/-- Not the last connection is closed after a shutdown was requested, unless the server is being
destroyed. -/
def Leaves (s : State) (a : Action) : Prop :=
  ∀ c, a = .close c → s.requested = true → s.ready → s.server.nconn ≠ 1

theorem completed_zero (hg : Graceful s) (hf : s.freed = false) : s.completed = 0 := by
  have := hg.once
  rwa [hf, if_neg Bool.false_ne_true] at this

/-! ## Steps -/

/-- Connections were only added. -/
theorem Graceful.grow (hg : Graceful s) (hm : Moved s s')
    (hle : s.server.nconn ≤ s'.server.nconn) : Graceful s' := by
  obtain ⟨⟨nactive, nconn, allclosed, conns, rfl⟩, -⟩ := hm
  refine ⟨hg.once, fun hreq h0 => hg.ends hreq ?_⟩
  have h0' : nconn = 0 := h0
  have hle' : s.server.nconn ≤ nconn := hle
  omega

theorem graceful_of_begun (hg : Graceful s) (hm : Moved s s') (hno : ¬ s.ready) : Graceful s' := by
  obtain ⟨⟨nactive, nconn, allclosed, conns, rfl⟩, -⟩ := hm
  refine ⟨hg.once, fun _ _ => ?_⟩
  by_contra hor
  rw [not_or, Bool.not_eq_true, Bool.not_eq_true] at hor
  exact hno hor

theorem graceful_finish (h0 : s.completed = 0) : Graceful (finish s) where
  once := by
    show s.completed + 1 = 1
    rw [h0]
  ends _ _ := .inl rfl

theorem graceful_destroy (hi : Inv workers s) (h0 : s.completed = 0) (hf : s.freed = false) :
    Graceful (destroy workers s) := by
  have honce : s.completed = if s.freed then 1 else 0 := by
    rw [h0, hf]
    rfl
  rcases destroy_cases hi hf with ⟨-, -, heq⟩ | ⟨-, hn, heq⟩
  · rw [heq]
    exact graceful_finish h0
  · rw [heq]
    rcases destroyPools_cases (s := { s with server := { s.server with shutdownTimer := false } }) hn
      with ⟨s', -, hm, hd⟩ | ⟨-, hd⟩
    · rw [hd]
      obtain ⟨⟨nactive, nconn, allclosed, conns, rfl⟩, -⟩ := hm
      exact ⟨honce, fun _ _ => .inr rfl⟩
    · rw [hd]
      exact ⟨honce, fun _ _ => .inr rfl⟩

theorem graceful_shutdown (hi : Inv workers s) (hg : Graceful s) (hr : s.ready) (timeout : ℕ)
    (timer : Bool) : Graceful (shutdown workers s timeout timer) := by
  rcases shutdown_cases workers s timeout timer with
    ⟨-, listening, force, heq⟩ | ⟨-, h0, shutdownTimer, heq⟩
  · have h0 := completed_zero hg hr.1
    rw [heq]
    apply graceful_destroy
    · exact ⟨hi.counts, hi.closed, hi.waits, hi.clients, hi.own, hi.before⟩
    · exact h0
    · exact hr.1
  · rw [heq]
    exact ⟨hg.once, fun _ h0' => absurd h0' h0⟩

theorem graceful_acceptConnection (hi : Inv workers s) (hg : Graceful s) (hr : s.ready)
    {created : Bool} (h : acceptConnection workers s created = some s') : Graceful s' := by
  obtain ⟨s₁, record, ⟨nextthr, nactive, rfl⟩, hcase⟩ := acceptConnection_cases hi h
  rcases hcase with h | ⟨t, rfl⟩
  · obtain ⟨hm, hle⟩ := doaccept_moved h hr.1
    refine Graceful.grow ?_ hm hle
    exact ⟨hg.once, hg.ends⟩
  · rw [runOnThread_queue]
    exact ⟨hg.once, hg.ends⟩

theorem graceful_work (hi : Inv workers s) (hg : Graceful s) {t : ℕ} {created : Bool}
    (h : step workers s (.work t created) = some s') : Graceful s' := by
  rw [step] at h
  split at h
  · cases h
  next m rest hq =>
    have hg₁ : Graceful { s with queue := Function.update s.queue t rest } := ⟨hg.once, hg.ends⟩
    cases m with
    | doaccept record =>
      rcases doaccept_cases h with ⟨-, rfl⟩ | ⟨-, hm, hle⟩
      · exact ⟨hg.once, hg.ends⟩
      · exact hg₁.grow hm hle
    | destroyPool p =>
      have hno := begun_of_message hi (t := t) (p := p) (by rw [hq]; exact List.mem_cons_self)
      obtain rfl := Option.some.inj h
      obtain ⟨s'', hm, -, hd⟩ :=
        destroyPool_spec { s with queue := Function.update s.queue t rest } p
      have hg₂ := graceful_of_begun hg₁ hm hno
      rw [hd]
      exact ⟨hg₂.once, hg₂.ends⟩

theorem graceful_step {a : Action} (hi : Inv workers s) (hg : Graceful s) (hl : Leaves s a)
    (h : step workers s a = some s') : Graceful s' := by
  cases a with
  | work t created => exact graceful_work hi hg h
  | acceptConnection created =>
    rw [step] at h
    split_ifs at h with hgd
    exact graceful_acceptConnection hi hg hgd.1 h
  | close c =>
    rw [step] at h
    split_ifs at h with hgd
    obtain rfl := Option.some.inj h
    by_cases hr : s.ready
    · obtain ⟨hn, -⟩ := hi.counts hr.1
      have hpos := List.length_pos_of_mem hgd.1
      refine ⟨hg.once, fun hreq h0 => ?_⟩
      have h1 := hl c rfl hreq hr
      have h0' : s.server.nconn - 1 = 0 := h0
      omega
    · exact graceful_of_begun hg (moved_raiseClosed hgd.1) hr
  | shutdown timeout timer =>
    rw [step] at h
    split_ifs at h with hgd
    obtain rfl := Option.some.inj h
    exact graceful_shutdown hi hg hgd.1 timeout timer
  | destroy =>
    rw [step] at h
    split_ifs at h with hgd
    obtain rfl := Option.some.inj h
    exact graceful_destroy hi (completed_zero hg hgd.1) hgd.1
  | timerExpired | serviceShutdown =>
    rw [step] at h
    split_ifs at h with hgd
    obtain rfl := Option.some.inj h
    exact graceful_destroy hi (completed_zero hg hgd.1.1) hgd.1.1
  | resume =>
    rw [step] at h
    split_ifs at h with hgd
    obtain rfl := Option.some.inj h
    have h0 := completed_zero hg (hi.waits hgd.1)
    exact graceful_finish h0

/-- The server stays when its last connection is closed. -/
theorem leaves_of_graceful {a : Action} (h : step workers s a = some s') (hg : Graceful s') :
    Leaves s a := by
  rintro c rfl hreq hr h1
  rw [step] at h
  split_ifs at h
  obtain rfl := Option.some.inj h
  have h0 : s.server.nconn - 1 = 0 := by omega
  rcases hg.ends hreq h0 with hf | hd
  · have hf' : s.freed = true := hf
    rw [hr.1] at hf'
    cases hf'
  · have hd' : s.destroying = true := hd
    rw [hr.2] at hd'
    cases hd'

/-- A run is right as long as, after a shutdown was requested, no connection that is closed is the
last one, and the first such step makes it wrong. -/
theorem shutdown_graceful (h : (machine workers).Run Leaves s) :
    Graceful s ∧ ∀ a s', step workers s a = some s' → (Graceful s' ↔ Leaves s a) := by
  have hi : Inv workers s := inv_of_reachable h.reachable
  have hg : Graceful s := by
    have hboth : Inv workers s ∧ Graceful s := by
      refine h.invariant (I := fun s => Inv workers s ∧ Graceful s) ?_ ?_
      · rintro s rfl
        exact ⟨inv_create, rfl, fun hreq => by cases hreq⟩
      · rintro s a s' ⟨hi, hg⟩ hl hs
        exact ⟨inv_step hi hs, graceful_step hi hg hl hs⟩
    exact hboth.2
  exact ⟨hg, fun a s' hs => ⟨leaves_of_graceful hs, fun hl => graceful_step hi hg hl hs⟩⟩

/-- A test for `Leaves`. -/
def leaves (s : State) : Action → Bool
  | .close _ => decide (s.requested = true → s.ready → s.server.nconn ≠ 1)
  | _ => true

theorem leaves_sound (s : State) (a : Action) (h : leaves s a = true) : Leaves s a := by
  rintro c rfl
  exact of_decide_eq_true h

/-- The timer expires before the only connection is closed. -/
theorem shutdown_graceful_timer : ∃ s, s.completed = 1 ∧ Graceful s ∧
    ∀ a s', step 0 s a = some s' → (Graceful s' ↔ Leaves s a) := by
  have hrun : ((machine 0).execOk leaves
      [.acceptConnection true, .shutdown 1000 true, .timerExpired, .resume] create).any
      (fun s => decide (s.completed = 1)) = true := by decide
  obtain ⟨s, hs, hp⟩ := Machine.exists_run rfl leaves_sound hrun
  exact ⟨s, of_decide_eq_true hp, shutdown_graceful hs⟩

/-- The only connection is closed after a shutdown was requested, and the server stays. -/
theorem shutdown_stays : ¬ ∀ workers s, (machine workers).Reachable s → Graceful s := by
  intro hall
  have hrun : ((machine 0).exec
      [.acceptConnection true, .shutdown 1000 true, .close ⟨0, none, 0⟩] create).any
      (fun s => decide (s.requested = true ∧ s.server.nconn = 0 ∧ s.freed = false ∧
        s.destroying = false)) = true := by decide
  obtain ⟨s, hs, hp⟩ := Machine.exists_reachable rfl hrun
  obtain ⟨hreq, h0, hf, hd⟩ := of_decide_eq_true hp
  rcases (hall 0 s hs).ends hreq h0 with h | h
  · rw [hf] at h
    cases h
  · rw [hd] at h
    cases h

end PoserCore.Server
