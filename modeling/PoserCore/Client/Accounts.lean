import Mathlib.Data.List.Perm.Basic
import Mathlib.Tactic.Ring
import PoserCore.Client.Blacklist

/-!
# What clients leave behind

In every run the open sockets are those of the connections, each job that the thread pool took ends
in one call of its callback, and the options of a client live as long as the program or a job needs
them, unless the thread pool refused a job with them.
-/

namespace PoserCore.Client

open Lib (Machine)

variable {O J : Type} [DecidableEq O]
variable {kernel : Kernel} {fdSetsize : Option ℕ} {s s' : State O J} {as : List (Action O J)}

/-- The jobs that the thread pool took -/
def taken (as : List (Action O J)) : List J :=
  as.filterMap fun a =>
    match a with
    | .createTcpClientAsync _ j true => some j
    | _ => none

/-- `PSC_Connection_create` could not have a timer in the step. -/
def Action.timerFails : Action O J → Bool
  | .createTcpClient _ _ timer => !timer
  | .resolveDone _ timer => !timer
  | _ => false

/-- The jobs that need the options -/
def users (s : State O J) (o : O) : ℕ :=
  s.jobs.countP (fun job => job.opts = o) + s.refused.count o

structure Accounts (as : List (Action O J)) (s : State O J) : Prop where
  fds : s.fds.Perm (s.connections.map Connection.fd)
  nodup : s.fds.Nodup
  jobs : (s.created.map Prod.fst ++ s.jobs.map ResolveJob.job).Perm (taken as)
  once : (taken as).Nodup
  refcnt : ∀ o opts, s.opts o = some opts →
    opts.refcnt = (if opts.owned then 1 else 0) + (users s o : ℤ) ∧ (opts.freed ↔ opts.refcnt = 0)
  used : ∀ o, 0 < users s o → (s.opts o).isSome
  dangling : s.dangling = false
  fault : s.fault = true → ∃ a ∈ as, a.timerFails = true

/-! ## Lists by key -/

/-- An element whose key is its own, in front of the others -/
theorem perm_cons_filter {α β : Type} [DecidableEq β] {f : α → β} {l : List α} {a : α}
    (hl : (l.map f).Nodup) (ha : a ∈ l) : l.Perm (a :: l.filter fun b => f b ≠ f a) := by
  induction l with
  | nil => exact absurd ha List.not_mem_nil
  | cons b l ih =>
    rw [List.map_cons, List.nodup_cons] at hl
    rcases List.mem_cons.1 ha with rfl | ha
    · rw [List.filter_cons_of_neg (by simp)]
      refine .of_eq (congrArg _ (List.filter_eq_self.2 fun c hc => ?_).symm)
      have hne : f c ≠ f a := fun h => hl.1 (h ▸ List.mem_map_of_mem hc)
      simpa using hne
    · have hne : f b ≠ f a := fun h => hl.1 (h ▸ List.mem_map_of_mem ha)
      rw [List.filter_cons_of_pos (by simpa using hne)]
      exact ((ih hl.2 ha).cons b).trans (.swap ..)

omit [DecidableEq O] in
theorem taken_append (as bs : List (Action O J)) : taken (as ++ bs) = taken as ++ taken bs :=
  List.filterMap_append

/-! ## Options that are needed -/

theorem Accounts.live (h : Accounts as s) {o : O} {opts : TcpClientOpts}
    (ho : s.opts o = some opts) (hneeded : opts.owned = true ∨ 0 < users s o) :
    opts.freed = false := by
  obtain ⟨hrefcnt, hfreed⟩ := h.refcnt o opts ho
  rw [Bool.eq_false_iff, Ne, hfreed, hrefcnt]
  rcases hneeded with howned | hused
  · rw [if_pos howned]
    omega
  · split_ifs <;> omega

omit [DecidableEq O] in
theorem useOpts_eq {o : O} {opts : TcpClientOpts} (ho : s.opts o = some opts)
    (hfreed : opts.freed = false) : s.useOpts o = s := by
  rw [State.useOpts, ho, Option.any_some, hfreed, Bool.not_false, Bool.not_true, Bool.or_false]

theorem destroyOpts_eq {o : O} {opts : TcpClientOpts} (ho : s.opts o = some opts)
    (hfreed : opts.freed = false) :
    destroyOpts o s = { s with
      opts := Function.update s.opts o
        (some { opts with refcnt := opts.refcnt - 1, freed := opts.refcnt - 1 = 0 }) } := by
  rw [destroyOpts, useOpts_eq ho hfreed]
  simp only [ho]

/-- The options are released by one that needed them. -/
theorem Accounts.release (h : Accounts as s) {o : O} {opts opts' : TcpClientOpts}
    {jobs : List (ResolveJob O J)} {created : List (J × Option Connection)}
    (ho : s.opts o = some opts) (hrefcnt : opts'.refcnt = opts.refcnt)
    (hfreed : opts'.freed = false)
    (hcount : (if opts.owned then 1 else 0) + (users s o : ℤ) =
      (if opts'.owned then 1 else 0) + (users { s with jobs := jobs } o : ℤ) + 1)
    (hother : ∀ o' ≠ o, users { s with jobs := jobs } o' = users s o')
    (hjobs : (created.map Prod.fst ++ jobs.map ResolveJob.job).Perm (taken as)) :
    Accounts as (destroyOpts o { s with
      opts := Function.update s.opts o (some opts')
      jobs := jobs
      created := created }) := by
  have hopts : ({ s with
      opts := Function.update s.opts o (some opts')
      jobs := jobs
      created := created } : State O J).opts o = some opts' := Function.update_self ..
  rw [destroyOpts_eq hopts hfreed, Function.update_idem]
  exact
    { fds := h.fds
      nodup := h.nodup
      jobs := hjobs
      once := h.once
      refcnt := fun o' opts'' ho' => by
        dsimp only at ho'
        by_cases heq : o' = o
        · subst heq
          rw [Function.update_self] at ho'
          obtain rfl := Option.some.inj ho'
          have hold := (h.refcnt o' opts ho).1
          refine ⟨?_, decide_eq_true_iff⟩
          show opts'.refcnt - 1 =
            (if opts'.owned then 1 else 0) + (users { s with jobs := jobs } o' : ℤ)
          omega
        · rw [Function.update_of_ne heq] at ho'
          obtain ⟨h1, h2⟩ := h.refcnt o' opts'' ho'
          refine ⟨h1.trans ?_, h2⟩
          rw [← hother o' heq]
          rfl
      used := fun o' hpos => by
        dsimp only
        by_cases heq : o' = o
        · subst heq
          rw [Function.update_self]
          rfl
        · rw [Function.update_of_ne heq]
          exact h.used o' (hother o' heq ▸ hpos)
      dangling := h.dangling
      fault := h.fault }

/-! ## Connecting -/

/-- What connecting leaves alone -/
structure Same (s t : State O J) : Prop where
  connections : t.connections = s.connections
  opts : t.opts = s.opts
  jobs : t.jobs = s.jobs
  refused : t.refused = s.refused
  created : t.created = s.created
  dangling : t.dangling = s.dangling
  fault : t.fault = s.fault

omit [DecidableEq O] in
theorem connectFirst_accounts (kernel : Kernel) (fdSetsize : Option ℕ) (opts : TcpClientOpts)
    (res0 : List AddrInfo) (s : State O J) :
    match connectFirst kernel fdSetsize opts res0 s with
    | (t, none) => Same s t ∧ t.fds = s.fds
    | (t, some conn) => Same s t ∧ t.fds = conn.fd :: s.fds ∧ conn.fd ∉ s.fds :=
  connectFirst_spec kernel fdSetsize opts (I := fun t => Same s t ∧ t.fds = s.fds)
    (C := fun t conn => Same s t ∧ t.fds = conn.fd :: s.fds ∧ conn.fd ∉ s.fds)
    (fun _ _ h => ⟨⟨h.1.1, h.1.2, h.1.3, h.1.4, h.1.5, h.1.6, h.1.7⟩, h.2⟩)
    (fun t _ h _ => ⟨⟨h.1.1, h.1.2, h.1.3, h.1.4, h.1.5, h.1.6, h.1.7⟩, by rw [h.2], by
      rw [← h.2]
      exact kernel.unused t.fds⟩)
    res0 ⟨⟨rfl, rfl, rfl, rfl, rfl, rfl, rfl⟩, rfl⟩

theorem Accounts.same {t : State O J} (h : Accounts as s) (hs : Same s t) {conn : Option Connection}
    {fault : Bool} (hfds : t.fds = (conn.map Connection.fd).toList ++ s.fds)
    (hfresh : ∀ c ∈ conn, c.fd ∉ s.fds)
    (hfault : fault = true → t.fault = true ∨ ∃ a ∈ as, a.timerFails = true) :
    Accounts as { t with
      connections := conn.toList ++ t.connections
      fault := fault } where
  fds := by
    dsimp only
    rw [hfds, hs.connections, List.map_append]
    refine .append (.of_eq ?_) h.fds
    cases conn <;> rfl
  nodup := by
    dsimp only
    rw [hfds]
    cases conn with
    | none => exact h.nodup
    | some c => exact List.nodup_cons.2 ⟨hfresh c rfl, h.nodup⟩
  jobs := by
    dsimp only
    rw [hs.created, hs.jobs]
    exact h.jobs
  once := h.once
  refcnt o opts ho := by
    dsimp only at ho
    rw [hs.opts] at ho
    obtain ⟨h1, h2⟩ := h.refcnt o opts ho
    refine ⟨h1.trans ?_, h2⟩
    simp only [users, hs.jobs, hs.refused]
  used o hpos := by
    dsimp only
    rw [hs.opts]
    refine h.used o ?_
    simpa only [users, hs.jobs, hs.refused] using hpos
  dangling := hs.dangling.trans h.dangling
  fault hf := by
    rcases hfault hf with ht | ha
    · exact h.fault (hs.fault ▸ ht)
    · exact ha

theorem Accounts.create (kernel : Kernel) (fdSetsize : Option ℕ) (h : Accounts as s) {o : O}
    {opts : TcpClientOpts} (ho : s.opts o = some opts) (hfreed : opts.freed = false)
    (res0 : Option (List AddrInfo)) {timer : Bool}
    (htimer : timer = false → ∃ a ∈ as, a.timerFails = true) :
    Accounts as (create kernel fdSetsize o res0 timer s).1 ∧
      (create kernel fdSetsize o res0 timer s).1.opts = s.opts ∧
      (create kernel fdSetsize o res0 timer s).1.jobs = s.jobs ∧
      (create kernel fdSetsize o res0 timer s).1.refused = s.refused ∧
      (create kernel fdSetsize o res0 timer s).1.created = s.created := by
  cases res0 with
  | none => exact ⟨h, rfl, rfl, rfl, rfl⟩
  | some res0 =>
    show Accounts as (createFromAddrinfo kernel fdSetsize o res0 timer s).1 ∧ _
    have hspec := connectFirst_accounts kernel fdSetsize opts res0 s
    simp only [Client.create, createFromAddrinfo, useOpts_eq ho hfreed, ho]
    generalize connectFirst kernel fdSetsize opts res0 s = r at hspec ⊢
    obtain ⟨t, conn⟩ := r
    cases conn with
    | none =>
      obtain ⟨hs, hfds⟩ := hspec
      have hnone : Accounts as { t with
          connections := (none : Option Connection).toList ++ t.connections } :=
        h.same hs hfds (fun _ hc => absurd hc (Option.not_mem_none _)) .inl
      exact ⟨hnone, hs.opts, hs.jobs, hs.refused, hs.created⟩
    | some conn =>
      obtain ⟨hs, hfds, hfresh⟩ := hspec
      cases timer with
      | true =>
        have hconn : Accounts as { t with connections := (some conn).toList ++ t.connections } :=
          h.same hs hfds (fun c hc => Option.mem_some.1 hc ▸ hfresh) .inl
        exact ⟨hconn, hs.opts, hs.jobs, hs.refused, hs.created⟩
      | false =>
        have hclosed : Accounts as { t with
            connections := (some { conn with deleteScheduled := true }).toList ++ t.connections
            fault := true } :=
          h.same hs hfds (fun c hc => Option.mem_some.1 hc ▸ hfresh) fun _ => .inr (htimer rfl)
        exact ⟨hclosed, hs.opts, hs.jobs, hs.refused, hs.created⟩

/-! ## Steps -/

/-- A step that takes no job and leaves the accounts alone -/
theorem Accounts.quiet (h : Accounts as s) {a : Action O J} (ha : taken [a] = []) :
    Accounts (as ++ [a]) s where
  fds := h.fds
  nodup := h.nodup
  jobs := by
    rw [taken_append, ha, List.append_nil]
    exact h.jobs
  once := by
    rw [taken_append, ha, List.append_nil]
    exact h.once
  refcnt := h.refcnt
  used := h.used
  dangling := h.dangling
  fault hf := (h.fault hf).imp fun _ hb => hb.imp_left (List.mem_append_left _)

theorem accounts_createOpts (h : Accounts as s) {o : O} (ho : s.opts o = none)
    (proto : IpAddr.Proto) (hits : Int32) :
    Accounts as { s with
      opts := Function.update s.opts o (some ⟨proto, hits, 1, true, false⟩) } where
  fds := h.fds
  nodup := h.nodup
  jobs := h.jobs
  once := h.once
  refcnt o' opts ho' := by
    dsimp only at ho'
    by_cases heq : o' = o
    · subst heq
      rw [Function.update_self] at ho'
      obtain rfl := Option.some.inj ho'
      have hzero : users s o' = 0 := by
        by_contra hne
        have hsome := h.used o' (Nat.pos_of_ne_zero hne)
        rw [ho] at hsome
        cases hsome
      refine ⟨?_, by simp⟩
      show (1 : ℤ) = 1 + (users s o' : ℤ)
      rw [hzero]
      rfl
    · rw [Function.update_of_ne heq] at ho'
      exact h.refcnt o' opts ho'
  used o' hpos := by
    dsimp only
    by_cases heq : o' = o
    · subst heq
      rw [Function.update_self]
      rfl
    · rw [Function.update_of_ne heq]
      exact h.used o' hpos
  dangling := h.dangling
  fault := h.fault

theorem accounts_destroyOpts (h : Accounts as s) {o : O} {opts : TcpClientOpts}
    (ho : s.opts o = some opts) (howned : opts.owned = true) :
    Accounts as (destroyOpts o
      { s with opts := Function.update s.opts o (some { opts with owned := false }) }) := by
  have hfreed : opts.freed = false := h.live ho (.inl howned)
  refine h.release ho rfl hfreed ?_ (fun _ _ => rfl) h.jobs
  rw [if_pos howned]
  show (1 : ℤ) + (users s o : ℤ) = 0 + (users s o : ℤ) + 1
  omega

/-- The options are needed by one job more. -/
theorem Accounts.acquire (h : Accounts as s) {t : State O J} {o : O} {opts : TcpClientOpts} {j : J}
    {accepted : Bool} (ho : s.opts o = some opts) (howned : opts.owned = true)
    (hfresh : j ∉ taken as) (hfds : t.fds = s.fds) (hconn : t.connections = s.connections)
    (hopts : t.opts = Function.update s.opts o (some { opts with refcnt := opts.refcnt + 1 }))
    (husers : ∀ o', users t o' = users s o' + if o' = o then 1 else 0)
    (hjobs : (t.created.map Prod.fst ++ t.jobs.map ResolveJob.job).Perm
      (taken (as ++ [.createTcpClientAsync o j accepted])))
    (hdangling : t.dangling = s.dangling) (hfault : t.fault = s.fault) :
    Accounts (as ++ [.createTcpClientAsync o j accepted]) t where
  fds := by
    rw [hfds, hconn]
    exact h.fds
  nodup := by
    rw [hfds]
    exact h.nodup
  jobs := hjobs
  once := by
    rw [taken_append]
    cases accepted with
    | false => exact (List.append_nil _).symm ▸ h.once
    | true =>
      refine List.nodup_append.2 ⟨h.once, List.nodup_singleton j, fun k hk l hl hkl => ?_⟩
      obtain rfl := List.mem_singleton.1 hl
      exact hfresh (hkl ▸ hk)
  refcnt o' opts' ho' := by
    rw [hopts] at ho'
    rw [husers]
    by_cases heq : o' = o
    · subst heq
      rw [Function.update_self] at ho'
      obtain rfl := Option.some.inj ho'
      obtain ⟨h1, h2⟩ := h.refcnt o' opts ho
      dsimp only
      have hfreed := h.live ho (.inl howned)
      rw [if_pos howned] at h1 ⊢
      rw [if_pos rfl, hfreed]
      refine ⟨by push_cast; omega, ⟨fun hf => absurd hf Bool.false_ne_true, fun h0 => ?_⟩⟩
      omega
    · rw [Function.update_of_ne heq] at ho'
      rw [if_neg heq, Nat.add_zero]
      exact h.refcnt o' opts' ho'
  used o' hpos := by
    rw [husers] at hpos
    rw [hopts]
    by_cases heq : o' = o
    · subst heq
      rw [Function.update_self]
      rfl
    · rw [Function.update_of_ne heq]
      rw [if_neg heq, Nat.add_zero] at hpos
      exact h.used o' hpos
  dangling := hdangling.trans h.dangling
  fault hf := (h.fault (hfault ▸ hf)).imp fun _ hb => hb.imp_left (List.mem_append_left _)

theorem accounts_async (h : Accounts as s) {o : O} {opts : TcpClientOpts} {j : J} {accepted : Bool}
    (ho : s.opts o = some opts) (howned : opts.owned = true)
    (hj : j ∉ s.jobs.map ResolveJob.job) (hj' : j ∉ s.created.map Prod.fst) :
    let t := { s.useOpts o with
      opts := Function.update s.opts o (some { opts with refcnt := opts.refcnt + 1 }) }
    Accounts (as ++ [.createTcpClientAsync o j accepted])
      (if accepted then { t with jobs := ⟨j, o, none⟩ :: s.jobs }
        else { t with refused := o :: s.refused }) := by
  rw [useOpts_eq ho (h.live ho (.inl howned))]
  have hfresh : j ∉ taken as := fun hmem => by
    rcases List.mem_append.1 (h.jobs.mem_iff.2 hmem) with hm | hm
    · exact hj' hm
    · exact hj hm
  cases accepted with
  | true =>
    refine h.acquire ho howned hfresh rfl rfl rfl (fun o' => ?_) ?_ rfl rfl
    · show (ResolveJob.mk j o none :: s.jobs).countP _ + _ = _
      rw [List.countP_cons, users]
      by_cases heq : o' = o
      · simp [heq]
        omega
      · simp [heq, Ne.symm heq]
    · rw [taken_append]
      exact (List.perm_middle.trans (h.jobs.cons j)).trans (List.perm_append_singleton j _).symm
  | false =>
    refine h.acquire ho howned hfresh rfl rfl rfl (fun o' => ?_) ?_ rfl rfl
    · show _ + (o :: s.refused).count o' = _
      rw [List.count_cons, users]
      by_cases heq : o' = o
      · simp [heq]
        omega
      · simp [heq, Ne.symm heq]
    · rw [taken_append]
      exact h.jobs.trans (.of_eq (List.append_nil _).symm)

variable [DecidableEq J]

omit [DecidableEq J] in
theorem Accounts.nodup_jobs (h : Accounts as s) : (s.jobs.map ResolveJob.job).Nodup :=
  (List.nodup_append.1 (h.jobs.nodup_iff.2 h.once)).2.1

omit [DecidableEq J] in
/-- The options of a job are there. -/
theorem Accounts.job_opts (h : Accounts as s) {job : ResolveJob O J} (hmem : job ∈ s.jobs) :
    ∃ opts, s.opts job.opts = some opts ∧ opts.freed = false := by
  have hpos : 0 < users s job.opts := by
    have hcount : 0 < s.jobs.countP fun other => other.opts = job.opts :=
      List.countP_pos_iff.2 ⟨job, hmem, by simp⟩
    rw [users]
    omega
  obtain ⟨opts, ho⟩ := Option.isSome_iff_exists.1 (h.used job.opts hpos)
  exact ⟨opts, ho, h.live ho (.inr hpos)⟩

omit [DecidableEq O] in
theorem find_job {j : J} {job : ResolveJob O J}
    (hfind : (s.jobs.find? fun job => job.job = j) = some job) : job ∈ s.jobs ∧ job.job = j :=
  ⟨List.mem_of_find?_eq_some hfind, by simpa using List.find?_some hfind⟩

theorem accounts_doResolve (h : Accounts as s) {j : J} {job : ResolveJob O J} (hmem : job ∈ s.jobs)
    (res0 : Option (List AddrInfo)) :
    Accounts as { s.useOpts job.opts with
      jobs := s.jobs.map fun job =>
        if job.job = j then { job with res0 := some res0 } else job } := by
  obtain ⟨opts, ho, hfreed⟩ := h.job_opts hmem
  have hname : ∀ job : ResolveJob O J,
      (if job.job = j then { job with res0 := some res0 } else job).job = job.job ∧
        (if job.job = j then { job with res0 := some res0 } else job).opts = job.opts := by
    intro job
    split_ifs
    · exact ⟨rfl, rfl⟩
    · exact ⟨rfl, rfl⟩
  rw [useOpts_eq ho hfreed]
  have husers : ∀ o, users { s with
      jobs := s.jobs.map fun job =>
        if job.job = j then { job with res0 := some res0 } else job } o = users s o := by
    intro o
    rw [users, List.countP_map, users]
    congr 1
    refine List.countP_congr fun job _ => ?_
    rw [Function.comp_apply, (hname job).2]
  exact
    { fds := h.fds
      nodup := h.nodup
      jobs := by
        dsimp only
        rw [List.map_map]
        refine .trans (.append_left _ (.of_eq ?_)) h.jobs
        exact List.map_congr_left fun job _ => (hname job).1
      once := h.once
      refcnt := fun o opts ho => by
        rw [husers]
        exact h.refcnt o opts ho
      used := fun o hpos => h.used o (husers o ▸ hpos)
      dangling := h.dangling
      fault := h.fault }

theorem accounts_resolveDone (h : Accounts as s) {job : ResolveJob O J} (hmem : job ∈ s.jobs)
    (res0 : Option (List AddrInfo)) {timer : Bool}
    (htimer : timer = false → ∃ a ∈ as, a.timerFails = true) :
    Accounts as (resolveDone kernel fdSetsize job res0 timer s) := by
  obtain ⟨opts, ho, hfreed⟩ := h.job_opts hmem
  obtain ⟨hcreate, hopts, hjobs, hrefused, hcreated⟩ :=
    h.create kernel fdSetsize ho hfreed res0 htimer
  rw [resolveDone]
  dsimp only
  generalize create kernel fdSetsize job.opts res0 timer s = r
    at hcreate hopts hjobs hrefused hcreated ⊢
  obtain ⟨t, conn⟩ := r
  dsimp only at hcreate hopts hjobs hrefused hcreated ⊢
  by_cases hfault : t.fault = true
  · rwa [if_pos hfault]
  rw [if_neg hfault]
  have hperm : t.jobs.Perm (job :: t.jobs.filter fun other => other.job ≠ job.job) := by
    refine perm_cons_filter hcreate.nodup_jobs ?_
    rw [hjobs]
    exact hmem
  have ho' : t.opts job.opts = some opts := by rw [hopts, ho]
  have husers : ∀ o, users t o =
      (if job.opts = o then 1 else 0) + users { t with
        jobs := t.jobs.filter fun other => other.job ≠ job.job } o := by
    intro o
    rw [users, hperm.countP_eq, List.countP_cons, users]
    simp only [decide_eq_true_eq]
    omega
  have hrelease : Accounts as (destroyOpts job.opts { t with
      opts := Function.update t.opts job.opts (some opts)
      jobs := t.jobs.filter fun other => other.job ≠ job.job
      created := (job.job, conn) :: t.created }) :=
    hcreate.release ho' rfl hfreed ?_ (fun o hne => ?_) ?_
  · rwa [← ho', Function.update_eq_self] at hrelease
  · rw [husers, if_pos rfl]
    push_cast
    ring
  · rw [husers, if_neg (Ne.symm hne), Nat.zero_add]
  · refine .trans ?_ hcreate.jobs
    rw [List.map_cons, List.cons_append]
    refine .trans ?_ ((hperm.map ResolveJob.job).append_left _).symm
    rw [List.map_cons]
    exact List.perm_middle.symm

omit [DecidableEq J] in
theorem accounts_close (h : Accounts as s) {conn : Connection} (hmem : conn ∈ s.connections) :
    Accounts as ({ s with
      connections := s.connections.filter fun other => other.fd ≠ conn.fd }.close conn.fd) where
  fds := by
    have hnodup : (s.connections.map Connection.fd).Nodup := h.fds.nodup_iff.1 h.nodup
    have hperm := (perm_cons_filter hnodup hmem).map Connection.fd
    refine (h.fds.erase conn.fd).trans ((hperm.erase conn.fd).trans ?_)
    rw [List.map_cons, List.erase_cons_head]
    exact .refl _
  nodup := h.nodup.erase _
  jobs := h.jobs
  once := h.once
  refcnt := h.refcnt
  used := h.used
  dangling := h.dangling
  fault := h.fault

omit [DecidableEq J] in
theorem Accounts.block (h : Accounts as s) (hits : Int32) (addr : IpAddr.IpAddr) :
    Accounts as (s.block hits addr) :=
  ⟨h.fds, h.nodup, h.jobs, h.once, h.refcnt, h.used, h.dangling, h.fault⟩

omit [DecidableEq J] in
/-- A connection that is to be deleted keeps its socket. -/
theorem Accounts.deleteLater (h : Accounts as s) (fd : ℕ) : Accounts as (s.deleteLater fd) where
  fds := by
    refine h.fds.trans (.of_eq ?_)
    rw [State.deleteLater, List.map_map]
    refine List.map_congr_left fun conn _ => ?_
    rw [Function.comp_apply]
    split_ifs
    · rfl
    · rfl
  nodup := h.nodup
  jobs := h.jobs
  once := h.once
  refcnt := h.refcnt
  used := h.used
  dangling := h.dangling
  fault := h.fault

theorem Accounts.step {a : Action O J} (h : Accounts as s)
    (hs : step kernel fdSetsize s a = some s') : Accounts (as ++ [a]) s' := by
  obtain ⟨-, hs⟩ := Option.ite_none_left_eq_some.1 hs
  cases a with
  | createOpts o proto hits =>
    obtain ⟨ho, rfl⟩ := Option.ite_none_right_eq_some.1 hs |>.imp id Option.some.inj
    exact (accounts_createOpts h (Option.isNone_iff_eq_none.1 ho) proto hits).quiet rfl
  | destroyOpts o =>
    rw [call] at hs
    split at hs
    next opts ho =>
      obtain ⟨howned, rfl⟩ := Option.ite_none_right_eq_some.1 hs |>.imp id Option.some.inj
      exact (accounts_destroyOpts h ho howned).quiet rfl
    next => cases hs
  | createTcpClient o res0 timer =>
    obtain ⟨howned, rfl⟩ := Option.ite_none_right_eq_some.1 hs |>.imp id Option.some.inj
    obtain ⟨opts, ho, howned⟩ := (Option.any_eq_true _ _).1 howned
    have hfreed : opts.freed = false := h.live ho (.inl howned)
    have hcalled : Accounts (as ++ [.createTcpClient o res0 timer]) s := h.quiet rfl
    rw [useOpts_eq ho hfreed]
    refine (hcalled.create kernel fdSetsize ho hfreed res0 fun htimer => ?_).1
    exact ⟨_, List.mem_concat_self, by rw [Action.timerFails, htimer]; rfl⟩
  | createTcpClientAsync o j accepted =>
    rw [call] at hs
    split at hs
    next opts ho =>
      obtain ⟨⟨howned, hj, hj'⟩, rfl⟩ :=
        Option.ite_none_right_eq_some.1 hs |>.imp id Option.some.inj
      exact accounts_async h ho howned hj hj'
    next => cases hs
  | doResolve j res0 =>
    rw [call] at hs
    split at hs
    next job hfind =>
      obtain ⟨-, rfl⟩ := Option.ite_none_right_eq_some.1 hs |>.imp id Option.some.inj
      exact (accounts_doResolve h (find_job hfind).1 res0).quiet rfl
    next => cases hs
  | resolveDone j timer =>
    rw [call] at hs
    split at hs
    next job hfind =>
      obtain ⟨res0, -, rfl⟩ := Option.map_eq_some_iff.1 hs
      have hcalled : Accounts (as ++ [.resolveDone j timer]) s := h.quiet rfl
      refine accounts_resolveDone hcalled (find_job hfind).1 res0 fun htimer => ?_
      exact ⟨_, List.mem_concat_self, by rw [Action.timerFails, htimer]; rfl⟩
    next => cases hs
  | close fd blacklist =>
    rw [call] at hs
    split at hs
    next conn hfind =>
      split_ifs at hs
      · obtain rfl := Option.some.inj hs
        exact h.quiet rfl
      · obtain rfl := Option.some.inj hs
        exact ((h.block conn.blacklisthits conn.addr).deleteLater fd).quiet rfl
      · obtain rfl := Option.some.inj hs
        exact (h.deleteLater fd).quiet rfl
    next => cases hs
  | delete fd =>
    rw [call] at hs
    split at hs
    next conn hfind =>
      obtain ⟨-, rfl⟩ := Option.ite_none_right_eq_some.1 hs |>.imp id Option.some.inj
      have hmem := List.mem_of_find?_eq_some hfind
      obtain rfl : conn.fd = fd := by simpa using List.find?_some hfind
      exact (accounts_close h hmem).quiet rfl
    next => cases hs

omit [DecidableEq J] in
theorem accounts_init : Accounts [] (init O J) where
  fds := .refl _
  nodup := List.nodup_nil
  jobs := .refl _
  once := List.nodup_nil
  refcnt _ _ h := by cases h
  used _ h := absurd h (Nat.lt_irrefl 0)
  dangling := rfl
  fault h := by cases h

/-- The sockets that are open are those of the connections.  Each job that the thread pool took is
still to be done or had its callback called once.  Options are never used after they were freed, and
they are freed once neither the program nor a job needs them; those of a job that was refused stay
for good.  NULL is used as a connection only where a timer could not be created. -/
theorem clients_accounted
    (he : (clients O J kernel fdSetsize).exec as (init O J) = some s) :
    s.fds.Perm (s.connections.map Connection.fd) ∧ s.fds.Nodup ∧
      (s.created.map Prod.fst ++ s.jobs.map ResolveJob.job).Perm (taken as) ∧ (taken as).Nodup ∧
      s.dangling = false ∧ (s.fault = true → ∃ a ∈ as, a.timerFails = true) ∧
      ∀ o opts, s.opts o = some opts → (opts.freed = true ↔
        opts.owned = false ∧ (∀ job ∈ s.jobs, job.opts ≠ o) ∧ o ∉ s.refused) := by
  have h : Accounts as s := Machine.exec_history (M := clients O J kernel fdSetsize) (I := Accounts)
    (fun _ _ _ _ h hs => h.step hs) accounts_init he
  refine ⟨h.fds, h.nodup, h.jobs, h.once, h.dangling, h.fault, fun o opts ho => ?_⟩
  obtain ⟨h1, h2⟩ := h.refcnt o opts ho
  rw [h2, h1]
  have husers : users s o = 0 ↔ (∀ job ∈ s.jobs, job.opts ≠ o) ∧ o ∉ s.refused := by
    rw [users, Nat.add_eq_zero_iff, List.countP_eq_zero, List.count_eq_zero]
    simp only [decide_eq_true_eq]
  rw [← husers]
  cases opts.owned with
  | true =>
    rw [if_pos rfl]
    refine iff_of_false (by omega) fun hfalse => absurd hfalse.1 (by decide)
  | false =>
    rw [if_neg Bool.false_ne_true]
    constructor
    · exact fun hzero => ⟨rfl, by omega⟩
    · rintro ⟨-, hzero⟩
      rw [hzero]
      rfl

/-- Options that are destroyed before the job is done -/
theorem clients_accounted_async : ∃ s : State Bool Bool, ∃ opts, s.opts true = some opts ∧
    (opts.freed = true ↔
      opts.owned = false ∧ (∀ job ∈ s.jobs, job.opts ≠ true) ∧ true ∉ s.refused) ∧
    s.created.map (·.1) = [false] ∧ s.fds = [1] := by
  have he : (clients Bool Bool default none).exec
      [.createOpts true .any 1, .createTcpClientAsync true false true, .destroyOpts true,
        .doResolve false (some [⟨.inet (fun _ => 127) 80, true, true⟩]), .resolveDone false true]
      (init Bool Bool) = some _ := rfl
  exact ⟨_, _, rfl, (clients_accounted he).2.2.2.2.2.2 true _ rfl, rfl, rfl⟩

end PoserCore.Client
