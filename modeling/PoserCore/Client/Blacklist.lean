import Mathlib.Algebra.Order.BigOperators.Group.List
import Mathlib.Data.List.Perm.Basic
import Mathlib.Data.List.ReduceOption
import Mathlib.Tactic.SplitIfs
import PoserCore.Client.Model

/-!
# How long an address is blocked

The 32 places of the blacklist hold what is left of the addresses that found one (`remaining`), so
an address is blocked for as many lookups as it has hits, whatever else is blocked or looked up in
between (`Blocked`).  The hits must not be negative (`Counts`): otherwise they are counted down to the
end of the range of an `int`.
-/

namespace PoserCore.Client

open IpAddr (IpAddr SockAddr equals)
open Lib (Machine)

variable {O J : Type} {kernel : Kernel} {fdSetsize : Option ℕ} {s s' : State O J}
variable {log : List Event} {ip addr : IpAddr} {hits : Int32}

/-! ## What the log says -/

/-- How often an address was looked up -/
def lookups (addr : IpAddr) (log : List Event) : ℕ :=
  log.countP fun event =>
    match event with
    | .checked ip => equals ip addr
    | .blacklisted _ _ => false

/-- An address is blocked until it was looked up `hits` times. -/
def Blocked (log : List Event) (ip : IpAddr) : Prop :=
  ∃ before hits addr after, log = before ++ Event.blacklisted hits addr :: after ∧
    equals ip addr = true ∧ (lookups addr after : ℤ) < hits.toInt

/-- The entry that is left of an address -/
def left (hits : Int32) (addr : IpAddr) (after : List Event) : Option BlacklistEntry :=
  if (lookups addr after : ℤ) < hits.toInt then
    some ⟨addr, .ofInt (hits.toInt - lookups addr after)⟩
  else none

def remaining : List Event → List BlacklistEntry
  | [] => []
  | .checked _ :: log => remaining log
  | .blacklisted hits addr :: log => (left hits addr log).toList ++ remaining log

theorem lookups_concat (addr : IpAddr) (log : List Event) (ip : IpAddr) :
    lookups addr (log ++ [.checked ip]) =
      lookups addr log + if equals ip addr = true then 1 else 0 := by
  rw [lookups, List.countP_append, List.countP_singleton, lookups]

/-- The hits of an entry are counted down without an overflow. -/
theorem ofInt_pred (n : ℤ) : Int32.ofInt n - 1 = .ofInt (n - 1) := by
  rw [Int32.ofInt_sub]
  rfl

theorem ofInt_eq_zero {n : ℤ} (h0 : 0 ≤ n) (hn : n < 2 ^ 31) : Int32.ofInt n = 0 ↔ n = 0 := by
  rw [← Int32.toInt_inj, Int32.toInt_ofInt_of_le (by omega) hn, Int32.toInt_zero]

theorem left_checked (hits : Int32) (addr : IpAddr) (log : List Event) (ip : IpAddr) :
    left hits addr (log ++ [.checked ip]) = (left hits addr log).bind fun entry =>
      hit ip (some entry) := by
  rw [left, left, lookups_concat]
  by_cases heq : equals ip addr = true
  · rw [if_pos heq]
    by_cases hleft : (lookups addr log : ℤ) < hits.toInt
    · have hmax := hits.toInt_lt
      have hzero : Int32.ofInt (hits.toInt - lookups addr log - 1) = 0 ↔
          hits.toInt - lookups addr log - 1 = 0 := ofInt_eq_zero (by omega) (by omega)
      rw [if_pos hleft, Option.bind_some, hit, if_pos heq, ofInt_pred, Nat.cast_add, Nat.cast_one,
        Int.sub_sub] at *
      by_cases hlast : hits.toInt - (lookups addr log + 1) = 0
      · rw [if_pos (hzero.2 hlast), if_neg (by omega)]
      · rw [if_neg fun h => hlast (hzero.1 h), if_pos (by omega)]
    · rw [if_neg hleft, if_neg (by omega)]
      rfl
  · rw [if_neg heq, Nat.add_zero]
    split_ifs
    · rw [Option.bind_some, hit, if_neg heq]
    · rfl

/-- A lookup takes a hit from each entry of its address. -/
theorem remaining_checked (log : List Event) (ip : IpAddr) :
    remaining (log ++ [.checked ip]) =
      (remaining log).filterMap fun entry => hit ip (some entry) := by
  induction log with
  | nil => rfl
  | cons event log ih =>
    cases event with
    | checked _ => exact ih
    | blacklisted hits addr =>
      rw [List.cons_append, remaining, remaining, List.filterMap_append, ih, left_checked]
      congr 1
      cases left hits addr log with
      | none => rfl
      | some entry =>
        rw [Option.bind_some, Option.toList_some, List.filterMap_cons, List.filterMap_nil]
        cases hit ip (some entry)
        · rfl
        · rfl

theorem left_nil (h : 0 < hits.toInt) (addr : IpAddr) : left hits addr [] = some ⟨addr, hits⟩ := by
  have hzero : lookups addr [] = 0 := rfl
  rw [left, hzero, Nat.cast_zero, if_pos h, Int.sub_zero, Int32.ofInt_toInt]

theorem remaining_blacklisted (h : 0 < hits.toInt) (log : List Event) (addr : IpAddr) :
    (remaining (log ++ [.blacklisted hits addr])).Perm (⟨addr, hits⟩ :: remaining log) := by
  induction log with
  | nil =>
    rw [List.nil_append, remaining, remaining, left_nil h]
    exact .refl _
  | cons event log ih =>
    cases event with
    | checked _ => exact ih
    | blacklisted hits' addr' =>
      have hsame : lookups addr' (log ++ [.blacklisted hits addr]) = lookups addr' log := by
        rw [lookups, List.countP_append]
        rfl
      rw [List.cons_append, remaining, remaining, left, hsame, ← left]
      exact (ih.append_left _).trans List.perm_middle

theorem blocked_iff (log : List Event) (ip : IpAddr) :
    Blocked log ip ↔ ∃ entry ∈ remaining log, equals ip entry.addr = true := by
  induction log with
  | nil => simp [Blocked, remaining]
  | cons event log ih =>
    have htail : Blocked log ip → Blocked (event :: log) ip := by
      rintro ⟨before, hits, addr, after, rfl, h⟩
      exact ⟨event :: before, hits, addr, after, rfl, h⟩
    cases event with
    | checked ip' =>
      rw [remaining, ← ih]
      refine ⟨?_, htail⟩
      rintro ⟨before, hits, addr, after, heq, h⟩
      cases before with
      | nil => cases heq
      | cons event before => exact ⟨before, hits, addr, after, (List.cons.inj heq).2, h⟩
    | blacklisted hits addr =>
      simp only [remaining, List.mem_append, or_and_right, exists_or]
      rw [← ih]
      constructor
      · rintro ⟨before, hits', addr', after, heq, h⟩
        cases before with
        | nil =>
          obtain ⟨hhead, rfl⟩ := List.cons.inj heq
          obtain ⟨rfl, rfl⟩ := Event.blacklisted.inj hhead
          refine .inl ⟨⟨addr, .ofInt (hits.toInt - lookups addr log)⟩, ?_, h.1⟩
          rw [left, if_pos h.2]
          exact List.mem_singleton_self _
        | cons event before =>
          exact .inr ⟨before, hits', addr', after, (List.cons.inj heq).2, h⟩
      · rintro (⟨entry, hentry, heq⟩ | h)
        · rw [left] at hentry
          split_ifs at hentry with hleft
          · obtain rfl := List.mem_singleton.1 hentry
            exact ⟨[], hits, addr, log, rfl, heq, hleft⟩
          · exact absurd hentry List.not_mem_nil
        · exact htail h

/-! ## What the blacklist holds -/

theorem occupied_hit (ip : IpAddr) (blacklist : Blacklist) :
    (blacklist.map (hit ip)).reduceOption =
      blacklist.reduceOption.filterMap fun entry => hit ip (some entry) := by
  induction blacklist with
  | nil => rfl
  | cons entry blacklist ih =>
    cases entry with
    | none =>
      rw [List.map_cons, hit, List.reduceOption_cons_of_none, List.reduceOption_cons_of_none, ih]
    | some entry =>
      rw [List.map_cons, List.reduceOption_cons_of_some, List.filterMap_cons]
      cases hit ip (some entry) with
      | none => rw [List.reduceOption_cons_of_none, ih]
      | some entry' => rw [List.reduceOption_cons_of_some, ih]

theorem length_blacklistAddress (hits : Int32) (addr : IpAddr) (blacklist : Blacklist) :
    (blacklistAddress hits addr blacklist).length = blacklist.length := by
  induction blacklist with
  | nil => rfl
  | cons entry blacklist ih =>
    cases entry with
    | none => rfl
    | some entry => rw [blacklistAddress, List.length_cons, List.length_cons, ih]

theorem occupied_blacklistAddress (hits : Int32) (addr : IpAddr) (blacklist : Blacklist) :
    (blacklistAddress hits addr blacklist).reduceOption.Perm
      (if blacklist.any Option.isNone then ⟨addr, hits⟩ :: blacklist.reduceOption
      else blacklist.reduceOption) := by
  induction blacklist with
  | nil => exact .refl _
  | cons entry blacklist ih =>
    cases entry with
    | none => exact .refl _
    | some entry =>
      rw [blacklistAddress, List.reduceOption_cons_of_some, List.reduceOption_cons_of_some,
        List.any_cons, Option.isNone_some, Bool.false_or]
      split_ifs at ih ⊢ with hroom
      · exact (ih.cons _).trans (.swap ..)
      · exact ih.cons _

theorem blacklistcheck_eq_false (ip : IpAddr) (blacklist : Blacklist) :
    (blacklistcheck ip blacklist).2 = false ↔
      ∃ entry ∈ blacklist.reduceOption, equals ip entry.addr = true := by
  rw [blacklistcheck, List.all_eq_false]
  constructor
  · rintro ⟨entry, hmem, hany⟩
    cases entry with
    | none => exact absurd rfl hany
    | some entry => exact ⟨entry, List.reduceOption_mem_iff.2 hmem, by simpa using hany⟩
  · rintro ⟨entry, hmem, heq⟩
    exact ⟨some entry, List.reduceOption_mem_iff.1 hmem, by simpa using heq⟩

/-- The blacklist holds what is left by the log, and no more than the options say is to come. -/
structure Holds (s : State O J) : Prop where
  length : s.blacklist.length = BLACKLISTSIZE
  occupied : s.blacklist.reduceOption.Perm (remaining s.log)
  connections : ∀ conn ∈ s.connections, 0 ≤ conn.blacklisthits
  opts : ∀ o, ∀ opts ∈ s.opts o, 0 ≤ opts.blacklisthits

theorem Holds.congr (h : Holds s) (hb : s'.blacklist = s.blacklist) (hl : s'.log = s.log)
    (hconn : ∀ conn ∈ s'.connections, 0 ≤ conn.blacklisthits)
    (hopts : ∀ o, ∀ opts ∈ s'.opts o, 0 ≤ opts.blacklisthits) : Holds s' := by
  refine ⟨hb ▸ h.length, ?_, hconn, hopts⟩
  rw [hb, hl]
  exact h.occupied

theorem Holds.check (h : Holds s) (ip : IpAddr) : Holds (s.check ip) where
  length := (List.length_map _).trans h.length
  occupied := by
    have hocc : (s.check ip).blacklist.reduceOption =
        s.blacklist.reduceOption.filterMap fun entry => hit ip (some entry) := occupied_hit ip _
    have hlog : remaining (s.check ip).log =
        (remaining s.log).filterMap fun entry => hit ip (some entry) := remaining_checked _ ip
    rw [hocc, hlog]
    exact h.occupied.filterMap _
  connections := h.connections
  opts := h.opts

theorem Holds.blocked (h : Holds s) (ip : IpAddr) :
    (blacklistcheck ip s.blacklist).2 = false ↔ Blocked s.log ip := by
  rw [blacklistcheck_eq_false, blocked_iff]
  exact exists_congr fun entry => and_congr_left fun _ => h.occupied.mem_iff

theorem Holds.room (h : Holds s) :
    s.blacklist.any Option.isNone = true ↔ (remaining s.log).length < BLACKLISTSIZE := by
  rw [← h.occupied.length_eq, ← h.length, List.reduceOption_length_lt_iff, List.any_eq_true]
  constructor
  · rintro ⟨entry, hmem, hnone⟩
    rwa [Option.isNone_iff_eq_none.1 hnone] at hmem
  · exact fun hmem => ⟨none, hmem, rfl⟩

theorem Holds.block (h : Holds s) (hhits : 0 < hits.toInt) (addr : IpAddr) :
    Holds (s.block hits addr) where
  length := (length_blacklistAddress ..).trans h.length
  occupied := by
    refine (occupied_blacklistAddress ..).trans ?_
    rw [State.block]
    split_ifs
    · exact (h.occupied.cons _).trans (remaining_blacklisted hhits ..).symm
    · exact h.occupied
  connections := h.connections
  opts := h.opts

/-! ## Connecting -/

/-- What a pass of the loop does: it looks up at most one address, and leaves no socket open but
that of a connection to an address that was not blocked. -/
inductive Tried (kernel : Kernel) (opts : TcpClientOpts) (s : State O J) :
    State O J → Option (Option Connection) → Prop
  | skip : Tried kernel opts s s none
  | failed (ip : IpAddr) {conn : Option (Option Connection)} (h : conn.join = none) :
      Tried kernel opts s (s.check ip) conn
  | connected (ip : IpAddr) (h : (blacklistcheck ip s.blacklist).2 = true) :
      Tried kernel opts s { s.check ip with fds := kernel.socket s.fds :: s.fds }
        (some (some ⟨kernel.socket s.fds, ip, opts.blacklisthits, false⟩))

theorem close_opened (s : State O J) (fd : ℕ) : { s with fds := fd :: s.fds }.close fd = s := by
  rw [State.close, List.erase_cons_head]

theorem tryAddr_spec (kernel : Kernel) (fdSetsize : Option ℕ) (opts : TcpClientOpts)
    (res : AddrInfo) (s : State O J) :
    Tried kernel opts s (tryAddr kernel fdSetsize opts res s).1
      (tryAddr kernel fdSetsize opts res s).2 := by
  rw [tryAddr]
  by_cases hskip : skipped opts.proto res.addr = true
  · rw [if_pos hskip]
    exact .skip
  · rw [if_neg hskip]
    cases IpAddr.fromSockAddr res.addr with
    | none => exact .skip
    | some ip =>
      dsimp only
      split_ifs with hcheck
      · rw [close_opened]
        exact .failed ip rfl
      · exact .connected ip hcheck
      · rw [close_opened]
        exact .failed ip rfl
      · exact .failed ip rfl
      · exact .failed ip rfl

/-- What holds before the loop and is kept by each of its passes holds after it, whether there is a
connection or not. -/
theorem connectFirst_spec (kernel : Kernel) (fdSetsize : Option ℕ) (opts : TcpClientOpts)
    {I : State O J → Prop} {C : State O J → Connection → Prop}
    (hcheck : ∀ s ip, I s → I (s.check ip))
    (hconn : ∀ s ip, I s → (blacklistcheck ip s.blacklist).2 = true →
      C { s.check ip with fds := kernel.socket s.fds :: s.fds }
        ⟨kernel.socket s.fds, ip, opts.blacklisthits, false⟩) :
    ∀ (res0 : List AddrInfo) {s : State O J}, I s →
      match connectFirst kernel fdSetsize opts res0 s with
      | (s, none) => I s
      | (s, some conn) => C s conn
  | [], s, h => h
  | res :: rest, s, h => by
      have htried := tryAddr_spec kernel fdSetsize opts res s
      rw [connectFirst]
      generalize tryAddr kernel fdSetsize opts res s = r at htried ⊢
      obtain ⟨s', conn⟩ := r
      cases htried with
      | skip => exact connectFirst_spec kernel fdSetsize opts hcheck hconn rest h
      | failed ip hnone =>
        cases conn with
        | none => exact connectFirst_spec kernel fdSetsize opts hcheck hconn rest (hcheck s ip h)
        | some conn =>
          obtain rfl : conn = none := hnone
          exact hcheck s ip h
      | connected ip hok => exact hconn s ip h hok

theorem createFromAddrinfo_holds (h : Holds s) (o : O) (res0 : List AddrInfo) (timer : Bool) :
    Holds (createFromAddrinfo kernel fdSetsize o res0 timer s).1 ∧
      ∀ conn ∈ (createFromAddrinfo kernel fdSetsize o res0 timer s).2, ∃ before,
        (createFromAddrinfo kernel fdSetsize o res0 timer s).1.log =
            before ++ [.checked conn.addr] ∧ ¬Blocked before conn.addr := by
  have huse : Holds (s.useOpts o) := h.congr rfl rfl h.connections h.opts
  rw [createFromAddrinfo]
  cases hopts : (s.useOpts o).opts o with
  | none => exact ⟨huse, fun _ hconn => absurd hconn (Option.not_mem_none _)⟩
  | some opts =>
    have hhits : 0 ≤ opts.blacklisthits := h.opts o opts hopts
    have hspec := connectFirst_spec kernel fdSetsize opts (I := Holds)
      (C := fun s conn => Holds s ∧ 0 ≤ conn.blacklisthits ∧ ∃ before,
        s.log = before ++ [.checked conn.addr] ∧ ¬Blocked before conn.addr)
      (fun s ip h => h.check ip)
      (fun s ip h hok => ⟨(h.check ip).congr rfl rfl h.connections h.opts, hhits, s.log, rfl,
        fun hblocked => by
          rw [(h.blocked ip).2 hblocked] at hok
          cases hok⟩) res0 huse
    dsimp only
    generalize connectFirst kernel fdSetsize opts res0 (s.useOpts o) = r at hspec ⊢
    obtain ⟨s', conn⟩ := r
    cases conn with
    | none => exact ⟨hspec, fun _ hconn => absurd hconn (Option.not_mem_none _)⟩
    | some conn =>
      obtain ⟨hs', hconn, hlog⟩ := hspec
      cases timer with
      | true =>
        refine ⟨hs'.congr rfl rfl (List.forall_mem_cons.2 ⟨hconn, hs'.connections⟩) hs'.opts,
          fun conn' hconn' => ?_⟩
        obtain rfl := Option.mem_some.1 hconn'
        exact hlog
      | false =>
        exact ⟨hs'.congr rfl rfl (List.forall_mem_cons.2 ⟨hconn, hs'.connections⟩) hs'.opts,
          fun _ hconn' => absurd hconn' (Option.not_mem_none _)⟩

theorem create_holds (h : Holds s) (o : O) (res0 : Option (List AddrInfo)) (timer : Bool) :
    Holds (create kernel fdSetsize o res0 timer s).1 := by
  cases res0 with
  | none => exact h
  | some res0 => exact (createFromAddrinfo_holds h o res0 timer).1

variable [DecidableEq O]

/-- Other options with the same or other hits -/
theorem Holds.update (h : Holds s) (o : O) {opts : TcpClientOpts} (hhits : 0 ≤ opts.blacklisthits) :
    Holds { s with opts := Function.update s.opts o (some opts) } := by
  refine h.congr rfl rfl h.connections fun o' opts' hopts' => ?_
  dsimp only at hopts'
  by_cases heq : o' = o
  · subst heq
    rw [Function.update_self] at hopts'
    obtain rfl := Option.mem_some.1 hopts'
    exact hhits
  · rw [Function.update_of_ne heq] at hopts'
    exact h.opts o' opts' hopts'

theorem destroyOpts_holds (h : Holds s) (o : O) : Holds (destroyOpts o s) := by
  have huse : Holds (s.useOpts o) := h.congr rfl rfl h.connections h.opts
  rw [destroyOpts]
  cases hopts : (s.useOpts o).opts o with
  | none => exact huse
  | some opts =>
    dsimp only
    exact huse.update o (h.opts o opts hopts)

variable [DecidableEq J]

theorem resolveDone_holds (h : Holds s) (job : ResolveJob O J) (res0 : Option (List AddrInfo))
    (timer : Bool) : Holds (resolveDone kernel fdSetsize job res0 timer s) := by
  have hcreate : Holds (create kernel fdSetsize job.opts res0 timer s).1 :=
    create_holds h job.opts res0 timer
  rw [resolveDone]
  dsimp only
  split_ifs
  · exact hcreate
  · refine destroyOpts_holds ?_ job.opts
    exact hcreate.congr rfl rfl hcreate.connections hcreate.opts

/-- `PSC_TcpClientOpts_setBlacklistHits` is not called with a negative number. -/
def Action.Counts : Action O J → Prop
  | .createOpts _ _ hits => 0 ≤ hits
  | _ => True

omit [DecidableEq O] [DecidableEq J] in
theorem Holds.deleteLater (h : Holds s) (fd : ℕ) : Holds (s.deleteLater fd) := by
  refine h.congr rfl rfl (List.forall_mem_map.2 fun conn hconn => ?_) h.opts
  split_ifs
  · exact h.connections conn hconn
  · exact h.connections conn hconn

omit [DecidableEq O] [DecidableEq J] in
theorem pos_of_ne_zero (h : 0 ≤ hits) (hne : hits ≠ 0) : 0 < hits.toInt := by
  have hle := Int32.le_iff_toInt_le.1 h
  have hzero : hits.toInt ≠ 0 := fun hzero =>
    hne (Int32.toInt_inj.1 (hzero.trans Int32.toInt_zero.symm))
  rw [Int32.toInt_zero] at hle
  omega

theorem step_holds {a : Action O J} (h : Holds s) (ha : a.Counts)
    (hs : step kernel fdSetsize s a = some s') : Holds s' := by
  obtain ⟨-, hs⟩ := Option.ite_none_left_eq_some.1 hs
  cases a with
  | createOpts o proto hits =>
    obtain ⟨-, rfl⟩ := Option.ite_none_right_eq_some.1 hs |>.imp id Option.some.inj
    exact h.update o ha
  | destroyOpts o =>
    rw [call] at hs
    split at hs
    next opts hopts =>
      obtain ⟨-, rfl⟩ := Option.ite_none_right_eq_some.1 hs |>.imp id Option.some.inj
      refine destroyOpts_holds ?_ o
      exact h.update o (h.opts o opts hopts)
    next => cases hs
  | createTcpClient o res0 timer =>
    obtain ⟨-, rfl⟩ := Option.ite_none_right_eq_some.1 hs |>.imp id Option.some.inj
    refine create_holds ?_ o res0 timer
    exact h.congr rfl rfl h.connections h.opts
  | createTcpClientAsync o j accepted =>
    rw [call] at hs
    split at hs
    next opts hopts =>
      obtain ⟨-, rfl⟩ := Option.ite_none_right_eq_some.1 hs |>.imp id Option.some.inj
      have hmore : Holds { s with
          opts := Function.update s.opts o (some { opts with refcnt := opts.refcnt + 1 }) } :=
        h.update o (h.opts o opts hopts)
      split_ifs
      · exact hmore.congr rfl rfl hmore.connections hmore.opts
      · exact hmore.congr rfl rfl hmore.connections hmore.opts
    next => cases hs
  | doResolve j res0 =>
    rw [call] at hs
    split at hs
    next job _ =>
      obtain ⟨-, rfl⟩ := Option.ite_none_right_eq_some.1 hs |>.imp id Option.some.inj
      exact h.congr rfl rfl h.connections h.opts
    next => cases hs
  | resolveDone j timer =>
    rw [call] at hs
    split at hs
    next job _ =>
      obtain ⟨res0, -, rfl⟩ := Option.map_eq_some_iff.1 hs
      exact resolveDone_holds h job res0 timer
    next => cases hs
  | close fd blacklist =>
    rw [call] at hs
    split at hs
    next conn hfind =>
      split_ifs at hs with hdel hblock
      · obtain rfl := Option.some.inj hs
        exact h
      · obtain rfl := Option.some.inj hs
        have hhits := h.connections conn (List.mem_of_find?_eq_some hfind)
        exact (h.block (pos_of_ne_zero hhits hblock.2) conn.addr).deleteLater fd
      · obtain rfl := Option.some.inj hs
        exact h.deleteLater fd
    next => cases hs
  | delete fd =>
    rw [call] at hs
    split at hs
    next conn _ =>
      obtain ⟨-, rfl⟩ := Option.ite_none_right_eq_some.1 hs |>.imp id Option.some.inj
      exact h.congr rfl rfl (fun conn' hconn' => h.connections conn' (List.mem_filter.1 hconn').1)
        h.opts
    next => cases hs

omit [DecidableEq O] [DecidableEq J] in
theorem holds_init : Holds (init O J) where
  length := List.length_replicate
  occupied := by
    show (List.replicate BLACKLISTSIZE none).reduceOption.Perm []
    rw [List.reduceOption_replicate_none]
  connections _ h := absurd h List.not_mem_nil
  opts _ _ h := absurd h (Option.not_mem_none _)

theorem holds_of_run (h : (clients O J kernel fdSetsize).Run (fun _ a => a.Counts) s) : Holds s :=
  h.invariant (I := Holds) (fun s h => by
    obtain rfl : s = init O J := h
    exact holds_init) fun _ _ _ hi ha hs => step_holds hi ha hs

/-- In every run without negative hits a lookup refuses exactly the addresses that the log says are
blocked, an address finds no place only while 32 others are blocked, and nothing is connected to an
address that is blocked. -/
theorem blacklist_exact (h : (clients O J kernel fdSetsize).Run (fun _ a => a.Counts) s) :
    (∀ ip, (blacklistcheck ip s.blacklist).2 = false ↔ Blocked s.log ip) ∧
      (s.blacklist.any Option.isNone = true ↔ (remaining s.log).length < 32) ∧
      ∀ o res0 timer, ∀ conn ∈ (createFromAddrinfo kernel fdSetsize o res0 timer s).2, ∃ before,
        (createFromAddrinfo kernel fdSetsize o res0 timer s).1.log =
            before ++ [.checked conn.addr] ∧ ¬Blocked before conn.addr := by
  have hi := holds_of_run h
  exact ⟨hi.blocked, hi.room, fun o res0 timer => (createFromAddrinfo_holds hi o res0 timer).2⟩

instance : Inhabited Kernel where
  default :=
    { socket := fun fds => fds.sum + 1
      unused := fun fds hmem => by
        have hle := List.le_sum_of_mem hmem
        omega }

def Action.countsTest : Action O J → Bool
  | .createOpts _ _ hits => decide (0 ≤ hits)
  | _ => true

omit [DecidableEq O] [DecidableEq J] in
theorem counts_of_test (_ : State O J) (a : Action O J) (h : a.countsTest = true) : a.Counts := by
  cases a with
  | createOpts o proto hits =>
    have hle : 0 ≤ hits := of_decide_eq_true h
    exact hle
  | _ => trivial

/-- An address that is blacklisted for two lookups, and was looked up once since then -/
theorem blacklist_exact_one : ∃ s : State Bool Bool, ∃ addr,
    s.log = [.checked addr, .blacklisted 2 addr, .checked addr] ∧
      (blacklistcheck addr s.blacklist).2 = false := by
  have he : (clients Bool Bool default none).execOk (fun _ a => a.countsTest)
      [.createOpts true .any 2,
        .createTcpClient true (some [⟨.inet (fun _ => 127) 80, true, true⟩]) true, .close 1 true,
        .createTcpClient true (some [⟨.inet (fun _ => 127) 80, true, true⟩]) true, .delete 1]
      (init Bool Bool) = some _ := rfl
  have h := Machine.Run.execOk counts_of_test (.init rfl) he
  refine ⟨_, _, rfl, ((blacklist_exact h).1 _).2 ?_⟩
  exact ⟨[_], 2, _, [_], rfl, by decide, by decide⟩

end PoserCore.Client
