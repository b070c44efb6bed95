import Mathlib.Data.List.Sort
import Mathlib.Data.Nat.Notation
import Mathlib.Data.Set.Function

/-!
# Reconfiguring a server

A server keeps of the hosts it was bound to a hash: of their names, sorted and joined by colons.
`PSC_Server_configureTcp` takes other options with the same hash for options with the same hosts.  A
colon in a name is not told apart from one that joins two names (`joinstr_eq_iff`), so lists of names
that only differ in where they are cut have the same hash as well (`detects_iff`).
-/

namespace PoserCore.Server.Configure

/-- A string, without its NUL. -/
abbrev Str := List UInt8

def strcmp : Str → Str → Ordering
  | [], [] => .eq
  | [], _ :: _ => .lt
  | _ :: _, [] => .gt
  | a :: s, b :: t => if a < b then .lt else if b < a then .gt else strcmp s t

/-- `bindcmp` does not find the first one behind the second. -/
def NotBehind (s t : Str) : Prop := strcmp s t ≠ .gt

instance : DecidableRel NotBehind := fun _ _ => inferInstanceAs (Decidable (_ ≠ _))

/-- `qsort` with `bindcmp`; it makes no difference how it sorts, as strings that compare equal are
equal. -/
def sortBinds (binds : List Str) : List Str := binds.insertionSort NotBehind

/-- `PSC_joinstr`, which returns `NULL` for no strings. -/
def joinstr (delim : Str) : List Str → Option Str
  | [] => none
  | s :: strings => some (strings.foldl (fun joined s => joined ++ delim ++ s) s)

def colon : UInt8 := 0x3a

/-- The string that is hashed. -/
def bjoined (binds : List Str) : Option Str := joinstr [colon] (sortBinds binds)

/-- `bindhash`, for the hash function `PSC_Hash_string` -/
def bindhash (hash : Str → UInt64) (binds : List Str) : UInt64 :=
  if binds = [] then 0 else (bjoined binds).elim 0 hash

/-- `PSC_Proto` -/
inductive Proto
  | any
  | ipv4
  | ipv6
  deriving DecidableEq

/-- What `PSC_TcpServerOpts` says of the sockets. -/
structure TcpServerOpts where
  bindhosts : List Str
  port : ℤ
  proto : Proto
  rdbufsz : ℕ

/-- What a server remembers of its options. -/
structure TcpServer where
  path : Option Str
  bhash : UInt64
  port : ℤ
  proto : Proto
  rdbufsz : ℕ

/-- `PSC_Server_create`; only a server for a Unix socket has a `path`. -/
def TcpServer.create (hash : Str → UInt64) (opts : TcpServerOpts) (path : Option Str) :
    TcpServer where
  path := path
  bhash := bindhash hash opts.bindhosts
  port := opts.port
  proto := opts.proto
  rdbufsz := opts.rdbufsz

/-- `PSC_Server_configureTcp`; `initTls` tells whether a `TlsConfig` can be made of the options. -/
def configureTcp (hash : Str → UInt64) (self : TcpServer) (opts : TcpServerOpts)
    (initTls : Bool) : ℤ :=
  if self.path.isSome then -1
  else if self.proto ≠ opts.proto then -1
  else if self.port ≠ opts.port then -1
  else if self.rdbufsz ≠ opts.rdbufsz then -1
  else if self.bhash ≠ bindhash hash opts.bindhosts then -1
  else if !initTls then -1
  else 0

/-! ## Sorting -/

theorem strcmp_swap (s t : Str) : strcmp t s = (strcmp s t).swap := by
  induction s generalizing t with
  | nil => cases t <;> rfl
  | cons a s ih =>
    cases t with
    | nil => rfl
    | cons b t =>
      rw [strcmp, strcmp]
      split_ifs with h₁ h₂
      · exact absurd (UInt8.lt_trans h₁ h₂) (UInt8.lt_irrefl b)
      · rfl
      · rfl
      · exact ih t

theorem eq_of_strcmp {s t : Str} (h : strcmp s t = .eq) : s = t := by
  induction s generalizing t with
  | nil =>
    cases t with
    | nil => rfl
    | cons b t => cases h
  | cons a s ih =>
    cases t with
    | nil => cases h
    | cons b t =>
      rw [strcmp] at h
      split_ifs at h with h₁ h₂
      rw [ih h, UInt8.le_antisymm (UInt8.not_lt.1 h₂) (UInt8.not_lt.1 h₁)]

theorem notBehind_nil (t : Str) : NotBehind [] t := by
  cases t with
  | nil => exact Ordering.noConfusion
  | cons b t => exact Ordering.noConfusion

theorem notBehind_cons {a b : UInt8} {s t : Str} :
    NotBehind (a :: s) (b :: t) ↔ a < b ∨ a = b ∧ NotBehind s t := by
  unfold NotBehind
  rw [strcmp]
  split_ifs with h₁ h₂
  · simp [h₁]
  · have hne : a ≠ b := by
      rintro rfl
      exact h₁ h₂
    simp [h₁, hne]
  · simp [UInt8.le_antisymm (UInt8.not_lt.1 h₂) (UInt8.not_lt.1 h₁)]

theorem NotBehind.trans {s t u : Str} (h₁ : NotBehind s t) (h₂ : NotBehind t u) : NotBehind s u := by
  induction s generalizing t u with
  | nil => exact notBehind_nil u
  | cons a s ih =>
    cases t with
    | nil => exact absurd rfl h₁
    | cons b t =>
      cases u with
      | nil => exact absurd rfl h₂
      | cons c u =>
        rw [notBehind_cons] at h₁ h₂ ⊢
        rcases h₁ with h₁ | ⟨rfl, h₁⟩
        · rcases h₂ with h₂ | ⟨rfl, h₂⟩
          · exact .inl (UInt8.lt_trans h₁ h₂)
          · exact .inl h₁
        · rcases h₂ with h₂ | ⟨rfl, h₂⟩
          · exact .inl h₂
          · exact .inr ⟨rfl, ih h₁ h₂⟩

instance : Std.Total NotBehind where
  total s t := by
    unfold NotBehind
    rw [strcmp_swap s t]
    cases strcmp s t <;> simp

instance : IsTrans Str NotBehind := ⟨fun _ _ _ => NotBehind.trans⟩

instance : Std.Antisymm NotBehind where
  antisymm s t h₁ h₂ := by
    unfold NotBehind at h₁ h₂
    rw [strcmp_swap s t] at h₂
    apply eq_of_strcmp
    cases hc : strcmp s t <;> simp_all

/-- Sorting forgets the order and nothing else. -/
theorem sortBinds_eq_iff {l₁ l₂ : List Str} : sortBinds l₁ = sortBinds l₂ ↔ l₁.Perm l₂ := by
  have hsort (l : List Str) : (sortBinds l).Perm l := List.perm_insertionSort _ l
  constructor
  · intro h
    exact (hsort l₁).symm.trans (h ▸ hsort l₂)
  · intro h
    exact List.Perm.eq_of_pairwise' (List.pairwise_insertionSort _ l₁)
      (List.pairwise_insertionSort _ l₂) ((hsort l₁).trans (h.trans (hsort l₂).symm))

theorem sortBinds_eq_nil {l : List Str} : sortBinds l = [] ↔ l = [] := by
  rw [← List.length_eq_zero_iff, sortBinds, List.length_insertionSort, List.length_eq_zero_iff]

/-! ## Joining -/

theorem intercalate_append (delim s t : Str) (l : List Str) :
    delim.intercalate ((s ++ t) :: l) = s ++ delim.intercalate (t :: l) := by
  cases l with
  | nil => rw [List.intercalate_singleton, List.intercalate_singleton]
  | cons u l =>
    rw [List.intercalate_cons_cons, List.intercalate_cons_cons, List.append_assoc, List.append_assoc,
      List.append_assoc]

/-- The loop writes one string behind the other. -/
theorem joinstr_cons (delim s : Str) (l : List Str) :
    joinstr delim (s :: l) = some (delim.intercalate (s :: l)) := by
  rw [joinstr, Option.some_inj]
  induction l generalizing s with
  | nil => rw [List.foldl_nil, List.intercalate_singleton]
  | cons t l ih =>
    rw [List.foldl_cons, ih, intercalate_append, List.intercalate_cons_cons]

theorem joinstr_eq {delim : Str} {l : List Str} (hl : l ≠ []) :
    joinstr delim l = some (delim.intercalate l) := by
  obtain ⟨s, l, rfl⟩ := List.exists_cons_of_ne_nil hl
  exact joinstr_cons delim s l

/-- The parts of the strings, cut at every `c`. -/
def cut (c : UInt8) (l : List Str) : List Str := l.flatMap fun s => s.splitOn c

/-- Cutting does not see where the strings were joined. -/
theorem splitOn_joined (c : UInt8) {l : List Str} (hl : l ≠ []) :
    ([c].intercalate l).splitOn c = cut c l := by
  induction l with
  | nil => exact absurd rfl hl
  | cons s l ih =>
    rw [cut, List.flatMap_cons, ← cut]
    by_cases hnil : l = []
    · rw [hnil, List.intercalate_singleton]
      exact (List.append_nil _).symm
    · rw [List.intercalate_cons_of_ne_nil hnil, List.append_assoc, List.singleton_append,
        List.splitOn_append_cons_self, ih hnil]

/-- Strings are joined to the same one if they have the same parts. -/
theorem joinstr_eq_iff (c : UInt8) {l₁ l₂ : List Str} (h₁ : l₁ ≠ []) (h₂ : l₂ ≠ []) :
    joinstr [c] l₁ = joinstr [c] l₂ ↔ cut c l₁ = cut c l₂ := by
  rw [joinstr_eq h₁, joinstr_eq h₂, Option.some_inj, ← splitOn_joined c h₁, ← splitOn_joined c h₂]
  constructor
  · exact congrArg _
  · intro h
    have hjoin := congrArg [c].intercalate h
    rwa [List.intercalate_splitOn, List.intercalate_splitOn] at hjoin

/-! ## The hash of the hosts -/

/-- The parts of the names that are hashed. -/
def parts (binds : List Str) : List Str := cut colon (sortBinds binds)

/-- The lists of hosts can be told apart: they are the same up to order if they have the same parts,
and if just one of them is empty, the string of the other has not the hash 0. -/
structure Distinct (hash : Str → UInt64) (l₁ l₂ : List Str) : Prop where
  parts : l₁ ≠ [] → l₂ ≠ [] → parts l₁ = parts l₂ → l₁.Perm l₂
  left : l₁ = [] → ∀ s ∈ bjoined l₂, hash s ≠ 0
  right : l₂ = [] → ∀ s ∈ bjoined l₁, hash s ≠ 0

/-- The hash and the reconfiguration tell whether the hosts are the same up to order. -/
structure Detects (hash : Str → UInt64) (l₁ l₂ : List Str) : Prop where
  bindhash : bindhash hash l₁ = bindhash hash l₂ ↔ l₁.Perm l₂
  configureTcp : ∀ port₁ port₂ proto₁ proto₂ rdbufsz₁ rdbufsz₂ initTls,
    configureTcp hash (.create hash ⟨l₁, port₁, proto₁, rdbufsz₁⟩ none)
      ⟨l₂, port₂, proto₂, rdbufsz₂⟩ initTls = 0 ↔
    port₁ = port₂ ∧ proto₁ = proto₂ ∧ rdbufsz₁ = rdbufsz₂ ∧ initTls = true ∧ l₁.Perm l₂

variable {hash : Str → UInt64} {l l₁ l₂ : List Str}

theorem bjoined_isSome (hl : l ≠ []) : ∃ s, bjoined l = some s :=
  ⟨_, joinstr_eq (sortBinds_eq_nil.not.2 hl)⟩

theorem bindhash_of_ne {s : Str} (hs : bjoined l = some s) : bindhash hash l = hash s := by
  have hl : l ≠ [] := by
    rintro rfl
    cases hs
  rw [bindhash, if_neg hl, hs]
  rfl

/-- The hash alone decides. -/
theorem detects_of (h : bindhash hash l₁ = bindhash hash l₂ ↔ l₁.Perm l₂) : Detects hash l₁ l₂ := by
  refine ⟨h, fun port₁ port₂ proto₁ proto₂ rdbufsz₁ rdbufsz₂ initTls => ?_⟩
  rw [← h]
  unfold Configure.configureTcp TcpServer.create
  dsimp only
  split_ifs with hpath hproto hport hsize hbinds htls
  · cases hpath
  · exact iff_of_false (by decide) fun hall => hproto hall.2.1
  · exact iff_of_false (by decide) fun hall => hport hall.1
  · exact iff_of_false (by decide) fun hall => hsize hall.2.2.1
  · exact iff_of_false (by decide) fun hall => hbinds hall.2.2.2.2
  · refine iff_of_false (by decide) fun hall => ?_
    rw [hall.2.2.2.1] at htls
    cases htls
  · refine iff_of_true rfl ⟨of_not_not hport, of_not_not hproto, of_not_not hsize, ?_,
      of_not_not hbinds⟩
    cases initTls with
    | true => rfl
    | false => exact absurd rfl htls

/-- One of the lists is empty. -/
theorem bindhash_nil_iff {s : Str} (hs : bjoined l = some s) :
    (bindhash hash [] = bindhash hash l ↔ [].Perm l) ↔ hash s ≠ 0 := by
  have hperm : ¬ [].Perm l := by
    intro h
    rw [List.nil_perm.1 h] at hs
    cases hs
  have hnil : bindhash hash [] = 0 := rfl
  rw [hnil, bindhash_of_ne hs, iff_false_right hperm, eq_comm]

/-- Neither of the lists is empty. -/
theorem bindhash_eq_iff (h₁ : l₁ ≠ []) (h₂ : l₂ ≠ [])
    (hinj : Set.InjOn hash {s | bjoined l₁ = some s ∨ bjoined l₂ = some s}) :
    bindhash hash l₁ = bindhash hash l₂ ↔ parts l₁ = parts l₂ := by
  obtain ⟨s₁, hs₁⟩ := bjoined_isSome h₁
  obtain ⟨s₂, hs₂⟩ := bjoined_isSome h₂
  rw [bindhash_of_ne hs₁, bindhash_of_ne hs₂, hinj.eq_iff (.inl hs₁) (.inr hs₂), parts, parts,
    ← joinstr_eq_iff colon (sortBinds_eq_nil.not.2 h₁) (sortBinds_eq_nil.not.2 h₂)]
  change _ ↔ bjoined l₁ = bjoined l₂
  rw [hs₁, hs₂, Option.some_inj]

theorem parts_eq_of_perm (h : l₁.Perm l₂) : parts l₁ = parts l₂ := by
  rw [parts, sortBinds_eq_iff.2 h, parts]

/-- The hash tells lists of hosts apart exactly when they are distinct in this sense, if the hash
function is injective on the strings that are hashed. -/
theorem detects_iff (hash : Str → UInt64) (l₁ l₂ : List Str)
    (hinj : Set.InjOn hash {s | bjoined l₁ = some s ∨ bjoined l₂ = some s}) :
    Detects hash l₁ l₂ ↔ Distinct hash l₁ l₂ := by
  have hdec : Detects hash l₁ l₂ ↔ (bindhash hash l₁ = bindhash hash l₂ ↔ l₁.Perm l₂) :=
    ⟨Detects.bindhash, detects_of⟩
  rw [hdec]
  by_cases h₁ : l₁ = []
  · subst h₁
    by_cases h₂ : l₂ = []
    · subst h₂
      refine iff_of_true (iff_of_true rfl (.refl _)) ⟨fun h => absurd rfl h, ?_, ?_⟩
      · exact fun _ s hs => by cases hs
      · exact fun _ s hs => by cases hs
    · obtain ⟨s, hs⟩ := bjoined_isSome h₂
      rw [bindhash_nil_iff hs]
      constructor
      · intro h
        refine ⟨fun h => absurd rfl h, fun _ s' hs' => ?_, fun h => absurd h h₂⟩
        obtain rfl := Option.some.inj (hs.symm.trans hs')
        exact h
      · exact fun h => h.left rfl s hs
  · by_cases h₂ : l₂ = []
    · subst h₂
      obtain ⟨s, hs⟩ := bjoined_isSome h₁
      rw [eq_comm, List.perm_comm, bindhash_nil_iff hs]
      constructor
      · intro h
        refine ⟨fun _ h => absurd rfl h, fun h => absurd h h₁, fun _ s' hs' => ?_⟩
        obtain rfl := Option.some.inj (hs.symm.trans hs')
        exact h
      · exact fun h => h.right rfl s hs
    · rw [bindhash_eq_iff h₁ h₂ hinj]
      constructor
      · exact fun h => ⟨fun _ _ => h.1, fun h => absurd h h₁, fun h => absurd h h₂⟩
      · exact fun h => ⟨h.parts h₁ h₂, parts_eq_of_perm⟩

/-- The hosts `a` and `b`, in either order. -/
theorem detects_iff_two :
    Detects (fun s => UInt64.ofNat s.length) [[0x61], [0x62]] [[0x62], [0x61]] := by
  have hsame : bjoined [[0x62], [0x61]] = bjoined [[0x61], [0x62]] := by decide
  have hdist : Distinct (fun s => UInt64.ofNat s.length) [[0x61], [0x62]] [[0x62], [0x61]] :=
    ⟨fun _ _ _ => by decide, fun h => absurd h (by decide), fun h => absurd h (by decide)⟩
  refine (detects_iff _ _ _ ?_).2 hdist
  rw [hsame]
  intro s hs t ht _
  exact Option.some.inj ((or_self_iff.1 hs).symm.trans (or_self_iff.1 ht))

/-- The hosts `1:2:3:4:5:6:7:8` and `9`. -/
def longFirst : List Str :=
  [[0x31, 0x3a, 0x32, 0x3a, 0x33, 0x3a, 0x34, 0x3a, 0x35, 0x3a, 0x36, 0x3a, 0x37, 0x3a, 0x38], [0x39]]

/-- The hosts `1` and `2:3:4:5:6:7:8:9`. -/
def shortFirst : List Str :=
  [[0x31], [0x32, 0x3a, 0x33, 0x3a, 0x34, 0x3a, 0x35, 0x3a, 0x36, 0x3a, 0x37, 0x3a, 0x38, 0x3a, 0x39]]

theorem hosts_confused : ¬ ∀ (hash : Str → UInt64) (l₁ l₂ : List Str),
    (∀ s ∈ l₁ ++ l₂, s ≠ [] ∧ 0 ∉ s) →
      Set.InjOn hash {s | bjoined l₁ = some s ∨ bjoined l₂ = some s} → Detects hash l₁ l₂ := by
  intro h
  have hsame : bjoined shortFirst = bjoined longFirst := by decide
  have hinj : Set.InjOn (fun s => UInt64.ofNat s.length)
      {s : Str | bjoined longFirst = some s ∨ bjoined shortFirst = some s} := by
    rw [hsame]
    intro s hs t ht _
    exact Option.some.inj ((or_self_iff.1 hs).symm.trans (or_self_iff.1 ht))
  have hd := h (fun s => UInt64.ofNat s.length) longFirst shortFirst (by decide) hinj
  have hperm : longFirst.Perm shortFirst := by
    rw [← hd.bindhash, bindhash, bindhash, if_neg (by decide), if_neg (by decide), hsame]
  revert hperm
  decide

end PoserCore.Server.Configure
