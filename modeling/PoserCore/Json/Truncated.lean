import PoserCore.Json.Reader

/-!
# Truncated texts

The reader fails with `stale` exactly on the texts that end where a further value of a container is
due (`truncated_iff`).
-/

namespace PoserCore.Json

variable {F : Type} {env : Env F}

/-! ## A truncated text makes the reader fail -/

/-- What a failure on `s` with `stale` is. -/
def Fails (env : Env F) : Open → List UInt8 → Prop
  | .value, s => (∀ c, Starts c s) ∧ ∀ n, s.length < n → read env false n s = some (.fail true)
  | .elem c, s => Starts c s ∧ ∀ n, s.length < n →
      readElem false (read env false n) s c = some (.fail true)
  | .elems c seen, s => ∀ n m, s.length < n → s.length < m →
      readElems false (read env false n) c m seen s = some (.fail true)

theorem read_nil {pairs : Bool} {n : ℕ} (hn : 0 < n) : read env pairs n [] = some .atEnd := by
  obtain ⟨n, rfl⟩ := Nat.exists_eq_succ_of_ne_zero (Nat.ne_of_gt hn)
  rfl

theorem skipWs_ws {w : List UInt8} (hw : Ws w) : skipWs w = [] := by
  have h := skipWs_append hw []
  rwa [List.append_nil] at h

theorem readElems_fail {rd : List UInt8 → Option (Read (Value F))} {c : Container} {m : ℕ}
    {seen : Bool} {s : List UInt8} (hs : (skipWs s).head? ≠ some c.right)
    (h : readElem false rd (skipWs s) c = some (.fail true)) :
    readElems false rd c (m + 1) seen s = some (.fail true) := by
  simp only [readElems, hs, if_false, h]

theorem readElems_atEnd {rd : List UInt8 → Option (Read (Value F))} {c : Container} {m : ℕ}
    {seen : Bool} {s : List UInt8} (hs : (skipWs s).head? ≠ some c.right)
    (h : readElem false rd (skipWs s) c = some .atEnd) :
    readElems false rd c (m + 1) seen s = some (.fail seen) := by
  simp only [readElems, hs, if_false, h]

theorem fails_of_truncated {o : Open} {s : List UInt8} (h : Truncated env o s) : Fails env o s := by
  induction h with
  | @container c s h ih =>
    refine ⟨starts_of_byte (by cases c <;> decide) _, fun n hn => ?_⟩
    obtain ⟨n, rfl⟩ := Nat.exists_eq_succ_of_ne_zero (Nat.ne_of_gt (Nat.zero_lt_of_lt hn))
    rw [List.length_cons] at hn
    rw [read_left, readContainer, List.tail_cons, ih n _ (by omega) (by simp)]
    rfl
  | @item s h ih =>
    refine ⟨ih.1 .array, fun n hn => ?_⟩
    rw [readElem, ih.2 n hn]
    rfl
  | @member k w w' s hk hp hw hw' h ih =>
    refine ⟨?_, fun n hn => ?_⟩
    · rw [List.append_assoc, List.append_assoc]
      exact starts_key hk _
    · simp only [List.length_append, List.length_cons] at hn
      rw [readElem_member hk (.inr hp) hw hw', skipWs_of_noWs (ih.1 .array).noWs, ih.2 n (by omega)]
      rfl
  | @endArray w hw =>
    intro n m hn hm
    obtain ⟨m, rfl⟩ := Nat.exists_eq_succ_of_ne_zero (Nat.ne_of_gt (Nat.zero_lt_of_lt hm))
    have hskip := skipWs_ws hw
    refine readElems_atEnd (by simp [hskip]) ?_
    rw [hskip, readElem, read_nil (Nat.zero_lt_of_lt hn)]
    rfl
  | @endObject k w w' w'' hk hp hw hw' hw'' =>
    intro n m hn hm
    obtain ⟨m, rfl⟩ := Nat.exists_eq_succ_of_ne_zero (Nat.ne_of_gt (Nat.zero_lt_of_lt hm))
    have htext : w ++ k.text ++ w' ++ colon :: w'' = w ++ (k.text ++ w' ++ colon :: w'' ++ []) := by
      simp
    have hstart : Starts .object (k.text ++ w' ++ colon :: w'' ++ []) := by
      rw [List.append_assoc, List.append_assoc]
      exact starts_key hk _
    have hskip := skipWs_ws_append hw hstart.noWs
    rw [htext]
    refine readElems_atEnd (by rw [hskip]; exact hstart.head_ne) ?_
    rw [hskip, readElem_member hk (.inr hp) hw' hw'', skipWs_of_noWs (by intro b hb; cases hb),
      read_nil (Nat.zero_lt_of_lt hn)]
    rfl
  | @here c seen w s hw h ih =>
    intro n m hn hm
    obtain ⟨m, rfl⟩ := Nat.exists_eq_succ_of_ne_zero (Nat.ne_of_gt (Nat.zero_lt_of_lt hm))
    have hskip := skipWs_ws_append hw ih.1.noWs
    rw [List.length_append] at hn
    refine readElems_fail (by rw [hskip]; exact ih.1.head_ne) ?_
    rw [hskip, ih.2 n (by omega)]
  | @later c seen e u w s w' r hw he hp hw' h ih =>
    intro n m hn hm
    obtain ⟨m, rfl⟩ := Nat.exists_eq_succ_of_ne_zero (Nat.ne_of_gt (Nat.zero_lt_of_lt hm))
    obtain ⟨hstart, hread⟩ : Reads env false (.elem c e) u s := read_derives he (.inr hp)
    simp only [List.length_append, List.length_cons] at hn hm
    have helem := hread n (w' ++ comma :: r) (by omega) (delim_append hw' (delim_comma _))
    have hskip : skipWs (w' ++ comma :: r) = comma :: r :=
      skipWs_ws_append hw' (noWs_cons (by decide) _)
    have htext : w ++ s ++ w' ++ comma :: r = w ++ (s ++ (w' ++ comma :: r)) := by simp
    rw [htext, readElems_value hw hstart helem, hskip]
    simp only [List.head?_cons, Option.some.injEq, (right_ne_comma c).symm, if_false, if_true,
      List.tail_cons, ih n m (by omega) (by omega), Option.map_some, Read.cons]

/-! ## The reader fails on truncated texts only -/

/-- White space and then a truncated text. -/
def TruncatedAfterWs (env : Env F) (o : Open) (s : List UInt8) : Prop :=
  ∃ w t, s = w ++ t ∧ Ws w ∧ Truncated env o t

def FailsTruncated (env : Env F) (rd : List UInt8 → Option (Read (Value F))) : Prop :=
  ∀ ⦃s⦄, 0 ∉ s → rd s = some (.fail true) → TruncatedAfterWs env .value s

/-- The reader is at the end at the end only. -/
def EndsAtEnd (rd : List UInt8 → Option (Read (Value F))) : Prop :=
  ∀ ⦃s⦄, rd s = some .atEnd → skipWs s = []

theorem readContainer_ne_atEnd {pairs : Bool} {rd : List UInt8 → Option (Read (Value F))}
    {c : Container} : ∀ {m : ℕ} {seen : Bool} {s : List UInt8},
    readElems pairs rd c m seen s ≠ some .atEnd
  | 0, _, _, h => by cases h
  | m + 1, seen, s, h => by
      rw [readElems] at h
      split_ifs at h
      · cases h
      · split at h
        · cases h
        · cases h
        · cases h
        · split_ifs at h
          · cases h
          · obtain ⟨x, hx, heq⟩ := Option.map_eq_some_iff.1 h
            cases x with
            | value us es r => cases heq
            | atEnd => exact readContainer_ne_atEnd hx
            | fail stale => cases heq
          · cases h

theorem endsAtEnd_read {pairs : Bool} (n : ℕ) : EndsAtEnd (read env pairs n) := by
  intro s h
  cases n with
  | zero => cases h
  | succ n =>
    rw [read] at h
    have hcontainer (c : Container) (s : List UInt8) :
        readContainer pairs (read env pairs n) c s ≠ some .atEnd := by
      intro h
      obtain ⟨x, hx, heq⟩ := Option.map_eq_some_iff.1 h
      cases x with
      | value us es r => cases heq
      | atEnd => exact readContainer_ne_atEnd hx
      | fail stale => cases heq
    generalize skipWs s = s' at h ⊢
    cases s' with
    | nil => rfl
    | cons c t =>
      exfalso
      simp only at h
      split_ifs at h
      · exact hcontainer _ _ h
      · exact hcontainer _ _ h
      · unfold readStringValue at h
        split at h <;> cases h
      · unfold readNumber at h
        split at h <;> cases h
      · unfold readLiteral at h
        split_ifs at h <;> cases h

/-- A member of an object whose value does not follow. -/
theorem readElem_object {rd : List UInt8 → Option (Read (Value F))} {s : List UInt8} (h0 : 0 ∉ s)
    (hs : NoWs s) (hr : s.head? ≠ some rbrace) {x : Read (Key × Value F)}
    (h : readElem false rd s .object = some x) (hx : ∀ u e r, x ≠ .value u e r)
    (hf : x ≠ .fail false) : ∃ k : KeyText, ∃ w w' t, k.Ok ∧ Feature.splitPair ∉ k.used ∧ Ws w ∧
      Ws w' ∧ s = k.text ++ w ++ colon :: w' ++ t ∧ NoWs t ∧
      (x = .atEnd ∧ rd t = some .atEnd ∨ x = .fail true ∧ rd t = some (.fail true)) := by
  rw [readElem] at h
  split at h
  · cases h
    exact absurd rfl hf
  next k r1 hk =>
  split_ifs at h with hcolon
  · obtain ⟨hok, rfl, hpk⟩ := readKey_derived h0 hs hr hk
    obtain ⟨w1, hw1, hr1⟩ := exists_skipWs r1
    obtain ⟨q, hq⟩ : ∃ q, skipWs r1 = colon :: q := ⟨_, eq_cons_tail hcolon⟩
    rw [hq] at hr1 h
    obtain ⟨w2, hw2, hr3⟩ := exists_skipWs q
    refine ⟨k, w1, w2, skipWs q, hok, hpk rfl, hw1, hw2, ?_, noWs_skipWs q, ?_⟩
    · rw [hr1]
      nth_rewrite 1 [hr3]
      simp
    · obtain ⟨y, hy, rfl⟩ := Option.map_eq_some_iff.1 h
      rw [List.tail_cons] at hy
      cases y with
      | value u v r => exact absurd rfl (hx _ _ _)
      | atEnd => exact .inl ⟨rfl, hy⟩
      | fail stale =>
        cases stale with
        | false => exact absurd rfl hf
        | true => exact .inr ⟨rfl, hy⟩
  · cases h
    exact absurd rfl hf

theorem readElem_truncated {rd : List UInt8 → Option (Read (Value F))}
    (hrd : FailsTruncated env rd) {c : Container} {s : List UInt8} (h0 : 0 ∉ s) (hs : NoWs s)
    (hr : s.head? ≠ some c.right) (h : readElem false rd s c = some (.fail true)) :
    TruncatedAfterWs env (.elem c) s := by
  cases c with
  | array =>
    obtain ⟨x, hx, heq⟩ := Option.map_eq_some_iff.1 h
    cases x with
    | value u v r => cases heq
    | atEnd => cases heq
    | fail stale =>
      cases heq
      obtain ⟨w, t, ht, hw, htrunc⟩ := hrd h0 hx
      exact ⟨w, t, ht, hw, .item htrunc⟩
  | object =>
    obtain ⟨k, w, w', t, hk, hp, hw, hw', rfl, hnt, hcase⟩ :=
      readElem_object h0 hs hr h (by simp) (by simp)
    rcases hcase with ⟨heq, -⟩ | ⟨-, hfail⟩
    · cases heq
    · obtain ⟨w'', t', rfl, hw'', htrunc⟩ := hrd (fun hm => h0 (by simp [hm])) hfail
      have hws : Ws (w' ++ w'') := fun b hb => (List.mem_append.1 hb).elim (hw' b) (hw'' b)
      refine ⟨[], _, ?_, by simp [Ws], .member hk hp hw hws htrunc⟩
      simp

theorem readElems_truncated {rd : List UInt8 → Option (Read (Value F))}
    (hsound : Sound env false rd) (hrd : FailsTruncated env rd) (hend : EndsAtEnd rd)
    {c : Container} : ∀ {m : ℕ} {seen : Bool} {s : List UInt8}, 0 ∉ s →
    readElems false rd c m seen s = some (.fail true) → Truncated env (.elems c seen) s
  | 0, _, _, _, h => by cases h
  | m + 1, seen, s, h0, h => by
      obtain ⟨w, hw, hs⟩ := exists_skipWs s
      have h0s := no_nul_skipWs h0
      have append_ws {w w' : List UInt8} (hw : Ws w) (hw' : Ws w') : Ws (w ++ w') :=
        fun b hb => (List.mem_append.1 hb).elim (hw b) (hw' b)
      rw [readElems] at h
      split_ifs at h with hright
      · cases h
      · split at h
        · cases h
        next hatEnd =>
          cases h
          cases c with
          | array =>
            obtain ⟨x, hx, heq⟩ := Option.map_eq_some_iff.1 hatEnd
            cases x with
            | value u v r => cases heq
            | atEnd =>
              have hnil := hend hx
              rw [skipWs_skipWs] at hnil
              rw [hs, hnil, List.append_nil]
              exact .endArray hw
            | fail stale => cases heq
          | object =>
            obtain ⟨k, w1, w2, t, hk, hp, hw1, hw2, ht, hnt, hcase⟩ :=
              readElem_object h0s (noWs_skipWs s) hright hatEnd (by simp) (by simp)
            rcases hcase with ⟨-, hx⟩ | ⟨heq, -⟩
            · have hnil := hend hx
              rw [skipWs_of_noWs hnt] at hnil
              rw [hs, ht, hnil]
              have hobj : Truncated env (.elems .object true)
                  (w ++ k.text ++ w1 ++ colon :: w2) := .endObject hk hp hw hw1 hw2
              simpa using hobj
            · cases heq
        next stale hfail =>
          cases h
          obtain ⟨w', t, ht, hw', htrunc⟩ := readElem_truncated hrd h0s (noWs_skipWs s) hright hfail
          rw [hs, ht, ← List.append_assoc]
          exact .here (append_ws hw hw') htrunc
        next u1 e r1 he =>
        have hder := readElem_derived hsound h0s (noWs_skipWs s) hright he
        have h01 := no_nul_skipWs (hder.no_nul h0s)
        obtain ⟨w0, t, ht, hw0, -, hder, hp⟩ := hder
        obtain ⟨w1, hw1, hr1⟩ := exists_skipWs r1
        split_ifs at h with hend' hcomma
        · cases h
        · obtain ⟨q, hq⟩ : ∃ q, skipWs r1 = comma :: q := ⟨_, eq_cons_tail hcomma⟩
          rw [hq] at h hr1 h01
          have hd : Delim r1 := hr1 ▸ delim_append hw1 (delim_comma _)
          obtain ⟨x, hx, heq⟩ := Option.map_eq_some_iff.1 h
          cases x with
          | value us es' r' => cases heq
          | atEnd => cases heq
          | fail stale =>
            cases heq
            have hrest := readElems_truncated hsound hrd hend (no_nul_tail h01) hx
            have hlater : Truncated env (.elems c seen) (w ++ w0 ++ t ++ w1 ++ comma :: q) :=
              .later (append_ws hw hw0) (hder hd) (hp rfl) hw1 hrest
            rw [hs, ht, hr1]
            simpa using hlater
        · cases h

theorem failsTruncated_read : ∀ n, FailsTruncated env (read env false n)
  | 0 => fun _ _ h => by cases h
  | n + 1 => fun s h0 h => by
      obtain ⟨w, hw, hs⟩ := exists_skipWs s
      have h0s := no_nul_skipWs h0
      have hcontainer (c : Container) (t : List UInt8) (h0t : 0 ∉ t)
          (h : readContainer false (read env false n) c (c.left :: t) = some (.fail true)) :
          Truncated env .value (c.left :: t) := by
        obtain ⟨x, hx, heq⟩ := Option.map_eq_some_iff.1 h
        cases x with
        | value us es r => cases heq
        | atEnd => cases heq
        | fail stale =>
          cases heq
          exact .container (readElems_truncated (derives_of_read n) (failsTruncated_read n)
            (endsAtEnd_read n) h0t hx)
      refine ⟨w, skipWs s, hs, hw, ?_⟩
      rw [read] at h
      generalize skipWs s = s' at h h0s
      cases s' with
      | nil => cases h
      | cons c t =>
        have h0t : 0 ∉ t := fun hm => h0s (List.mem_cons_of_mem _ hm)
        simp only at h
        split_ifs at h with h1 h2
        · subst h1
          exact hcontainer .object t h0t h
        · subst h2
          exact hcontainer .array t h0t h
        · unfold readStringValue at h
          split at h <;> cases h
        · unfold readNumber at h
          split at h <;> cases h
        · unfold readLiteral at h
          split_ifs at h <;> cases h

/-- The texts on which the reader fails with `stale`. -/
theorem truncated_iff {s : List UInt8} (h0 : 0 ∉ s) {n : ℕ} (hn : s.length < n) :
    read env false n s = some (.fail true) ↔ TruncatedAfterWs env .value s := by
  refine ⟨fun h => failsTruncated_read n h0 h, ?_⟩
  rintro ⟨w, t, rfl, hw, htrunc⟩
  obtain ⟨hstart, hfail⟩ := fails_of_truncated htrunc
  rw [List.length_append] at hn
  have hskip := skipWs_ws_append hw (hstart .array).noWs
  have hread : read env false n (w ++ t) = read env false n t := by
    cases n with
    | zero => rfl
    | succ n => simp only [read, hskip, skipWs_of_noWs (hstart .array).noWs]
  rw [hread, hfail n (by omega)]

end PoserCore.Json
