import Mathlib.Data.List.GetD
import Orbit.Runtime.JsonGrammar

/-!
# Strings of a document

The two passes of `jsonParseString` agree: the measuring pass goes from the opening to the closing
quote along the relation `Body`, and the decoding pass gives what `Body` says
(`jsonParseString_iff`). A body without an escape of a code unit is the same however far the cursor
goes on after one (`Body.cases_unit`).
-/

namespace Runtime.Json

/-- What a computation that succeeds has done. -/
theorem bind_ok {ε α β : Type} {x : Except ε α} {f : α → Except ε β} {b : β}
    (h : (x >>= f) = .ok b) : ∃ a, x = .ok a ∧ f a = .ok b := by
  cases x with
  | error => cases h
  | ok a => exact ⟨a, rfl, h⟩

/-! ## Reads -/

theorem peek_append (x w : Text) (k : Nat) : peek (x ++ w) (x.length + k) = peek w k := by
  rw [peek, peek]
  by_cases h : k ≤ w.length
  · have : x.length + k ≤ (x ++ w).length := by rw [List.length_append]; omega
    rw [if_pos h, if_pos this, List.getD_append_right _ _ _ _ (by omega), Nat.add_sub_cancel_left]
  · have : ¬ x.length + k ≤ (x ++ w).length := by rw [List.length_append]; omega
    rw [if_neg h, if_neg this]

theorem endsWithin_append (x w : Text) : endsWithin (x ++ w) x.length = endsWithin w 0 := by
  have h0 := peek_append x w 0
  have h1 := peek_append x w 1
  have h2 := peek_append x w 2
  have h3 := peek_append x w 3
  rw [endsWithin, endsWithin]
  simp only [Nat.add_zero] at h0
  simp only [h0, h1, h2, h3, Nat.zero_add]

theorem jsonUnicodeUnit_append (x w : Text) :
    jsonUnicodeUnit (x ++ w) x.length = jsonUnicodeUnit w 0 := by
  have h0 := peek_append x w 0
  have h1 := peek_append x w 1
  have h2 := peek_append x w 2
  have h3 := peek_append x w 3
  rw [jsonUnicodeUnit, jsonUnicodeUnit]
  simp only [Nat.add_zero] at h0
  simp only [h0, h1, h2, h3, Nat.zero_add]

theorem peek_cons (c : Char) (w : Text) (k : Nat) : peek (c :: w) (k + 1) = peek w k := by
  have := peek_append [c] w k
  rwa [List.length_singleton, Nat.add_comm] at this

theorem peek_head (w : Text) : peek w 0 = .ok (cur w) := by
  cases w <;> rfl

/-- No byte after the NUL is read. -/
theorem endsWithin_spec (w : Text) :
    endsWithin w 0 = .ok true ∨ (endsWithin w 0 = .ok false ∧
      ∃ a b c d v, w = a :: b :: c :: d :: v ∧ a ≠ nul ∧ b ≠ nul ∧ c ≠ nul ∧ d ≠ nul) := by
  have hnil : peek [] 0 = .ok nul := rfl
  rw [endsWithin]
  rcases w with _ | ⟨a, _ | ⟨b, _ | ⟨c, _ | ⟨d, v⟩⟩⟩⟩ <;>
    simp only [peek_cons, peek_head, hnil, cur, List.headD_cons, bind, Except.bind, pure,
      Except.pure, if_true, Nat.zero_add, Except.ok.injEq]
  · exact .inl trivial
  · by_cases ha : a = nul <;> simp [ha]
  · by_cases ha : a = nul <;> by_cases hb : b = nul <;> simp [ha, hb]
  · by_cases ha : a = nul <;> by_cases hb : b = nul <;> by_cases hc : c = nul <;>
      simp [ha, hb, hc]
  · by_cases ha : a = nul <;> by_cases hb : b = nul <;> by_cases hc : c = nul <;>
      by_cases hd : d = nul <;> simp [ha, hb, hc, hd]

theorem endsWithin_four {a b c d : Char} (v : Text)
    (h : a ≠ nul ∧ b ≠ nul ∧ c ≠ nul ∧ d ≠ nul) :
    endsWithin (a :: b :: c :: d :: v) 0 = .ok false := by
  obtain ⟨ha, hb, hc, hd⟩ := h
  simp [endsWithin, peek, ha, hb, hc, hd, bind, Except.bind, pure, Except.pure]

theorem jsonUnicodeUnit_four (a b c d : Char) (v : Text) :
    jsonUnicodeUnit (a :: b :: c :: d :: v) 0 = .ok (hexUnit a b c d) := by
  simp only [jsonUnicodeUnit, hexUnit, peek_cons, peek_head, cur, List.headD_cons, bind,
    Except.bind, pure, Except.pure, Nat.zero_add]
  cases jsonHexval a <;> cases jsonHexval b <;> cases jsonHexval c <;> cases jsonHexval d <;> rfl

/-- Hexadecimal digits are not NUL. -/
theorem hexUnit_ne_nul {a b c d : Char} {cp : Nat} (h : hexUnit a b c d = some cp) :
    a ≠ nul ∧ b ≠ nul ∧ c ≠ nul ∧ d ≠ nul := by
  have hnul : jsonHexval nul = none := by decide
  refine ⟨?_, ?_, ?_, ?_⟩ <;> rintro rfl <;> simp [hexUnit, hnul] at h

/-! ## Escapes -/

section
variable (stride : Nat → Except Stop Nat)

/-- An escape, from behind its backslash: the bytes it stands for and the text after it. -/
inductive Escape : Text → Text → Text → Prop where
  | short {e c q} : shortEscape e = some c → Escape (e :: q) [c] q
  | unit {a b c d cp k q} : hexUnit a b c d = some cp → ¬ isHigh cp → ¬ isLow cp →
      stride cp = .ok k → k ≤ q.length + 5 →
      Escape ('u' :: a :: b :: c :: d :: q) (jsonUtf8Emit cp)
        (('u' :: a :: b :: c :: d :: q).drop k)
  | pair {a b c d hi e f g h lo q} : hexUnit a b c d = some hi → isHigh hi →
      hexUnit e f g h = some lo → isLow lo →
      Escape ('u' :: a :: b :: c :: d :: '\\' :: 'u' :: e :: f :: g :: h :: q)
        (jsonUtf8Emit (surrogatePair hi lo)) q

/-- The cursor is at the `u` of an escape of the code unit `cp`, which is no surrogate. -/
def UnitAt (q : Text) (cp : Nat) : Prop :=
  ∃ a b c d w, q = 'u' :: a :: b :: c :: d :: w ∧ hexUnit a b c d = some cp ∧ ¬ isHigh cp ∧
    ¬ isLow cp

theorem cur_eq {q : Text} {c : Char} (h : cur q = c) (hc : c ≠ nul) : ∃ w, q = c :: w := by
  cases q with
  | nil => exact absurd h.symm hc
  | cons d w => exact ⟨w, by rw [← h]; rfl⟩

theorem shortEscape_u : shortEscape 'u' = none := by decide

theorem jsonMeasureEscape_u (w : Text) :
    jsonMeasureEscape stride ('u' :: w) = (do
      if ← endsWithin w 0 then throw (.fail "json: truncated unicode escape")
      match ← jsonUnicodeUnit w 0 with
      | none => throw (.fail "json: bad unicode escape")
      | some cp =>
        if isHigh cp then
          if (← peek ('u' :: w) 5) ≠ '\\' then throw (.fail "json: lone surrogate")
          if (← peek ('u' :: w) 6) ≠ 'u' then throw (.fail "json: lone surrogate")
          if ← endsWithin ('u' :: w) 7 then throw (.fail "json: truncated unicode escape")
          match ← jsonUnicodeUnit ('u' :: w) 7 with
          | none => throw (.fail "json: lone surrogate")
          | some lo =>
            if lo < 0xdc00 ∨ lo > 0xdfff then throw (.fail "json: lone surrogate")
            return (4, ← advance ('u' :: w) 11)
        else if isLow cp then throw (.fail "json: lone surrogate")
        else return (jsonUtf8Len cp, ← advance ('u' :: w) (← stride cp))) := by
  have h1 : endsWithin ('u' :: w) 1 = endsWithin w 0 := endsWithin_append ['u'] w
  have h2 : jsonUnicodeUnit ('u' :: w) 1 = jsonUnicodeUnit w 0 := jsonUnicodeUnit_append ['u'] w
  have hcur : cur ('u' :: w) = 'u' := rfl
  rw [jsonMeasureEscape, hcur, shortEscape_u, if_neg (by decide), if_pos rfl, h1, h2]
  rfl

/-- The three ways an escape is measured. -/
inductive Measured (q : Text) : Except Stop (Nat × Text) → Prop where
  | escape {b q'} : Escape stride q b q' → Measured q (.ok (b.length, q'))
  | fail {msg} : (∀ cp, ¬ UnitAt q cp) → Measured q (.error (.fail msg))
  | unit {cp} : UnitAt q cp → Measured q (do
      return (jsonUtf8Len cp, ← advance q (← stride cp)))

theorem jsonUtf8Emit_length (cp : Nat) : (jsonUtf8Emit cp).length = jsonUtf8Len cp := by
  rw [jsonUtf8Emit, jsonUtf8Len]
  split_ifs <;> rfl

theorem jsonUtf8Len_pair (hi lo : Nat) :
    jsonUtf8Len (surrogatePair hi lo) = 4 := by
  have : 0x10000 ≤ surrogatePair hi lo := by
    unfold surrogatePair
    omega
  rw [jsonUtf8Len, if_neg (by omega), if_neg (by omega), if_neg (by omega)]

theorem jsonMeasureEscape_surrogates {a b c d e f g h : Char} {hi lo : Nat} (v : Text)
    (hhex : hexUnit a b c d = some hi) (hhi : isHigh hi) (hlo : hexUnit e f g h = some lo)
    (hlow : isLow lo) :
    jsonMeasureEscape stride ('u' :: a :: b :: c :: d :: '\\' :: 'u' :: e :: f :: g :: h :: v) =
      .ok (4, v) := by
  obtain ⟨w, hw⟩ : ∃ w, w = '\\' :: 'u' :: e :: f :: g :: h :: v := ⟨_, rfl⟩
  have h5 : peek ('u' :: a :: b :: c :: d :: w) 5 = .ok '\\' := by
    simp only [hw, peek_cons, peek_head, cur, List.headD_cons]
  have h6 : peek ('u' :: a :: b :: c :: d :: w) 6 = .ok 'u' := by
    simp only [hw, peek_cons, peek_head, cur, List.headD_cons]
  have h7 : endsWithin ('u' :: a :: b :: c :: d :: w) 7 = .ok false := by
    rw [hw, ← endsWithin_four v (hexUnit_ne_nul hlo)]
    exact endsWithin_append ['u', a, b, c, d, '\\', 'u'] _
  have h7' : jsonUnicodeUnit ('u' :: a :: b :: c :: d :: w) 7 = .ok (some lo) := by
    rw [hw, ← hlo, ← jsonUnicodeUnit_four e f g h v]
    exact jsonUnicodeUnit_append ['u', a, b, c, d, '\\', 'u'] _
  have hrange : ¬ (lo < 0xdc00 ∨ lo > 0xdfff) := by
    have := hlow.1
    have := hlow.2
    omega
  have hadv : advance ('u' :: a :: b :: c :: d :: w) 11 = .ok v := by
    rw [hw, advance, if_pos (by simp)]
    rfl
  rw [← hw, jsonMeasureEscape_u, endsWithin_four w (hexUnit_ne_nul hhex), jsonUnicodeUnit_four,
    hhex]
  simp only [bind, Except.bind, Bool.false_eq_true, if_false, if_pos hhi, h5, h6, h7, h7',
    ne_eq, not_true_eq_false, if_neg hrange, hadv, pure, Except.pure]

theorem jsonMeasureEscape_pair {a b c d : Char} {hi : Nat} (v : Text)
    (hhex : hexUnit a b c d = some hi) (hhi : isHigh hi) :
    Measured stride ('u' :: a :: b :: c :: d :: v)
      (jsonMeasureEscape stride ('u' :: a :: b :: c :: d :: v)) := by
  have hno : ∀ cp, ¬ UnitAt ('u' :: a :: b :: c :: d :: v) cp := by
    rintro cp ⟨a', b', c', d', w, heq, hcp, hlow, -⟩
    cases heq
    rw [hhex, Option.some.injEq] at hcp
    exact hlow (hcp ▸ hhi)
  by_cases hpair : ∃ e f g h lo x, v = '\\' :: 'u' :: e :: f :: g :: h :: x ∧
      hexUnit e f g h = some lo ∧ isLow lo
  · obtain ⟨e, f, g, h, lo, x, rfl, hlo, hlow⟩ := hpair
    have hesc : Escape stride ('u' :: a :: b :: c :: d :: '\\' :: 'u' :: e :: f :: g :: h :: x)
        (jsonUtf8Emit (surrogatePair hi lo)) x := .pair hhex hhi hlo hlow
    have hmeas := Measured.escape hesc
    rw [jsonUtf8Emit_length, jsonUtf8Len_pair] at hmeas
    rwa [jsonMeasureEscape_surrogates stride x hhex hhi hlo hlow]
  rw [jsonMeasureEscape_u, endsWithin_four v (hexUnit_ne_nul hhex), jsonUnicodeUnit_four, hhex]
  have h5 : peek ('u' :: a :: b :: c :: d :: v) 5 = .ok (cur v) := by
    simp only [peek_cons, peek_head]
  simp only [bind, Except.bind, Bool.false_eq_true, if_false, if_pos hhi, pure, Except.pure, h5]
  by_cases hback : cur v = '\\'
  · obtain ⟨v, rfl⟩ := cur_eq hback (by decide)
    have h6 : peek ('u' :: a :: b :: c :: d :: '\\' :: v) 6 = .ok (cur v) := by
      simp only [peek_cons, peek_head]
    simp only [hback, h6, ne_eq, not_true_eq_false, if_false]
    by_cases hu : cur v = 'u'
    · obtain ⟨v, rfl⟩ := cur_eq hu (by decide)
      have h7 : endsWithin ('u' :: a :: b :: c :: d :: '\\' :: 'u' :: v) 7 = endsWithin v 0 :=
        endsWithin_append ['u', a, b, c, d, '\\', 'u'] v
      have h7' : jsonUnicodeUnit ('u' :: a :: b :: c :: d :: '\\' :: 'u' :: v) 7 =
          jsonUnicodeUnit v 0 := jsonUnicodeUnit_append ['u', a, b, c, d, '\\', 'u'] v
      simp only [hu, h7, h7', not_true_eq_false, if_false]
      rcases endsWithin_spec v with hends | ⟨hends, e, f, g, h, x, rfl, -⟩
      · simp only [hends, if_true]
        exact .fail hno
      · simp only [hends, Bool.false_eq_true, if_false, jsonUnicodeUnit_four]
        cases hlo : hexUnit e f g h with
        | none => exact .fail hno
        | some lo =>
          have hrange : lo < 0xdc00 ∨ lo > 0xdfff := by
            have hlow : ¬ isLow lo := fun hlow => hpair ⟨e, f, g, h, lo, x, rfl, hlo, hlow⟩
            rw [isLow] at hlow
            omega
          simp only [if_pos hrange]
          exact .fail hno
    · simp only [hu, not_false_eq_true, if_true]
      exact .fail hno
  · simp only [hback, ne_eq, not_false_eq_true, if_true]
    exact .fail hno

theorem jsonMeasureEscape_spec (q : Text) :
    Measured stride q (jsonMeasureEscape stride q) := by
  by_cases hu : cur q = 'u'
  · obtain ⟨w, rfl⟩ := cur_eq hu (by decide)
    rcases endsWithin_spec w with hends | ⟨hends, a, b, c, d, v, rfl, -⟩
    · have hno : ∀ cp, ¬ UnitAt ('u' :: w) cp := by
        rintro cp ⟨a, b, c, d, v, heq, hcp, -⟩
        cases heq
        rw [endsWithin_four v (hexUnit_ne_nul hcp)] at hends
        cases hends
      rw [jsonMeasureEscape_u, hends]
      exact .fail hno
    · cases hcp : hexUnit a b c d with
      | none =>
        have hno : ∀ cp, ¬ UnitAt ('u' :: a :: b :: c :: d :: v) cp := by
          rintro cp ⟨a', b', c', d', w, heq, hcp', -⟩
          cases heq
          rw [hcp] at hcp'
          cases hcp'
        rw [jsonMeasureEscape_u, hends, jsonUnicodeUnit_four, hcp]
        exact .fail hno
      | some cp =>
        by_cases hhi : isHigh cp
        · exact jsonMeasureEscape_pair stride v hcp hhi
        · rw [jsonMeasureEscape_u, hends, jsonUnicodeUnit_four, hcp]
          simp only [bind, Except.bind, Bool.false_eq_true, if_false, if_neg hhi]
          by_cases hlow : isLow cp
          · rw [if_pos hlow]
            refine .fail ?_
            rintro cp' ⟨a', b', c', d', w, heq, hcp', -, hlow'⟩
            cases heq
            rw [hcp, Option.some.injEq] at hcp'
            exact hlow' (hcp' ▸ hlow)
          · rw [if_neg hlow]
            exact .unit ⟨a, b, c, d, v, rfl, hcp, hhi, hlow⟩
  · have hno : ∀ cp, ¬ UnitAt q cp := by
      rintro cp ⟨a, b, c, d, w, rfl, -⟩
      exact hu rfl
    rw [jsonMeasureEscape]
    cases hshort : shortEscape (cur q) with
    | none =>
      simp only [Option.isSome_none, Bool.false_eq_true, if_false, if_neg hu]
      exact .fail hno
    | some c =>
      have hne : cur q ≠ nul := by
        intro h
        have hnone : shortEscape nul = none := by decide
        rw [h, hnone] at hshort
        cases hshort
      obtain ⟨w, hw⟩ := cur_eq rfl hne
      have hesc : Escape stride q [c] (q.drop 1) := by
        rw [hw]
        exact .short hshort
      simp only [Option.isSome_some, if_true]
      exact .escape hesc

/-- Both passes read an escape alike. -/
theorem Escape.measure {q b q' : Text} (h : Escape stride q b q') :
    jsonMeasureEscape stride q = .ok (b.length, q') := by
  cases h with
  | short hshort => simp [jsonMeasureEscape, cur, hshort, pure, Except.pure]
  | unit hcp hhi hlow hk hle =>
    rw [jsonMeasureEscape_u, endsWithin_four _ (hexUnit_ne_nul hcp), jsonUnicodeUnit_four, hcp]
    simp only [bind, Except.bind, Bool.false_eq_true, if_false, if_neg hhi, if_neg hlow, hk,
      advance, jsonUtf8Emit_length]
    rw [if_pos (by simpa using hle)]
    rfl
  | pair hcp hhi hlo hlow =>
    rw [jsonMeasureEscape_surrogates stride q' hcp hhi hlo hlow, jsonUtf8Emit_length,
      jsonUtf8Len_pair]

theorem Escape.decode {q b q' : Text} (h : Escape stride q b q') :
    jsonDecodeEscape stride q = .ok (b, q') := by
  cases h with
  | short hshort =>
    rename_i e c
    have hne : e ≠ 'u' := by
      rintro rfl
      rw [shortEscape_u] at hshort
      cases hshort
    have hadv : advance (e :: q') 1 = .ok q' := by
      rw [advance, if_pos (by simp)]
      rfl
    simp [jsonDecodeEscape, cur, hne, hshort, hadv, bind, Except.bind, pure, Except.pure]
  | unit hcp hhi hlow hk hle =>
    rename_i a b c d cp k w
    have h1 : jsonUnicodeUnit ('u' :: a :: b :: c :: d :: w) 1 = .ok (some cp) := by
      rw [← hcp, ← jsonUnicodeUnit_four a b c d w]
      exact jsonUnicodeUnit_append ['u'] _
    have hadv : advance ('u' :: a :: b :: c :: d :: w) k =
        .ok (('u' :: a :: b :: c :: d :: w).drop k) := if_pos (by simpa using hle)
    have hcur : cur ('u' :: a :: b :: c :: d :: w) = 'u' := rfl
    rw [isHigh] at hhi
    simp only [jsonDecodeEscape, hcur, if_true, h1, bind, Except.bind, if_neg hhi, hk, hadv, pure,
      Except.pure]
  | pair hcp hhi hlo hlow =>
    rename_i a b c d hi e f g h lo
    obtain ⟨w, hw⟩ : ∃ w, w = '\\' :: 'u' :: e :: f :: g :: h :: q' := ⟨_, rfl⟩
    have h1 : jsonUnicodeUnit ('u' :: a :: b :: c :: d :: w) 1 = .ok (some hi) := by
      rw [← hcp, ← jsonUnicodeUnit_four a b c d w]
      exact jsonUnicodeUnit_append ['u'] _
    have h7 : jsonUnicodeUnit ('u' :: a :: b :: c :: d :: w) 7 = .ok (some lo) := by
      rw [hw, ← hlo, ← jsonUnicodeUnit_four e f g h q']
      exact jsonUnicodeUnit_append ['u', a, b, c, d, '\\', 'u'] _
    have hadv : advance ('u' :: a :: b :: c :: d :: w) 11 = .ok q' := by
      rw [hw, advance, if_pos (by simp)]
      rfl
    have hcur : cur ('u' :: a :: b :: c :: d :: w) = 'u' := rfl
    rw [isHigh] at hhi
    rw [← hw]
    simp only [jsonDecodeEscape, hcur, if_true, h1, h7, bind, Except.bind, if_pos hhi, hadv, pure,
      Except.pure]

/-! ## The two passes -/

/-- From one cursor in a string to another, without a closing quote between them: the bytes the
text stands for. -/
inductive Body : Text → Text → Text → Prop where
  | done {q} : Body q [] q
  | plain {c q s r} : 0x20 ≤ c.toNat → c ≠ '"' → c ≠ '\\' → Body q s r → Body (c :: q) (c :: s) r
  | escape {q b q' s r} : Escape stride q b q' → Body q' s r → Body ('\\' :: q) (b ++ s) r

variable {stride}

/-- The cursor moves on. -/
def Forward (stride : Nat → Except Stop Nat) : Prop := ∀ cp k, stride cp = .ok k → 0 < k

theorem Escape.length_lt (hf : Forward stride) {q b q' : Text} (h : Escape stride q b q') :
    q'.length < q.length := by
  cases h with
  | short => simp
  | unit hcp hhi hlow hk hle =>
    have := hf _ _ hk
    simp only [List.length_drop, List.length_cons]
    omega
  | pair => simp only [List.length_cons]; omega

theorem Body.length_le (hf : Forward stride) {q s r : Text} (h : Body stride q s r) :
    r.length ≤ q.length := by
  induction h with
  | done => exact Nat.le_refl _
  | plain _ _ _ _ ih => exact Nat.le_succ_of_le ih
  | escape he _ ih =>
    have := he.length_lt hf
    rw [List.length_cons]
    omega

/-- The measuring pass stops at a quote or at the NUL. -/
def AtEnd (r : Text) : Prop := cur r = nul ∨ cur r = '"'

theorem Measured.ok {q : Text} {e : Nat × Text} (h : Measured stride q (.ok e)) :
    ∃ b, Escape stride q b e.2 ∧ b.length = e.1 := by
  generalize hr : (Except.ok e : Except Stop (Nat × Text)) = r at h
  cases h with
  | escape he =>
    cases hr
    exact ⟨_, he, rfl⟩
  | fail => cases hr
  | unit hu =>
    obtain ⟨a, b, c, d, w, rfl, hcp, hhi, hlow⟩ := hu
    rename_i cp
    obtain ⟨k, hk, hr⟩ := bind_ok hr.symm
    obtain ⟨v, hv, hr⟩ := bind_ok hr
    cases hr
    rw [advance] at hv
    split at hv
    · rename_i hle
      cases hv
      exact ⟨_, .unit hcp hhi hlow hk (by simpa using hle), jsonUtf8Emit_length cp⟩
    · cases hv

theorem jsonMeasure_ok {n : Nat} {q r : Text} {k : Nat} (h : jsonMeasure stride n q = .ok (k, r)) :
    AtEnd r ∧ ∃ s, Body stride q s r ∧ s.length = k := by
  induction n generalizing q k with
  | zero => cases h
  | succ n ih =>
    rw [jsonMeasure] at h
    by_cases hend : cur q = nul ∨ cur q = '"'
    · rw [if_pos hend] at h
      cases h
      exact ⟨hend, [], .done, rfl⟩
    rw [if_neg hend] at h
    by_cases hlow : (cur q).toNat < 0x20
    · rw [if_pos hlow] at h
      cases h
    rw [if_neg hlow] at h
    obtain ⟨w, hw⟩ := cur_eq rfl fun h => hend (.inl h)
    by_cases hplain : cur q ≠ '\\'
    · rw [if_pos hplain] at h
      obtain ⟨m, hm, h⟩ := bind_ok h
      cases h
      obtain ⟨hr, s, hs, hlen⟩ := ih hm
      refine ⟨hr, cur q :: s, ?_, by rw [List.length_cons, hlen, Nat.add_comm]⟩
      rw [hw] at hs
      rw [hw]
      exact .plain (Nat.le_of_not_lt hlow) (fun h => hend (.inr h)) hplain hs
    · rw [if_neg hplain] at h
      rw [ne_eq, not_not] at hplain
      obtain ⟨e, he, h⟩ := bind_ok h
      obtain ⟨m, hm, h⟩ := bind_ok h
      cases h
      obtain ⟨hr, s, hs, hlen⟩ := ih hm
      have hspec := jsonMeasureEscape_spec stride (q.drop 1)
      rw [he] at hspec
      obtain ⟨b, hb, hbl⟩ := hspec.ok
      refine ⟨hr, b ++ s, ?_, by rw [List.length_append, hbl, hlen]⟩
      rw [hw] at hb
      rw [hw, hplain]
      exact .escape hb hs

theorem Body.measure (hf : Forward stride) {q s r : Text} (h : Body stride q s r) (hr : AtEnd r) :
    ∀ {n : Nat}, q.length < n → jsonMeasure stride n q = .ok (s.length, r) := by
  induction h with
  | done =>
    intro n hn
    obtain ⟨n, rfl⟩ := Nat.exists_eq_succ_of_ne_zero (Nat.ne_zero_of_lt hn)
    have hr : cur _ = nul ∨ cur _ = '"' := hr
    rw [jsonMeasure, if_pos hr]
    rfl
  | plain hlow hq hb hs ih =>
    intro n hn
    rename_i c q s r
    obtain ⟨n, rfl⟩ := Nat.exists_eq_succ_of_ne_zero (Nat.ne_zero_of_lt hn)
    have hcur : cur (c :: q) = c := rfl
    have hnul : c ≠ nul := by
      rintro rfl
      exact absurd hlow (by decide)
    have := ih hr (n := n) (by simpa using hn)
    rw [jsonMeasure, hcur, if_neg (by simp [hnul, hq]), if_neg (by omega), if_pos hb]
    simp only [List.drop_succ_cons, List.drop_zero, this, bind, Except.bind, pure, Except.pure,
      List.length_cons, Nat.add_comm]
  | escape he hs ih =>
    intro n hn
    rename_i q b q' s r
    obtain ⟨n, rfl⟩ := Nat.exists_eq_succ_of_ne_zero (Nat.ne_zero_of_lt hn)
    have hlt := he.length_lt hf
    rw [List.length_cons] at hn
    have := ih hr (n := n) (by omega)
    have hcur : cur ('\\' :: q) = '\\' := rfl
    rw [jsonMeasure, hcur, if_neg (by decide), if_neg (by decide), if_neg (by decide)]
    simp only [List.drop_succ_cons, List.drop_zero, he.measure, this, bind, Except.bind, pure,
      Except.pure, List.length_append]

/-- The decoding pass keeps step with the measuring pass. -/
theorem Body.decode (hf : Forward stride) {q s r : Text} (h : Body stride q s r) :
    ∀ {n : Nat}, q.length < n → jsonDecode stride r n q = .ok s := by
  induction h with
  | done =>
    intro n hn
    obtain ⟨n, rfl⟩ := Nat.exists_eq_succ_of_ne_zero (Nat.ne_zero_of_lt hn)
    rw [jsonDecode, if_pos (Nat.le_refl _)]
  | plain hlow hq hb hs ih =>
    intro n hn
    rename_i c q s r
    obtain ⟨n, rfl⟩ := Nat.exists_eq_succ_of_ne_zero (Nat.ne_zero_of_lt hn)
    have hle := hs.length_le hf
    have hcur : cur (c :: q) = c := rfl
    have hadv : advance (c :: q) 1 = .ok q := if_pos (by simp)
    have := ih (n := n) (by simpa using hn)
    rw [jsonDecode, if_neg (by rw [List.length_cons]; omega), hcur, if_pos hb]
    simp only [hadv, this, bind, Except.bind, pure, Except.pure]
  | escape he hs ih =>
    intro n hn
    rename_i q b q' s r
    obtain ⟨n, rfl⟩ := Nat.exists_eq_succ_of_ne_zero (Nat.ne_zero_of_lt hn)
    have hlt := he.length_lt hf
    have hle := hs.length_le hf
    rw [List.length_cons] at hn
    have := ih (n := n) (by omega)
    have hcur : cur ('\\' :: q) = '\\' := rfl
    rw [jsonDecode, if_neg (by rw [List.length_cons]; omega), hcur, if_neg (by decide)]
    simp only [List.drop_succ_cons, List.drop_zero, he.decode, this, bind, Except.bind, pure,
      Except.pure]

/-- A string is read along its body, up to the closing quote. -/
theorem jsonParseString_iff (hf : Forward stride) {t s r : Text} :
    jsonParseString stride ('"' :: t) = .ok (s, r) ↔
      ∃ s0, Body stride t s0 ('"' :: r) ∧ s = cString s0 := by
  rw [jsonParseString]
  simp only [List.drop_succ_cons, List.drop_zero]
  constructor
  · intro h
    obtain ⟨m, hm, h⟩ := bind_ok h
    obtain ⟨-, s0, hs0, -⟩ := jsonMeasure_ok hm
    have hdec := hs0.decode hf (Nat.lt_succ_self _)
    by_cases hq : cur m.2 = '"'
    · obtain ⟨w, hw⟩ := cur_eq hq (by decide)
      simp only [bind, Except.bind, hq, ne_eq, not_true_eq_false, if_false, hdec, pure,
        Except.pure, Except.ok.injEq, Prod.mk.injEq] at h
      obtain ⟨rfl, rfl⟩ := h
      rw [hw] at hs0
      rw [hw]
      exact ⟨s0, hs0, rfl⟩
    · rw [if_pos hq] at h
      cases h
  · rintro ⟨s0, hs0, rfl⟩
    have hm := hs0.measure hf (.inr rfl) (Nat.lt_succ_self _)
    have hdec := hs0.decode hf (Nat.lt_succ_self _)
    have hcur : cur ('"' :: r) = '"' := rfl
    simp only [hm, bind, Except.bind, hcur, ne_eq, not_true_eq_false, if_false, hdec, pure,
      Except.pure, List.drop_succ_cons, List.drop_zero]

end

/-! ## Escapes of code units -/

/-- An escape of no code unit is the same for all strides. -/
theorem Escape.other {stride stride' : Nat → Except Stop Nat} {q b q' : Text}
    (h : Escape stride q b q') (hno : ∀ cp, ¬ UnitAt q cp) : Escape stride' q b q' := by
  cases h with
  | short hshort => exact .short hshort
  | unit hcp hhi hlow => exact absurd ⟨_, _, _, _, _, rfl, hcp, hhi, hlow⟩ (hno _)
  | pair hcp hhi hlo hlow => exact .pair hcp hhi hlo hlow

/-- No escape of a code unit is taken. -/
def noUnit (_ : Nat) : Except Stop Nat := .error .wild

theorem Escape.not_unit {q b q' : Text} (h : Escape noUnit q b q') (cp : Nat) :
    ¬ UnitAt q cp := by
  rintro ⟨a, b, c, d, w, rfl, hcp, hhi, hlow⟩
  cases h with
  | short hshort => simp [shortEscape_u] at hshort
  | unit _ _ _ hk => cases hk
  | pair hcp' hhi' =>
    rw [hcp, Option.some.injEq] at hcp'
    exact hhi (hcp' ▸ hhi')

/-- The scan of a string comes to an escape of a code unit. -/
def MeetsUnit (t : Text) : Prop :=
  ∃ s q cp, Body noUnit t s ('\\' :: q) ∧ UnitAt q cp

/-- A body has an escape of a code unit, or is read alike with all strides. -/
theorem Body.cases_unit {stride : Nat → Except Stop Nat} {t s r : Text} (h : Body stride t s r) :
    Body noUnit t s r ∨ MeetsUnit t := by
  induction h with
  | done => exact .inl .done
  | plain hlow hq hb _ ih =>
    rcases ih with ih | ⟨s, q, cp, hs, hq'⟩
    · exact .inl (.plain hlow hq hb ih)
    · exact .inr ⟨_, q, cp, .plain hlow hq hb hs, hq'⟩
  | escape he _ ih =>
    rename_i q b q' s r hbody
    by_cases hno : ∀ cp, ¬ UnitAt q cp
    · have he' : Escape noUnit _ _ _ := he.other hno
      rcases ih with ih | ⟨s, q, cp, hs, hq'⟩
      · exact .inl (.escape he' ih)
      · exact .inr ⟨_, q, cp, .escape he' hs, hq'⟩
    · rw [not_forall] at hno
      obtain ⟨cp, hcp⟩ := hno
      exact .inr ⟨[], q, cp, .done, not_not.mp hcp⟩

theorem Body.of_noUnit {t s r : Text} (h : Body noUnit t s r) (stride : Nat → Except Stop Nat) :
    Body stride t s r := by
  induction h with
  | done => exact .done
  | plain hlow hq hb _ ih => exact .plain hlow hq hb ih
  | escape he _ ih => exact .escape (he.other he.not_unit) ih

end Runtime.Json
