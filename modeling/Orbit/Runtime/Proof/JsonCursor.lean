import Orbit.Runtime.Proof.JsonDocument

/-!
# The cursor of the reader

The reader leaves the text exactly when it comes, in a document that follows the grammar up to
there, to a string whose scan ends with the escape of a code unit as the last bytes of the text
(`orbitJsonParse_wild_iff`). Nothing else reads or moves past the NUL, and no loop runs on
(`orbitJsonParse_ne_spin`).
-/

namespace Runtime.Json

open Lib.Text (chars)

/-- What a computation that stops has done. -/
theorem bind_error {ε α β : Type} {x : Except ε α} {f : α → Except ε β} {e : ε}
    (h : (x >>= f) = .error e) : x = .error e ∨ ∃ a, x = .ok a ∧ f a = .error e := by
  cases x with
  | error =>
    cases h
    exact .inl rfl
  | ok a => exact .inr ⟨a, rfl, h⟩

/-! ## Strings -/

/-- The text ends, in a string, with the escape of a code unit. -/
def EndsInUnit (t : Text) : Prop :=
  ∃ s q cp, Body jsonStride t s ('\\' :: q) ∧ UnitAt q cp ∧ q.length = 5

/-- The one escape that leaves the text. -/
theorem jsonMeasureEscape_error {q : Text} {e : Stop}
    (h : jsonMeasureEscape jsonStride q = .error e) :
    (∃ msg, e = .fail msg) ∨ e = .wild ∧ ∃ cp, UnitAt q cp ∧ q.length = 5 := by
  have hs := jsonMeasureEscape_spec jsonStride q
  rw [h] at hs
  generalize hr : (Except.error e : Except Stop (Nat × Text)) = r at hs
  cases hs with
  | escape => cases hr
  | fail =>
    cases hr
    exact .inl ⟨_, rfl⟩
  | unit hu =>
    rcases bind_error hr.symm with hk | ⟨k, hk, hadv⟩
    · cases hk
    · cases hk
      rcases bind_error hadv with hadv | ⟨w, -, hw⟩
      · rw [advance] at hadv
        split at hadv
        · cases hadv
        · rename_i hle
          cases hadv
          refine .inr ⟨rfl, _, hu, ?_⟩
          obtain ⟨a, b, c, d, w, rfl, -⟩ := hu
          simp only [List.length_cons] at hle ⊢
          omega
      · cases hw

theorem UnitAt.wild {q : Text} {cp : Nat} (h : UnitAt q cp) (hlen : q.length = 5) :
    jsonMeasureEscape jsonStride q = .error .wild := by
  have hs := jsonMeasureEscape_spec jsonStride q
  generalize hr : jsonMeasureEscape jsonStride q = r at hs
  cases hs with
  | escape he =>
    obtain ⟨a, b, c, d, w, rfl, hcp, hhi, -⟩ := h
    cases he with
    | short hshort => simp [shortEscape_u] at hshort
    | unit _ _ _ hk hle =>
      cases hk
      simp only [List.length_cons] at hlen
      omega
    | pair hcp' hhi' =>
      rw [hcp, Option.some.injEq] at hcp'
      exact absurd (hcp' ▸ hhi') hhi
  | fail hno => exact absurd h (hno cp)
  | unit =>
    have hadv : advance q 6 = .error .wild := if_neg (by omega)
    simp [jsonStride, bind, Except.bind, hadv]

theorem jsonMeasure_error {n : Nat} {q : Text} {e : Stop} (hn : q.length < n)
    (h : jsonMeasure jsonStride n q = .error e) :
    (∃ msg, e = .fail msg) ∨ e = .wild ∧ EndsInUnit q := by
  induction n generalizing q with
  | zero => exact absurd hn (Nat.not_lt_zero _)
  | succ n ih =>
    rw [jsonMeasure] at h
    by_cases hend : cur q = nul ∨ cur q = '"'
    · rw [if_pos hend] at h
      cases h
    rw [if_neg hend] at h
    by_cases hlow : (cur q).toNat < 0x20
    · rw [if_pos hlow] at h
      cases h
      exact .inl ⟨_, rfl⟩
    rw [if_neg hlow] at h
    obtain ⟨w, hw⟩ := cur_eq rfl fun h => hend (.inl h)
    rw [hw, List.length_cons] at hn
    by_cases hplain : cur q ≠ '\\'
    · rw [if_pos hplain] at h
      rcases bind_error h with h | ⟨m, -, h⟩
      · rw [hw] at h
        rcases ih (by simpa using hn) h with hmsg | ⟨he, s, q', cp, hs, hu⟩
        · exact .inl hmsg
        · refine .inr ⟨he, cur q :: s, q', cp, ?_, hu⟩
          rw [hw]
          exact .plain (Nat.le_of_not_lt hlow) (fun h => hend (.inr h)) hplain hs
      · cases h
    · rw [if_neg hplain] at h
      rw [ne_eq, not_not] at hplain
      rw [hplain] at hw
      rw [hw] at h ⊢
      rcases bind_error h with h | ⟨e', he', h⟩
      · rcases jsonMeasureEscape_error h with hmsg | ⟨he, cp, hu⟩
        · exact .inl hmsg
        · exact .inr ⟨he, [], w, cp, .done, hu⟩
      · rcases bind_error h with h | ⟨m, -, h⟩
        · have hspec := jsonMeasureEscape_spec jsonStride w
          rw [show jsonMeasureEscape jsonStride w = .ok e' from he'] at hspec
          obtain ⟨b, hb, -⟩ := hspec.ok
          have hlt := hb.length_lt forward_jsonStride
          rcases ih (by omega) h with hmsg | ⟨he, s, q', cp, hs, hu⟩
          · exact .inl hmsg
          · exact .inr ⟨he, b ++ s, q', cp, .escape hb hs, hu⟩
        · cases h

theorem Body.wild {t s r : Text} (h : Body jsonStride t s r) :
    ∀ {n q cp}, r = '\\' :: q → UnitAt q cp → q.length = 5 → t.length < n →
      jsonMeasure jsonStride n t = .error .wild := by
  induction h with
  | done =>
    rintro n q cp rfl hu hlen hn
    obtain ⟨n, rfl⟩ := Nat.exists_eq_succ_of_ne_zero (Nat.ne_zero_of_lt hn)
    have hcur : cur ('\\' :: q) = '\\' := rfl
    rw [jsonMeasure, hcur, if_neg (by decide), if_neg (by decide), if_neg (by decide)]
    simp only [List.drop_succ_cons, List.drop_zero, hu.wild hlen, bind, Except.bind]
  | plain hlow hq hb hs ih =>
    intro n q cp hr hu hlen hn
    rename_i c w s r
    obtain ⟨n, rfl⟩ := Nat.exists_eq_succ_of_ne_zero (Nat.ne_zero_of_lt hn)
    have hcur : cur (c :: w) = c := rfl
    have hnul : c ≠ nul := by
      rintro rfl
      exact absurd hlow (by decide)
    have := ih (n := n) hr hu hlen (by simpa using hn)
    rw [jsonMeasure, hcur, if_neg (by simp [hnul, hq]), if_neg (by omega), if_pos hb]
    simp only [List.drop_succ_cons, List.drop_zero, this, bind, Except.bind]
  | escape he hs ih =>
    intro n q cp hr hu hlen hn
    rename_i w b q' s r
    obtain ⟨n, rfl⟩ := Nat.exists_eq_succ_of_ne_zero (Nat.ne_zero_of_lt hn)
    have hlt := he.length_lt forward_jsonStride
    rw [List.length_cons] at hn
    have := ih (n := n) hr hu hlen (by omega)
    have hcur : cur ('\\' :: w) = '\\' := rfl
    rw [jsonMeasure, hcur, if_neg (by decide), if_neg (by decide), if_neg (by decide)]
    simp only [List.drop_succ_cons, List.drop_zero, he.measure, this, bind, Except.bind]

/-- How the reading of a string stops: with a message, or past the text. -/
theorem jsonParseString_error {t : Text} {e : Stop}
    (h : jsonParseString jsonStride ('"' :: t) = .error e) :
    (∃ msg, e = .fail msg) ∨ e = .wild ∧ EndsInUnit t := by
  rw [jsonParseString] at h
  simp only [List.drop_succ_cons, List.drop_zero] at h
  rcases bind_error h with h | ⟨m, hm, h⟩
  · exact jsonMeasure_error (Nat.lt_succ_self _) h
  · obtain ⟨-, s0, hs0, -⟩ := jsonMeasure_ok hm
    have hdec := hs0.decode forward_jsonStride (Nat.lt_succ_self _)
    by_cases hq : cur m.2 ≠ '"'
    · rw [if_pos hq] at h
      cases h
      exact .inl ⟨_, rfl⟩
    · simp only [if_neg hq, bind, Except.bind, hdec] at h
      cases h

theorem EndsInUnit.wild {t : Text} (h : EndsInUnit t) :
    jsonParseString jsonStride ('"' :: t) = .error .wild := by
  obtain ⟨s, q, cp, hs, hu, hlen⟩ := h
  have := hs.wild rfl hu hlen (Nat.lt_succ_self _)
  rw [jsonParseString]
  simp only [List.drop_succ_cons, List.drop_zero, this, bind, Except.bind]

/-! ## Values -/

variable {F : Type} {fl : Floats F}

/-- A reader stops with a message, or leaves the text where `opens` holds. -/
structure StopsAt {α : Type} (parse : Text → Except Stop α) (opens : Text → Prop) : Prop where
  error : ∀ {p e}, parse p = .error e → (∃ msg, e = .fail msg) ∨ e = .wild ∧ opens p
  wild : ∀ {p}, opens p → parse p = .error .wild

section
variable {parseString : Text → Except Stop (Text × Text)} {str : Text → Text → Text → Prop}
variable {parseValue : Text → Except Stop (OrbitValue F × Text)}
variable {val : Text → OrbitValue F → Text → Prop} {openStr openVal : Text → Prop}
variable (hs : FollowsString parseString str) (hv : Follows parseValue val)
variable (hs' : StopsAt (fun t => parseString ('"' :: t)) openStr) (hv' : StopsAt parseValue openVal)
variable (hblank : ∀ p, openVal (jsonWs p) ↔ openVal p)
include hs hv hs' hv' hblank

theorem jsonParseMembers_error {n : Nat} {o : OrbitObject F} {p : Text} {e : Stop}
    (hn : p.length < n) (h : jsonParseMembers parseString parseValue n o p = .error e) :
    (∃ msg, e = .fail msg) ∨ e = .wild ∧ OpensMembers str val openStr openVal p := by
  induction n generalizing o p with
  | zero => exact absurd hn (Nat.not_lt_zero _)
  | succ n ih =>
    rw [jsonParseMembers] at h
    by_cases hq : cur p = '"'
    · obtain ⟨u, rfl⟩ := cur_eq hq (by decide)
      rw [if_neg (not_not.mpr hq)] at h
      rcases bind_error h with h | ⟨⟨k, w⟩, hk, h⟩
      · exact (hs'.error h).imp_right (And.imp_right .key)
      have hstr := hs.iff.mp hk
      by_cases hcolon : cur (jsonWs w) = ':'
      · obtain ⟨x, hx⟩ := cur_eq hcolon (by decide)
        have hw : Ws w (':' :: x) := hx ▸ ws_jsonWs w
        simp only [hcolon, ne_eq, not_true_eq_false, if_false] at h
        rcases bind_error h with h | ⟨⟨v, z⟩, hval, h⟩
        · refine (hv'.error h).imp_right (And.imp_right fun hu => ?_)
          rw [hx] at hu
          exact .value hstr hw ((hblank x).mp hu)
        obtain ⟨y, hy, hval⟩ := hv.sound hval
        have hxy : Ws x y := by
          rw [hx] at hy
          exact (ws_jsonWs x).trans hy
        by_cases hcomma : cur (jsonWs z) = ','
        · obtain ⟨a, ha⟩ := cur_eq hcomma (by decide)
          have hz : Ws z (',' :: a) := ha ▸ ws_jsonWs z
          simp only [hcomma, if_true] at h
          rw [ha] at h
          have hlen : (jsonWs a).length < n := by
            have h1 := hs.length hstr
            have h2 := hw.length_le
            have h3 := hxy.length_le
            have h4 := hv.length hval
            have h5 := hz.length_le
            have h6 := (ws_jsonWs a).length_le
            simp only [List.length_cons] at hn h2 h5
            omega
          exact (ih hlen h).imp_right (And.imp_right (.later hstr hw hxy hval hz (ws_jsonWs a)))
        · by_cases hclose : cur (jsonWs z) = '\x7d'
          · simp only [hclose, if_true] at h
            cases h
          · simp only [if_neg hcomma, if_neg hclose] at h
            cases h
            exact .inl ⟨_, rfl⟩
      · simp only [ne_eq, hcolon, not_false_eq_true, if_true] at h
        cases h
        exact .inl ⟨_, rfl⟩
    · rw [if_pos hq] at h
      cases h
      exact .inl ⟨_, rfl⟩

theorem OpensMembers.wild {p : Text} (h : OpensMembers str val openStr openVal p) :
    ∀ {n : Nat} {o : OrbitObject F}, p.length < n →
      jsonParseMembers parseString parseValue n o p = .error .wild := by
  induction h with
  | key hu =>
    intro n o hn
    obtain ⟨n, rfl⟩ := Nat.exists_eq_succ_of_ne_zero (Nat.ne_zero_of_lt hn)
    have hk := hs'.wild hu
    rw [jsonParseMembers]
    simp only [cur, List.headD_cons, ne_eq, not_true_eq_false, if_false, hk, bind, Except.bind]
  | value hstr hw hu =>
    intro n o hn
    rename_i u k w x
    obtain ⟨n, rfl⟩ := Nat.exists_eq_succ_of_ne_zero (Nat.ne_zero_of_lt hn)
    have hcolon : jsonWs w = ':' :: x := hw.skip (isWs_punctuation (by simp))
    have hval := hv'.wild ((hblank x).mpr hu)
    rw [jsonParseMembers]
    simp [hs.iff.mpr hstr, hcolon, hval, cur, bind, Except.bind]
  | later hstr hw hx hval hz ha hm ih =>
    intro n o hn
    rename_i u k w x y v z a b
    obtain ⟨n, rfl⟩ := Nat.exists_eq_succ_of_ne_zero (Nat.ne_zero_of_lt hn)
    have hskip : jsonWs x = y := hv.skip hx hval
    have hval' := hv.complete (jsonWs_self (hv.start hval).1) hval (hz.numberEnd (by simp))
    have hcolon : jsonWs w = ':' :: x := hw.skip (isWs_punctuation (by simp))
    have hcomma : jsonWs z = ',' :: a := hz.skip (isWs_punctuation (by simp))
    have hb : jsonWs a = b := by
      rw [ha.jsonWs_eq]
      apply jsonWs_self
      cases hm <;> exact isWs_punctuation (by simp [cur])
    have hlen : b.length < n := by
      have h1 := hs.length hstr
      have h2 := hw.length_le
      have h3 := hx.length_le
      have h4 := hv.length hval
      have h5 := hz.length_le
      have h6 := ha.length_le
      simp only [List.length_cons] at hn h2 h5
      omega
    rw [jsonParseMembers]
    simp [hs.iff.mpr hstr, hcolon, hskip, hval', hcomma, hb, ih hlen, cur, bind, Except.bind]

omit hs hs' in
theorem jsonParseElements_error {n : Nat} {kind : Option Kind} {t p : Text} {e : Stop}
    (hp : jsonWs p = jsonWs t) (hn : t.length < n)
    (h : jsonParseElements parseValue n kind p = .error e) :
    (∃ msg, e = .fail msg) ∨ e = .wild ∧ OpensElements val openVal kind t := by
  induction n generalizing kind t p with
  | zero => exact absurd hn (Nat.not_lt_zero _)
  | succ n ih =>
    rw [jsonParseElements] at h
    rcases bind_error h with h | ⟨⟨v, z⟩, hval, h⟩
    · refine (hv'.error h).imp_right (And.imp_right fun hu => .value ?_)
      rwa [← hblank, hp, hblank] at hu
    obtain ⟨y, hy, hval⟩ := hv.sound hval
    have hty : Ws t y := by
      have := hv.skip hy hval
      rw [hp] at this
      exact this ▸ ws_jsonWs t
    by_cases hnull : v.kind = .null
    · simp only [hnull, if_true] at h
      cases h
      exact .inl ⟨_, rfl⟩
    by_cases hlist : v.kind = .list
    · simp only [hlist, if_true] at h
      cases h
      exact .inl ⟨_, rfl⟩
    by_cases hkind : kind.isSome ∧ kind ≠ some v.kind
    · simp only [if_neg hnull, if_neg hlist, if_pos hkind] at h
      cases h
      exact .inl ⟨_, rfl⟩
    have helem : IsElement kind v := by
      refine ⟨hnull, hlist, fun k hk => ?_⟩
      rw [Option.mem_def] at hk
      rw [hk] at hkind
      simpa using hkind
    simp only [if_neg hnull, if_neg hlist, if_neg hkind] at h
    by_cases hcomma : cur (jsonWs z) = ','
    · obtain ⟨a, ha⟩ := cur_eq hcomma (by decide)
      have hz : Ws z (',' :: a) := ha ▸ ws_jsonWs z
      simp only [hcomma, if_true] at h
      rw [ha] at h
      have hlen : a.length < n := by
        have h1 := hty.length_le
        have h2 := hv.length hval
        have h3 := hz.length_le
        simp only [List.length_cons] at h3
        omega
      rcases bind_error h with h | ⟨r, -, h⟩
      · have hws : jsonWs (jsonWs a) = jsonWs a := jsonWs_self (not_isWs_jsonWs a)
        exact (ih hws hlen h).imp_right (And.imp_right (.later hty hval helem hz))
      · cases h
    · by_cases hclose : cur (jsonWs z) = ']'
      · simp only [hclose, if_true] at h
        cases h
      · simp only [if_neg hcomma, if_neg hclose] at h
        cases h
        exact .inl ⟨_, rfl⟩

omit hs hs' in
theorem OpensElements.wild {kind : Option Kind} {t : Text} (h : OpensElements val openVal kind t) :
    ∀ {n : Nat} {p : Text}, jsonWs p = jsonWs t → t.length < n →
      jsonParseElements parseValue n kind p = .error .wild := by
  induction h with
  | value hu =>
    intro n p hp hn
    obtain ⟨n, rfl⟩ := Nat.exists_eq_succ_of_ne_zero (Nat.ne_zero_of_lt hn)
    rw [← hblank, ← hp, hblank] at hu
    rw [jsonParseElements]
    simp only [hv'.wild hu, bind, Except.bind]
  | later hx hval helem hz _ ih =>
    intro n p hp hn
    rename_i kind t x v z a hl
    obtain ⟨n, rfl⟩ := Nat.exists_eq_succ_of_ne_zero (Nat.ne_zero_of_lt hn)
    have hval' := hv.complete (hp.trans (hv.skip hx hval)) hval (hz.numberEnd (by simp))
    have hcomma : jsonWs z = ',' :: a := hz.skip (isWs_punctuation (by simp))
    have hlen : a.length < n := by
      have h1 := hx.length_le
      have h2 := hv.length hval
      have h3 := hz.length_le
      simp only [List.length_cons] at h3
      omega
    have hrest := ih (p := jsonWs a) (jsonWs_self (not_isWs_jsonWs a)) hlen
    rw [jsonParseElements]
    simp only [hval', bind, Except.bind, if_neg helem.1, if_neg helem.2.1, if_neg helem.kind_ok,
      hcomma]
    simp [cur, hrest]

end

section
variable {parseString : Text → Except Stop (Text × Text)} {str : Text → Text → Text → Prop}
variable {openStr : Text → Prop}

theorem opens_blank (n : Nat) (p : Text) :
    Opens fl str openStr n (jsonWs p) ↔ Opens fl str openStr n p := by
  have key : ∀ (c : Char) (u : Text), ¬ isWs c → (Ws (jsonWs p) (c :: u) ↔ Ws p (c :: u)) := by
    intro c u hc
    constructor
    · exact (ws_jsonWs p).trans
    · intro h
      rw [h.skip hc]
      exact .nil
  cases n with
  | zero => exact Iff.rfl
  | succ n =>
    have hq : ∀ u, Ws (jsonWs p) ('"' :: u) ↔ Ws p ('"' :: u) := fun u => key _ u (by simp [isWs])
    have hb : ∀ u, Ws (jsonWs p) ('\x7b' :: u) ↔ Ws p ('\x7b' :: u) :=
      fun u => key _ u (by simp [isWs])
    have ha : ∀ u, Ws (jsonWs p) ('[' :: u) ↔ Ws p ('[' :: u) := fun u => key _ u (by simp [isWs])
    simp only [Opens, hq, hb, ha]

/-- A number ends in a message. -/
theorem jsonParseNumber_error {t : Text} {e : Stop} (h : jsonParseNumber fl t = .error e) :
    ∃ msg, e = .fail msg := by
  rw [jsonParseNumber] at h
  rcases bind_error h with h | ⟨s, -, h⟩
  · rw [jsonIntegerPart] at h
    split_ifs at h <;> exact ⟨_, (Except.error.inj h).symm⟩
  rcases bind_error h with h | ⟨f, -, h⟩
  · rw [jsonFraction] at h
    split_ifs at h
    exact ⟨_, (Except.error.inj h).symm⟩
  rcases bind_error h with h | ⟨x, -, h⟩
  · simp only [jsonExponent] at h
    split_ifs at h <;> exact ⟨_, (Except.error.inj h).symm⟩
  · dsimp only at h
    split_ifs at h
    · cases h
    · exact ⟨_, (Except.error.inj h).symm⟩
    · cases h
    · exact ⟨_, (Except.error.inj h).symm⟩

/-- What opens is no closing bracket. -/
theorem Opens.cur_ne {n : Nat} {p : Text} (h : Opens fl str openStr n p) :
    cur (jsonWs p) ≠ ']' := by
  cases n with
  | zero => exact h.elim
  | succ n =>
    rcases h with ⟨u, hp, -⟩ | ⟨u, w, hp, -, -⟩ | ⟨u, hp, -⟩ <;>
      simp [hp.skip (show ¬ isWs _ by simp [isWs]), cur]

variable (hs : FollowsString parseString str)
variable (hs' : StopsAt (fun t => parseString ('"' :: t)) openStr)
include hs hs'

theorem jsonParseValue_error {n : Nat}
    (hv' : StopsAt (jsonParseValue fl parseString n) (Opens fl str openStr n)) {p : Text} {e : Stop}
    (h : jsonParseValue fl parseString (n + 1) p = .error e) :
    (∃ msg, e = .fail msg) ∨ e = .wild ∧ Opens fl str openStr (n + 1) p := by
  have hv := follows fl hs n
  rw [jsonParseValue] at h
  have hws := ws_jsonWs p
  generalize jsonWs p = u at h hws
  by_cases h1 : cur u = '\x7b'
  · obtain ⟨w, rfl⟩ := cur_eq h1 (by decide)
    simp only [if_pos h1] at h
    rcases bind_error h with h | ⟨r, -, h⟩
    · simp only [jsonParseObject, List.drop_succ_cons, List.drop_zero] at h
      split_ifs at h
      refine (jsonParseMembers_error hs hv hs' hv' (opens_blank n) (Nat.lt_succ_self _) h).imp_right
        (And.imp_right fun hu => .inr (.inl ⟨w, jsonWs w, hws, ws_jsonWs w, hu⟩))
    · cases h
  by_cases h2 : cur u = '['
  · obtain ⟨w, rfl⟩ := cur_eq h2 (by decide)
    simp only [if_neg h1, if_pos h2] at h
    rcases bind_error h with h | ⟨r, -, h⟩
    · simp only [jsonParseArray, List.drop_succ_cons, List.drop_zero] at h
      split_ifs at h
      have hws' : jsonWs (jsonWs w) = jsonWs (jsonWs w) := rfl
      rcases jsonParseElements_error hv hv' (opens_blank n) hws' (Nat.lt_succ_self _) h with
        hmsg | ⟨he, hu⟩
      · exact .inl hmsg
      · refine .inr ⟨he, .inr (.inr ⟨w, hws, ?_⟩)⟩
        cases hu with
        | value hu => exact .value ((opens_blank n w).mp hu)
        | later hx hval helem hz hl => exact .later ((ws_jsonWs w).trans hx) hval helem hz hl
    · cases h
  by_cases h3 : cur u = '"'
  · obtain ⟨w, rfl⟩ := cur_eq h3 (by decide)
    simp only [if_neg h1, if_neg h2, if_pos h3] at h
    rcases bind_error h with h | ⟨r, -, h⟩
    · exact (hs'.error h).imp_right (And.imp_right fun hu => .inl ⟨w, hws, hu⟩)
    · cases h
  simp only [if_neg h1, if_neg h2, if_neg h3] at h
  refine .inl ?_
  split_ifs at h
  · split at h
    · cases h
    · exact ⟨_, (Except.error.inj h).symm⟩
  · split at h
    · cases h
    · exact ⟨_, (Except.error.inj h).symm⟩
  · split at h
    · cases h
    · exact ⟨_, (Except.error.inj h).symm⟩
  · exact jsonParseNumber_error h
  · exact ⟨_, (Except.error.inj h).symm⟩
  · exact ⟨_, (Except.error.inj h).symm⟩

theorem Opens.wild {n : Nat}
    (hv' : StopsAt (jsonParseValue fl parseString n) (Opens fl str openStr n)) {p : Text}
    (h : Opens fl str openStr (n + 1) p) :
    jsonParseValue fl parseString (n + 1) p = .error .wild := by
  have hv := follows fl hs n
  rw [jsonParseValue]
  rcases h with ⟨u, hp, hu⟩ | ⟨u, w, hp, hw, hm⟩ | ⟨u, hp, hl⟩
  · have hskip : jsonWs p = '"' :: u := hp.skip (by simp [isWs])
    have := hs'.wild hu
    simp [hskip, cur, this, bind, Except.bind]
  · have hskip : jsonWs p = '\x7b' :: u := hp.skip (by simp [isWs])
    have hcur : cur w = '"' := by cases hm <;> rfl
    have hw' : jsonWs u = w := by
      rw [hw.jsonWs_eq]
      exact jsonWs_self (by rw [hcur]; simp [isWs])
    have := hm.wild hs hv hs' hv' (opens_blank n) (o := .nil) (Nat.lt_succ_self _)
    simp only [hskip, jsonParseObject, List.drop_succ_cons, List.drop_zero, hw', hcur, this]
    rfl
  · have hskip : jsonWs p = '[' :: u := hp.skip (by simp [isWs])
    have hl' : OpensElements (IsValue fl str n) (Opens fl str openStr n) none (jsonWs u) := by
      cases hl with
      | value hu => exact .value ((opens_blank n u).mpr hu)
      | later hx hval helem hz hl => exact .later (hv.skip hx hval ▸ .nil) hval helem hz hl
    have hcur : cur (jsonWs u) ≠ ']' := by
      cases hl with
      | value hu => exact hu.cur_ne
      | later hx hval => exact hv.skip hx hval ▸ (hv.start hval).2
    have := hl'.wild hv hv' (opens_blank n) rfl (Nat.lt_succ_self _)
    simp only [hskip, jsonParseArray, List.drop_succ_cons, List.drop_zero, if_neg hcur, this]
    rfl

variable (fl) in
theorem stopsAt (n : Nat) : StopsAt (jsonParseValue fl parseString n) (Opens fl str openStr n) := by
  induction n with
  | zero =>
    refine ⟨?_, fun h => h.elim⟩
    intro p e h
    exact .inl ⟨_, (Except.error.inj h).symm⟩
  | succ n ih => exact ⟨jsonParseValue_error hs hs' ih, Opens.wild hs hs' ih⟩

end

/-! ## Documents -/

theorem stopsAt_string :
    StopsAt (fun t => jsonParseString jsonStride ('"' :: t)) EndsInUnit :=
  ⟨jsonParseString_error, EndsInUnit.wild⟩

theorem jsonDocument_error {t : Text} {e : Stop}
    (h : jsonDocument fl (jsonParseString jsonStride) t = .error e) :
    (∃ msg, e = .fail msg) ∨
      e = .wild ∧ Opens fl (ReadsString jsonStride) EndsInUnit (ORBIT_JSON_MAX_DEPTH + 1) t := by
  have hv := stopsAt fl (followsString forward_jsonStride) stopsAt_string
    (ORBIT_JSON_MAX_DEPTH + 1)
  rw [jsonDocument] at h
  rcases bind_error h with h | ⟨⟨v, r⟩, -, h⟩
  · exact hv.error h
  · refine .inl ?_
    cases v with
    | object o =>
      dsimp only at h
      split_ifs at h <;> cases h
      exact ⟨_, rfl⟩
    | _ => exact ⟨_, (Except.error.inj h).symm⟩

/-- **The reader leaves the text exactly there**: some bytes after a first NUL are read, or passed,
exactly when the text up to it follows the grammar of the reader to a string that ends with the
escape of a code unit as the last bytes. -/
theorem orbitJsonParse_wild_iff (fl : Floats F) (memory : Text) :
    orbitJsonParse fl memory ≠ .error .wild ↔
      ¬ Opens fl (ReadsString jsonStride) EndsInUnit (ORBIT_JSON_MAX_DEPTH + 1)
        (cString memory) := by
  refine not_congr ⟨fun h => ?_, fun h => ?_⟩
  · rcases jsonDocument_error h with ⟨msg, hmsg⟩ | ⟨-, ho⟩
    · cases hmsg
    · exact ho
  · have hv := stopsAt fl (followsString forward_jsonStride) stopsAt_string
      (ORBIT_JSON_MAX_DEPTH + 1)
    rw [orbitJsonParse, jsonDocument, hv.wild h]
    rfl

/-- The text of the document ends with an escape. -/
theorem orbitJsonParse_wild :
    orbitJsonParse textFloats
      ['\x7b', '"', 'a', '"', ':', '"', '\\', 'u', '0', '0', '4', '1'] = .error .wild := rfl

/-- No loop of the reader runs on. -/
theorem orbitJsonParse_ne_spin (fl : Floats F) (memory : Text) :
    orbitJsonParse fl memory ≠ .error .spin := by
  intro h
  rcases jsonDocument_error h with ⟨msg, hmsg⟩ | ⟨he, -⟩
  · cases hmsg
  · cases he

end Runtime.Json
