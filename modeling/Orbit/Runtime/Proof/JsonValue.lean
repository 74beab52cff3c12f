import Mathlib.Tactic.FinCases
import Orbit.Runtime.Proof.JsonNumber

/-!
# The reader follows the grammar

For any reader of strings that follows a relation `str`, the members, elements and values that are
read are those of the grammar over `str` (`follows`), and so are the documents (`jsonDocument_iff`).
-/

namespace Runtime.Json

open Lib.Decimal (isDigit)
open Lib.Text (chars)

variable {F : Type} {fl : Floats F}

/-! ## Members and elements -/

theorem jsonLit_iff {p word r : Text} : jsonLit p word = some r ↔ p = word ++ r := by
  rw [jsonLit]
  constructor
  · intro h
    split at h
    · rename_i hpre
      obtain ⟨w, rfl⟩ := List.isPrefixOf_iff_prefix.mp hpre
      rw [Option.some.injEq, List.drop_left] at h
      rw [h]
    · cases h
  · rintro rfl
    rw [if_pos (List.isPrefixOf_iff_prefix.mpr (List.prefix_append word r)), List.drop_left]

/-- A reader of values follows `val`, blanks before the value aside. -/
structure Follows (parseValue : Text → Except Stop (OrbitValue F × Text))
    (val : Text → OrbitValue F → Text → Prop) : Prop where
  sound : ∀ {p v r}, parseValue p = .ok (v, r) → ∃ u, Ws p u ∧ val u v r
  complete : ∀ {p u v r}, jsonWs p = u → val u v r → NumberEnd r → parseValue p = .ok (v, r)
  start : ∀ {u v r}, val u v r → ¬ isWs (cur u) ∧ cur u ≠ ']'
  length : ∀ {u v r}, val u v r → r.length < u.length
  suffix : ∀ {u v r}, val u v r → r <:+ u

/-- A reader of strings follows `str`. -/
structure FollowsString (parseString : Text → Except Stop (Text × Text))
    (str : Text → Text → Text → Prop) : Prop where
  iff : ∀ {t s r}, parseString ('"' :: t) = .ok (s, r) ↔ str t s r
  length : ∀ {t s r}, str t s r → r.length < t.length
  suffix : ∀ {t s r}, str t s r → r <:+ t

/-- Blanks and the punctuation after a value end a number. -/
theorem Ws.numberEnd {z : Text} {c : Char} {r : Text} (h : Ws z (c :: r))
    (hc : c = ',' ∨ c = ']' ∨ c = '\x7d') : NumberEnd z := by
  generalize hw : c :: r = w at h
  cases h with
  | nil =>
    rw [← hw]
    rcases hc with rfl | rfl | rfl <;> simp [NumberEnd, cur, isDigit]
  | cons hd _ => rcases hd with rfl | rfl | rfl | rfl <;> simp [NumberEnd, cur, isDigit]

theorem isWs_punctuation {c : Char} (hc : c = ',' ∨ c = ']' ∨ c = '\x7d' ∨ c = ':' ∨ c = '"') :
    ¬ isWs c := by
  rcases hc with rfl | rfl | rfl | rfl | rfl <;> simp [isWs]

/-- A value is found behind the blanks before it. -/
theorem Follows.skip {parseValue : Text → Except Stop (OrbitValue F × Text)}
    {val : Text → OrbitValue F → Text → Prop} (hv : Follows parseValue val) {x y r : Text}
    {v : OrbitValue F} (hx : Ws x y) (hval : val y v r) : jsonWs x = y := by
  rw [hx.jsonWs_eq]
  exact jsonWs_self (hv.start hval).1

section
variable {parseString : Text → Except Stop (Text × Text)} {str : Text → Text → Text → Prop}
variable {parseValue : Text → Except Stop (OrbitValue F × Text)}
variable {val : Text → OrbitValue F → Text → Prop}
variable (hs : FollowsString parseString str) (hv : Follows parseValue val)
include hs hv

theorem jsonParseMembers_sound {n : Nat} {o o' : OrbitObject F} {p r : Text}
    (h : jsonParseMembers parseString parseValue n o p = .ok (o', r)) :
    IsMembers str val o p o' r := by
  induction n generalizing o p with
  | zero => cases h
  | succ n ih =>
    rw [jsonParseMembers] at h
    by_cases hq : cur p = '"'
    · obtain ⟨u, rfl⟩ := cur_eq hq (by decide)
      rw [if_neg (not_not.mpr hq)] at h
      obtain ⟨⟨k, w⟩, hk, h⟩ := bind_ok h
      by_cases hcolon : cur (jsonWs w) = ':'
      · obtain ⟨x, hx⟩ := cur_eq hcolon (by decide)
        simp only [hcolon, ne_eq, not_true_eq_false, if_false] at h
        obtain ⟨⟨v, z⟩, hval, h⟩ := bind_ok h
        obtain ⟨y, hy, hval⟩ := hv.sound hval
        have hw : Ws w (':' :: x) := hx ▸ ws_jsonWs w
        have hxy : Ws x y := by
          rw [hx] at hy
          exact (ws_jsonWs x).trans hy
        have hstr := hs.iff.mp hk
        by_cases hcomma : cur (jsonWs z) = ','
        · obtain ⟨a, ha⟩ := cur_eq hcomma (by decide)
          simp only [hcomma, if_true] at h
          have hz : Ws z (',' :: a) := ha ▸ ws_jsonWs z
          rw [ha] at h
          exact .more hstr hw hxy hval hz (ws_jsonWs a) (ih h)
        · by_cases hclose : cur (jsonWs z) = '\x7d'
          · obtain ⟨a, ha⟩ := cur_eq hclose (by decide)
            simp only [hclose, if_true] at h
            have hz : Ws z ('\x7d' :: a) := ha ▸ ws_jsonWs z
            rw [ha] at h
            cases h
            exact .last hstr hw hxy hval hz
          · simp only [if_neg hcomma, if_neg hclose] at h
            cases h
      · simp only [ne_eq, hcolon, not_false_eq_true, if_true] at h
        cases h
    · rw [if_pos hq] at h
      cases h

theorem jsonParseMembers_complete {o o' : OrbitObject F} {p r : Text}
    (h : IsMembers str val o p o' r) :
    ∀ {n : Nat}, p.length < n → jsonParseMembers parseString parseValue n o p = .ok (o', r) := by
  induction h with
  | last hstr hw hx hval hz =>
    intro n hn
    rename_i o u k w x v y z r
    obtain ⟨n, rfl⟩ := Nat.exists_eq_succ_of_ne_zero (Nat.ne_zero_of_lt hn)
    have hskip : jsonWs x = y := hv.skip hx hval
    have hval' := hv.complete (jsonWs_self (hv.start hval).1) hval (hz.numberEnd (by simp))
    have hcolon : jsonWs w = ':' :: x := hw.skip (isWs_punctuation (by simp))
    have hclose : jsonWs z = '\x7d' :: r := hz.skip (isWs_punctuation (by simp))
    rw [jsonParseMembers]
    simp [hs.iff.mpr hstr, hcolon, hskip, hval', hclose, cur, bind, Except.bind, pure,
      Except.pure]
  | more hstr hw hx hval hz ha hm ih =>
    intro n hn
    rename_i o u k w x v y z a b o' r
    obtain ⟨n, rfl⟩ := Nat.exists_eq_succ_of_ne_zero (Nat.ne_zero_of_lt hn)
    have hskip : jsonWs x = y := hv.skip hx hval
    have hval' := hv.complete (jsonWs_self (hv.start hval).1) hval (hz.numberEnd (by simp))
    have hcolon : jsonWs w = ':' :: x := hw.skip (isWs_punctuation (by simp))
    have hcomma : jsonWs z = ',' :: a := hz.skip (isWs_punctuation (by simp))
    have hb : jsonWs a = b := by
      rw [ha.jsonWs_eq]
      apply jsonWs_self
      cases hm <;> exact isWs_punctuation (by simp [cur])
    have hlen : b.length < n := by
      have h1 := hs.length hstr
      have h2 := hw.length_le
      have h3 := hx.length_le
      have h4 := hv.length hval
      have h5 := hz.length_le
      have h6 := ha.length_le
      simp only [List.length_cons] at hn h2 h5
      omega
    rw [jsonParseMembers]
    simp [hs.iff.mpr hstr, hcolon, hskip, hval', hcomma, hb, ih hlen, cur, bind, Except.bind]

end

section
variable {parseValue : Text → Except Stop (OrbitValue F × Text)}
variable {val : Text → OrbitValue F → Text → Prop} (hv : Follows parseValue val)
include hv

omit hv in
theorem IsElements.ws {kind : Option Kind} {a b : Text} {l : OrbitList F} {r : Text}
    (h : IsElements val kind b l r) (ha : Ws a b) : IsElements val kind a l r := by
  cases h with
  | last hx hval helem hz => exact .last (ha.trans hx) hval helem hz
  | more hx hval helem hz hl => exact .more (ha.trans hx) hval helem hz hl

omit hv in
/-- The kind of an element that the array takes. -/
theorem IsElement.kind_ok {kind : Option Kind} {v : OrbitValue F} (h : IsElement kind v) :
    ¬ (kind.isSome ∧ kind ≠ some v.kind) := by
  rintro ⟨hsome, hne⟩
  obtain ⟨k, rfl⟩ := Option.isSome_iff_exists.mp hsome
  exact hne (by rw [h.2.2 k rfl])

theorem jsonParseElements_sound {n : Nat} {kind : Option Kind} {l : OrbitList F} {p r : Text}
    (h : jsonParseElements parseValue n kind p = .ok (l, r)) : IsElements val kind p l r := by
  induction n generalizing kind l p with
  | zero => cases h
  | succ n ih =>
    rw [jsonParseElements] at h
    obtain ⟨⟨v, z⟩, hval, h⟩ := bind_ok h
    obtain ⟨y, hy, hval⟩ := hv.sound hval
    by_cases hnull : v.kind = .null
    · simp only [hnull, if_true] at h
      cases h
    by_cases hlist : v.kind = .list
    · simp only [hlist, if_true] at h
      cases h
    by_cases hkind : kind.isSome ∧ kind ≠ some v.kind
    · simp only [if_neg hnull, if_neg hlist, if_pos hkind] at h
      cases h
    have helem : IsElement kind v := by
      refine ⟨hnull, hlist, fun k hk => ?_⟩
      rw [Option.mem_def] at hk
      rw [hk] at hkind
      simpa using hkind
    simp only [if_neg hnull, if_neg hlist, if_neg hkind] at h
    by_cases hcomma : cur (jsonWs z) = ','
    · obtain ⟨a, ha⟩ := cur_eq hcomma (by decide)
      have hz : Ws z (',' :: a) := ha ▸ ws_jsonWs z
      simp only [hcomma, if_true] at h
      rw [ha] at h
      obtain ⟨⟨l', r'⟩, hl, h⟩ := bind_ok h
      cases h
      exact .more hy hval helem hz ((ih hl).ws (ws_jsonWs a))
    · by_cases hclose : cur (jsonWs z) = ']'
      · obtain ⟨a, ha⟩ := cur_eq hclose (by decide)
        have hz : Ws z (']' :: a) := ha ▸ ws_jsonWs z
        simp only [hclose, if_true] at h
        rw [ha] at h
        cases h
        exact .last hy hval helem hz
      · simp only [if_neg hcomma, if_neg hclose] at h
        cases h

theorem jsonParseElements_complete {kind : Option Kind} {l : OrbitList F} {t r : Text}
    (h : IsElements val kind t l r) : ∀ {n : Nat} {p : Text}, jsonWs p = jsonWs t →
      t.length < n → jsonParseElements parseValue n kind p = .ok (l, r) := by
  induction h with
  | last hx hval helem hz =>
    intro n p hp hn
    rename_i kind t v x z r
    obtain ⟨n, rfl⟩ := Nat.exists_eq_succ_of_ne_zero (Nat.ne_zero_of_lt hn)
    have hval' := hv.complete (hp.trans (hv.skip hx hval)) hval (hz.numberEnd (by simp))
    have hclose : jsonWs z = ']' :: r := hz.skip (isWs_punctuation (by simp))
    rw [jsonParseElements]
    simp only [hval', bind, Except.bind, if_neg helem.1, if_neg helem.2.1, if_neg helem.kind_ok,
      hclose]
    simp [cur, pure, Except.pure]
  | more hx hval helem hz hl ih =>
    intro n p hp hn
    rename_i kind t v x z a l r
    obtain ⟨n, rfl⟩ := Nat.exists_eq_succ_of_ne_zero (Nat.ne_zero_of_lt hn)
    have hval' := hv.complete (hp.trans (hv.skip hx hval)) hval (hz.numberEnd (by simp))
    have hcomma : jsonWs z = ',' :: a := hz.skip (isWs_punctuation (by simp))
    have hlen : a.length < n := by
      have h1 := hx.length_le
      have h2 := hv.length hval
      have h3 := hz.length_le
      simp only [List.length_cons] at h3
      omega
    have hrest := ih (p := jsonWs a) (jsonWs_self (not_isWs_jsonWs a)) hlen
    rw [jsonParseElements]
    simp only [hval', bind, Except.bind, if_neg helem.1, if_neg helem.2.1, if_neg helem.kind_ok,
      hcomma]
    simp [cur, hrest, pure, Except.pure]

end

/-! ## Values -/

section
variable {parseString : Text → Except Stop (Text × Text)} {str : Text → Text → Text → Prop}
variable {parseValue : Text → Except Stop (OrbitValue F × Text)}
variable {val : Text → OrbitValue F → Text → Prop}
variable (hs : FollowsString parseString str) (hv : Follows parseValue val)
include hs hv

theorem IsMembers.length_lt {o o' : OrbitObject F} {p r : Text} (h : IsMembers str val o p o' r) :
    r.length < p.length := by
  induction h with
  | last hstr hw hx hval hz =>
    have h1 := hs.length hstr
    have h2 := hw.length_le
    have h3 := hx.length_le
    have h4 := hv.length hval
    have h5 := hz.length_le
    simp only [List.length_cons] at h2 h5 ⊢
    omega
  | more hstr hw hx hval hz ha hm ih =>
    have h1 := hs.length hstr
    have h2 := hw.length_le
    have h3 := hx.length_le
    have h4 := hv.length hval
    have h5 := hz.length_le
    have h6 := ha.length_le
    simp only [List.length_cons] at h2 h5 ⊢
    omega

omit hs in
theorem IsElements.length_lt {kind : Option Kind} {l : OrbitList F} {p r : Text}
    (h : IsElements val kind p l r) : r.length < p.length := by
  induction h with
  | last hx hval helem hz =>
    have h1 := hx.length_le
    have h2 := hv.length hval
    have h3 := hz.length_le
    simp only [List.length_cons] at h3
    omega
  | more hx hval helem hz hl ih =>
    have h1 := hx.length_le
    have h2 := hv.length hval
    have h3 := hz.length_le
    simp only [List.length_cons] at h3
    omega

theorem IsMembers.suffix {o o' : OrbitObject F} {p r : Text} (h : IsMembers str val o p o' r) :
    r <:+ p := by
  induction h with
  | last hstr hw hx hval hz =>
    have h1 := (hz.suffix_tail.trans (hv.suffix hval)).trans hx.suffix
    exact ((h1.trans hw.suffix_tail).trans (hs.suffix hstr)).trans (List.suffix_cons _ _)
  | more hstr hw hx hval hz ha hm ih =>
    have h1 := (ih.trans ha.suffix).trans hz.suffix_tail
    have h2 := (h1.trans (hv.suffix hval)).trans hx.suffix
    exact ((h2.trans hw.suffix_tail).trans (hs.suffix hstr)).trans (List.suffix_cons _ _)

omit hs in
theorem IsElements.suffix {kind : Option Kind} {l : OrbitList F} {p r : Text}
    (h : IsElements val kind p l r) : r <:+ p := by
  induction h with
  | last hx hval helem hz => exact (hz.suffix_tail.trans (hv.suffix hval)).trans hx.suffix
  | more hx hval helem hz hl ih =>
    exact ((ih.trans hz.suffix_tail).trans (hv.suffix hval)).trans hx.suffix

theorem jsonParseObject_sound {t r : Text} {o : OrbitObject F}
    (h : jsonParseObject parseString parseValue ('\x7b' :: t) = .ok (o, r)) :
    ValueOf fl str val ('\x7b' :: t) (.object o) r := by
  rw [jsonParseObject] at h
  simp only [List.drop_succ_cons, List.drop_zero] at h
  by_cases hclose : cur (jsonWs t) = '\x7d'
  · obtain ⟨w, hw⟩ := cur_eq hclose (by decide)
    rw [if_pos hclose, hw] at h
    cases h
    exact .emptyObject (hw ▸ ws_jsonWs t)
  · rw [if_neg hclose] at h
    exact .object (ws_jsonWs t) (jsonParseMembers_sound hs hv h)

omit hs in
theorem jsonParseArray_sound {t r : Text} {l : OrbitList F}
    (h : jsonParseArray parseValue ('[' :: t) = .ok (l, r)) :
    ValueOf fl str val ('[' :: t) (.list l) r := by
  rw [jsonParseArray] at h
  simp only [List.drop_succ_cons, List.drop_zero] at h
  by_cases hclose : cur (jsonWs t) = ']'
  · obtain ⟨w, hw⟩ := cur_eq hclose (by decide)
    rw [if_pos hclose, hw] at h
    cases h
    exact .emptyArray (hw ▸ ws_jsonWs t)
  · rw [if_neg hclose] at h
    exact .array ((jsonParseElements_sound hv h).ws (ws_jsonWs t))

omit hs hv in
theorem jsonParseObject_empty {t r : Text} (h : Ws t ('\x7d' :: r)) :
    jsonParseObject parseString parseValue ('\x7b' :: t) = .ok (.nil, r) := by
  have hclose : jsonWs t = '\x7d' :: r := h.skip (isWs_punctuation (by simp))
  simp [jsonParseObject, hclose, cur]

theorem jsonParseObject_members {t u r : Text} {o : OrbitObject F} (hu : Ws t u)
    (h : IsMembers str val .nil u o r) :
    jsonParseObject parseString parseValue ('\x7b' :: t) = .ok (o, r) := by
  have hcur : cur u = '"' := by cases h <;> rfl
  have hskip : jsonWs t = u := by
    rw [hu.jsonWs_eq]
    exact jsonWs_self (by rw [hcur]; exact isWs_punctuation (by simp))
  have := jsonParseMembers_complete hs hv h (Nat.lt_succ_self _)
  simp [jsonParseObject, hskip, hcur, this]

omit hs hv in
theorem jsonParseArray_empty {t r : Text} (h : Ws t (']' :: r)) :
    jsonParseArray parseValue ('[' :: t) = .ok (.nil, r) := by
  have hclose : jsonWs t = ']' :: r := h.skip (isWs_punctuation (by simp))
  simp [jsonParseArray, hclose, cur]

omit hs in
theorem jsonParseArray_elements {t r : Text} {l : OrbitList F} (h : IsElements val none t l r) :
    jsonParseArray parseValue ('[' :: t) = .ok (l, r) := by
  have hcur : cur (jsonWs t) ≠ ']' := by
    cases h with
    | last hx hval => exact hv.skip hx hval ▸ (hv.start hval).2
    | more hx hval => exact hv.skip hx hval ▸ (hv.start hval).2
  have hp : IsElements val none (jsonWs t) l r := by
    cases h with
    | last hx hval helem hz => exact .last (hv.skip hx hval ▸ .nil) hval helem hz
    | more hx hval helem hz hl => exact .more (hv.skip hx hval ▸ .nil) hval helem hz hl
  rw [jsonParseArray]
  simp only [List.drop_succ_cons, List.drop_zero, if_neg hcur]
  exact jsonParseElements_complete hv hp rfl (Nat.lt_succ_self _)

end

/-- The first byte of a value. -/
theorem IsNumber.start {t : Text} {v : OrbitValue F} (h : IsNumber fl t v) (r : Text) :
    cur (t ++ r) = '-' ∨ isDigit (cur (t ++ r)) = true := by
  have key : ∀ sign i w, (sign = [] ∨ sign = ['-']) → IsInt i →
      cur (sign ++ (i ++ w)) = '-' ∨ isDigit (cur (sign ++ (i ++ w))) = true := by
    rintro sign i w (rfl | rfl) hi
    · exact .inr (hi.1.cur_append w)
    · exact .inl rfl
  cases h with
  | int hsign hi =>
    rw [List.append_assoc]
    exact key _ _ _ hsign hi
  | float hsign hi =>
    simp only [List.append_assoc]
    exact key _ _ _ hsign hi

theorem IsNumber.ne_nil {t : Text} {v : OrbitValue F} (h : IsNumber fl t v) : t ≠ [] := by
  rintro rfl
  rcases h.start [] with h | h <;> cases h

section
variable {parseString : Text → Except Stop (Text × Text)} {str : Text → Text → Text → Prop}
variable (hs : FollowsString parseString str) {n : Nat} {val : Text → OrbitValue F → Text → Prop}
variable (hv : Follows (jsonParseValue fl parseString n) val)
include hs hv

theorem jsonParseValue_sound {p r : Text} {v : OrbitValue F}
    (h : jsonParseValue fl parseString (n + 1) p = .ok (v, r)) :
    ValueOf fl str val (jsonWs p) v r := by
  rw [jsonParseValue] at h
  obtain ⟨u, hu⟩ : ∃ u, u = jsonWs p := ⟨_, rfl⟩
  simp only [← hu] at h ⊢
  by_cases h1 : cur u = '\x7b'
  · obtain ⟨w, rfl⟩ := cur_eq h1 (by decide)
    rw [if_pos h1] at h
    obtain ⟨⟨o, r'⟩, ho, h⟩ := bind_ok h
    cases h
    exact jsonParseObject_sound hs hv ho
  rw [if_neg h1] at h
  by_cases h2 : cur u = '['
  · obtain ⟨w, rfl⟩ := cur_eq h2 (by decide)
    rw [if_pos h2] at h
    obtain ⟨⟨l, r'⟩, hl, h⟩ := bind_ok h
    cases h
    exact jsonParseArray_sound hv hl
  rw [if_neg h2] at h
  by_cases h3 : cur u = '"'
  · obtain ⟨w, rfl⟩ := cur_eq h3 (by decide)
    rw [if_pos h3] at h
    obtain ⟨⟨s, r'⟩, hstr, h⟩ := bind_ok h
    cases h
    exact .string (hs.iff.mp hstr)
  rw [if_neg h3] at h
  by_cases h4 : cur u = 't'
  · rw [if_pos h4] at h
    cases hl : jsonLit u (chars "true") with
    | none => simp [hl, throw, throwThe, MonadExceptOf.throw] at h
    | some w =>
      rw [hl] at h
      cases h
      rw [jsonLit_iff.mp hl]
      exact .true
  rw [if_neg h4] at h
  by_cases h5 : cur u = 'f'
  · rw [if_pos h5] at h
    cases hl : jsonLit u (chars "false") with
    | none => simp [hl, throw, throwThe, MonadExceptOf.throw] at h
    | some w =>
      rw [hl] at h
      cases h
      rw [jsonLit_iff.mp hl]
      exact .false
  rw [if_neg h5] at h
  by_cases h6 : cur u = 'n'
  · rw [if_pos h6] at h
    cases hl : jsonLit u (chars "null") with
    | none => simp [hl, throw, throwThe, MonadExceptOf.throw] at h
    | some w =>
      rw [hl] at h
      cases h
      rw [jsonLit_iff.mp hl]
      exact .null
  rw [if_neg h6] at h
  by_cases h7 : cur u = '-' ∨ isDigit (cur u) = true
  · rw [if_pos h7] at h
    obtain ⟨t, rfl, ht⟩ := jsonParseNumber_sound h
    exact .number ht
  rw [if_neg h7] at h
  by_cases h8 : cur u = nul
  · rw [if_pos h8] at h
    cases h
  · rw [if_neg h8] at h
    cases h

theorem jsonParseValue_complete {p u r : Text} {v : OrbitValue F} (hp : jsonWs p = u)
    (h : ValueOf fl str val u v r) (hr : NumberEnd r) :
    jsonParseValue fl parseString (n + 1) p = .ok (v, r) := by
  rw [jsonParseValue]
  simp only [hp]
  cases h with
  | null =>
    have hcur : cur (chars "null" ++ r) = 'n' := by simp [chars, cur]
    have hlit := jsonLit_iff.mpr (Eq.refl (chars "null" ++ r))
    simp [hcur, hlit, pure, Except.pure]
  | true =>
    have hcur : cur (chars "true" ++ r) = 't' := by simp [chars, cur]
    have hlit := jsonLit_iff.mpr (Eq.refl (chars "true" ++ r))
    simp [hcur, hlit, pure, Except.pure]
  | false =>
    have hcur : cur (chars "false" ++ r) = 'f' := by simp [chars, cur]
    have hlit := jsonLit_iff.mpr (Eq.refl (chars "false" ++ r))
    simp [hcur, hlit, pure, Except.pure]
  | number hn =>
    rename_i t
    have hstart := hn.start r
    have hne : ∀ c ∈ ['\x7b', '[', '"', 't', 'f', 'n'], cur (t ++ r) ≠ c := by
      intro c hc heq
      rw [heq] at hstart
      fin_cases hc <;> rcases hstart with h | h <;> cases h
    simp only [List.mem_cons, List.not_mem_nil, or_false, forall_eq_or_imp, forall_eq] at hne
    obtain ⟨h1, h2, h3, h4, h5, h6⟩ := hne
    rw [if_neg h1, if_neg h2, if_neg h3, if_neg h4, if_neg h5, if_neg h6, if_pos hstart]
    exact jsonParseNumber_complete hn hr
  | string hstr => simp [cur, hs.iff.mpr hstr, bind, Except.bind, pure, Except.pure]
  | emptyObject ht => simp [cur, jsonParseObject_empty ht, bind, Except.bind, pure, Except.pure]
  | object ht hm =>
    simp [cur, jsonParseObject_members hs hv ht hm, bind, Except.bind, pure, Except.pure]
  | emptyArray ht => simp [cur, jsonParseArray_empty ht, bind, Except.bind, pure, Except.pure]
  | array hl => simp [cur, jsonParseArray_elements hv hl, bind, Except.bind, pure, Except.pure]

omit hs hv in
theorem ValueOf.start {u r : Text} {v : OrbitValue F} (h : ValueOf fl str val u v r) :
    ¬ isWs (cur u) ∧ cur u ≠ ']' := by
  cases h with
  | number hn =>
    rename_i t
    rcases hn.start r with h | h
    · simp [h, isWs]
    · refine ⟨?_, ?_⟩
      · rintro (hc | hc | hc | hc) <;> rw [hc] at h <;> cases h
      · intro hc
        rw [hc] at h
        cases h
  | _ => simp [cur, isWs, chars]

theorem ValueOf.length_lt {u r : Text} {v : OrbitValue F} (h : ValueOf fl str val u v r) :
    r.length < u.length := by
  cases h with
  | null => simp [chars]; omega
  | true => simp [chars]; omega
  | false => simp [chars]; omega
  | number hn =>
    have := List.length_pos_iff.mpr hn.ne_nil
    rw [List.length_append]
    omega
  | string hstr => exact Nat.lt_succ_of_lt (hs.length hstr)
  | emptyObject ht =>
    have := ht.length_le
    simp only [List.length_cons] at this ⊢
    omega
  | object ht hm =>
    have := ht.length_le
    have := hm.length_lt hs hv
    rw [List.length_cons]
    omega
  | emptyArray ht =>
    have := ht.length_le
    simp only [List.length_cons] at this ⊢
    omega
  | array hl =>
    have := hl.length_lt hv
    rw [List.length_cons]
    omega

theorem ValueOf.suffix {u r : Text} {v : OrbitValue F} (h : ValueOf fl str val u v r) :
    r <:+ u := by
  cases h with
  | null => exact List.suffix_append _ _
  | true => exact List.suffix_append _ _
  | false => exact List.suffix_append _ _
  | number hn => exact List.suffix_append _ _
  | string hstr => exact (hs.suffix hstr).trans (List.suffix_cons _ _)
  | emptyObject ht => exact ht.suffix_tail.trans (List.suffix_cons _ _)
  | object ht hm => exact ((hm.suffix hs hv).trans ht.suffix).trans (List.suffix_cons _ _)
  | emptyArray ht => exact ht.suffix_tail.trans (List.suffix_cons _ _)
  | array hl => exact (hl.suffix hv).trans (List.suffix_cons _ _)

theorem follows_succ : Follows (jsonParseValue fl parseString (n + 1)) (ValueOf fl str val) where
  sound := fun {p} _ _ h => ⟨jsonWs p, ws_jsonWs p, jsonParseValue_sound hs hv h⟩
  complete := fun hp h hr => jsonParseValue_complete hs hv hp h hr
  start := fun h => h.start
  length := fun h => h.length_lt hs hv
  suffix := fun h => h.suffix hs hv

end

variable (fl) in
/-- The reader of values follows the grammar. -/
theorem follows {parseString : Text → Except Stop (Text × Text)} {str : Text → Text → Text → Prop}
    (hs : FollowsString parseString str) (n : Nat) :
    Follows (jsonParseValue fl parseString n) (IsValue fl str n) := by
  induction n with
  | zero =>
    refine ⟨?_, ?_, ?_, ?_, ?_⟩
    · intro p v r h
      cases h
    all_goals
      intros
      rename_i h
      exact False.elim (by assumption)
  | succ n ih => exact follows_succ hs ih

/-- **The reader follows the grammar**, on the whole text. -/
theorem jsonDocument_iff {parseString : Text → Except Stop (Text × Text)}
    {str : Text → Text → Text → Prop} (hs : FollowsString parseString str) {t : Text}
    {o : OrbitObject F} (hnul : nul ∉ t) :
    jsonDocument fl parseString t = .ok o ↔ IsDocument fl str t o := by
  have hv := follows fl hs (ORBIT_JSON_MAX_DEPTH + 1)
  rw [jsonDocument]
  constructor
  · intro h
    obtain ⟨⟨v, r⟩, hval, h⟩ := bind_ok h
    obtain ⟨u, hu, hval⟩ := hv.sound hval
    cases v with
    | object o' =>
      by_cases hend : cur (jsonWs r) = nul
      · simp only [ne_eq, hend, not_true_eq_false, if_false] at h
        cases h
        refine ⟨u, r, hu, hval, ?_⟩
        have hempty : jsonWs r = [] := by
          cases hw : jsonWs r with
          | nil => rfl
          | cons c w =>
            rw [hw] at hend
            have hmem : c ∈ jsonWs r := by rw [hw]; exact List.mem_cons_self
            have hsuffix := ((ws_jsonWs r).suffix.trans (hv.suffix hval)).trans hu.suffix
            have hc : c = nul := hend
            exact absurd (hsuffix.subset (hc ▸ hmem)) hnul
        exact hempty ▸ ws_jsonWs r
      · simp only [ne_eq, hend, not_false_eq_true, if_true] at h
        cases h
    | _ => cases h
  · rintro ⟨u, r, hu, hval, hr⟩
    have hend : NumberEnd r := by
      cases hr with
      | nil => exact ⟨by decide, by decide, by decide, by decide⟩
      | cons hc _ => rcases hc with rfl | rfl | rfl | rfl <;> simp [NumberEnd, cur, isDigit]
    have hws : jsonWs r = [] := by
      rw [hr.jsonWs_eq]
      rfl
    rw [hv.complete (hv.skip hu hval) hval hend]
    simp [hws, cur, bind, Except.bind, pure, Except.pure]

end Runtime.Json
