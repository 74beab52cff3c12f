import Mathlib.Data.List.TakeWhile
import Orbit.Runtime.Proof.JsonString

/-!
# Numbers of a document

Blanks are skipped (`ws_jsonWs`), and the reader of numbers succeeds on the numbers of the grammar
(`jsonParseNumber_sound`, `jsonParseNumber_complete`).
-/

namespace Runtime.Json

open Lib.Decimal (isDigit digitsValue)
open Lib.Text (chars)

/-! ## Blanks -/

theorem ws_jsonWs (t : Text) : Ws t (jsonWs t) := by
  induction t with
  | nil => exact .nil
  | cons c t ih =>
    rw [jsonWs]
    split_ifs with h
    · exact .cons h ih
    · exact .nil

theorem Ws.jsonWs_eq {t r : Text} (h : Ws t r) : jsonWs t = jsonWs r := by
  induction h with
  | nil => rfl
  | cons hc _ ih =>
    have hc : _ ∨ _ ∨ _ ∨ _ := hc
    rw [jsonWs, if_pos hc, ih]

theorem jsonWs_self {r : Text} (h : ¬ isWs (cur r)) : jsonWs r = r := by
  cases r with
  | nil => rfl
  | cons c r =>
    have hc : ¬ (c = ' ' ∨ c = '\t' ∨ c = '\n' ∨ c = '\r') := h
    rw [jsonWs, if_neg hc]

/-- Blanks up to a character that is none. -/
theorem Ws.skip {t : Text} {c : Char} {r : Text} (h : Ws t (c :: r)) (hc : ¬ isWs c) :
    jsonWs t = c :: r := by
  rw [h.jsonWs_eq]
  exact jsonWs_self hc

theorem not_isWs_jsonWs (t : Text) : ¬ isWs (cur (jsonWs t)) := by
  induction t with
  | nil => simp only [jsonWs, cur, isWs]; decide
  | cons c t ih =>
    rw [jsonWs]
    split_ifs with h
    · exact ih
    · exact h

theorem Ws.trans {t u r : Text} (h : Ws t u) (h' : Ws u r) : Ws t r := by
  induction h with
  | nil => exact h'
  | cons hc _ ih => exact .cons hc (ih h')

theorem Ws.length_le {t r : Text} (h : Ws t r) : r.length ≤ t.length := by
  induction h with
  | nil => exact Nat.le_refl _
  | cons _ _ ih => exact Nat.le_succ_of_le ih

theorem Ws.suffix {t r : Text} (h : Ws t r) : r <:+ t := by
  induction h with
  | nil => exact List.suffix_refl _
  | cons _ _ ih => exact ih.trans (List.suffix_cons _ _)

/-- The text that remains past a punctuation character. -/
theorem Ws.suffix_tail {t r : Text} {c : Char} (h : Ws t (c :: r)) : r <:+ t :=
  (List.suffix_cons c r).trans h.suffix

/-! ## Numbers -/

theorem takeWhile_skipDigits (s : Text) : s.takeWhile isDigit ++ skipDigits s = s :=
  List.takeWhile_append_dropWhile

theorem skipDigits_append {ds r : Text} (h : ∀ c ∈ ds, isDigit c = true)
    (hr : isDigit (cur r) = false) : skipDigits (ds ++ r) = r := by
  induction ds with
  | nil =>
    cases r with
    | nil => rfl
    | cons c r =>
      have hc : isDigit c = false := hr
      simp [skipDigits, hc]
  | cons c ds ih =>
    have hc := h c List.mem_cons_self
    rw [skipDigits, List.cons_append, List.dropWhile_cons_of_pos hc]
    exact ih fun d hd => h d (List.mem_cons_of_mem c hd)

/-- A digit and the digits after it. -/
theorem digits_of_cur {s : Text} (h : isDigit (cur s) = true) :
    ∃ ds, Digits ds ∧ s = ds ++ skipDigits s ∧ ds.head? = some (cur s) := by
  obtain ⟨w, hw⟩ := cur_eq (q := s) rfl (by rintro hn; rw [hn] at h; cases h)
  refine ⟨s.takeWhile isDigit, ⟨?_, ?_⟩, (takeWhile_skipDigits s).symm, ?_⟩
  · rw [hw, List.takeWhile_cons_of_pos h]
    exact List.cons_ne_nil _ _
  · exact fun c hc => List.mem_takeWhile_imp hc
  · conv_lhs => rw [hw, List.takeWhile_cons_of_pos h]
    rfl

theorem Digits.cur_append {ds : Text} (h : Digits ds) (r : Text) :
    isDigit (cur (ds ++ r)) = true := by
  obtain ⟨c, w, rfl⟩ := List.exists_cons_of_ne_nil h.1
  exact h.2 c List.mem_cons_self

theorem isDigit_iff (c : Char) : isDigit c = true ↔ c = '0' ∨ ('1' ≤ c ∧ c ≤ '9') := by
  have h0 : '0'.val.toNat = 48 := rfl
  have h1 : '1'.val.toNat = 49 := rfl
  have hzero : c = '0' ↔ c.val.toNat = 48 := by
    rw [← h0, UInt32.toNat_inj, Char.ext_iff]
  simp only [isDigit, Bool.and_eq_true, decide_eq_true_eq, Char.le_def, UInt32.le_iff_toNat_le,
    hzero, h0, h1]
  have h9 : '9'.val.toNat = 57 := rfl
  omega

theorem jsonIntegerPart_sound {s r : Text} (h : jsonIntegerPart s = .ok r) :
    ∃ i, IsInt i ∧ s = i ++ r := by
  rw [jsonIntegerPart] at h
  by_cases h0 : cur s = '0'
  · obtain ⟨w, rfl⟩ := cur_eq h0 (by decide)
    rw [if_pos h0] at h
    by_cases hd : isDigit (cur (('0' :: w).drop 1)) = true
    · rw [if_pos hd] at h
      cases h
    · rw [if_neg hd] at h
      cases h
      exact ⟨['0'], ⟨⟨by simp, by simp [isDigit]⟩, fun _ => rfl⟩, rfl⟩
  · rw [if_neg h0] at h
    by_cases h1 : '1' ≤ cur s ∧ cur s ≤ '9'
    · rw [if_pos h1] at h
      cases h
      obtain ⟨ds, hds, hs, hhead⟩ := digits_of_cur ((isDigit_iff _).mpr (.inr h1))
      refine ⟨ds, ⟨hds, fun h => ?_⟩, hs⟩
      rw [hhead, Option.some.injEq] at h
      exact absurd h h0
    · rw [if_neg h1] at h
      cases h

theorem jsonIntegerPart_complete {i r : Text} (hi : IsInt i) (hr : isDigit (cur r) = false) :
    jsonIntegerPart (i ++ r) = .ok r := by
  obtain ⟨hds, hzero⟩ := hi
  obtain ⟨c, w, rfl⟩ := List.exists_cons_of_ne_nil hds.1
  have hcur : cur (c :: w ++ r) = c := rfl
  rw [jsonIntegerPart, hcur]
  by_cases h0 : c = '0'
  · have hw := hzero (by rw [h0]; rfl)
    rw [h0, List.cons.injEq] at hw
    rw [if_pos h0, hw.2]
    simp [hr]
  · have hd := (isDigit_iff c).mp (hds.2 c List.mem_cons_self)
    rw [if_neg h0, if_pos (hd.resolve_left h0), skipDigits_append hds.2 hr]

theorem jsonFraction_sound {s r : Text} {b : Bool} (h : jsonFraction s = .ok (b, r)) :
    ∃ f, s = f ++ r ∧ (b = false ∧ f = [] ∨ b = true ∧ IsFraction f) := by
  rw [jsonFraction] at h
  by_cases hdot : cur s = '.'
  · obtain ⟨w, rfl⟩ := cur_eq hdot (by decide)
    rw [if_pos hdot] at h
    by_cases hd : isDigit (cur (('.' :: w).drop 1)) = true
    · rw [if_pos hd] at h
      cases h
      obtain ⟨ds, hds, hs, -⟩ := digits_of_cur hd
      refine ⟨'.' :: ds, ?_, .inr ⟨rfl, ds, hds, rfl⟩⟩
      rw [List.cons_append, ← hs]
      rfl
    · rw [if_neg hd] at h
      cases h
  · rw [if_neg hdot] at h
    cases h
    exact ⟨[], rfl, .inl ⟨rfl, rfl⟩⟩

theorem jsonFraction_complete {f r : Text} (hf : IsFraction f) (hr : isDigit (cur r) = false) :
    jsonFraction (f ++ r) = .ok (true, r) := by
  obtain ⟨ds, hds, rfl⟩ := hf
  have hcur : cur ('.' :: ds ++ r) = '.' := rfl
  have hd := hds.cur_append r
  rw [jsonFraction, if_pos hcur]
  simp only [List.cons_append, List.drop_succ_cons, List.drop_zero, hd, if_true,
    skipDigits_append hds.2 hr]

/-- A sign is skipped. -/
theorem sign_skip {sign t : Text} (hsign : sign = [] ∨ sign = ['+'] ∨ sign = ['-'])
    (ht : isDigit (cur t) = true) :
    (if cur (sign ++ t) = '+' ∨ cur (sign ++ t) = '-' then (sign ++ t).drop 1 else sign ++ t) =
      t := by
  rcases hsign with rfl | rfl | rfl
  · have hne : ¬ (cur t = '+' ∨ cur t = '-') := by
      rintro (h | h) <;> rw [h] at ht <;> cases ht
    exact if_neg hne
  · exact if_pos (.inl rfl)
  · exact if_pos (.inr rfl)

theorem jsonExponent_sound {s r : Text} {b : Bool} (h : jsonExponent s = .ok (b, r)) :
    ∃ e, s = e ++ r ∧ (b = false ∧ e = [] ∨ b = true ∧ IsExponent e) := by
  rw [jsonExponent] at h
  by_cases he : cur s = 'e' ∨ cur s = 'E'
  · obtain ⟨w, hw⟩ := cur_eq (q := s) rfl (by rcases he with he | he <;> rw [he] <;> decide)
    rw [if_pos he] at h
    obtain ⟨sign, t, hsign, hst, hcond⟩ : ∃ sign t, (sign = [] ∨ sign = ['+'] ∨ sign = ['-']) ∧
        s.drop 1 = sign ++ t ∧
        (if cur (s.drop 1) = '+' ∨ cur (s.drop 1) = '-' then (s.drop 1).drop 1 else s.drop 1) =
          t := by
      by_cases hp : cur (s.drop 1) = '+'
      · obtain ⟨v, hv⟩ := cur_eq hp (by decide)
        exact ⟨['+'], v, by simp, hv, by rw [if_pos (.inl hp), hv]; rfl⟩
      · by_cases hm : cur (s.drop 1) = '-'
        · obtain ⟨v, hv⟩ := cur_eq hm (by decide)
          exact ⟨['-'], v, by simp, hv, by rw [if_pos (.inr hm), hv]; rfl⟩
        · exact ⟨[], s.drop 1, by simp, rfl, if_neg (not_or.mpr ⟨hp, hm⟩)⟩
    simp only [hcond] at h
    by_cases hd : isDigit (cur t) = true
    · rw [if_pos hd] at h
      cases h
      obtain ⟨ds, hds, hs, -⟩ := digits_of_cur hd
      refine ⟨cur s :: (sign ++ ds), ?_, .inr ⟨rfl, cur s, sign, ds, he, hsign, hds, rfl⟩⟩
      rw [List.cons_append, List.append_assoc, ← hs, ← hst]
      conv_lhs => rw [hw]
      rw [hw]
      rfl
    · rw [if_neg hd] at h
      cases h
  · rw [if_neg he] at h
    cases h
    exact ⟨[], rfl, .inl ⟨rfl, rfl⟩⟩

theorem jsonExponent_complete {e r : Text} (he : IsExponent e) (hr : isDigit (cur r) = false) :
    jsonExponent (e ++ r) = .ok (true, r) := by
  obtain ⟨c, sign, ds, hc, hsign, hds, rfl⟩ := he
  have hcur : cur (c :: (sign ++ ds) ++ r) = c := rfl
  have hd := hds.cur_append r
  have hskip := skipDigits_append hds.2 hr
  have hsign' := sign_skip hsign hd
  rw [jsonExponent, hcur, if_pos hc]
  simp only [List.cons_append, List.append_assoc, List.drop_succ_cons, List.drop_zero, hsign', hd,
    if_true, hskip]

variable {F : Type} {fl : Floats F}

theorem jsonParseNumber_sound {t r : Text} {v : OrbitValue F}
    (h : jsonParseNumber fl t = .ok (v, r)) : ∃ n, t = n ++ r ∧ IsNumber fl n v := by
  rw [jsonParseNumber] at h
  obtain ⟨s1, h1, h⟩ := bind_ok h
  obtain ⟨s2, h2, h⟩ := bind_ok h
  obtain ⟨s3, h3, h⟩ := bind_ok h
  obtain ⟨sign, hsign, ht⟩ : ∃ sign, (sign = [] ∨ sign = ['-']) ∧
      t = sign ++ (if cur t = '-' then t.drop 1 else t) := by
    by_cases hm : cur t = '-'
    · obtain ⟨w, rfl⟩ := cur_eq hm (by decide)
      exact ⟨['-'], .inr rfl, by rw [if_pos hm]; rfl⟩
    · exact ⟨[], .inl rfl, by rw [if_neg hm]; rfl⟩
  obtain ⟨i, hi, hs⟩ := jsonIntegerPart_sound h1
  obtain ⟨f, hsf, hf⟩ := jsonFraction_sound (b := s2.1) (r := s2.2) h2
  obtain ⟨e, hse, he⟩ := jsonExponent_sound (b := s3.1) (r := s3.2) h3
  obtain ⟨n, hn⟩ : ∃ n, n = sign ++ i ++ f ++ e := ⟨_, rfl⟩
  have htext : t = n ++ s3.2 := by
    rw [hn, ht, hs, hsf, hse]
    simp only [List.append_assoc]
  have hcopy : t.take (t.length - s3.2.length) = n := by
    rw [htext, List.length_append, Nat.add_sub_cancel_right, List.take_left']
    rfl
  simp only [hcopy] at h
  by_cases hfloat : (s2.1 || s3.1) = true
  · rw [if_pos hfloat] at h
    by_cases hfin : fl.isfinite (fl.strtod n) = true
    · rw [if_pos hfin] at h
      cases h
      refine ⟨n, htext, ?_⟩
      rw [hn] at hfin ⊢
      refine .float hsign hi ?_ ?_ ?_ hfin
      · exact hf.imp And.right And.right
      · exact he.imp And.right And.right
      · rcases hf with ⟨hf, -⟩ | ⟨-, ds, -, hf⟩
        · rcases he with ⟨he, -⟩ | ⟨-, c, sg, ds, -, -, -, he⟩
          · rw [hf, he] at hfloat
            cases hfloat
          · right
            rw [he]
            exact List.cons_ne_nil _ _
        · left
          rw [hf]
          exact List.cons_ne_nil _ _
    · rw [if_neg hfin] at h
      cases h
  · rw [if_neg hfloat] at h
    rw [Bool.or_eq_true, not_or] at hfloat
    have hf0 : f = [] := by
      rcases hf with ⟨-, hf⟩ | ⟨hf, -⟩
      · exact hf
      · exact absurd hf hfloat.1
    have he0 : e = [] := by
      rcases he with ⟨-, he⟩ | ⟨he, -⟩
      · exact he
      · exact absurd he hfloat.2
    rw [hf0, he0, List.append_nil, List.append_nil] at hn
    by_cases hrange : -9223372036854775808 ≤ decimalValue n ∧ decimalValue n ≤ 9223372036854775807
    · rw [if_pos hrange] at h
      cases h
      refine ⟨n, htext, ?_⟩
      rw [hn] at hrange ⊢
      exact .int hsign hi hrange.1 hrange.2
    · rw [if_neg hrange] at h
      cases h

/-- A number is not followed by what could go on with it. -/
def NumberEnd (r : Text) : Prop :=
  isDigit (cur r) = false ∧ cur r ≠ '.' ∧ cur r ≠ 'e' ∧ cur r ≠ 'E'

theorem jsonFraction_opt {f r : Text} (hf : f = [] ∨ IsFraction f) (hr : isDigit (cur r) = false)
    (hdot : cur r ≠ '.') : ∃ b, jsonFraction (f ++ r) = .ok (b, r) ∧ (b = true ↔ f ≠ []) := by
  rcases hf with rfl | hf
  · exact ⟨false, if_neg hdot, by simp⟩
  · refine ⟨true, jsonFraction_complete hf hr, ?_⟩
    obtain ⟨ds, -, rfl⟩ := hf
    simp

theorem jsonExponent_opt {e r : Text} (he : e = [] ∨ IsExponent e) (hr : NumberEnd r) :
    ∃ b, jsonExponent (e ++ r) = .ok (b, r) ∧ (b = true ↔ e ≠ []) := by
  rcases he with rfl | he
  · exact ⟨false, if_neg (not_or.mpr hr.2.2), by simp⟩
  · refine ⟨true, jsonExponent_complete he hr.1, ?_⟩
    obtain ⟨c, sign, ds, -, -, -, rfl⟩ := he
    simp

/-- What follows the fraction does not go on with it. -/
theorem exponent_end {e r : Text} (he : e = [] ∨ IsExponent e) (hr : NumberEnd r) :
    isDigit (cur (e ++ r)) = false ∧ cur (e ++ r) ≠ '.' := by
  rcases he with rfl | ⟨c, sign, ds, hc, -, -, rfl⟩
  · exact ⟨hr.1, hr.2.1⟩
  · have hcur : cur (c :: (sign ++ ds) ++ r) = c := rfl
    rw [hcur]
    rcases hc with rfl | rfl <;> decide

theorem fraction_end {f t : Text} (hf : f = [] ∨ IsFraction f) (ht : isDigit (cur t) = false) :
    isDigit (cur (f ++ t)) = false := by
  rcases hf with rfl | ⟨ds, -, rfl⟩
  · exact ht
  · rfl

theorem sign_dash {sign i r : Text} (hsign : sign = [] ∨ sign = ['-']) (hi : IsInt i) :
    (if cur (sign ++ (i ++ r)) = '-' then (sign ++ (i ++ r)).drop 1 else sign ++ (i ++ r)) =
      i ++ r := by
  rcases hsign with rfl | rfl
  · have hne : cur (i ++ r) ≠ '-' := by
      intro h
      have := hi.1.cur_append r
      rw [h] at this
      cases this
    exact if_neg hne
  · exact if_pos rfl

/-- The parts of a number are read one after the other. -/
theorem jsonParseNumber_parts {sign i f e r : Text} (hsign : sign = [] ∨ sign = ['-'])
    (hi : IsInt i) (hf : f = [] ∨ IsFraction f) (he : e = [] ∨ IsExponent e) (hr : NumberEnd r) :
    jsonParseNumber fl (sign ++ i ++ f ++ e ++ r) =
      if f ≠ [] ∨ e ≠ [] then
        if fl.isfinite (fl.strtod (sign ++ i ++ f ++ e)) then
          .ok (.float (fl.strtod (sign ++ i ++ f ++ e)), r)
        else .error (.fail "json: float out of range")
      else if -9223372036854775808 ≤ decimalValue (sign ++ i ++ f ++ e) ∧
          decimalValue (sign ++ i ++ f ++ e) ≤ 9223372036854775807 then
        .ok (.int (BitVec.ofInt 64 (decimalValue (sign ++ i ++ f ++ e))), r)
      else .error (.fail "json: integer out of int64 range") := by
  obtain ⟨hed, hdot⟩ := exponent_end he hr
  obtain ⟨b1, h1, hb1⟩ := jsonFraction_opt hf hed hdot
  obtain ⟨b2, h2, hb2⟩ := jsonExponent_opt he hr
  have h0 := jsonIntegerPart_complete (r := f ++ (e ++ r)) hi (fraction_end hf hed)
  have hb : (b1 || b2) = true ↔ f ≠ [] ∨ e ≠ [] := by rw [Bool.or_eq_true, hb1, hb2]
  obtain ⟨n, hn⟩ : ∃ n, n = sign ++ i ++ f ++ e := ⟨_, rfl⟩
  have htext : n ++ r = sign ++ (i ++ (f ++ (e ++ r))) := by
    rw [hn]
    simp only [List.append_assoc]
  have hcopy : (n ++ r).take ((n ++ r).length - r.length) = n := by
    rw [List.length_append, Nat.add_sub_cancel_right, List.take_left']
    rfl
  have hdash := sign_dash (r := f ++ (e ++ r)) hsign hi
  rw [← htext] at hdash
  rw [← hn, jsonParseNumber, hdash, h0]
  simp only [bind, Except.bind, h1, h2, hcopy, hb, pure, Except.pure]
  rfl

theorem jsonParseNumber_complete {n r : Text} {v : OrbitValue F} (h : IsNumber fl n v)
    (hr : NumberEnd r) : jsonParseNumber fl (n ++ r) = .ok (v, r) := by
  cases h with
  | int hsign hi hlo hhi =>
    have : jsonParseNumber fl _ = _ := jsonParseNumber_parts hsign hi (.inl rfl) (.inl rfl) hr
    simp only [List.append_nil, ne_eq, not_true_eq_false, or_self, if_false,
      if_pos (And.intro hlo hhi)] at this
    exact this
  | float hsign hi hf he hne hfin =>
    rw [jsonParseNumber_parts hsign hi hf he hr, if_pos hne, if_pos hfin]

end Runtime.Json
