import Mathlib
import Orbit.Front.Number

/-!
# The value of a literal and its range

`parseIntSelfhost` computes the number that a literal denotes, modulo `2 ^ 64`
(`parseIntSelfhost_eq`), and `intLiteralFitsSelfhost` compares its digits with the limit: it holds
exactly when the number is at most `2 ^ 63 - 1`, and then nothing wraps (`intLiteralFits_iff`).
-/

namespace Front.Lex

open Lib
open IR (Word)

/-! ## Bases -/

/-- The bases of literals. -/
def IsBase (b : Nat) : Prop := b = 2 ∨ b = 8 ∨ b = 10 ∨ b = 16

theorem IsBase.one_lt {b : Nat} (h : IsBase b) : 1 < b := by
  unfold IsBase at h
  omega

theorem radixOf_cases (c : Char) : radixOf c = 16 ∧ isHexMarker c = true ∨
    radixOf c = 2 ∧ isHexMarker c = false ∧ isBinMarker c = true ∨
    radixOf c = 8 ∧ isHexMarker c = false ∧ isBinMarker c = false ∧ isOctMarker c = true ∨
    radixOf c = 0 ∧ isHexMarker c = false ∧ isBinMarker c = false ∧ isOctMarker c = false := by
  unfold radixOf isHexMarker isBinMarker isOctMarker
  by_cases hx : c = 'x' ∨ c = 'X'
  · simp [hx]
  · by_cases hb : c = 'b' ∨ c = 'B'
    · simp only [not_or] at hx
      simp [hx, hb]
    · by_cases ho : c = 'o' ∨ c = 'O'
      · simp only [not_or] at hx hb
        simp [hx, hb, ho]
      · simp only [not_or] at hx hb ho
        simp [hx, hb, ho]

theorem baseOf_prefixed (m : Char) (w : Text) : baseOf ('0' :: m :: w) =
    if 0 < radixOf m then (radixOf m, w) else (10, '0' :: m :: w) := rfl

theorem literalBase_cons (m d : Char) (w : Text) :
    literalBase ('0' :: m :: d :: w) = baseOf ('0' :: m :: d :: w) := by
  rw [baseOf_prefixed]
  simp only [literalBase]
  rcases radixOf_cases m with ⟨hr, hx⟩ | ⟨hr, hx, hb⟩ | ⟨hr, hx, hb, ho⟩ | ⟨hr, hx, hb, ho⟩
  · simp [hr, hx]
  · simp [hr, hx, hb]
  · simp [hr, hx, hb, ho]
  · simp [hr, hx, hb, ho]

/-- The two readings of a prefix differ on a text of two characters only: no digit is behind the
prefix, and both readings denote zero. -/
theorem literalBase_eq (w : Text) : literalBase w = baseOf w ∨
    ∃ m, 0 < radixOf m ∧ w = ['0', m] ∧ literalBase w = (10, w) := by
  rcases w with _ | ⟨c, _ | ⟨m, _ | ⟨d, w⟩⟩⟩
  · exact .inl rfl
  · left
    unfold literalBase baseOf
    split <;> simp_all
  · by_cases hc : c = '0'
    · subst hc
      by_cases hm : 0 < radixOf m
      · exact .inr ⟨m, hm, rfl, by simp [literalBase]⟩
      · left
        rw [baseOf_prefixed, if_neg hm]
        simp [literalBase]
    · left
      unfold literalBase baseOf
      split <;> simp_all
  · by_cases hc : c = '0'
    · subst hc
      exact .inl (literalBase_cons m d w)
    · left
      unfold literalBase baseOf
      split <;> simp_all

theorem isBase_literalBase (w : Text) : IsBase (literalBase w).1 := by
  unfold IsBase literalBase
  split
  · split
    · simp
    · split
      · simp
      · split <;> simp
  · simp

/-! ## Digits -/

theorem digitIn_lt {b d : Nat} {c : Char} (h : digitIn b c = some d) : d < b := by
  simpa using (Option.filter_eq_some_iff.mp h).2

theorem digitsIn_lt {b : Nat} {w : Text} : ∀ d ∈ digitsIn b w, d < b := by
  intro d hd
  obtain ⟨c, -, hc⟩ := List.mem_filterMap.mp hd
  exact digitIn_lt hc

theorem digitsIn_cons (b : Nat) (c : Char) (w : Text) :
    digitsIn b (c :: w) = (digitIn b c).elim (digitsIn b w) (· :: digitsIn b w) := by
  unfold digitsIn
  rw [List.filterMap_cons]
  cases digitIn b c <;> rfl

theorem digitsIn_append (b : Nat) (w v : Text) :
    digitsIn b (w ++ v) = digitsIn b w ++ digitsIn b v := List.filterMap_append

/-- The letters of the prefixes. -/
theorem mem_markers {m : Char} (hm : 0 < radixOf m) :
    m = 'x' ∨ m = 'X' ∨ m = 'b' ∨ m = 'B' ∨ m = 'o' ∨ m = 'O' := by
  simp only [radixOf] at hm
  split at hm
  · tauto
  · split at hm
    · tauto
    · split at hm
      · tauto
      · omega

/-- The letter of a prefix is no decimal digit. -/
theorem digitIn_marker {m : Char} (hm : 0 < radixOf m) : digitIn 10 m = none := by
  rcases mem_markers hm with rfl | rfl | rfl | rfl | rfl | rfl <;> rfl

theorem digitsIn_prefix {m : Char} (hm : 0 < radixOf m) : digitsIn 10 ['0', m] = [0] := by
  rw [digitsIn_cons, digitsIn_cons, digitIn_marker hm]
  rfl

/-- The code's reading of the base denotes the same number. -/
theorem literalValue_eq (w : Text) :
    literalValue w =
      Numeral.value (literalBase w).1 (digitsIn (literalBase w).1 (literalBase w).2) := by
  rcases literalBase_eq w with h | ⟨m, hm, rfl, h⟩
  · rw [h, literalValue]
  · rw [h, literalValue, baseOf_prefixed, if_pos hm, digitsIn_prefix hm]
    rfl

theorem parseNatStep_eq {b : Nat} (hb : IsBase b) (n : Nat) (c : Char) :
    parseNatStep b n c = (digitIn b c).elim n fun d => n * b + d := by
  unfold parseNatStep digitIn digitOf
  dsimp only
  by_cases h1 : 48 ≤ c.toNat ∧ c.toNat ≤ 57
  · rw [if_pos h1, if_pos h1]
    by_cases h2 : b = 8 ∧ 55 < c.toNat ∨ b = 2 ∧ 49 < c.toNat
    · rw [if_pos h2, Option.filter_some, if_neg (by simp only [decide_eq_true_eq]; omega)]
      rfl
    · have hlt : c.toNat - 48 < b := by
        unfold IsBase at hb
        omega
      rw [if_neg h2, Option.filter_some, if_pos (by simpa using hlt)]
      rfl
  · rw [if_neg h1, if_neg h1]
    by_cases h16 : b = 16
    · subst h16
      rw [if_pos rfl]
      by_cases h2 : 97 ≤ c.toNat ∧ c.toNat ≤ 102
      · rw [if_pos h2, if_pos h2, Option.filter_some,
          if_pos (by simp only [decide_eq_true_eq]; omega)]
        rfl
      · rw [if_neg h2, if_neg h2]
        by_cases h3 : 65 ≤ c.toNat ∧ c.toNat ≤ 70
        · rw [if_pos h3, if_pos h3, Option.filter_some,
            if_pos (by simp only [decide_eq_true_eq]; omega)]
          rfl
        · rw [if_neg h3, if_neg h3]
          rfl
    · rw [if_neg h16]
      unfold IsBase at hb
      split
      · rw [Option.filter_some, if_neg (by simp only [decide_eq_true_eq]; omega)]
        rfl
      · split
        · rw [Option.filter_some, if_neg (by simp only [decide_eq_true_eq]; omega)]
          rfl
        · rfl

/-- Without a limit the loop computes the number that the digits denote. -/
theorem foldl_parseNatStep {b : Nat} (hb : IsBase b) (w : Text) :
    w.foldl (parseNatStep b) 0 = Numeral.value b (digitsIn b w) := by
  induction w using List.reverseRecOn with
  | nil => rfl
  | append_singleton w c ih =>
    rw [List.foldl_append, List.foldl_cons, List.foldl_nil, ih, parseNatStep_eq hb,
      digitsIn_append, digitsIn_cons]
    cases digitIn b c with
    | none => exact congrArg (Numeral.value b) (List.append_nil (digitsIn b w)).symm
    | some d => exact (Numeral.value_concat _ d).symm

/-! ## The word -/

theorem parseIntStep_ofNat (b n : Nat) (c : Char) :
    parseIntStep b (BitVec.ofNat 64 n) c = BitVec.ofNat 64 (parseNatStep b n c) := by
  unfold parseIntStep parseNatStep
  dsimp only
  have hmul : ∀ k d : Nat, BitVec.ofNat 64 n * BitVec.ofNat 64 k + BitVec.ofNat 64 d =
      BitVec.ofNat 64 (n * k + d) := fun k d => by
    rw [BitVec.ofNat_add, BitVec.ofNat_mul]
  split
  · split
    · rfl
    · exact hmul b _
  · split
    · split
      · exact hmul 16 _
      · split
        · exact hmul 16 _
        · rfl
    · rfl

theorem foldl_parseIntStep (b : Nat) (w : Text) :
    w.foldl (parseIntStep b) 0 = BitVec.ofNat 64 (w.foldl (parseNatStep b) 0) := by
  induction w using List.reverseRecOn with
  | nil => rfl
  | append_singleton w c ih =>
    rw [List.foldl_append, List.foldl_append, List.foldl_cons, List.foldl_cons, List.foldl_nil,
      List.foldl_nil, ih, parseIntStep_ofNat]

/-- **`parseIntSelfhost` computes the number of a literal**, modulo `2 ^ 64`. -/
theorem parseIntSelfhost_eq (s : String) :
    parseIntSelfhost s = BitVec.ofNat 64 (literalValue s.toList) := by
  rw [literalValue_eq, ← foldl_parseNatStep (isBase_literalBase _), ← foldl_parseIntStep]
  rfl

theorem parseIntSelfhost_toNat {s : String} (h : literalValue s.toList ≤ intMax) :
    (parseIntSelfhost s).toNat = literalValue s.toList := by
  rw [parseIntSelfhost_eq, BitVec.toNat_ofNat, Nat.mod_eq_of_lt]
  unfold intMax at h
  omega

/-- The loop does not wrap exactly when the number is an `orbit_int`. -/
theorem neverWraps_iff (s : String) : NeverWraps s ↔ literalValue s.toList ≤ intMax := by
  have hb := isBase_literalBase s.toList
  constructor
  · intro h
    have := (h _ (List.prefix_refl _)).2
    rwa [foldl_parseNatStep hb, ← literalValue_eq] at this
  · intro h p hp
    have hle : p.foldl (parseNatStep (literalBase s.toList).1) 0 ≤ intMax := by
      obtain ⟨r, hr⟩ := hp
      refine le_trans ?_ h
      rw [foldl_parseNatStep hb, literalValue_eq, ← hr, digitsIn_append]
      exact Numeral.value_le_append (Nat.zero_lt_of_lt hb.one_lt) _ _
    refine ⟨?_, hle⟩
    rw [foldl_parseIntStep, BitVec.toNat_ofNat, Nat.mod_eq_of_lt]
    unfold intMax at hle
    omega

/-! ## The range -/

theorem literalDigitValue_eq (c : Char) :
    literalDigitValue c = (digitOf c).elim (-1) fun d => (d : Int) := by
  unfold literalDigitValue digitOf
  dsimp only
  have h1 : (48 ≤ (c.toNat : Int) ∧ (c.toNat : Int) ≤ 57) ↔ (48 ≤ c.toNat ∧ c.toNat ≤ 57) := by omega
  have h2 : (97 ≤ (c.toNat : Int) ∧ (c.toNat : Int) ≤ 102) ↔ (97 ≤ c.toNat ∧ c.toNat ≤ 102) := by
    omega
  have h3 : (65 ≤ (c.toNat : Int) ∧ (c.toNat : Int) ≤ 70) ↔ (65 ≤ c.toNat ∧ c.toNat ≤ 70) := by omega
  simp only [h1, h2, h3]
  split
  · simp only [Option.elim_some]
    omega
  · split
    · simp only [Option.elim_some]
      omega
    · split
      · simp only [Option.elim_some]
        omega
      · rfl

/-- The digits that the range test keeps. -/
theorem significantStep_eq (b : Nat) (ds : List Char) (c : Char) :
    significantStep b ds c = (digitIn b c).elim ds fun d =>
      if ds ≠ [] ∨ d ≠ 0 then ds ++ [c] else ds := by
  unfold significantStep digitIn
  dsimp only
  rw [literalDigitValue_eq]
  cases digitOf c with
  | none => simp
  | some d =>
    rw [Option.filter_some]
    by_cases hd : d < b
    · simp [hd]
    · simp [hd]

theorem dropZeros_concat (ds : List Nat) (d : Nat) : (ds ++ [d]).dropWhile (· == 0) =
    if ds.dropWhile (· == 0) ≠ [] ∨ d ≠ 0 then ds.dropWhile (· == 0) ++ [d] else [] := by
  rw [List.dropWhile_append]
  by_cases h : ds.dropWhile (· == 0) = []
  · by_cases hd : d = 0
    · simp [h, hd]
    · simp [h, hd]
  · simp [h]

/-- Their values are the digits without the leading zeros. -/
theorem significant_digits (b : Nat) (w : Text) :
    (w.foldl (significantStep b) []).map (digitIn b) =
      ((digitsIn b w).dropWhile (· == 0)).map some := by
  induction w using List.reverseRecOn with
  | nil => rfl
  | append_singleton w c ih =>
    rw [List.foldl_append, List.foldl_cons, List.foldl_nil, significantStep_eq, digitsIn_append,
      digitsIn_cons]
    cases hc : digitIn b c with
    | none =>
      simp only [Option.elim_none]
      rw [show digitsIn b [] = [] from rfl, List.append_nil]
      exact ih
    | some d =>
      simp only [Option.elim_some]
      rw [show digitsIn b [] = [] from rfl, dropZeros_concat]
      have hnil : w.foldl (significantStep b) [] = [] ↔ (digitsIn b w).dropWhile (· == 0) = [] := by
        rw [← List.map_eq_nil_iff (f := digitIn b), ih, List.map_eq_nil_iff]
      by_cases h : w.foldl (significantStep b) [] ≠ [] ∨ d ≠ 0
      · rw [if_pos h, if_pos (by rwa [ne_eq, ← hnil])]
        rw [List.map_append, List.map_append, ih, List.map_cons, List.map_nil, hc]
        rfl
      · rw [if_neg h, if_neg (by rwa [ne_eq, ← hnil])]
        simp only [not_or, not_not] at h
        rw [h.1]
        rfl

theorem digitIn_ten {c : Char} {d : Nat} (h : digitIn 10 c = some d) : c.toNat = d + 48 := by
  have hlt := digitIn_lt h
  have hd := (Option.filter_eq_some_iff.mp h).1
  unfold digitOf at hd
  dsimp only at hd
  split at hd
  · obtain rfl := Option.some.inj hd
    omega
  · split at hd
    · obtain rfl := Option.some.inj hd
      omega
    · split at hd
      · obtain rfl := Option.some.inj hd
        omega
      · cases hd

/-- Decimal digits compare as their values. -/
theorem digitsWithin_eq (ds es : List Char) (vs ws : List Nat)
    (hd : ds.map (digitIn 10) = vs.map some) (he : es.map (digitIn 10) = ws.map some) :
    digitsWithin ds es = Numeral.atMost vs ws := by
  induction ds generalizing es vs ws with
  | nil =>
    obtain rfl : vs = [] := by simpa using hd.symm
    rfl
  | cons c ds ih =>
    obtain ⟨v, vs, rfl⟩ : ∃ v vs', vs = v :: vs' := by
      cases vs with
      | nil => simp at hd
      | cons v vs => exact ⟨v, vs, rfl⟩
    simp only [List.map_cons, List.cons.injEq] at hd
    cases es with
    | nil =>
      obtain rfl : ws = [] := by simpa using he.symm
      rfl
    | cons e es =>
      obtain ⟨w, ws, rfl⟩ : ∃ w ws', ws = w :: ws' := by
        cases ws with
        | nil => simp at he
        | cons w ws => exact ⟨w, ws, rfl⟩
      simp only [List.map_cons, List.cons.injEq] at he
      simp only [digitsWithin, Numeral.atMost, digitIn_ten hd.1, digitIn_ten he.1,
        Nat.add_lt_add_iff_right, ih es vs ws hd.2 he.2]

/-- The values of the digits of the limit. -/
def limitDigits : List Nat := [9, 2, 2, 3, 3, 7, 2, 0, 3, 6, 8, 5, 4, 7, 7, 5, 8, 0, 7]

theorem intLimit_digits : intLimit.map (digitIn 10) = limitDigits.map some := rfl

theorem value_limitDigits : Numeral.value 10 limitDigits = intMax := by
  rw [Numeral.value_eq_foldl]
  rfl

theorem head_dropZeros (ds : List Nat) : (ds.dropWhile (· == 0)).head? ≠ some 0 := by
  intro h
  have := List.head?_dropWhile_not (· == 0) ds
  rw [h] at this
  simp at this

/-- The test of the digits that are left, in each base. -/
theorem fits_digits {b : Nat} (hb : IsBase b) {ds : List Char} {vs : List Nat}
    (hmap : ds.map (digitIn b) = vs.map some) (hlead : vs.head? ≠ some 0) :
    (if b = 2 then decide (ds.length ≤ 63)
      else if b = 8 then decide (ds.length ≤ 21)
      else if b = 16 then
        if ds.length < 16 then true
        else if 16 < ds.length then false
        else decide (literalDigitValue (ds.headD '0') ≤ 7)
      else if ds.length < 19 then true
      else if 19 < ds.length then false
      else digitsWithin ds intLimit) = true ↔ Numeral.value b vs ≤ intMax := by
  have hlen : ds.length = vs.length := by simpa using congrArg List.length hmap
  have hlt : ∀ v ∈ vs, v < b := by
    intro v hv
    have hmem : some v ∈ ds.map (digitIn b) := hmap ▸ List.mem_map_of_mem hv
    obtain ⟨c, -, hc⟩ := List.mem_map.mp hmem
    exact digitIn_lt hc
  have hpow := Numeral.value_lt_pow_iff hb.one_lt hlt hlead
  rw [hlen]
  rcases hb with rfl | rfl | rfl | rfl
  · -- 63 binary digits
    have := hpow 63
    simp only [if_true, decide_eq_true_eq, intMax]
    omega
  · -- 21 octal digits, since 8 ^ 21 = 2 ^ 63
    have := hpow 21
    norm_num at this
    simp only [Nat.reduceEqDiff, if_false, if_true, decide_eq_true_eq, intMax]
    omega
  · have h18 := hpow 18
    have h19 := hpow 19
    norm_num at h18 h19
    simp only [Nat.reduceEqDiff, if_false]
    split
    · simp only [intMax, true_iff]
      omega
    · split
      · simp only [intMax, Bool.false_eq_true, false_iff]
        omega
      · rw [digitsWithin_eq ds intLimit vs limitDigits hmap intLimit_digits,
          Numeral.atMost_iff (by omega) vs limitDigits
            (by rw [show limitDigits.length = 19 from rfl]; omega) hlt (by decide),
          value_limitDigits]
  · have h15 := hpow 15
    have h16 := hpow 16
    norm_num at h15 h16
    simp only [Nat.reduceEqDiff, if_false, if_true]
    split
    · simp only [intMax, true_iff]
      omega
    · rename_i hshort
      split
      · simp only [intMax, Bool.false_eq_true, false_iff]
        omega
      · -- 16 hexadecimal digits: the first decides
        cases vs with
        | nil => simp at hshort
        | cons v vs =>
          cases ds with
          | nil => simp at hlen
          | cons c ds =>
            simp only [List.map_cons, List.cons.injEq] at hmap
            have hc := (Option.filter_eq_some_iff.mp hmap.1).1
            have hrest := Numeral.value_lt (by omega : 1 < 16)
              (fun x hx => hlt x (List.mem_cons_of_mem v hx))
            have hvs : vs.length = 15 := by
              simp only [List.length_cons] at *
              omega
            rw [hvs] at hrest
            rw [List.headD_cons, literalDigitValue_eq, hc, Option.elim_some, Numeral.value_cons, hvs,
              decide_eq_true_eq]
            norm_num at hrest
            simp only [intMax]
            omega

theorem intLiteralFitsSelfhost_le (s : String) :
    intLiteralFitsSelfhost s = true ↔ literalValue s.toList ≤ intMax := by
  rw [literalValue_eq, ← Numeral.value_dropZeros]
  exact fits_digits (isBase_literalBase s.toList)
    (significant_digits (literalBase s.toList).1 (literalBase s.toList).2) (head_dropZeros _)

/-- **The range test is exact**, and where it holds the value is computed without wrapping. -/
theorem intLiteralFits_iff (s : String) :
    (intLiteralFitsSelfhost s = true ↔ literalValue s.toList ≤ intMax) ∧
    (intLiteralFitsSelfhost s = true ↔ NeverWraps s) :=
  ⟨intLiteralFitsSelfhost_le s, (intLiteralFitsSelfhost_le s).trans (neverWraps_iff s).symm⟩

end Front.Lex
