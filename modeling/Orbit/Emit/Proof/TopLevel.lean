import Orbit.Emit.Constant
import Orbit.Front.Proof.Number

/-!
# Top-level constants in C

The text of a `#define` denotes the number of the literal exactly when C reads the spelling alike and
no minus sign stands before an `unsigned int` (`topLevel_iff`). What the checker accepts is what fits
an `orbit_int`, and the minimum under a sign (`accepted_iff`).
-/

namespace Emit

open Front Front.Lex
open IR (Word irString)
open Lib (Numeral.value)
open Lib.C (readConstant numeral baseDigit)
open Lib.Text (chars)

/-! ## The text of an integer -/

/-- A text of identifier characters behind a digit is one number token of C. -/
def NumberToken (w : Text) : Prop :=
  ∃ c v, w = c :: v ∧ isDigit c = true ∧ ∀ x ∈ v, Lib.C.isIdentChar x = true

theorem identChar_digit {c : Char} (h : isDigit c = true) : Lib.C.isIdentChar c = true := by
  have : Lib.Decimal.isDigit c = true := h
  rw [Lib.C.isIdentChar, this, Bool.or_true]

theorem identChar_radixDigit {c : Char} {radix : Nat} (h : isRadixDigit c radix = true) :
    Lib.C.isIdentChar c = true := by
  unfold isRadixDigit at h
  split at h
  · exact identChar_digit (by assumption)
  · unfold Lib.C.isIdentChar Lib.C.isIdentStart
    split at h
    · rename_i hc
      simp only [Bool.and_eq_true, decide_eq_true_eq] at hc
      have : c ≤ 'z' := le_trans hc.2 (by decide)
      simp [hc.1, this]
    · split at h
      · rename_i hc
        simp only [Bool.and_eq_true, decide_eq_true_eq] at hc
        have : c ≤ 'Z' := le_trans hc.2 (by decide)
        simp [hc.1, this]
      · cases h

theorem identChar_marker {m : Char} (h : 0 < radixOf m) : Lib.C.isIdentChar m = true := by
  rcases mem_markers h with rfl | rfl | rfl | rfl | rfl | rfl <;> decide

theorem identChar_run {p : Char → Bool} (hp : ∀ c, p c = true → Lib.C.isIdentChar c = true)
    (sep : Bool) (t : Text) : ∀ x ∈ digitRun p sep t, Lib.C.isIdentChar x = true := by
  induction t generalizing sep with
  | nil => simp [digitRun]
  | cons c t ih =>
    intro x hx
    rw [digitRun] at hx
    split at hx
    · rcases List.mem_cons.mp hx with rfl | hx
      · exact hp _ (by assumption)
      · exact ih true x hx
    · split at hx
      · rename_i hc
        rcases List.mem_cons.mp hx with rfl | hx
        · rw [hc.1]
          decide
        · exact ih false x hx
      · cases hx

theorem numberToken_text {c : Char} (hc : isDigit c = true) (t : Text) :
    NumberToken (numberText (c :: t)) := by
  have hrun : ∀ sep t, ∀ x ∈ digitRun isDigit sep t, Lib.C.isIdentChar x = true :=
    identChar_run fun _ => identChar_digit
  unfold numberText
  split
  · rename_i m t'
    split
    · rename_i hm
      refine ⟨'0', _, rfl, by decide, fun x hx => ?_⟩
      rcases List.mem_cons.mp hx with rfl | hx
      · exact identChar_marker hm
      · split at hx
        · exact identChar_run (fun _ => identChar_radixDigit) false _ x hx
        · exact hrun true _ x hx
    · exact ⟨'0', _, rfl, by decide, hrun true _⟩
  · exact ⟨_, _, rfl, by simp_all, hrun true _⟩
  · simp_all

theorem IntegerText.token {w : Text} (h : IntegerText w) : NumberToken w := by
  obtain ⟨source, l, -, hint, rfl⟩ := h
  obtain ⟨c, t, -, hc, htext⟩ := nextToken_integer hint
  rw [htext]
  exact numberToken_text hc t

/-! ## What the checker accepts -/

theorem isMinLiteral_intNode (w : Text) :
    isMinLiteral (.literal "int" (String.ofList w)) = true ↔ w = chars minLiteral := by
  unfold isMinLiteral chars
  simp only [decide_true, Bool.true_and, decide_eq_true_eq]
  rw [← String.toList_inj, String.toList_ofList]

theorem checkNode_literal (other : ASTNode → String × List String) (w : Text) :
    (checkNode other (.literal "int" (String.ofList w))).2 = [] ↔ literalValue w ≤ intMax := by
  have hfits := intLiteralFitsSelfhost_le (String.ofList w)
  rw [String.toList_ofList] at hfits
  rw [← hfits, checkNode, if_pos rfl]
  split <;> simp_all

/-- A sign before another reports what the other does. -/
theorem checkNode_minus (other : ASTNode → String × List String) {e : ASTNode}
    (he : isMinLiteral e = false) : (checkNode other (.unaryOp "-" e)).2 = (checkNode other e).2 := by
  rw [checkNode, if_neg (by simp [he])]
  simp

theorem checkNode_minusSigns (other : ASTNode → String × List String) (n : Nat) (w : Text) :
    (checkNode other (intNode (n + 1) w)).2 = [] ↔
      literalValue w ≤ intMax ∨ w = chars minLiteral := by
  induction n with
  | zero =>
    by_cases hmin : w = chars minLiteral
    · have := (isMinLiteral_intNode w).mpr hmin
      rw [intNode, minusSigns, minusSigns, checkNode, if_pos ⟨rfl, this⟩]
      simp [hmin]
    · have hnot : isMinLiteral (.literal "int" (String.ofList w)) = false := by
        rw [Bool.eq_false_iff]
        exact mt (isMinLiteral_intNode w).mp hmin
      rw [intNode, minusSigns, minusSigns, checkNode_minus other hnot, checkNode_literal]
      simp [hmin]
  | succ n ih => exact (by rw [intNode, minusSigns, checkNode_minus other (by rfl)]; exact ih)

/-- **The checker accepts** what fits an `orbit_int`, and the minimum under a sign. -/
theorem accepted_iff (n : Nat) (w : Text) :
    Accepted n w ↔ literalValue w ≤ intMax ∨ 0 < n ∧ w = chars minLiteral := by
  have h : ∀ other, (checkNode other (intNode n w)).2 = [] ↔
      literalValue w ≤ intMax ∨ 0 < n ∧ w = chars minLiteral := by
    intro other
    cases n with
    | zero => simpa [intNode, minusSigns] using checkNode_literal other w
    | succ n => simpa using checkNode_minusSigns other n w
  exact ⟨fun ha => (h fun _ => ("", [])).mp (ha _), fun hw other => (h other).mpr hw⟩

/-! ## Digits -/

theorem isDigit_iff (c : Char) : isDigit c = true ↔ 48 ≤ c.toNat ∧ c.toNat ≤ 57 := by
  unfold isDigit
  rw [Bool.and_eq_true, decide_eq_true_eq, decide_eq_true_eq]
  exact Iff.rfl

theorem digitIn_decimal (c : Char) : (digitIn 10 c).isSome = true ↔ isDigit c = true := by
  rw [isDigit_iff, digitIn, Option.isSome_filter]
  unfold digitOf
  dsimp only
  split
  · simp; omega
  · split
    · simp; omega
    · split
      · simp; omega
      · simp; omega

theorem digitIn_radix {radix : Nat} (hr : radix = 2 ∨ radix = 8 ∨ radix = 16) (c : Char) :
    (digitIn radix c).isSome = true ↔ isRadixDigit c radix = true := by
  have hchar : ∀ d : Char, c = d ↔ c.toNat = d.toNat := fun d => Char.toNat_inj.symm
  have hle : ∀ d : Char, c ≤ d ↔ c.toNat ≤ d.toNat := fun _ => Iff.rfl
  have hge : ∀ d : Char, d ≤ c ↔ d.toNat ≤ c.toNat := fun _ => Iff.rfl
  have h0 : '0'.toNat = 48 := rfl
  have h1 : '1'.toNat = 49 := rfl
  have h7 : '7'.toNat = 55 := rfl
  have ha : 'a'.toNat = 97 := rfl
  have hf : 'f'.toNat = 102 := rfl
  have hA : 'A'.toNat = 65 := rfl
  have hF : 'F'.toNat = 70 := rfl
  rw [digitIn, Option.isSome_filter]
  unfold digitOf isRadixDigit
  simp only [isDigit_iff, hchar, hle, hge, Bool.and_eq_true, decide_eq_true_eq]
  split
  · rcases hr with rfl | rfl | rfl
    · simp; omega
    · simp; omega
    · simp; omega
  · split
    · rcases hr with rfl | rfl | rfl
      · simp; omega
      · simp; omega
      · simp; omega
    · split
      · rcases hr with rfl | rfl | rfl
        · simp; omega
        · simp; omega
        · simp; omega
      · rename_i hd hl hu
        simp [hl, hu]

theorem numeral_eq_some {b n : Nat} {ds : Text} : numeral b ds = some n ↔
    ds ≠ [] ∧ (∀ c ∈ ds, (digitIn b c).isSome = true) ∧ Lib.Numeral.value b (digitsIn b ds) = n := by
  unfold numeral
  split
  · rename_i h
    rw [Option.some.injEq]
    exact ⟨fun hn => ⟨h.1, h.2, hn⟩, fun hn => hn.2.2⟩
  · rename_i h
    simp only [reduceCtorEq, false_iff]
    exact fun hn => h ⟨hn.1, hn.2.1⟩

theorem numeral_radix {radix n : Nat} (hr : radix = 2 ∨ radix = 8 ∨ radix = 16) {ds : Text} :
    numeral radix ds = some n ↔ ds ≠ [] ∧ (∀ c ∈ ds, isRadixDigit c radix = true) ∧
      Lib.Numeral.value radix (digitsIn radix ds) = n := by
  simp only [numeral_eq_some, digitIn_radix hr]

/-! ## Spellings that C reads alike -/

section
variable {binary : Bool}

/-- Behind a prefix of the language the text is no other spelling. -/
theorem readsAlike_prefixed {m : Char} {ds : Text} (hm : 0 < radixOf m) :
    ReadsAlike binary ('0' :: m :: ds) ↔ (radixOf m = 16 ∨ radixOf m = 2 ∧ binary = true) ∧
      ds ≠ [] ∧ ∀ c ∈ ds, isRadixDigit c (radixOf m) = true := by
  constructor
  · intro h
    cases h with
    | decimal _ hall _ =>
      have := hall m (by simp)
      rw [(marker_not_decimal hm).1] at this
      cases this
    | prefixed hr hne hall => exact ⟨hr, hne, hall⟩
  · rintro ⟨hr, hne, hall⟩
    exact .prefixed hr hne hall

theorem readsAlike_decimal {w : Text} (hw : ¬ HasPrefix w) : ReadsAlike binary w ↔
    w ≠ [] ∧ (∀ c ∈ w, isDigit c = true) ∧ (w.head? = some '0' → literalValue w ≤ 7) := by
  constructor
  · intro h
    cases h with
    | decimal hne hall hzero => exact ⟨hne, hall, hzero⟩
    | prefixed hr hne hall => exact absurd ⟨_, _, rfl, by omega⟩ hw
  · rintro ⟨hne, hall, hzero⟩
    exact .decimal hne hall hzero

theorem literalValue_prefixed {m : Char} {ds : Text} (hm : 0 < radixOf m) :
    literalValue ('0' :: m :: ds) = Lib.Numeral.value (radixOf m) (digitsIn (radixOf m) ds) := by
  rw [literalValue, baseOf_prefixed, if_pos hm]

theorem literalValue_decimal {w : Text} (hw : ¬ HasPrefix w) :
    literalValue w = Lib.Numeral.value 10 (digitsIn 10 w) := by
  have hbase : baseOf w = (10, w) := by
    unfold baseOf
    split
    · rename_i m ds
      rw [if_neg fun hm => hw ⟨m, ds, rfl, hm⟩]
    · rfl
  rw [literalValue, hbase]

/-- A spelling with a prefix is a constant when C has the prefix. -/
theorem reads_prefixed {m : Char} {ds : Text} (hm : 0 < radixOf m) :
    (∃ d, readConstant binary ('0' :: m :: ds) = some (d, literalValue ('0' :: m :: ds))) ↔
      ReadsAlike binary ('0' :: m :: ds) := by
  rw [readsAlike_prefixed hm, literalValue_prefixed hm]
  have hoctal : numeral 8 (m :: ds) = none := by
    rw [Option.eq_none_iff_forall_ne_some]
    intro n hn
    have := (numeral_eq_some.mp hn).2.1 m (by simp)
    rcases mem_markers hm with rfl | rfl | rfl | rfl | rfl | rfl <;> exact absurd this (by decide)
  have hnumeral : ∀ r, r = 2 ∨ r = 8 ∨ r = 16 →
      ((∃ d, (numeral r ds).map (Prod.mk false) = some (d, Lib.Numeral.value r (digitsIn r ds))) ↔
        ds ≠ [] ∧ ∀ c ∈ ds, isRadixDigit c r = true) := by
    intro r hr
    simp only [Option.map_eq_some_iff, Prod.mk.injEq, numeral_radix hr]
    constructor
    · rintro ⟨d, n, ⟨hne, hall, -⟩, -⟩
      exact ⟨hne, hall⟩
    · rintro ⟨hne, hall⟩
      exact ⟨false, _, ⟨hne, hall, rfl⟩, rfl, rfl⟩
  rcases radixOf_cases m with ⟨hr, hx⟩ | ⟨hr, hx, hb⟩ | ⟨hr, hx, hb, ho⟩ | ⟨hr, -⟩
  · have hx' : m = 'x' ∨ m = 'X' := by simpa [isHexMarker] using hx
    rw [hr, readConstant, if_pos hx', hnumeral 16 (by simp)]
    simp
  · have hx' : ¬ (m = 'x' ∨ m = 'X') := by simpa [isHexMarker] using hx
    have hb' : m = 'b' ∨ m = 'B' := by simpa [isBinMarker] using hb
    rw [hr, readConstant, if_neg hx']
    by_cases hbin : binary = true
    · rw [if_pos ⟨hbin, hb'⟩, hnumeral 2 (by simp)]
      simp [hbin]
    · rw [if_neg fun h => hbin h.1, hoctal]
      simp [hbin]
  · have hx' : ¬ (m = 'x' ∨ m = 'X') := by simpa [isHexMarker] using hx
    have hb' : ¬ (m = 'b' ∨ m = 'B') := by simpa [isBinMarker] using hb
    rw [hr, readConstant, if_neg hx', if_neg fun h => hb' h.2, hoctal]
    simp
  · omega

/-- An octal digit is the same decimal digit. -/
theorem digitIn_octal {c : Char} (h : (digitIn 8 c).isSome = true) : digitIn 8 c = digitIn 10 c := by
  unfold digitIn at h ⊢
  cases hd : digitOf c with
  | none => rfl
  | some d =>
    rw [hd, Option.isSome_filter, Option.any_some, decide_eq_true_eq] at h
    rw [Option.filter_some, Option.filter_some, if_pos (by simpa using h),
      if_pos (by simp only [decide_eq_true_eq]; omega)]

theorem digitsIn_octal {ds : Text} (h : ∀ c ∈ ds, (digitIn 8 c).isSome = true) :
    digitsIn 8 ds = digitsIn 10 ds :=
  List.filterMap_congr fun c hc => digitIn_octal (h c hc)

/-- Digits of a number that is at most 7 are octal. -/
theorem octal_of_value {ds : Text} (hall : ∀ c ∈ ds, (digitIn 10 c).isSome = true)
    (hle : Lib.Numeral.value 10 (digitsIn 10 ds) ≤ 7) : ∀ c ∈ ds, (digitIn 8 c).isSome = true := by
  intro c hc
  obtain ⟨d, hd⟩ := Option.isSome_iff_exists.mp (hall c hc)
  have hmem : d ∈ digitsIn 10 ds := List.mem_filterMap.mpr ⟨c, hc, hd⟩
  have hd7 := Lib.Numeral.le_value_of_mem (b := 10) (by decide) hmem
  rw [digitIn, (Option.filter_eq_some_iff.mp hd).1, Option.isSome_filter, Option.any_some,
    decide_eq_true_eq]
  omega

/-- Behind a zero the text is octal: the number is the same when it is at most 7. -/
theorem numeral_octal {ds : Text} :
    numeral 8 ds = some (Lib.Numeral.value 10 (digitsIn 10 ds)) ↔
      ds ≠ [] ∧ (∀ c ∈ ds, isDigit c = true) ∧ Lib.Numeral.value 10 (digitsIn 10 ds) ≤ 7 := by
  simp only [← digitIn_decimal, numeral_eq_some]
  have hiff := Lib.Numeral.value_eq_value_iff (b := 8) (c := 10) (by decide)
    (digitsIn_lt (b := 10) (w := ds))
  constructor
  · rintro ⟨hne, hall, hv⟩
    have hdec : ∀ c ∈ ds, (digitIn 10 c).isSome = true := by
      intro c hc
      rw [← digitIn_octal (hall c hc)]
      exact hall c hc
    rw [digitsIn_octal hall] at hv
    have hlt : ∀ d ∈ digitsIn 10 ds, d < 8 := by
      rw [← digitsIn_octal hall]
      exact digitsIn_lt
    have := Lib.Numeral.value_lt_of_digits (by decide) hlt (hiff.mp hv)
    exact ⟨hne, hdec, by omega⟩
  · rintro ⟨hne, hall, hle⟩
    have hoct := octal_of_value hall hle
    refine ⟨hne, hoct, ?_⟩
    rw [digitsIn_octal hoct]
    exact hiff.mpr (by omega)

/-- A spelling without prefix is a constant when it has no leading zero, or spells at most 7. -/
theorem reads_decimal {w : Text} (hw : ¬ HasPrefix w) :
    (∃ d, readConstant binary w = some (d, literalValue w)) ↔ ReadsAlike binary w := by
  have hten : ∀ v : Text, (∃ d, (numeral 10 v).map (Prod.mk true) =
      some (d, Lib.Numeral.value 10 (digitsIn 10 v))) ↔ v ≠ [] ∧ ∀ c ∈ v, isDigit c = true := by
    intro v
    simp only [Option.map_eq_some_iff, Prod.mk.injEq, numeral_eq_some, digitIn_decimal]
    constructor
    · rintro ⟨d, n, ⟨hne, hall, -⟩, -⟩
      exact ⟨hne, hall⟩
    · rintro ⟨hne, hall⟩
      exact ⟨true, _, ⟨hne, hall, rfl⟩, rfl, rfl⟩
  rw [readsAlike_decimal hw, literalValue_decimal hw]
  unfold readConstant
  split
  · rename_i m ds
    have hm : radixOf m = 0 := by
      by_contra h
      exact hw ⟨m, ds, rfl, Nat.pos_of_ne_zero h⟩
    obtain ⟨hx, hb, -⟩ : isHexMarker m = false ∧ isBinMarker m = false ∧ isOctMarker m = false := by
      rcases radixOf_cases m with ⟨hr, -⟩ | ⟨hr, -⟩ | ⟨hr, -⟩ | ⟨-, h⟩
      · omega
      · omega
      · omega
      · exact h
    have hx' : ¬ (m = 'x' ∨ m = 'X') := by simpa [isHexMarker] using hx
    have hb' : ¬ (m = 'b' ∨ m = 'B') := by simpa [isBinMarker] using hb
    have hzero : digitsIn 10 ('0' :: m :: ds) = 0 :: digitsIn 10 (m :: ds) := by
      rw [digitsIn_cons]
      rfl
    have hvalue : Lib.Numeral.value 10 (digitsIn 10 ('0' :: m :: ds)) =
        Lib.Numeral.value 10 (digitsIn 10 (m :: ds)) := by
      rw [hzero, Lib.Numeral.value_cons, Nat.zero_mul, Nat.zero_add]
    rw [if_neg hx', if_neg fun h => hb' h.2, hvalue]
    simp only [Option.map_eq_some_iff, Prod.mk.injEq]
    constructor
    · rintro ⟨d, n, hn, -, rfl⟩
      obtain ⟨-, hall, hle⟩ := numeral_octal.mp hn
      exact ⟨by simp, List.forall_mem_cons.mpr ⟨by decide, hall⟩, fun _ => hle⟩
    · rintro ⟨-, hall, hle⟩
      exact ⟨false, _, numeral_octal.mpr ⟨by simp, (List.forall_mem_cons.mp hall).2, hle rfl⟩, rfl,
        rfl⟩
  · rename_i hform
    rw [hten w]
    constructor
    · rintro ⟨hne, hall⟩
      refine ⟨hne, hall, fun hhead => ?_⟩
      obtain ⟨c, v, rfl⟩ := List.exists_cons_of_ne_nil hne
      obtain rfl : c = '0' := Option.some.inj hhead
      cases v with
      | nil => decide
      | cons m ds => exact absurd rfl (hform m ds)
    · rintro ⟨hne, hall, -⟩
      exact ⟨hne, hall⟩

theorem reads_iff (w : Text) :
    (∃ d, readConstant binary w = some (d, literalValue w)) ↔ ReadsAlike binary w := by
  by_cases hw : HasPrefix w
  · obtain ⟨m, ds, rfl, hm⟩ := hw
    exact reads_prefixed hm
  · exact reads_decimal hw

/-- C types the constant `unsigned int` when it has a prefix and is between the two maxima. -/
theorem unsigned_iff {w : Text} {d : Bool} (h : readConstant binary w = some (d, literalValue w)) :
    (d = false ∧ 2 ^ 31 ≤ literalValue w ∧ literalValue w < 2 ^ 32) ↔ UnsignedInC w := by
  have halike := (reads_iff w).mp ⟨d, h⟩
  constructor
  · rintro ⟨rfl, hge, hlt⟩
    refine ⟨?_, hge, hlt⟩
    by_contra hw
    obtain ⟨-, -, hzero⟩ := (readsAlike_decimal hw).mp halike
    unfold readConstant at h
    split at h
    · have := hzero rfl
      omega
    · obtain ⟨n, -, hn⟩ := Option.map_eq_some_iff.mp h
      cases hn
  · rintro ⟨⟨m, ds, rfl, hm⟩, hge, hlt⟩
    refine ⟨?_, hge, hlt⟩
    rw [readConstant] at h
    split at h
    · obtain ⟨n, -, hn⟩ := Option.map_eq_some_iff.mp h
      exact (congrArg Prod.fst hn).symm
    · split at h
      · obtain ⟨n, -, hn⟩ := Option.map_eq_some_iff.mp h
        exact (congrArg Prod.fst hn).symm
      · obtain ⟨n, -, hn⟩ := Option.map_eq_some_iff.mp h
        exact (congrArg Prod.fst hn).symm

/-! ## The number of a literal -/

theorem literalValue_min : literalValue (chars minLiteral) = 2 ^ 63 := by
  have hchars : chars minLiteral = ['9', '2', '2', '3', '3', '7', '2', '0', '3', '6', '8', '5', '4',
      '7', '7', '5', '8', '0', '8'] := by
    unfold chars
    decide
  have hdigits : digitsIn 10 ['9', '2', '2', '3', '3', '7', '2', '0', '3', '6', '8', '5', '4',
      '7', '7', '5', '8', '0', '8'] = [9, 2, 2, 3, 3, 7, 2, 0, 3, 6, 8, 5, 4, 7, 7, 5, 8, 0, 8] := rfl
  have hbase : baseOf ['9', '2', '2', '3', '3', '7', '2', '0', '3', '6', '8', '5', '4', '7', '7',
      '5', '8', '0', '8'] = (10, ['9', '2', '2', '3', '3', '7', '2', '0', '3', '6', '8', '5', '4',
      '7', '7', '5', '8', '0', '8']) := rfl
  rw [hchars, literalValue, hbase, hdigits, Lib.Numeral.value_eq_foldl]
  rfl

theorem ne_min {w : Text} (h : literalValue w ≤ intMax) : w ≠ chars minLiteral := by
  rintro rfl
  rw [literalValue_min, intMax] at h
  omega

theorem literal_toInt {w : Text} (h : literalValue w ≤ intMax) :
    (orbitValue 0 w).toInt = literalValue w := by
  have hnat : (BitVec.ofNat 64 (literalValue w)).toNat = literalValue w := by
    rw [BitVec.toNat_ofNat, Nat.mod_eq_of_lt]
    unfold intMax at h
    omega
  unfold intMax at h
  rw [orbitValue, BitVec.toInt_eq_toNat_of_lt (by omega), hnat]

theorem minus_toInt {w : Text} (h : literalValue w ≤ intMax) :
    (orbitValue 1 w).toInt = -(literalValue w : Int) := by
  have hint := literal_toInt h
  have hne : orbitValue 0 w ≠ BitVec.intMin 64 := by
    intro he
    have hmin : (BitVec.intMin 64).toInt = -9223372036854775808 := by decide
    rw [he, hmin] at hint
    omega
  rw [orbitValue, BitVec.toInt_neg_of_ne_intMin hne, hint]

theorem min_toInt : (orbitValue 1 (chars minLiteral)).toInt = -2 ^ 63 := by
  rw [orbitValue, orbitValue, literalValue_min]
  decide

/-! ## Definitions -/

theorem accepted_top {n : Nat} {w : Text} (h : isTopLevelConstantExpr (intNode n w) = true) :
    n = 0 ∨ n = 1 := by
  rcases n with _ | _ | n
  · exact .inl rfl
  · exact .inr rfl
  · simp [intNode, minusSigns, isTopLevelConstantExpr] at h

theorem define_literal (w : Text) :
    cDefineLiteral (irString (Build.topLevelConstantValue (intNode 0 w))) = w := by
  rw [intNode, minusSigns, Build.topLevelConstantValue, if_pos rfl, irString, cDefineLiteral,
    String.toList_ofList]

theorem define_min : cDefineLiteral (irString (Build.topLevelConstantValue
    (intNode 1 (chars minLiteral)))) = chars "(-9223372036854775807-1)" := by
  have hmin : String.ofList (chars minLiteral) = "9223372036854775808" := by
    rw [chars, String.ofList_toList]
    rfl
  have hchars : chars "(-9223372036854775807-1)" = "(-9223372036854775807-1)".toList := by rw [chars]
  rw [hchars]
  simp [intNode, minusSigns, Build.topLevelConstantValue, hmin, irString, cDefineLiteral]

theorem define_minus {w : Text} (hw : NumberToken w) (hne : w ≠ chars minLiteral) :
    cDefineLiteral (irString (Build.topLevelConstantValue (intNode 1 w))) = '-' :: w := by
  have hempty : String.ofList w ≠ "" := by
    obtain ⟨c, v, rfl, -⟩ := hw
    simp
  have hmin : String.ofList w ≠ "9223372036854775808" := by
    intro h
    apply hne
    rw [chars, minLiteral, ← h, String.toList_ofList]
  simp [intNode, minusSigns, Build.topLevelConstantValue, hempty, hmin, irString, cDefineLiteral]

/-- The constant 9223372036854775807. -/
theorem intConstant_max :
    Lib.C.intConstant binary intLimit = some (.long, 2 ^ 63 - 1) := by
  have hnum : numeral 10 intLimit = some intMax := by
    have hall : ∀ c ∈ intLimit, isDigit c = true := List.all_eq_true.mp (by decide)
    rw [numeral_eq_some]
    refine ⟨by decide, fun c hc => (digitIn_decimal c).mpr (hall c hc), ?_⟩
    rw [show digitsIn 10 intLimit = limitDigits from rfl, value_limitDigits]
  have hread : readConstant binary intLimit = some (true, intMax) := by
    rw [show readConstant binary intLimit = (numeral 10 intLimit).map (Prod.mk true) from rfl, hnum]
    rfl
  rw [Lib.C.intConstant, hread]
  simp [Lib.C.constantType, intMax]

theorem constantValue_min :
    Lib.C.constantValue binary (chars "(-9223372036854775807-1)") = some (-2 ^ 63) := by
  have hlex : Lib.C.lex (chars "(-9223372036854775807-1)") = some [.punct .lpar, .punct .minus,
      .number intLimit, .punct .minus, .number ['1'], .punct .rpar] := by
    have hchars : chars "(-9223372036854775807-1)" =
        '(' :: '-' :: (intLimit ++ ['-', '1', ')']) := by
      unfold chars
      decide
    rw [hchars]
    rfl
  have hparse : Lib.C.parseExpr (fun _ => none) (chars "(-9223372036854775807-1)") =
      some (.bin .sub (.un .neg (.num intLimit)) (.num ['1'])) := by
    rw [Lib.C.parseExpr, hlex]
    rfl
  have hone : Lib.C.intConstant binary ['1'] = some (.int, 1) := by
    have hnum : numeral 10 ['1'] = some 1 := by
      have hall : ∀ c ∈ ['1'], isDigit c = true := List.all_eq_true.mp (by decide)
      rw [numeral_eq_some]
      exact ⟨by decide, fun c hc => (digitIn_decimal c).mpr (hall c hc), rfl⟩
    rw [Lib.C.intConstant,
      show readConstant binary ['1'] = (numeral 10 ['1']).map (Prod.mk true) from rfl, hnum]
    rfl
  rw [Lib.C.constantValue, hparse, Option.bind_some, Lib.C.constantEval, Lib.C.constantEval,
    Lib.C.constantEval, Lib.C.constantEval, intConstant_max, hone]
  simp [Lib.C.IntTy.result, Lib.C.IntTy.common, Lib.C.IntTy.rank, Lib.C.IntTy.convert]

/-- **Top-level constants.** The text of the definition denotes the number of the literal exactly
when C reads the spelling alike, and under a sign not as an `unsigned int`. -/
theorem topLevel_iff {n : Nat} {w : Text} (hw : NumberToken w)
    (ha : (Position.topLevel binary).Accepts n w) :
    (Position.topLevel binary).Denotes n w ↔ (Position.topLevel binary).Kept n w := by
  obtain ⟨htop, hacc⟩ := ha
  have hfits := (accepted_iff n w).mp hacc
  obtain ⟨c, v, hcv, hc, hv⟩ := id hw
  rw [Position.Denotes, Position.Kept]
  rcases accepted_top htop with rfl | rfl
  · have hle : literalValue w ≤ intMax := by simpa using hfits
    have hlt : literalValue w < 2 ^ 63 := by
      unfold intMax at hle
      omega
    have hnumber : Lib.C.constantValue binary (c :: v) = _ := Lib.C.constantValue_number hc hv
    rw [← hcv] at hnumber
    rw [define_literal, literal_toInt hle, hnumber, Lib.C.intConstant_value hlt, reads_iff]
    simp [ne_min hle]
  · by_cases hmin : w = chars minLiteral
    · subst hmin
      rw [define_min, min_toInt, constantValue_min]
      simp
    · have hle : literalValue w ≤ intMax := by simpa [hmin] using hfits
      have hlt : literalValue w < 2 ^ 63 := by
        unfold intMax at hle
        omega
      have hminus : Lib.C.constantValue binary ('-' :: c :: v) = _ :=
        Lib.C.constantValue_minus hc hv
      rw [← hcv] at hminus
      rw [define_minus hw hmin, minus_toInt hle, hminus, Lib.C.intConstant_minus hlt, ← reads_iff]
      constructor
      · rintro ⟨d, hread, hu⟩
        exact .inr ⟨⟨d, hread⟩, .inr (mt (unsigned_iff hread).mpr hu)⟩
      · rintro (h | ⟨⟨d, hread⟩, h | hu⟩)
        · exact absurd h hmin
        · cases h
        · exact ⟨d, hread, mt (unsigned_iff hread).mp hu⟩

end

end Emit
