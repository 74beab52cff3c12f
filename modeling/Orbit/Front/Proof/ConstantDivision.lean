import Orbit.Front.Sema
import Orbit.Front.Proof.Literal

/-!
# Which constant divisions are reported

`literalWord` and `sumWord` are the 64-bit values of a literal under minus signs and of a sum of
literals. The check reads them only where every literal is written in decimal digits (`IsRead`,
`DecimalSum`), and takes what it does not read for -1 (`checkDivision_iff`).
-/

namespace Front

open IR (Word)

/-! ## Values of constants -/

/-- The value of a literal, possibly under minus signs. -/
def literalWord : ASTNode → Option Word
  | .literal valType text => if valType = "int" then some (parseIntSelfhost text) else none
  | .unaryOp op operand => if op = "-" then (literalWord operand).map (0 - ·) else none
  | _ => none

/-- The value of a sum, difference or negation of literals. -/
def sumWord : ASTNode → Option Word
  | .literal valType text => if valType = "int" then some (parseIntSelfhost text) else none
  | .unaryOp op operand => if op = "-" then (sumWord operand).map (0 - ·) else none
  | .binaryOp op lhs rhs _ _ =>
    match sumWord lhs, sumWord rhs with
    | some a, some b =>
      if op = "+" then some (a + b) else if op = "-" then some (a - b) else none
    | _, _ => none
  | _ => none

def isLiteral : ASTNode → Bool
  | .literal _ _ => true
  | _ => false

/-- The node is a sum, difference or negation of literals with the least int as its value. -/
def IsMinSum (node : ASTNode) : Prop := isLiteral node = false ∧ sumWord node = some intMinValue

/-- The division has no answer, and its operands are constants. -/
def HasNoAnswer (rhs lhs : ASTNode) : Prop :=
  literalWord rhs = some 0 ∨ (literalWord rhs = some (-1) ∧ IsMinSum lhs)

/-! ## What the check reads -/

/-- Decimal digits only. -/
def IsDecimal (text : String) : Prop :=
  text.toList ≠ [] ∧ ∀ c ∈ text.toList, 48 ≤ c.toNat ∧ c.toNat ≤ 57

/-- A decimal literal, or a minus sign in front of what is read and not negative. -/
def IsRead : ASTNode → Prop
  | .literal valType text => valType = "int" ∧ IsDecimal text
  | .unaryOp op operand => op = "-" ∧ IsRead operand ∧ ∀ v ∈ literalWord operand, 0 ≤ v.toInt
  | _ => False

/-- A sum, difference or negation of decimal literals below 2^63, or of 2^63 under a minus sign. -/
def DecimalSum : ASTNode → Prop
  | .literal valType text => valType = "int" ∧ IsDecimal text ∧ 0 ≤ (parseIntSelfhost text).toInt
  | .unaryOp op operand => op = "-" ∧ (isMinLiteral operand = true ∨ DecimalSum operand)
  | .binaryOp op lhs rhs _ _ => (op = "+" ∨ op = "-") ∧ DecimalSum lhs ∧ DecimalSum rhs
  | _ => False

theorem indexDigits_decimal {w : List Char} (h : ∀ c ∈ w, 48 ≤ c.toNat ∧ c.toNat ≤ 57) (v : Word) :
    indexDigits v w = w.foldl (parseIntStep 10) v := by
  induction w generalizing v with
  | nil => rfl
  | cons c w ih =>
    have hc := h c List.mem_cons_self
    have hstep : parseIntStep 10 v c = v * 10 + BitVec.ofNat 64 (c.toNat - 48) := by
      unfold parseIntStep
      dsimp only
      rw [if_pos hc, if_neg (by simp)]
      rfl
    rw [indexDigits, if_neg (by omega), List.foldl_cons, hstep]
    exact ih (fun d hd => h d (List.mem_cons_of_mem c hd)) _

theorem indexDigits_other {w : List Char} (h : ¬ ∀ c ∈ w, 48 ≤ c.toNat ∧ c.toNat ≤ 57) (v : Word) :
    indexDigits v w = -1 := by
  induction w generalizing v with
  | nil => exact absurd (by simp) h
  | cons c w ih =>
    rw [indexDigits]
    split_ifs with hc
    · rfl
    · apply ih
      intro hw
      refine h fun d hd => ?_
      rcases List.mem_cons.mp hd with rfl | hd
      · omega
      · exact hw d hd

theorem literalBase_decimal {w : List Char} (h : ∀ c ∈ w, 48 ≤ c.toNat ∧ c.toNat ≤ 57) :
    literalBase w = (10, w) := by
  rw [literalBase.eq_def]
  split
  · rename_i c d rest
    have hc := h c (by simp)
    have marker : ∀ m : Char, 57 < m.toNat → c ≠ m := by
      rintro m hm rfl
      omega
    have hhex : isHexMarker c = false := by
      simp [isHexMarker, marker 'x' (by decide), marker 'X' (by decide)]
    have hbin : isBinMarker c = false := by
      simp [isBinMarker, marker 'b' (by decide), marker 'B' (by decide)]
    have hoct : isOctMarker c = false := by
      simp [isOctMarker, marker 'o' (by decide), marker 'O' (by decide)]
    rw [hhex, hbin, hoct]
    rfl
  · rfl

theorem literalIndexValue_decimal {text : String} (h : IsDecimal text) :
    literalIndexValue (.literal "int" text) = parseIntSelfhost text := by
  rw [literalIndexValue_literal, if_neg (by simp), if_neg h.1, indexDigits_decimal h.2, parseIntSelfhost,
    literalBase_decimal h.2]

/-- What is read has its value, and what is not is -1. -/
theorem literalIndexValue_spec (node : ASTNode) :
    (IsRead node ∧ literalWord node = some (literalIndexValue node)) ∨
      (¬ IsRead node ∧ literalIndexValue node = -1) := by
  induction node using literalIndexValue.induct with
  | case1 op operand hop => exact .inr ⟨fun h => hop h.1, by rw [literalIndexValue_unary, if_pos hop]⟩
  | case2 op operand hop inner hneg ih =>
    have hop := not_not.mp hop
    right
    refine ⟨fun h => ?_, ?_⟩
    · rcases ih with ⟨-, hval⟩ | ⟨hno, -⟩
      · exact absurd (h.2.2 _ hval) (Int.not_le.mpr hneg)
      · exact hno h.2.1
    · rw [literalIndexValue_unary, if_neg (by simp [hop])]
      exact if_pos hneg
  | case3 op operand hop inner hneg ih =>
    have hop := not_not.mp hop
    left
    have hread : IsRead operand ∧ literalWord operand = some (literalIndexValue operand) := by
      refine ih.resolve_right fun h => hneg ?_
      rw [show inner = -1 from h.2]
      decide
    refine ⟨⟨hop, hread.1, fun v hv => ?_⟩, ?_⟩
    · rw [hread.2] at hv
      rw [← Option.some.inj hv]
      exact Int.not_lt.mp hneg
    · rw [literalWord, if_pos hop, hread.2, literalIndexValue_unary, if_neg (by simp [hop])]
      exact congrArg some (if_neg hneg).symm
  | case4 valType text hint =>
    exact .inr ⟨fun h => hint h.1, by rw [literalIndexValue_literal, if_pos hint]⟩
  | case5 valType text hint hempty =>
    exact .inr ⟨fun h => h.2.1 hempty, by rw [literalIndexValue_literal, if_neg hint, if_pos hempty]⟩
  | case6 valType text hint hempty =>
    obtain rfl := not_not.mp hint
    by_cases hdec : ∀ c ∈ text.toList, 48 ≤ c.toNat ∧ c.toNat ≤ 57
    · refine .inl ⟨⟨rfl, hempty, hdec⟩, ?_⟩
      rw [literalWord, if_pos rfl, literalIndexValue_decimal ⟨hempty, hdec⟩]
    · refine .inr ⟨fun h => hdec h.2.2, ?_⟩
      rw [literalIndexValue_literal, if_neg hint, if_neg hempty, indexDigits_other hdec]
  | case7 node h1 h2 =>
    right
    cases node with
    | unaryOp op operand => exact absurd rfl (h1 op operand)
    | literal valType text => exact absurd rfl (h2 valType text)
    | _ => exact ⟨id, rfl⟩

/-! ## What the check folds -/

theorem isRead_decimalSum {node : ASTNode} (h : IsRead node)
    (h0 : ∀ v ∈ literalWord node, 0 ≤ v.toInt) : DecimalSum node := by
  induction node using IsRead.induct with
  | case1 valType text => exact ⟨h.1, h.2, h0 _ (by rw [literalWord, if_pos h.1]; rfl)⟩
  | case2 op operand ih => exact ⟨h.1, .inr (ih h.2.1 h.2.2)⟩
  | case3 node h1 h2 =>
    cases node with
    | literal valType text => exact absurd rfl (h1 valType text)
    | unaryOp op operand => exact absurd rfl (h2 op operand)
    | _ => exact h.elim

/-- A value of the check that is not negative is read. -/
theorem isRead_of_nonneg {node : ASTNode} (h : 0 ≤ (literalIndexValue node).toInt) :
    IsRead node ∧ literalWord node = some (literalIndexValue node) := by
  refine (literalIndexValue_spec node).resolve_right fun hno => ?_
  rw [hno.2] at h
  exact absurd h (by decide)

theorem canFoldInt_iff (node : ASTNode) : canFoldInt node = true ↔ DecimalSum node := by
  induction node using canFoldInt.induct with
  | case1 op operand ih =>
    rw [canFoldInt, DecimalSum, isIntMinSpelling]
    simp only [Bool.or_eq_true, Bool.and_eq_true, decide_eq_true_eq, ih]
    constructor
    · rintro ((⟨hop, hmin⟩ | h0) | ⟨hop, hsum⟩)
      · exact ⟨hop, .inl hmin⟩
      · obtain ⟨⟨hop, hread, hpos⟩, -⟩ := isRead_of_nonneg h0
        exact ⟨hop, .inr (isRead_decimalSum hread hpos)⟩
      · exact ⟨hop, .inr hsum⟩
    · rintro ⟨hop, hmin | hsum⟩
      · exact .inl (.inl ⟨hop, hmin⟩)
      · exact .inr ⟨hop, hsum⟩
  | case2 op lhs rhs line col ih1 ih2 =>
    rw [canFoldInt, DecimalSum]
    simp only [Bool.or_eq_true, Bool.and_eq_true, decide_eq_true_eq, ih1, ih2]
  | case3 node h1 h2 =>
    cases node with
    | unaryOp op operand => exact absurd rfl (h1 op operand)
    | binaryOp op lhs rhs line col => exact absurd rfl (h2 op lhs rhs line col)
    | literal valType text =>
      rw [canFoldInt, decide_eq_true_eq, DecimalSum]
      · constructor
        · intro h0
          obtain ⟨⟨hint, hdec⟩, hval⟩ := isRead_of_nonneg h0
          rw [literalWord, if_pos hint, Option.some.injEq] at hval
          exact ⟨hint, hdec, by rwa [hval]⟩
        · rintro ⟨rfl, hdec, h0⟩
          rwa [literalIndexValue_decimal hdec]
      all_goals simp
    | _ => simp [canFoldInt, literalIndexValue, DecimalSum]

theorem sumWord_of_literalWord {node : ASTNode} {v : Word} (h : literalWord node = some v) :
    sumWord node = some v := by
  induction node using literalWord.induct generalizing v with
  | case1 text => exact h
  | case2 valType text hint => exact h
  | case3 operand ih =>
    rw [literalWord, if_pos rfl, Option.map_eq_some_iff] at h
    obtain ⟨w, hw, rfl⟩ := h
    rw [sumWord, if_pos rfl, ih hw]
    rfl
  | case4 op operand hop =>
    rw [literalWord, if_neg hop] at h
    cases h
  | case5 node h1 h2 =>
    cases node with
    | literal valType text => exact absurd rfl (h1 valType text)
    | unaryOp op operand => exact absurd rfl (h2 op operand)
    | _ => cases h

/-- A sum of decimal literals is folded to its value. -/
theorem foldedIntValue_eq {node : ASTNode} (h : DecimalSum node) :
    sumWord node = some (foldedIntValue node) := by
  induction node using DecimalSum.induct with
  | case1 valType text =>
    obtain ⟨rfl, hdec, h0⟩ := h
    rw [sumWord, if_pos rfl, foldedIntValue, literalIndexValue_decimal hdec, if_pos h0]
    all_goals simp
  | case2 op operand ih =>
    obtain ⟨rfl, hsum⟩ := h
    rw [foldedIntValue, isIntMinSpelling]
    by_cases hmin : isMinLiteral operand = true
    · have hoperand : operand = .literal "int" minLiteral := by
        cases operand with
        | literal valType text =>
          simp only [isMinLiteral, Bool.and_eq_true, decide_eq_true_eq] at hmin
          rw [hmin.1, hmin.2]
        | _ => cases hmin
      rw [if_pos (by simpa using hmin), hoperand]
      decide
    rw [if_neg (by simpa using hmin)]
    by_cases h0 : 0 ≤ (literalIndexValue (.unaryOp "-" operand)).toInt
    · rw [if_pos h0]
      exact sumWord_of_literalWord (isRead_of_nonneg h0).2
    · rw [if_neg h0, sumWord, if_pos rfl, ih (hsum.resolve_left hmin)]
      rfl
  | case3 op lhs rhs line col ih1 ih2 =>
    obtain ⟨hop, hl, hr⟩ := h
    rw [sumWord, foldedIntValue, ih1 hl, ih2 hr]
    rcases hop with rfl | rfl <;> rfl
  | case4 node h1 h2 h3 =>
    cases node with
    | literal valType text => exact absurd rfl (h1 valType text)
    | unaryOp op operand => exact absurd rfl (h2 op operand)
    | binaryOp op lhs rhs line col => exact absurd rfl (h3 op lhs rhs line col)
    | _ => exact h.elim

/-- What the check folds to the least int. -/
theorem foldsMin_iff (lhs : ASTNode) :
    (canFoldInt lhs = true ∧ foldedIntValue lhs = intMinValue) ↔ DecimalSum lhs ∧ IsMinSum lhs := by
  rw [canFoldInt_iff]
  refine and_congr_right fun hsum => ?_
  rw [IsMinSum, foldedIntValue_eq hsum, Option.some.injEq]
  refine ⟨fun hmin => ⟨?_, hmin⟩, fun h => h.2⟩
  cases lhs with
  | literal valType text =>
    obtain ⟨rfl, hdec, h0⟩ := hsum
    rw [foldedIntValue, literalIndexValue_decimal hdec, if_pos h0] at hmin
    · rw [hmin] at h0
      exact absurd h0 (by decide)
    all_goals simp
  | _ => rfl

theorem checkDivision_reports {op : String} (hop : op = "/" ∨ op = "%") (rhs lhs : ASTNode)
    (line col : Int) :
    (∃ e ∈ checkDivision op rhs lhs line col, e.code = "E1004") ↔
      literalIndexValue rhs = 0 ∨
        (literalIndexValue rhs = -1 ∧ DecimalSum lhs ∧ IsMinSum lhs) := by
  rw [checkDivision, if_neg (by rcases hop with rfl | rfl <;> simp), ← foldsMin_iff]
  dsimp only
  split_ifs with h0 h1 hmin
  · simp [h0]
  · exact ⟨fun _ => .inr ⟨h1, hmin⟩, fun _ => ⟨_, List.mem_singleton.mpr rfl, rfl⟩⟩
  · refine ⟨fun ⟨e, he, _⟩ => absurd he List.not_mem_nil, fun h => ?_⟩
    exact absurd (h.resolve_left h0).2 hmin
  · refine ⟨fun ⟨e, he, _⟩ => absurd he List.not_mem_nil, fun h => ?_⟩
    exact absurd (h.resolve_left h0).1 h1

/-- **Which constant divisions are reported**: those without an answer exactly when a dividend over
-1 is spelled in decimal digits if it is the least int, and a divisor that the check does not read
is not mistaken: for 0 the dividend is such a sum, and for another value or none it is not. -/
theorem checkDivision_iff {op : String} (hop : op = "/" ∨ op = "%") (rhs lhs : ASTNode)
    (line col : Int) :
    ((∃ e ∈ checkDivision op rhs lhs line col, e.code = "E1004") ↔ HasNoAnswer rhs lhs) ↔
      (literalWord rhs = some (-1) → IsMinSum lhs → DecimalSum lhs) ∧
      (¬ IsRead rhs → literalWord rhs = some 0 → DecimalSum lhs ∧ IsMinSum lhs) ∧
      (¬ IsRead rhs → literalWord rhs ≠ some 0 → literalWord rhs ≠ some (-1) →
        ¬ (DecimalSum lhs ∧ IsMinSum lhs)) := by
  rw [checkDivision_reports hop, HasNoAnswer]
  rcases literalIndexValue_spec rhs with ⟨hread, hval⟩ | ⟨hno, hval⟩
  · rw [hval, Option.some.injEq, Option.some.injEq]
    have hne : literalIndexValue rhs = 0 → literalIndexValue rhs ≠ -1 := by
      intro h
      rw [h]
      decide
    simp only [hread, not_true_eq_false, false_implies, and_true]
    grind
  · have hzero : ¬ literalIndexValue rhs = 0 := by
      rw [hval]
      decide
    have hne : literalWord rhs = some 0 → literalWord rhs ≠ some (-1) := by
      intro h
      rw [h]
      decide
    simp only [hno, hzero, not_false_eq_true, true_implies, false_or]
    grind

/-- 7 / 2 is not reported. -/
theorem checkDivision_seven : (∃ e ∈ checkDivision "/" (.literal "int" "2") (.literal "int" "7") 1 1,
    e.code = "E1004") ↔ HasNoAnswer (.literal "int" "2") (.literal "int" "7") := by
  refine (checkDivision_iff (.inl rfl) (.literal "int" "2") (.literal "int" "7") 1 1).mpr ?_
  have hread : IsRead (.literal "int" "2") := ⟨rfl, by simp [IsDecimal]⟩
  exact ⟨fun h => absurd h (by decide), fun h => absurd hread h, fun h => absurd hread h⟩

/-- The least int over a variable is reported. -/
theorem checkDivision_variable : ¬ ((∃ e ∈ checkDivision "/" (.literal "identifier" "y")
      (.binaryOp "-" (.unaryOp "-" (.literal "int" "9223372036854775807")) (.literal "int" "1") 1 2)
      1 1, e.code = "E1004") ↔
    HasNoAnswer (.literal "identifier" "y") (.binaryOp "-"
      (.unaryOp "-" (.literal "int" "9223372036854775807")) (.literal "int" "1") 1 2)) := by
  rw [checkDivision_reports (.inl rfl), ← foldsMin_iff, HasNoAnswer]
  intro h
  have hreported := h.mp (.inr (by decide))
  rcases hreported with hzero | ⟨hminus, -⟩
  · cases hzero
  · cases hminus

end Front
