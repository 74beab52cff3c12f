import Orbit.Emit.Proof.Forms

/-!
# Integer instructions in C

`emitInstruction_meets`: the C statement of an integer instruction does what the instruction does,
unless it is the negation of the minimum or of a negative constant.
-/

namespace Emit

open IR (IRInstruction IRValue Word)
open Lib.C
open Lib.Decimal
open Lib.Text (chars intToString)

section
variable {backend : CBackend} {regs : Int → Word} {env : Env DivError} {instr : IRInstruction}

section
variable {W : Type} {rt : IR.Runtime W} {l : IR.Locals} {world : W}

/-! ## Labels and jumps -/

theorem labelText (backend : CBackend) {o : IRValue} (h : LabelOperand o) :
    ∃ n : Nat, o = .label n ∧ generateValue backend o = Nat.toDigits 10 n := by
  cases o with
  | label n =>
    refine ⟨n.toNat, ?_, ?_⟩
    · rw [Int.toNat_of_nonneg h]
    · have hn : ¬ n < 0 := not_lt.mpr h
      rw [generateValue, intToString, if_neg hn]
      congr 1
      omega
  | _ => exact h.elim

theorem label_meets (hop : instr.opcode = .label) (h : LabelOperand instr.operand1) :
    Meets backend rt instr regs l world env := by
  obtain ⟨n, -, htext⟩ := labelText backend h
  have hact : actOf backend rt instr regs l world = .step none l world [] := by
    rw [actOf, IR.act, hop]
  by_cases href : backend.refLabels.contains (Nat.toDigits 10 n) = true
  · refine ⟨labelName n ++ [':', ';', '\n'], .label (labelName n), ?_, ?_, trivial, ?_⟩
    · have hend : chars ":;\n" = [':', ';', '\n'] := by simp [chars]
      simp only [emitInstruction, hop, htext, if_pos href, labelName, hend]
    · have hword := isWord_labelName n
      rw [labelName, chars_label] at hword ⊢
      simp only [List.cons_append, isWord, Bool.and_eq_true, Bool.not_eq_true',
        List.all_eq_true] at hword
      exact parse_label hword.1.1 hword.1.2 hword.2
    · rw [hact]
      rfl
  · refine ⟨[], .empty, ?_, rfl, trivial, ?_⟩
    · simp only [emitInstruction, hop, htext, if_neg href]
    · rw [hact]
      rfl

theorem jump_meets (hop : instr.opcode = .jump) (h : LabelOperand instr.operand1) :
    Meets backend rt instr regs l world env := by
  obtain ⟨n, ho, htext⟩ := labelText backend h
  have hact : actOf backend rt instr regs l world = .goto n := by
    rw [actOf, IR.act, hop, ho]
    rfl
  have hgoto : chars "    goto label_" = indent ++ (gotoWord ++ ' ' :: chars "label_") := by
    simp [chars, indent, gotoWord]
  have hend : chars ";\n" = [';', '\n'] := by simp [chars]
  refine ⟨_, .goto (labelName n), ?_, parse_goto (inner_word (isWord_labelName n)), trivial, ?_⟩
  · simp only [emitInstruction, hop, htext, hgoto, hend, labelName]
    simp
  · rw [hact]
    simp [Agrees, exec, pure, Except.pure]

theorem jumpIfFalse_meets (hd : Declares backend regs env) (hop : instr.opcode = .jumpIfFalse)
    (h1 : IntOperand backend instr.operand1) (h2 : LabelOperand instr.operand2) :
    Meets backend rt instr regs l world env := by
  obtain ⟨n, ho, htext⟩ := labelText backend h2
  obtain ⟨ty, -, -, hv⟩ := operand_means hd h1
  have hnot := (means_paren hv (by decide)).not.bin (by decide)
  obtain ⟨stmt, hparse, hwt, hexec⟩ := hnot.ifGoto (by decide) (inner_word (isWord_labelName n))
  have hif : chars "    if (!(" = indent ++ (ifWord ++ [' ', '(', '!', '(']) := by
    simp [chars, indent, ifWord]
  have hgoto : chars ")) goto label_" = [')', ')', ' '] ++ (gotoWord ++ ' ' :: chars "label_") := by
    simp [chars, gotoWord]
  have hend : chars ";\n" = [';', '\n'] := by simp [chars]
  refine ⟨_, stmt, ?_, hparse, hwt, ?_⟩
  · simp only [emitInstruction, hop, htext, hif, hgoto, hend, labelName]
    simp
  · rw [hexec, actOf, IR.act, hop, ho, evalOperand_eq rt h1]
    by_cases h0 : wordOf regs instr.operand1 = 0
    · simp [IR.truthy, h0, Agrees, IR.labelNumber]
    · have hne : (wordOf regs instr.operand1).toInt ≠ 0 := fun h => h0 (toInt_eq_zero.mp h)
      have htruthy : IR.truthy rt (.word (wordOf regs instr.operand1)) = true :=
        bne_iff_ne.mpr h0
      simp [htruthy, hne, Agrees]

end

/-! ## Every instruction -/

section
variable {W : Type} (rt : IR.Runtime W) (l : IR.Locals) (world : W)

theorem BinaryOk.emitArith_eq (h : BinaryOk backend regs env instr) (op : String) :
    emitArith backend op instr =
      generateRegAssign backend instr.dest (binaryText backend "(uintptr_t)" op instr) := by
  simp [emitArith, isFloatOperation_int h.function h.operand1 h.operand2]

theorem BinaryOk.emitEquality_eq (h : BinaryOk backend regs env instr) (op : String) :
    emitEquality backend op instr = emitCompare backend "(uintptr_t)" op instr := by
  simp [emitEquality, isStringOperand_int h.function h.operand1]

theorem spelled_add : Spelled " + " .add := ⟨['+', ' '], _, _, by simp [chars], rfl, rfl⟩
theorem spelled_sub : Spelled " - " .sub := ⟨['-', ' '], _, _, by simp [chars], rfl, rfl⟩
theorem spelled_mul : Spelled " * " .mul := ⟨['*', ' '], _, _, by simp [chars], rfl, rfl⟩
theorem spelled_band : Spelled " & " .band := ⟨['&', ' '], _, _, by simp [chars], rfl, rfl⟩
theorem spelled_bor : Spelled " | " .bor := ⟨['|', ' '], _, _, by simp [chars], rfl, rfl⟩
theorem spelled_bxor : Spelled " ^ " .bxor := ⟨['^', ' '], _, _, by simp [chars], rfl, rfl⟩
theorem spelled_eq : Spelled " == " .eq := ⟨['=', '=', ' '], _, _, by simp [chars], rfl, rfl⟩
theorem spelled_ne : Spelled " != " .ne := ⟨['!', '=', ' '], _, _, by simp [chars], rfl, rfl⟩
theorem spelled_lt : Spelled " < " .lt := ⟨['<', ' '], _, _, by simp [chars], rfl, rfl⟩
theorem spelled_le : Spelled " <= " .le := ⟨['<', '=', ' '], _, _, by simp [chars], rfl, rfl⟩
theorem spelled_gt : Spelled " > " .gt := ⟨['>', ' '], _, _, by simp [chars], rfl, rfl⟩
theorem spelled_ge : Spelled " >= " .ge := ⟨['>', '=', ' '], _, _, by simp [chars], rfl, rfl⟩
theorem spelled_shl : Spelled " << " .shl := ⟨['<', '<', ' '], _, _, by simp [chars], rfl, rfl⟩
theorem spelled_shr : Spelled " >> " .shr := ⟨['>', '>', ' '], _, _, by simp [chars], rfl, rfl⟩

/-- Arithmetic and bitwise operators. -/
theorem BinaryOk.arith_meets (h : BinaryOk backend regs env instr)
    (hop : instr.opcode ∈ [IR.IROpcode.add, .sub, .mul, .bitAnd, .bitOr, .bitXor]) :
    Meets backend rt instr regs l world env := by
  have hstr1 := isStringOperand_int h.function h.operand1
  have hstr2 := isStringOperand_int h.function h.operand2
  simp only [List.mem_cons, List.not_mem_nil, or_false] at hop
  rcases hop with hop | hop | hop | hop | hop | hop
  · have hemit : emitInstruction backend instr = some (emitArith backend " + " instr) := by
      simp [emitInstruction, hop, hstr1, hstr2]
    rw [h.emitArith_eq] at hemit
    exact meets_of_assigns hemit (h.act (by rw [hop]; rfl))
      (h.unsigned spelled_add rfl rfl (represents_arith (represents_add _ _)))
  · have hemit : emitInstruction backend instr = some (emitArith backend " - " instr) := by
      simp [emitInstruction, hop]
    rw [h.emitArith_eq] at hemit
    exact meets_of_assigns hemit (h.act (by rw [hop]; rfl))
      (h.unsigned spelled_sub rfl rfl (represents_arith (represents_sub _ _)))
  · have hemit : emitInstruction backend instr = some (emitArith backend " * " instr) := by
      simp [emitInstruction, hop]
    rw [h.emitArith_eq] at hemit
    exact meets_of_assigns hemit (h.act (by rw [hop]; rfl))
      (h.unsigned spelled_mul rfl rfl (represents_arith (represents_mul _ _)))
  · exact meets_of_assigns (by rw [emitInstruction, hop])
      (h.act (by rw [hop]; rfl))
      (h.unsigned spelled_band rfl rfl (represents_bits (· &&& ·) _ _))
  · exact meets_of_assigns (by rw [emitInstruction, hop])
      (h.act (by rw [hop]; rfl))
      (h.unsigned spelled_bor rfl rfl (represents_bits (· ||| ·) _ _))
  · exact meets_of_assigns (by rw [emitInstruction, hop])
      (h.act (by rw [hop]; rfl))
      (h.unsigned spelled_bxor rfl rfl (represents_bits (· ^^^ ·) _ _))

/-- The truth of `p` as C computes it. -/
theorem truth_decide {p : Prop} [Decidable p] {b : Bool} (h : p ↔ b = true) :
    (.ok (truth (decide p)) : Except (Fault DivError) _) = .ok (.i32, if b then 1 else 0) := by
  have : decide p = b := by rw [Bool.eq_iff_iff, decide_eq_true_eq, h]
  rw [this]
  rfl

theorem toNat_eq_iff (a b : Word) : (a.toNat : Int) = b.toNat ↔ (a == b) = true := by
  rw [Int.natCast_inj, BitVec.toNat_inj, beq_iff_eq]

theorem toNat_ne_iff (a b : Word) : (a.toNat : Int) ≠ b.toNat ↔ (a != b) = true := by
  rw [Ne, Int.natCast_inj, BitVec.toNat_inj, bne_iff_ne]

/-- The value of a comparison, for the operator `op` on words and `cop` in C. -/
theorem BinaryOk.compare_meets (h : BinaryOk backend regs env instr) {cast op : String} {ty : Ty}
    {b : Bool}
    (hemit : emitInstruction backend instr = some (emitCompare backend cast op instr))
    (hmeans : MeansBin cTypes env 32 (binaryText backend cast op instr) ty (.ok (if b then 1 else 0)))
    (hop : IR.operator rt instr.opcode instr.line (.word (wordOf regs instr.operand1))
      (.word (wordOf regs instr.operand2)) = some (.ok (IR.ofBool b))) :
    Meets backend rt instr regs l world env :=
  meets_of_assigns hemit (h.act hop) (h.compare hmeans (represents_truth b))

theorem BinaryOk.comparison_meets (h : BinaryOk backend regs env instr)
    (hop : instr.opcode ∈ [IR.IROpcode.eq, .ne, .lt, .le, .gt, .ge]) :
    Meets backend rt instr regs l world env := by
  simp only [List.mem_cons, List.not_mem_nil, or_false] at hop
  rcases hop with hop | hop | hop | hop | hop | hop
  · have hemit : emitInstruction backend instr = some (emitEquality backend " == " instr) := by
      rw [emitInstruction, hop]
    rw [h.emitEquality_eq] at hemit
    exact h.compare_meets rt l world hemit
      (unsigned_means h.declares h.operand1 h.operand2 spelled_eq rfl
        (truth_decide (toNat_eq_iff _ _))) (by rw [hop]; rfl)
  · have hemit : emitInstruction backend instr = some (emitEquality backend " != " instr) := by
      rw [emitInstruction, hop]
    rw [h.emitEquality_eq] at hemit
    exact h.compare_meets rt l world hemit
      (unsigned_means h.declares h.operand1 h.operand2 spelled_ne rfl
        (truth_decide (toNat_ne_iff _ _))) (by rw [hop]; rfl)
  · exact h.compare_meets rt l world (by rw [emitInstruction, hop])
      (signed_means h.declares h.operand1 h.operand2 spelled_lt rfl
        (truth_decide BitVec.slt_iff_toInt_lt.symm)) (by rw [hop]; rfl)
  · exact h.compare_meets rt l world (by rw [emitInstruction, hop])
      (signed_means h.declares h.operand1 h.operand2 spelled_le rfl
        (truth_decide BitVec.sle_iff_toInt_le.symm)) (by rw [hop]; rfl)
  · exact h.compare_meets rt l world (by rw [emitInstruction, hop])
      (signed_means h.declares h.operand1 h.operand2 spelled_gt rfl
        (truth_decide BitVec.slt_iff_toInt_lt.symm)) (by rw [hop]; rfl)
  · exact h.compare_meets rt l world (by rw [emitInstruction, hop])
      (signed_means h.declares h.operand1 h.operand2 spelled_ge rfl
        (truth_decide BitVec.sle_iff_toInt_le.symm)) (by rw [hop]; rfl)

theorem BinaryOk.logic_meets (h : BinaryOk backend regs env instr)
    (hop : instr.opcode = .andOp ∨ instr.opcode = .orOp) :
    Meets backend rt instr regs l world env := by
  obtain ⟨s, -, -, h1⟩ := operand_means h.declares h.operand1
  obtain ⟨t, -, -, h2⟩ := operand_means h.declares h.operand2
  have htruthy : ∀ o, (wordOf regs o).toInt ≠ 0 ↔ IR.truthy rt (.word (wordOf regs o)) = true := by
    intro o
    rw [Ne, toInt_eq_zero, IR.truthy, bne_iff_ne]
  rcases hop with hop | hop
  · have hand := h1.land h2 ['&', '&', ' '] (by decide)
    simp only [htruthy, ← Bool.and_eq_true] at hand
    exact meets_of_assigns (by rw [emitInstruction, hop])
      (h.act (by rw [hop]; rfl))
      (h.logic (by simp [chars]) (by decide) hand)
  · have hor := h1.lor h2 ['|', '|', ' '] (by decide)
    simp only [htruthy, ← Bool.or_eq_true] at hor
    exact meets_of_assigns (by rw [emitInstruction, hop])
      (h.act (by rw [hop]; rfl))
      (h.logic (by simp [chars]) (by decide) hor)

theorem BinaryOk.shift_meets (h : BinaryOk backend regs env instr)
    (hop : instr.opcode = .shl ∨ instr.opcode = .shr) :
    Meets backend rt instr regs l world env := by
  have hlt := and_63_lt (wordOf regs instr.operand2)
  have hdefined : ¬ (((wordOf regs instr.operand2 &&& 63).toNat : Int) < 0 ∨
      64 ≤ ((wordOf regs instr.operand2 &&& 63).toNat : Int)) := by omega
  rcases hop with hop | hop
  · have hv : Lib.C.shift .shl .u64 (wordOf regs instr.operand1).toNat
        (wordOf regs instr.operand2 &&& 63).toNat =
          (.ok (Ty.u64, ((wordOf regs instr.operand1).toNat : Int) *
            2 ^ ((wordOf regs instr.operand2 &&& 63).toNat : Int).toNat % 18446744073709551616) :
            Except (Fault DivError) _) := by
      rw [Lib.C.shift, width, if_neg hdefined, if_neg (by decide), if_pos rfl]
    exact meets_of_assigns (by rw [emitInstruction, hop])
      (h.act (by rw [hop]; rfl))
      (h.shift spelled_shl (castText_unsigned h.declares h.operand1) (by decide) (.inl rfl) hv
        (represents_arith (represents_shl _ _)))
  · have hv : Lib.C.shift .shr .i64 (wordOf regs instr.operand1).toInt
        (wordOf regs instr.operand2 &&& 63).toNat = (.ok (Ty.i64, (wordOf regs instr.operand1).toInt /
          2 ^ ((wordOf regs instr.operand2 &&& 63).toNat : Int).toNat) :
          Except (Fault DivError) _) := by
      rw [Lib.C.shift, width, if_neg hdefined, if_pos rfl]
    exact meets_of_assigns (by rw [emitInstruction, hop])
      (h.act (by rw [hop]; rfl))
      (h.shift spelled_shr (castText_int64 h.declares h.operand1) (by decide) (.inr rfl) hv
        (represents_shr _ _))

theorem BinaryOk.checked_meets (h : BinaryOk backend regs env instr)
    (hline : (instr.line.natAbs : Int) ≤ maxInt64)
    (hop : instr.opcode = .div ∨ instr.opcode = .mod) :
    Meets backend rt instr regs l world env := by
  have hfloat := isFloatOperation_int h.function h.operand1 h.operand2
  rcases hop with hop | hop
  · have hword : isWord (chars "orbit_int_div") = true := by
      rw [chars]
      decide
    have hslash : scan .none (chars "/" ++ [' ']) = ([.punct .slash], .none) := by
      rw [chars]
      decide
    obtain ⟨k, hk, hmeans⟩ :=
      h.division hline hword h.declares.div hslash rfl rfl rfl divides_div
    exact h.meets_division (by simp [emitInstruction, hop, hfloat]) hk hmeans
      (by rw [hop]; rfl)
  · have hword : isWord (chars "orbit_int_mod") = true := by
      rw [chars]
      decide
    have hpercent : scan .none (chars "%" ++ [' ']) = ([.punct .percent], .none) := by
      rw [chars]
      decide
    obtain ⟨k, hk, hmeans⟩ :=
      h.division hline hword h.declares.mod hpercent rfl rfl rfl divides_mod
    exact h.meets_division (by simp [emitInstruction, hop]) hk hmeans
      (by rw [hop]; rfl)

theorem BinaryOk.meets (h : BinaryOk backend regs env instr)
    (hline : (instr.line.natAbs : Int) ≤ maxInt64) (hform : formOf instr.opcode = some .binary) :
    Meets backend rt instr regs l world env := by
  cases hop : instr.opcode with
  | add | sub | mul | bitAnd | bitOr | bitXor => exact h.arith_meets rt l world (by simp [hop])
  | eq | ne | lt | le | gt | ge => exact h.comparison_meets rt l world (by simp [hop])
  | andOp | orOp => exact h.logic_meets rt l world (by simp [hop])
  | shl | shr => exact h.shift_meets rt l world (by simp [hop])
  | div | mod => exact h.checked_meets rt l world hline (by simp [hop])
  | _ =>
    rw [hop] at hform
    cases hform

theorem generateOperand_int {o : IRValue} (ho : IntOperand backend o) :
    generateOperand backend o = generateValue backend o := by
  cases o with
  | sym s => exact ho.elim
  | _ => rfl

theorem UnaryOk.meets (h : UnaryOk backend regs env instr)
    (hform : formOf instr.opcode = some .unary) (hneg : instr.opcode ≠ .neg) :
    Meets backend rt instr regs l world env := by
  cases hop : instr.opcode with
  | loadConst =>
    have hoperand := generateOperand_int h.operand1
    refine meets_of_assigns ?_ (h.act (fun b => by rw [hop]; rfl)) h.copy
    rw [emitInstruction, hop, hoperand]
  | copy =>
    exact meets_of_assigns (by rw [emitInstruction, hop])
      (h.act (fun b => by rw [hop]; rfl)) h.copy
  | bitNot =>
    exact meets_of_assigns (by rw [emitInstruction, hop])
      (h.act (fun b => by rw [hop]; rfl)) h.complement
  | notOp =>
    have hvalue : IR.ofBool (!IR.truthy rt (.word (wordOf regs instr.operand1))) =
        .word (if wordOf regs instr.operand1 = 0 then 1 else 0) := by
      by_cases h0 : wordOf regs instr.operand1 = 0 <;> simp [IR.truthy, IR.ofBool, h0]
    refine meets_of_assigns (by rw [emitInstruction, hop]) (h.act fun b => ?_) h.not
    rw [hop, ← hvalue]
    rfl
  | neg => exact absurd hop hneg
  | _ =>
    rw [hop] at hform
    cases hform

/-- **Integer instructions in C.** The C statement of an integer instruction satisfies the
constraints of the language, has no undefined behaviour and does what the instruction does, except
the negation of the minimum and of a negative constant. -/
theorem emitInstruction_meets (hf : IntFunction backend) (hd : Declares backend regs env)
    (hi : IntInstruction backend instr) :
    Meets backend rt instr regs l world env ↔
      (instr.opcode = .neg → NegSafe regs instr.operand1) := by
  obtain ⟨hform, hline⟩ := hi
  by_cases hneg : instr.opcode = .neg
  · rw [hneg] at hform
    obtain ⟨hdest, h1⟩ := hform
    have hok : UnaryOk backend regs env instr := ⟨hf, hd, hdest, h1⟩
    rw [hok.neg_meets hneg]
    exact ⟨fun h _ => h, fun h => h hneg⟩
  · refine ⟨fun _ h => absurd h hneg, fun _ => ?_⟩
    cases hfo : formOf instr.opcode with
    | none =>
      rw [hfo] at hform
      exact hform.elim
    | some form =>
      rw [hfo] at hform
      cases form with
      | unary => exact UnaryOk.meets rt l world ⟨hf, hd, hform.1, hform.2⟩ hfo hneg
      | binary =>
        obtain ⟨hdest, h1, h2⟩ := hform
        exact BinaryOk.meets rt l world ⟨⟨hf, hd, hdest, h1⟩, h2⟩ hline hfo
      | place =>
        cases hop : instr.opcode with
        | label => exact label_meets hop hform
        | jump => exact jump_meets hop hform
        | _ =>
          rw [hop] at hfo
          cases hfo
      | branch =>
        cases hop : instr.opcode with
        | jumpIfFalse => exact jumpIfFalse_meets hd hop hform.1 hform.2
        | _ =>
          rw [hop] at hfo
          cases hfo

end

end

/-! ## Negations that go wrong -/

/-- A function with one register. -/
def oneRegister : CBackend where
  module := { IR.initIRModule with sourceName := "main.orb" }
  currentFunction := { IR.initIRFunction "f" with registerTypes := ["int"] }
  strRegs := []
  strVars := []
  refLabels := []
  floatText _ := []
  cSymbolText _ := []
  mapTypeToC _ := []

/-- Its register holds `w`. -/
def oneEnv (w : Word) : Env DivError where
  vars x := if x = regName 0 then some (.i64, w.toInt) else none
  funs f :=
    if f = chars "orbit_int_div" then some (checkedFun .div)
    else if f = chars "orbit_int_mod" then some (checkedFun .mod) else none

def negOf (o : IRValue) : IRInstruction :=
  { IR.irInitInstr .neg with dest := 0, operand1 := o }

def noLocals : IR.Locals := ⟨fun _ => .word 0, [], fun _ => 0, []⟩

theorem oneRegister_int : IntFunction oneRegister := by
  refine ⟨by decide, rfl, fun t ht => ?_⟩
  have h1 : t ≠ "TokType" := intType_ne ht (by decide)
  have h2 : t ≠ "TokTypeTag" := intType_ne ht (by decide)
  simp [isEnumType, oneRegister, IR.initIRModule, h1, h2]

theorem oneEnv_declares (w : Word) : Declares oneRegister (fun _ => w) (oneEnv w) := by
  have hint : cType "int" = .i64 := by decide
  have hreg : ∀ (n : Nat) t, oneRegister.currentFunction.registerTypes[n]? = some t →
      n = 0 ∧ t = "int" := by
    intro n t h
    obtain ⟨hn, ht⟩ := List.getElem?_eq_some_iff.mp h
    have hn : n < 1 := hn
    obtain rfl : n = 0 := by omega
    exact ⟨rfl, ht.symm⟩
  constructor
  · exact if_pos rfl
  · simp [oneEnv, chars]
  · intro n t h
    obtain ⟨rfl, rfl⟩ := hreg n t h
    rw [hint]
    exact if_pos rfl
  · intro n t h hbool
    obtain ⟨rfl, rfl⟩ := hreg n t h
    rw [hint] at hbool
    cases hbool

theorem negOf_ok {o : IRValue} (ho : IntOperand oneRegister o) :
    IntInstruction oneRegister (negOf o) := by
  have hdest : DestOk oneRegister 0 := by
    constructor
    · decide
    · decide
  have hline : ((0 : Int).natAbs : Int) ≤ maxInt64 := by decide
  exact ⟨⟨hdest, ho⟩, hline⟩

/-- The register holds 5: `r_0 = -r_0;` is what the instruction does. -/
theorem negRegister_meets :
    Meets oneRegister IR.inertRuntime (negOf (.register 0)) (fun _ => 5) noLocals () (oneEnv 5) := by
  have ho : IntOperand oneRegister (.register 0) := by
    right
    decide
  refine (emitInstruction_meets IR.inertRuntime noLocals () oneRegister_int (oneEnv_declares 5)
    (negOf_ok ho)).mpr fun _ => ⟨by decide, fun w hw => ?_⟩
  cases hw

/-- The negation of the constant -5 is emitted as `r_0 = --5;`, which is no C. -/
theorem negConstant_differs :
    IntFunction oneRegister ∧ Declares oneRegister (fun _ => 0) (oneEnv 0) ∧
      IntInstruction oneRegister (negOf (.int (-5))) ∧
      ¬ Meets oneRegister IR.inertRuntime (negOf (.int (-5))) (fun _ => 0) noLocals ()
        (oneEnv 0) := by
  have hi := negOf_ok (o := .int (-5)) trivial
  refine ⟨oneRegister_int, oneEnv_declares 0, hi, fun hmeets => ?_⟩
  obtain ⟨hdest, h1⟩ := hi.form
  have hok : UnaryOk oneRegister (fun _ => 0) (oneEnv 0) (negOf (.int (-5))) :=
    ⟨oneRegister_int, oneEnv_declares 0, hdest, h1⟩
  have := ((hok.neg_meets rfl).mp hmeets).constant (-5) rfl
  exact absurd this (by decide)

end Emit
