import Orbit.Emit.Proof.Operand
import Orbit.IR.Reach

/-!
# The forms of an integer instruction in C

One lemma for each form of text the backend emits for an instruction with one operand (`UnaryOk`)
or two (`BinaryOk`): an operator on words, a comparison, a logical operator, a shift, a checked
division, a copy, a complement and a negation.
-/

namespace Emit

open IR (IRInstruction IRValue Word)
open Lib.C
open Lib.Decimal
open Lib.Text (chars intToString)

section
variable {backend : CBackend} {regs : Int → Word} {env : Env DivError} {instr : IRInstruction}

/-! ## Words under the operators -/

theorem represents_bits (op : Word → Word → Word) (a b : Word) :
    Represents (conv .u64 (op (BitVec.ofInt 64 a.toNat) (BitVec.ofInt 64 b.toNat)).toInt)
      (op a b) := by
  rw [conv_unsigned_toInt]
  simpa using represents_toNat (op a b)

theorem conv_idem (v : Int) : conv .u64 v % 18446744073709551616 = conv .u64 v :=
  Int.emod_emod_of_dvd v (dvd_refl _)

theorem represents_truth (b : Bool) : Represents (if b then 1 else 0) (if b then 1 else 0) := by
  cases b <;> rfl

theorem represents_arith {v : Int} {w : Word} (h : Represents v w) :
    Represents (v % 18446744073709551616) w := by
  rw [Represents, Int.emod_emod_of_dvd v (dvd_refl _)]
  exact h

theorem represents_add (a b : Word) : Represents (a.toNat + b.toNat) (a + b) := by
  rw [Represents, BitVec.toNat_add]
  norm_cast

theorem represents_mul (a b : Word) : Represents (a.toNat * b.toNat) (a * b) := by
  rw [Represents, BitVec.toNat_mul]
  norm_cast

theorem represents_sub (a b : Word) : Represents (a.toNat - b.toNat) (a - b) := by
  have ha := a.isLt
  have hb := b.isLt
  rw [Represents, BitVec.toNat_sub]
  omega

theorem represents_shl (a c : Word) :
    Represents (a.toNat * 2 ^ (c.toNat : Int).toNat) (a <<< c) := by
  rw [Represents, BitVec.shiftLeft_eq', BitVec.toNat_shiftLeft, Nat.shiftLeft_eq, Int.toNat_natCast]
  norm_cast

theorem represents_shr (a c : Word) :
    Represents (a.toInt / 2 ^ (c.toNat : Int).toNat) (a.sshiftRight' c) := by
  have h : a.toInt / 2 ^ c.toNat = (a.sshiftRight' c).toInt := by
    rw [BitVec.toInt_sshiftRight', Int.shiftRight_eq_div_pow]
    norm_cast
  rw [Int.toNat_natCast, h]
  exact represents_toInt _

theorem and_63_lt (b : Word) : (b &&& 63).toNat < 64 := by
  have : (b &&& 63).toNat ≤ 63 := by
    rw [BitVec.toNat_and]
    exact Nat.and_le_right
  omega

/-! ## The texts -/

/-- The text is the C operator between blanks. -/
def Spelled (op : String) (cop : Bin) : Prop :=
  ∃ mid p prec, chars op = ' ' :: mid ∧ scan .none mid = ([.punct p], .none) ∧
    binOf p = some (cop, prec)

/-- Two operands under the same cast. -/
theorem binaryText_means {k : Nat} {cast op : String} {s : Ty} {x y v : Int} {cop : Bin}
    (hop : Spelled op cop) (h1 : Means cTypes env k (castText backend cast instr.operand1) s (.ok x))
    (h2 : Means cTypes env k (castText backend cast instr.operand2) s (.ok y))
    (hcommon : cop.isCommon = true)
    (hs : common (promote s) (promote s) = s) (hx : conv s x = x) (hy : conv s y = y)
    (hv : binCommon cop s x y = (.ok (cop.type s, v) : Except (Fault DivError) _)) :
    MeansBin cTypes env (k + k + 4) (binaryText backend cast op instr) (cop.type s) (.ok v) := by
  obtain ⟨mid, p, prec, hchars, hmid, hbin⟩ := hop
  have := h1.binary h2 hbin hmid hcommon hs (by rw [hx, hy]; exact hv)
  rw [binaryText, hchars]
  simpa using this

section
variable (hf : IntFunction backend) (hd : Declares backend regs env)
variable (h1 : IntOperand backend instr.operand1) (h2 : IntOperand backend instr.operand2)

include hd h1 h2 in
theorem unsigned_means {op : String} {v : Int} {cop : Bin} (hop : Spelled op cop)
    (hcommon : cop.isCommon = true)
    (hv : binCommon cop .u64 (wordOf regs instr.operand1).toNat (wordOf regs instr.operand2).toNat =
      (.ok (cop.type .u64, v) : Except (Fault DivError) _)) :
    MeansBin cTypes env 32 (binaryText backend "(uintptr_t)" op instr) (cop.type .u64) (.ok v) :=
  binaryText_means hop (castText_unsigned hd h1) (castText_unsigned hd h2) hcommon rfl
    (conv_unsigned_toNat _) (conv_unsigned_toNat _) hv

include hd h1 h2 in
theorem signed_means {op : String} {v : Int} {cop : Bin} (hop : Spelled op cop)
    (hcommon : cop.isCommon = true)
    (hv : binCommon cop .i64 (wordOf regs instr.operand1).toInt (wordOf regs instr.operand2).toInt =
      (.ok (cop.type .i64, v) : Except (Fault DivError) _)) :
    MeansBin cTypes env 32 (binaryText backend "(intptr_t)" op instr) (cop.type .i64) (.ok v) :=
  binaryText_means hop (castText_signed hd h1) (castText_signed hd h2) hcommon rfl
    (conv_signed_toInt _) (conv_signed_toInt _) hv

end

/-- The text is a statement that assigns `w` to the destination. -/
def Assigns (backend : CBackend) (env : Env DivError) (instr : IRInstruction) (w : Word)
    (text : Text) : Prop :=
  ∃ stmt, parse cTypes text = some stmt ∧ stmt.WellTyped env ∧ exec env stmt =
    .ok (.assign (regName instr.dest.toNat) (held (registerType backend instr.dest) w))

theorem assigns_cast {k : Nat} {val : Text} {ty : Ty} {v : Int} {w : Word}
    (hdest : DestOk backend instr.dest) (hf : IntFunction backend) (hd : Declares backend regs env)
    (h : MeansBin cTypes env k val ty (.ok v)) (hk : k ≤ 90) (hw : Represents v w) :
    Assigns backend env instr w (generateRegAssign backend instr.dest val) := by
  obtain ⟨stmt, hparse, hwt, hexec⟩ := assign_cast hdest hf hd h hk
  refine ⟨stmt, hparse, hwt, hexec.trans ?_⟩
  simp only [Except.map, hw.conv_eq, held]

/-! ## No operand is a float or a string -/

theorem intType_ne {t : String} (h : isIntType t = true) {u : String} (hu : isIntType u = false) :
    t ≠ u := by
  rintro rfl
  rw [h] at hu
  cases hu

theorem operandDefType_ne_float (hf : IntFunction backend) {o : IRValue}
    (ho : IntOperand backend o) :
    (operandDefType backend.currentFunction o == "float") = false := by
  cases o with
  | register n =>
    rw [operandDefType, beq_eq_false_iff_ne]
    by_cases hn : n < 0
    · simp [hn]
    · have hlt : n.toNat < backend.currentFunction.registerTypes.length := ho.resolve_left hn
      have hint := hf.types _ (List.getElem_mem hlt)
      simp only [if_neg hn, List.getD_eq_getElem _ _ hlt]
      split
      · exact intType_ne hint (by decide)
      · decide
  | int w => rfl
  | _ => exact ho.elim

theorem isStringOperand_int (hf : IntFunction backend) {o : IRValue} (ho : IntOperand backend o) :
    isStringOperand backend o = false := by
  cases o with
  | register n =>
    rw [isStringOperand, hf.strRegs, registerType]
    by_cases hn : n < 0
    · simp [hn]
    · have hlt : n.toNat < backend.currentFunction.registerTypes.length := ho.resolve_left hn
      have hint := hf.types _ (List.getElem_mem hlt)
      have hne := intType_ne hint (u := "string") (by decide)
      simp [hn, hlt, hne]
  | int w => rfl
  | _ => exact ho.elim

theorem isFloatOperation_int (hf : IntFunction backend) (h1 : IntOperand backend instr.operand1)
    (h2 : IntOperand backend instr.operand2) : isFloatOperation backend instr = false := by
  rw [isFloatOperation, operandDefType_ne_float hf h1, operandDefType_ne_float hf h2]
  rfl

/-! ## Meeting the instruction -/

section
variable {W : Type} {rt : IR.Runtime W} {l : IR.Locals} {world : W}

theorem meets_of_assigns {text : Text} {w : Word} (hemit : emitInstruction backend instr = some text)
    (hact : actOf backend rt instr regs l world = .step (some (.word w)) l world [])
    (h : Assigns backend env instr w text) : Meets backend rt instr regs l world env := by
  obtain ⟨stmt, hparse, hwt, hexec⟩ := h
  refine ⟨text, stmt, hemit, hparse, hwt, ?_⟩
  rw [hact]
  exact hexec

/-- The function, the destination and the operand of an instruction with one operand. -/
structure UnaryOk (backend : CBackend) (regs : Int → Word) (env : Env DivError)
    (instr : IRInstruction) : Prop where
  function : IntFunction backend
  declares : Declares backend regs env
  dest : DestOk backend instr.dest
  operand1 : IntOperand backend instr.operand1

structure BinaryOk (backend : CBackend) (regs : Int → Word) (env : Env DivError)
    (instr : IRInstruction) : Prop extends UnaryOk backend regs env instr where
  operand2 : IntOperand backend instr.operand2

theorem UnaryOk.act (h : UnaryOk backend regs env instr) {v : IR.Val}
    (hop : ∀ b, IR.operator rt instr.opcode instr.line (.word (wordOf regs instr.operand1)) b =
      some (.ok v)) :
    actOf backend rt instr regs l world = .step (some v) l world [] := by
  rw [actOf, evalOperand_eq rt h.operand1]
  exact IR.act_operator (hop _)

theorem BinaryOk.act (h : BinaryOk backend regs env instr) {v : IR.Val}
    (hop : IR.operator rt instr.opcode instr.line (.word (wordOf regs instr.operand1))
      (.word (wordOf regs instr.operand2)) = some (.ok v)) :
    actOf backend rt instr regs l world = .step (some v) l world [] := by
  rw [actOf, evalOperand_eq rt h.operand1, evalOperand_eq rt h.operand2]
  exact IR.act_operator hop

theorem BinaryOk.act_trap (h : BinaryOk backend regs env instr) {t : IR.Trap}
    (hop : IR.operator rt instr.opcode instr.line (.word (wordOf regs instr.operand1))
      (.word (wordOf regs instr.operand2)) = some (.error t)) :
    actOf backend rt instr regs l world = .trap t := by
  rw [actOf, evalOperand_eq rt h.operand1, evalOperand_eq rt h.operand2]
  exact IR.act_operator_trap hop

/-- An operator on `uintptr_t`. -/
theorem BinaryOk.unsigned (h : BinaryOk backend regs env instr) {op : String} {v : Int} {w : Word}
    {cop : Bin} (hop : Spelled op cop) (hcommon : cop.isCommon = true)
    (hv : binCommon cop .u64 (wordOf regs instr.operand1).toNat (wordOf regs instr.operand2).toNat =
      (.ok (cop.type .u64, v) : Except (Fault DivError) _)) (hw : Represents v w) :
    Assigns backend env instr w
      (generateRegAssign backend instr.dest (binaryText backend "(uintptr_t)" op instr)) :=
  assigns_cast h.dest h.function h.declares
    (unsigned_means h.declares h.operand1 h.operand2 hop hcommon hv) (by decide) hw

/-- A comparison, in parentheses. -/
theorem BinaryOk.compare (h : BinaryOk backend regs env instr) {cast op : String} {ty : Ty} {v : Int}
    {w : Word} (hmeans : MeansBin cTypes env 32 (binaryText backend cast op instr) ty (.ok v))
    (hw : Represents v w) : Assigns backend env instr w (emitCompare backend cast op instr) := by
  have hfloat := isFloatOperation_int h.function h.operand1 h.operand2
  have hbin := hmeans.paren.bin (by decide)
  rw [emitCompare]
  simp only [hfloat, Bool.false_eq_true, if_false]
  exact assigns_cast h.dest h.function h.declares hbin (by decide) hw

/-- A shift by the count modulo 64. -/
theorem BinaryOk.shift (h : BinaryOk backend regs env instr) {cast op : String} {s : Ty} {k : Nat}
    {x v : Int} {w : Word} {cop : Bin} (hop : Spelled op cop)
    (hcast : Means cTypes env k (castText backend cast instr.operand1) s (.ok x)) (hk : k ≤ 15)
    (hshift : cop = .shl ∨ cop = .shr)
    (hv : Lib.C.shift cop (promote s) x (wordOf regs instr.operand2 &&& 63).toNat =
      (.ok (promote s, v) : Except (Fault DivError) _)) (hw : Represents v w) :
    Assigns backend env instr w (emitShift backend cast op instr) := by
  obtain ⟨mid, p, prec, hchars, hmid, hbin⟩ := hop
  have hcount : MeansBin cTypes env 20
      (castText backend "(uintptr_t)" instr.operand2 ++ (' ' :: (['&', ' '] ++ ['6', '3']))) .u64
      (.ok (wordOf regs instr.operand2 &&& 63).toNat) := by
    refine (castText_unsigned h.declares h.operand2).binary (means_digits (n := 63) (by decide))
      (p := .amp) rfl (by decide) rfl rfl ?_
    have h63 : conv .u64 (63 : Nat) = ((63 : Word).toNat : Int) := rfl
    rw [conv_unsigned_toNat, h63, binCommon, bits]
    have hbits := represents_bits (· &&& ·) (wordOf regs instr.operand2) 63
    rw [Represents, conv_idem] at hbits
    rw [hbits]
    rfl
  have hmeans := hcast.shift hcount.paren hbin hmid hshift hv
  have htext : castText backend cast instr.operand1 ++ (' ' :: (mid ++
      ('(' :: (castText backend "(uintptr_t)" instr.operand2 ++ (' ' :: (['&', ' '] ++ ['6', '3'])) ++
        [')'])))) =
      castText backend cast instr.operand1 ++ chars op ++
        '(' :: (castText backend "(uintptr_t)" instr.operand2 ++ chars " & 63)") := by
    have h63 : chars " & 63)" = [' ', '&', ' ', '6', '3', ')'] := by simp [chars]
    rw [hchars, h63]
    simp
  rw [htext] at hmeans
  exact assigns_cast h.dest h.function h.declares hmeans (by omega) hw

/-- A logical operator, on the bare operands. -/
theorem BinaryOk.logic (h : BinaryOk backend regs env instr) {op : String} {mid : Text} {ty : Ty}
    {b : Bool} (hop : chars op = ' ' :: mid) {k : Nat} (hk : k ≤ 90)
    (hmeans : MeansBin cTypes env k (generateValue backend instr.operand1 ++ (' ' :: (mid ++
      generateValue backend instr.operand2))) ty (.ok (if b then 1 else 0))) :
    Assigns backend env instr (if b then 1 else 0) (emitLogic backend op instr) := by
  have hbin := hmeans.paren.bin (by omega)
  have hafter : chars ");\n" = [')'] ++ [';', '\n'] := by simp [chars]
  have htext : '(' :: (generateValue backend instr.operand1 ++ (' ' :: (mid ++
      generateValue backend instr.operand2)) ++ [')']) =
      ['('] ++ ((generateValue backend instr.operand1 ++ chars op ++
        generateValue backend instr.operand2) ++ [')']) := by
    rw [hop]
    simp
  rw [htext] at hbin
  have hdepth : k + 2 + 1 ≤ depth := by
    rw [depth]
    omega
  obtain ⟨stmt, hparse, hwt, hexec⟩ := assign_means h.dest h.declares hafter hbin hdepth
  refine ⟨stmt, hparse, hwt, hexec.trans ?_⟩
  cases b <;> rfl

/-! ## Division -/

/-- An escaped text is the body of a string literal. -/
theorem scan_escapeString (t acc : Text) :
    scan (.str acc) (escapeString t) = ([], .str (acc ++ escapeString t)) := by
  induction t generalizing acc with
  | nil => simp [escapeString, scan]
  | cons c t ih =>
    have hone : scan (.str acc) (escapeString.escape c) =
        ([], .str (acc ++ escapeString.escape c)) := by
      have hesc : chars "\\x1b" = ['\\', 'x', '1', 'b'] := by simp [chars]
      rw [escapeString.escape]
      split_ifs with h1 h2 h3 h4 h5 h6 <;> simp [scan, step, *]
    rw [escapeString, scan_append, hone, ih]
    simp

theorem means_line {line : Int} (h : (line.natAbs : Int) ≤ maxInt64) :
    ∃ ty, Means cTypes env 3 (intToString line) ty (.ok line) := by
  rw [intToString]
  by_cases hneg : line < 0
  · have : Means cTypes env 3 ('-' :: Nat.toDigits 10 line.natAbs) _
        (.ok (-(line.natAbs : Int))) := means_negative h
    rw [show -((line.natAbs : Nat) : Int) = line by omega] at this
    rw [if_pos hneg]
    exact ⟨_, this⟩
  · have : Means cTypes env 2 (Nat.toDigits 10 line.natAbs) _ (.ok (line.natAbs : Int)) :=
      means_digits h
    rw [show ((line.natAbs : Nat) : Int) = line by omega] at this
    rw [if_neg hneg]
    exact ⟨_, this.mono (by decide)⟩

/-- What a checked division by `op` ends in. -/
def quotient (op : Word → Word → Word) (e : Int → DivError) (a b : Word) :
    Except (Fault DivError) Int :=
  if b = 0 then .error (.stops (e 0))
  else if a = BitVec.intMin 64 ∧ b = -1 then .error (.stops (e 1))
  else .ok (op a b).toInt

/-- The C operator `cop` is the word operator `op` where it is defined. -/
def Divides (cop : Bin) (op : Word → Word → Word) : Prop :=
  ∀ a b : Word, b ≠ 0 → ¬ (a = BitVec.intMin 64 ∧ b = -1) →
    binCommon cop .i64 a.toInt b.toInt = (.ok (.i64, (op a b).toInt) : Except (Fault DivError) _)

theorem toInt_eq_zero {b : Word} : b.toInt = 0 ↔ b = 0 := by
  constructor
  · intro h
    exact BitVec.eq_of_toInt_eq (h.trans (by decide))
  · rintro rfl
    rfl

theorem divides_div : Divides .div BitVec.sdiv := by
  intro a b hb hmin
  have hquot : (a.sdiv b).toInt = a.toInt.tdiv b.toInt :=
    BitVec.toInt_sdiv_of_ne_or_ne a b (not_and_or.mp hmin)
  have hfits := fits_toInt (a.sdiv b)
  rw [hquot] at hfits
  rw [binCommon, if_neg (fun h => hb (toInt_eq_zero.mp h)), arith, if_neg (by decide), if_pos hfits,
    hquot]

theorem divides_mod : Divides .mod BitVec.srem := by
  intro a b hb hmin
  have hquot : (a.sdiv b).toInt = a.toInt.tdiv b.toInt :=
    BitVec.toInt_sdiv_of_ne_or_ne a b (not_and_or.mp hmin)
  have hfits := fits_toInt (a.sdiv b)
  rw [hquot] at hfits
  have harith : (arith .i64 (a.toInt.tdiv b.toInt) : Except (Fault DivError) _) =
      .ok (.i64, a.toInt.tdiv b.toInt) := by
    rw [arith, if_neg (by decide), if_pos hfits]
  rw [binCommon, if_neg (fun h => hb (toInt_eq_zero.mp h)), harith, BitVec.toInt_srem]

/-- The unsigned compare of the checked division finds the divisors 0 and -1. -/
theorem risky_divisor (b : Word) :
    (b.toInt % wordSize + 1) % wordSize ≤ 1 ↔ b = 0 ∨ b = -1 := by
  have hb : b.toInt % wordSize = b.toNat := conv_unsigned_toInt b
  have h0 : b = 0 ↔ b.toNat = 0 :=
    ⟨fun h => by rw [h]; rfl, fun h => BitVec.eq_of_toNat_eq h⟩
  have h1 : b = -1 ↔ b.toNat = 18446744073709551615 :=
    ⟨fun h => by rw [h]; rfl, fun h => BitVec.eq_of_toNat_eq h⟩
  have hlt := b.isLt
  rw [hb, h0, h1, wordSize]
  omega

theorem checkedBody_eq {cop : Bin} {op : Word → Word → Word} (hop : Divides cop op) (a b : Word)
    (file : Text) (line : Int) :
    checkedBody cop a.toInt b.toInt file line = quotient op (fun k => ⟨file, line, k⟩) a b := by
  have hmin : a.toInt = minInt ↔ a = BitVec.intMin 64 :=
    ⟨fun h => eq_intMin h, fun h => by rw [h]; rfl⟩
  rw [checkedBody, quotient]
  simp only [risky_divisor, toInt_eq_zero, hmin]
  by_cases hb : b = 0
  · simp [hb]
  · by_cases ho : a = BitVec.intMin 64 ∧ b = -1
    · simp [ho]
    · have hno : ¬ ((b = 0 ∨ b = -1) ∧ a = BitVec.intMin 64) := by
        rintro ⟨h0 | h1, ha⟩
        · exact hb h0
        · exact ho ⟨ha, h1⟩
      rw [if_neg (fun h => hb h.2), if_neg hno, if_neg hb, if_neg ho, hop a b hb ho]
      rfl

/-- The checked division as it is called: on the operands, the source file and the line. -/
theorem BinaryOk.checked (h : BinaryOk backend regs env instr) {helper : String} {cop : Bin}
    {wop : Word → Word → Word} (hline : (instr.line.natAbs : Int) ≤ maxInt64)
    (hhelper : isWord (chars helper) = true)
    (hfun : env.funs (chars helper) = some (checkedFun cop)) (hdiv : Divides cop wop) :
    Means cTypes env 45 (chars helper ++ '(' ::
      (castText backend "(orbit_int)(uintptr_t)" instr.operand1 ++ chars ", " ++
        castText backend "(orbit_int)(uintptr_t)" instr.operand2 ++ chars ", \"" ++
        escapeString backend.module.sourceName.toList ++ chars "\", " ++ intToString instr.line ++
        [')'])) .i64
      (quotient wop (fun k => ⟨escapeString backend.module.sourceName.toList, instr.line, k⟩)
        (wordOf regs instr.operand1) (wordOf regs instr.operand2)) := by
  obtain ⟨ty, hl⟩ : ∃ ty, Means cTypes env 3 (intToString instr.line) ty (.ok instr.line) :=
    means_line hline
  have hlast := ((hl.bin (by decide)).lastArg (s := .i64)).str
    (scan_escapeString backend.module.sourceName.toList [])
  have h2 := ((castText_orbitInt h.declares h.operand2).bin (by decide)).arg (s := .i64) hlast
  have h1 := ((castText_orbitInt h.declares h.operand1).bin (by decide)).arg (s := .i64) h2
  have hcall := MeansArgs.call (g := checkedFun cop) h1 hfun hhelper
  have hconv : conv .i64 instr.line = instr.line := by
    rw [maxInt64] at hline
    rw [conv_i64]
    exact Int.bmod_eq_of_le (by omega) (by omega)
  have hrun : (checkedFun cop).run [.int (conv .i64 (wordOf regs instr.operand1).toInt),
      .int (conv .i64 (wordOf regs instr.operand2).toInt),
      .str (escapeString backend.module.sourceName.toList), .int (conv .i64 instr.line)] =
      quotient wop (fun k => ⟨escapeString backend.module.sourceName.toList, instr.line, k⟩)
        (wordOf regs instr.operand1) (wordOf regs instr.operand2) := by
    rw [conv_signed_toInt, conv_signed_toInt, hconv]
    exact checkedBody_eq hdiv _ _ _ _
  rw [hrun] at hcall
  have hcomma : chars ", " = [',', ' '] := by simp [chars]
  have hquote : chars ", \"" = [',', ' ', '"'] := by simp [chars]
  have hclose : chars "\", " = ['"', ',', ' '] := by simp [chars]
  rw [hcomma, hquote, hclose]
  simpa [checkedFun] using hcall

/-- A division, checked where it can fail: the C text ends in the quotient or in the call of
`orbit_div_error`. -/
theorem BinaryOk.division (h : BinaryOk backend regs env instr) {helper op : String} {p : Punct}
    {cop : Bin} {wop : Word → Word → Word} {prec : Nat}
    (hline : (instr.line.natAbs : Int) ≤ maxInt64) (hhelper : isWord (chars helper) = true)
    (hfun : env.funs (chars helper) = some (checkedFun cop))
    (hop : scan .none (chars op ++ [' ']) = ([.punct p], .none))
    (hbin : binOf p = some (cop, prec)) (hcommon : cop.isCommon = true)
    (htype : cop.type .i64 = .i64) (hdiv : Divides cop wop) :
    ∃ k ≤ 90, MeansBin cTypes env k (checkedDivision backend helper op instr) .i64
      (quotient wop (fun k => ⟨escapeString backend.module.sourceName.toList, instr.line, k⟩)
        (wordOf regs instr.operand1) (wordOf regs instr.operand2)) := by
  have hchecked := (h.checked hline hhelper hfun hdiv).bin (by decide)
  rw [checkedDivision]
  by_cases hconst : ∃ d, instr.operand2 = .int d ∧ d ≠ 0 ∧ d ≠ -1
  · obtain ⟨d, hd, h0, h1⟩ := hconst
    have hw : wordOf regs instr.operand2 = d := by rw [hd, wordOf]
    have hquot : quotient wop
        (fun k => ⟨escapeString backend.module.sourceName.toList, instr.line, k⟩)
        (wordOf regs instr.operand1) (wordOf regs instr.operand2) =
        .ok (wop (wordOf regs instr.operand1) d).toInt := by
      rw [quotient, hw, if_neg h0, if_neg (fun h => h1 h.2)]
    have hv : binCommon cop .i64 (conv .i64 (wordOf regs instr.operand1).toInt)
        (conv .i64 (wordOf regs instr.operand2).toInt) =
        (.ok (cop.type .i64, (wop (wordOf regs instr.operand1) d).toInt) :
          Except (Fault DivError) _) := by
      rw [conv_signed_toInt, conv_signed_toInt, hw, htype]
      exact hdiv _ _ h0 (fun h => h1 h.2)
    have hbare := Means.binary (s := .i64) (castText_orbitInt h.declares h.operand1)
      (castText_orbitInt h.declares h.operand2) hbin hop hcommon rfl hv
    rw [htype] at hbare
    refine ⟨34, by decide, ?_⟩
    have hsafe : (decide (d ≠ 0) && decide (d ≠ -1)) = true := by
      simp only [Bool.and_eq_true, decide_eq_true_eq]
      exact ⟨h0, h1⟩
    rw [hquot, hd]
    rw [hd, List.append_assoc, List.singleton_append] at hbare
    simp only [if_pos hsafe]
    exact hbare
  · refine ⟨46, by decide, ?_⟩
    cases ho : instr.operand2 with
    | int d =>
      have hrisky : ¬ ((d ≠ 0 && d ≠ -1) = true) := by
        simp only [Bool.and_eq_true, decide_eq_true_eq]
        exact fun hne => hconst ⟨d, ho, hne⟩
      simp only [if_neg hrisky]
      rwa [ho] at hchecked
    | _ =>
      simp only
      rwa [ho] at hchecked

/-- The trap an instruction stops with, as `orbit_div_error` is called. -/
theorem BinaryOk.meets_division (h : BinaryOk backend regs env instr) {val : Text} {k : Nat}
    {wop : Word → Word → Word}
    (hemit : emitInstruction backend instr = some (generateRegAssign backend instr.dest val))
    (hk : k ≤ 90) (hval : MeansBin cTypes env k val .i64
      (quotient wop (fun k => ⟨escapeString backend.module.sourceName.toList, instr.line, k⟩)
        (wordOf regs instr.operand1) (wordOf regs instr.operand2)))
    (hop : IR.operator rt instr.opcode instr.line (.word (wordOf regs instr.operand1))
      (.word (wordOf regs instr.operand2)) = some (IR.checkedDiv wop instr.line
        (wordOf regs instr.operand1) (wordOf regs instr.operand2))) :
    Meets backend rt instr regs l world env := by
  obtain ⟨stmt, hparse, hwt, hexec⟩ := assign_cast h.dest h.function h.declares hval hk
  refine ⟨_, stmt, hemit, hparse, hwt, ?_⟩
  rw [hexec]
  rw [IR.checkedDiv] at hop
  rw [quotient]
  by_cases h0 : wordOf regs instr.operand2 = 0
  · rw [if_pos h0] at hop
    rw [if_pos h0, h.act_trap hop]
    rfl
  · rw [if_neg h0] at hop
    rw [if_neg h0]
    by_cases h1 : wordOf regs instr.operand1 = BitVec.intMin 64 ∧ wordOf regs instr.operand2 = -1
    · rw [if_pos h1] at hop
      rw [if_pos h1, h.act_trap hop]
      rfl
    · rw [if_neg h1] at hop
      rw [if_neg h1, h.act hop]
      simp only [Except.map, (represents_toInt _).conv_eq]
      rfl

/-! ## Copies, complements and negations -/

theorem UnaryOk.copy (h : UnaryOk backend regs env instr) :
    Assigns backend env instr (wordOf regs instr.operand1)
      (generateRegAssign backend instr.dest (generateValue backend instr.operand1)) := by
  obtain ⟨ty, -, -, hv⟩ := operand_means h.declares h.operand1
  exact assigns_cast h.dest h.function h.declares (hv.bin (by decide)) (by decide)
    (represents_toInt _)

theorem UnaryOk.complement (h : UnaryOk backend regs env instr) :
    Assigns backend env instr (~~~ wordOf regs instr.operand1)
      (generateRegAssign backend instr.dest
        ('~' :: castText backend "(uintptr_t)" instr.operand1)) := by
  have hv := (castText_unsigned h.declares h.operand1).bnot
  refine assigns_cast h.dest h.function h.declares (hv.bin (by decide)) (by decide) ?_
  rw [conv_unsigned_toInt]
  simpa using represents_toNat (~~~ wordOf regs instr.operand1)

theorem UnaryOk.not (h : UnaryOk backend regs env instr) :
    Assigns backend env instr (if wordOf regs instr.operand1 = 0 then 1 else 0)
      (assignText instr.dest ['!'] (generateValue backend instr.operand1) (chars ";\n")) := by
  obtain ⟨ty, -, -, hv⟩ := operand_means h.declares h.operand1
  have hnot := hv.not.bin (by decide)
  rw [show '!' :: generateValue backend instr.operand1 =
    ['!'] ++ (generateValue backend instr.operand1 ++ []) by simp] at hnot
  obtain ⟨stmt, hparse, hwt, hexec⟩ := assign_means h.dest h.declares chars_semi hnot (by decide)
  refine ⟨stmt, hparse, hwt, hexec.trans ?_⟩
  rw [Except.map, held]
  by_cases h0 : wordOf regs instr.operand1 = 0
  · rw [if_pos (toInt_eq_zero.mpr h0), if_pos h0]
    rfl
  · rw [if_neg (fun h => h0 (toInt_eq_zero.mp h)), if_neg h0]
    rfl

/-- The negations that C defines: not of the minimum, and not of a constant that is written with
a minus sign. -/
structure NegSafe (regs : Int → Word) (o : IRValue) : Prop where
  notMin : wordOf regs o ≠ BitVec.intMin 64
  constant : ∀ w, o = .int w → 0 ≤ w.toInt

/-- The text of an operand starts with a minus sign only when it is a negative constant. -/
theorem head_generateValue {o : IRValue} (ho : IntOperand backend o)
    (h : (generateValue backend o).head? = some '-') :
    ∃ w, o = .int w ∧ w.toInt < 0 ∧
      generateValue backend o = '-' :: Nat.toDigits 10 w.toInt.natAbs := by
  cases o with
  | register n =>
    rw [generateValue] at h
    split at h
    · exact absurd h (by decide)
    · rw [chars_reg] at h
      exact absurd h (by simp)
  | int w =>
    refine ⟨w, rfl, ?_⟩
    rw [generateValue] at h ⊢
    split at h
    · exact absurd h (by simp [chars])
    · rw [if_neg (by assumption)]
      rw [intToString] at h ⊢
      split at h
      · rw [if_pos (by assumption)]
        exact ⟨by assumption, rfl⟩
      · exact absurd h (head_digits_ne_minus _)
  | _ => exact ho.elim

theorem head_negative {w : Word} (hneg : w.toInt < 0) (hmin : w ≠ BitVec.intMin 64) :
    (generateValue backend (.int w)).head? = some '-' := by
  rw [generateValue, if_neg (fun h => hmin (generateValue_min h)), intToString, if_pos hneg]
  rfl

/-- A negation whose operand does not start with a minus sign. -/
theorem UnaryOk.neg (h : UnaryOk backend regs env instr)
    (hhead : (generateValue backend instr.operand1).head? ≠ some '-') :
    ∃ stmt, parse cTypes (assignText instr.dest ['-'] (generateValue backend instr.operand1)
        (chars ";\n")) = some stmt ∧ stmt.WellTyped env ∧ exec env stmt =
      if wordOf regs instr.operand1 = BitVec.intMin 64 then .error .undefined
      else .ok (.assign (regName instr.dest.toNat)
        (held (registerType backend instr.dest) (0 - wordOf regs instr.operand1))) := by
  obtain ⟨ty, hu, hneg, hv⟩ := operand_means h.declares h.operand1
  have hbin := (hv.neg hhead hu).bin (by decide)
  rw [show '-' :: generateValue backend instr.operand1 =
    ['-'] ++ (generateValue backend instr.operand1 ++ []) by simp] at hbin
  obtain ⟨stmt, hparse, hwt, hexec⟩ := assign_means h.dest h.declares chars_semi hbin (by decide)
  refine ⟨stmt, hparse, hwt, hexec.trans ?_⟩
  by_cases hmin : wordOf regs instr.operand1 = BitVec.intMin 64
  · rw [if_pos hmin, if_neg (fun hfits => hneg.mp hfits hmin)]
    rfl
  · have hzero : (0 : Word) - wordOf regs instr.operand1 = -wordOf regs instr.operand1 :=
      BitVec.zero_sub _
    rw [if_neg hmin, if_pos (hneg.mpr hmin), Except.map, held, hzero,
      BitVec.toInt_neg_of_ne_intMin hmin]

/-- A negative constant after a minus sign reads as a decrement, which needs a variable. -/
theorem UnaryOk.neg_illTyped (h : UnaryOk backend regs env instr)
    (hhead : (generateValue backend instr.operand1).head? = some '-') {stmt : Stmt}
    (hparse : parse cTypes (assignText instr.dest ['-'] (generateValue backend instr.operand1)
      (chars ";\n")) = some stmt) : ¬ stmt.WellTyped env := by
  obtain ⟨w, -, -, htext⟩ := head_generateValue h.operand1 hhead
  have hdigits : Spells cTypes 2 (Nat.toDigits 10 w.toInt.natAbs) _ :=
    spells_digits w.toInt.natAbs
  have hspells := hdigits.preDec.bin (by decide)
  rw [show '-' :: '-' :: Nat.toDigits 10 w.toInt.natAbs =
    ['-'] ++ ('-' :: Nat.toDigits 10 w.toInt.natAbs ++ []) by simp] at hspells
  rw [htext, assignText_eq h.dest.1 _ _ _ chars_semi,
    hspells.assign (by decide) (inner_word (isWord_regName _)), Option.some.injEq] at hparse
  subst hparse
  rintro ⟨-, htype⟩
  cases htype

/-- **Negation.** It is met exactly when C defines it. -/
theorem UnaryOk.neg_meets (h : UnaryOk backend regs env instr) (hop : instr.opcode = .neg) :
    Meets backend rt instr regs l world env ↔ NegSafe regs instr.operand1 := by
  have hact : actOf backend rt instr regs l world =
      .step (some (.word (0 - wordOf regs instr.operand1))) l world [] :=
    h.act (fun b => by rw [hop]; rfl)
  have hemit : emitInstruction backend instr = some (assignText instr.dest ['-']
      (generateValue backend instr.operand1) (chars ";\n")) := by
    simp [emitInstruction, hop, operandDefType_ne_float h.function h.operand1]
  by_cases hhead : (generateValue backend instr.operand1).head? = some '-'
  · obtain ⟨w, ho, hw, -⟩ := head_generateValue h.operand1 hhead
    constructor
    · rintro ⟨text, stmt, htext, hparse, hwt, -⟩
      rw [hemit, Option.some.injEq] at htext
      subst htext
      exact absurd hwt (h.neg_illTyped hhead hparse)
    · intro hsafe
      have := hsafe.constant w ho
      omega
  · obtain ⟨stmt, hparse, hwt, hexec⟩ := h.neg hhead
    constructor
    · rintro ⟨text, stmt', htext, hparse', -, hagrees⟩
      rw [hemit, Option.some.injEq] at htext
      subst htext
      rw [hparse, Option.some.injEq] at hparse'
      subst hparse'
      rw [hact, hexec] at hagrees
      have hmin : wordOf regs instr.operand1 ≠ BitVec.intMin 64 := by
        intro hmin
        rw [if_pos hmin] at hagrees
        cases hagrees
      refine ⟨hmin, fun w ho => ?_⟩
      by_contra hneg
      rw [ho] at hhead hmin
      exact hhead (head_negative (by omega) hmin)
    · intro hsafe
      refine ⟨_, stmt, hemit, hparse, hwt, ?_⟩
      rw [hact, hexec, if_neg hsafe.notMin]
      rfl

end

end

end Emit
