import Orbit.Lib.C.Sem
import Orbit.Emit.Instr
import Orbit.IR.Sem

/-!
# The C that the backend emits for

The typedefs of `runtime/types.h` on a 64-bit target, the checked division of `runtime/inline.h`,
and the registers of a function as the C variables `r_0`, `r_1`, …. `Meets` says that the text of
an instruction is one C statement that does what the instruction does.
-/

namespace Emit

open IR (IRInstruction IRValue Word)
open Lib.C (Ty Arg Fault Fun Env Effect)
open Lib.Text (chars intToString)

def typedefs : List (String × Ty) :=
  [("orbit_int", .i64), ("int64_t", .i64), ("intptr_t", .i64), ("uintptr_t", .u64),
    ("orbit_bool", .bool)]

def cTypes (name : Text) : Option Ty := (typedefs.find? fun e => chars e.1 = name).map (·.2)

/-- What `orbit_div_error` is called with. -/
structure DivError where
  file : Text
  line : Int
  kind : Int
  deriving DecidableEq

def wordSize : Int := 18446744073709551616
def minInt : Int := -9223372036854775808

/-- The body of `orbit_int_div` and `orbit_int_mod`: one unsigned compare covers the two divisors
that can fail, and `orbit_div_error` does not return. -/
def checkedBody (op : Lib.C.Bin) (a b : Int) (file : Text) (line : Int) :
    Except (Fault DivError) Int :=
  if (b % wordSize + 1) % wordSize ≤ 1 ∧ b = 0 then .error (.stops ⟨file, line, 0⟩)
  else if (b % wordSize + 1) % wordSize ≤ 1 ∧ a = minInt then .error (.stops ⟨file, line, 1⟩)
  else (Lib.C.binCommon op .i64 a b).map (·.2)

def checkedFun (op : Lib.C.Bin) : Fun DivError where
  params := [some .i64, some .i64, none, some .i64]
  result := .i64
  run
    | [.int a, .int b, .str file, .int line] => checkedBody op a b file line
    | _ => .error .illFormed

def regName (n : Nat) : Text := chars "r_" ++ Nat.toDigits 10 n
def labelName (n : Nat) : Text := chars "label_" ++ Nat.toDigits 10 n

/-- The C type a register is declared with. -/
def cType (t : String) : Ty := if t = "bool" ∨ t = "orbit_bool" then .bool else .i64

/-- What a register of type `t` holds after `w` is written to it: a `bool` holds a truth value. -/
def held (t : String) (w : Word) : Int := Lib.C.conv (cType t) w.toInt

section
variable (backend : CBackend)

/-- A function over `int` and `bool` registers. -/
structure IntFunction : Prop where
  types : ∀ t ∈ backend.currentFunction.registerTypes, isIntType t = true
  strRegs : backend.strRegs = []
  notEnum : ∀ t, isIntType t = true → isEnumType backend t = false

/-- The registers of the function are declared as C variables, and hold the values of `regs`. -/
structure Declares (regs : Int → Word) (env : Env DivError) : Prop where
  div : env.funs (chars "orbit_int_div") = some (checkedFun .div)
  mod : env.funs (chars "orbit_int_mod") = some (checkedFun .mod)
  vars : ∀ (n : Nat) t, backend.currentFunction.registerTypes[n]? = some t →
    env.vars (regName n) = some (cType t, (regs n).toInt)
  bools : ∀ (n : Nat) t, backend.currentFunction.registerTypes[n]? = some t → cType t = .bool →
    regs n = 0 ∨ regs n = 1

/-- A register of the function, or none, which reads as zero; or an int constant. -/
def IntOperand : IRValue → Prop
  | .register n => n < 0 ∨ n.toNat < backend.currentFunction.registerTypes.length
  | .int _ => True
  | _ => False

/-- The destination is a register of the function. -/
def DestOk (d : Int) : Prop :=
  0 ≤ d ∧ d.toNat < backend.currentFunction.registerTypes.length

def LabelOperand : IRValue → Prop
  | .label n => 0 ≤ n
  | _ => False

/-- What an integer instruction reads and writes: a register from one operand or two, a label, or
a condition and a label. -/
inductive Form where
  | unary | binary | place | branch

def formOf : IR.IROpcode → Option Form
  | .loadConst | .notOp | .neg | .bitNot | .copy => some .unary
  | .add | .sub | .mul | .div | .mod | .eq | .ne | .lt | .le | .gt | .ge | .andOp | .orOp
  | .bitAnd | .bitOr | .bitXor | .shl | .shr => some .binary
  | .label | .jump => some .place
  | .jumpIfFalse => some .branch
  | _ => none

def HasForm (instr : IRInstruction) : Option Form → Prop
  | some .unary => DestOk backend instr.dest ∧ IntOperand backend instr.operand1
  | some .binary => DestOk backend instr.dest ∧ IntOperand backend instr.operand1 ∧
      IntOperand backend instr.operand2
  | some .place => LabelOperand instr.operand1
  | some .branch => IntOperand backend instr.operand1 ∧ LabelOperand instr.operand2
  | none => False

/-- An integer instruction: a constant, an operator, a copy, a label or a jump. -/
structure IntInstruction (instr : IRInstruction) : Prop where
  form : HasForm backend instr (formOf instr.opcode)
  /-- Lines are counted in an `int`. -/
  line : (instr.line.natAbs : Int) ≤ Lib.C.maxInt64

/-- What the C statement has to do when the instruction does `act`. -/
def Agrees {W : Type} (instr : IRInstruction) :
    IR.Act W → Except (Fault DivError) Effect → Prop
  | .step (some (.word w)) _ _ _, r =>
    r = .ok (.assign (regName instr.dest.toNat) (held (registerType backend instr.dest) w))
  | .step none _ _ _, r => r = .ok .next
  | .goto n, r => r = .ok (.goto (labelName n.toNat))
  | .trap (.divZero line), r =>
    r = .error (.stops ⟨escapeString backend.module.sourceName.toList, line, 0⟩)
  | .trap (.divOverflow line), r =>
    r = .error (.stops ⟨escapeString backend.module.sourceName.toList, line, 1⟩)
  | _, _ => False

/-- What the instruction does from registers that hold `regs`. -/
def actOf {W : Type} (rt : IR.Runtime W) (instr : IRInstruction) (regs : Int → Word)
    (l : IR.Locals) (w : W) : IR.Act W :=
  IR.act rt backend.currentFunction instr
    (IR.evalOperand rt (fun n => .word (regs n)) instr.operand1)
    (IR.evalOperand rt (fun n => .word (regs n)) instr.operand2)
    (IR.evalOperand rt (fun n => .word (regs n)) instr.operand3) l w

/-- The text of the instruction is one C statement that satisfies the constraints of the language
and does what the instruction does. -/
def Meets {W : Type} (rt : IR.Runtime W) (instr : IRInstruction) (regs : Int → Word)
    (l : IR.Locals) (w : W) (env : Env DivError) : Prop :=
  ∃ text stmt, emitInstruction backend instr = some text ∧ Lib.C.parse cTypes text = some stmt ∧
    stmt.WellTyped env ∧ Agrees backend instr (actOf backend rt instr regs l w) (Lib.C.exec env stmt)

end

end Emit
