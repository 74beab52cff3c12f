import Orbit.Lib.Find
import Orbit.Lib.Text
import Orbit.IR.Syntax

/-!
# The C text of an instruction

`emitInstruction` of `compiler/emit/c_backend.orb` for the instructions that work on registers
alone: constants, arithmetic, comparisons, logic, shifts, copies, labels, jumps and blocks. The
texts that other parts of the backend decide are given: how a float constant is written
(`orbit_float_to_string_selfhost`), a symbol (`cSymbolText`) and a type (`mapTypeToC`).
-/

namespace Emit

open IR
open Lib.Text (chars intToString)

abbrev Text := List Char

structure CBackend where
  module : IRModule
  currentFunction : IRFunction
  /-- Registers and variables that hold strings. -/
  strRegs : List Int
  strVars : List String
  /-- The labels a jump of the function names. -/
  refLabels : List Text
  floatText : BitVec 64 → Text
  cSymbolText : String → Text
  mapTypeToC : String → Text

def contains (hay : Text) (needle : String) : Bool := (Lib.Find.indexOf (chars needle) hay).isSome

def escapeString : Text → Text
  | [] => []
  | c :: s => escape c ++ escapeString s
where
  escape (c : Char) : Text :=
    if c = '\\' then ['\\', '\\']
    else if c = '"' then ['\\', '"']
    else if c = '\n' then ['\\', 'n']
    else if c = '\r' then ['\\', 'r']
    else if c = '\t' then ['\\', 't']
    else if c.toNat = 27 then chars "\\x1b"
    else [c]

section
variable (backend : CBackend)

/-- The minimum cannot be spelled as a C literal: it is the one nonzero int that is its own
negation. -/
def generateValue : IRValue → Text
  | .int v =>
    if v ≠ 0 ∧ 0 - v = v then chars "(-9223372036854775807LL-1)" else intToString v.toInt
  | .float v => backend.floatText v
  | .string v => '"' :: (escapeString v.toList ++ ['"'])
  | .sym v => v.toList
  | .bool v => if v then chars "true" else chars "false"
  | .register v => if v < 0 then ['0'] else chars "r_" ++ intToString v
  | .label v => intToString v
  | .none => []

def generateOperand : IRValue → Text
  | .sym v => backend.cSymbolText v
  | value => generateValue backend value

def registerType (reg : Int) : String :=
  if reg < 0 then "" else backend.currentFunction.registerTypes.getD reg.toNat ""

def isEnumType (typeName : String) : Bool :=
  typeName == "TokType" || typeName == "TokTypeTag" ||
    backend.module.types.any fun t => t.name == typeName &&
      (t.kind == "enumeration" || t.kind == "sum" || t.kind == "union")

def isIntType (t : String) : Bool :=
  t == "int" || t == "bool" || t == "orbit_int" || t == "orbit_bool"

/-- `    r_D = cast(value);` -/
def assignText (destReg : Int) (cast valStr after : Text) : Text :=
  chars "    r_" ++ intToString destReg ++ chars " = " ++ cast ++ valStr ++ after

def castInt : Text := chars "(orbit_int)(uintptr_t)("
def castPtr : Text := chars "(void*)(uintptr_t)("
def closeCast : Text := chars ");\n"

def generateRegAssign (destReg : Int) (valStr : Text) : Text :=
  let regT := registerType backend destReg
  if contains valStr "orbit_string_concat" || contains valStr "orbit_string_slice" ||
      contains valStr "orbit_list_get" || contains valStr "_lr.value" ||
      contains valStr "orbit_alloc" then
    if isIntType regT then assignText destReg castInt valStr closeCast
    else assignText destReg castPtr valStr closeCast
  else if contains valStr "TAG_" then
    if regT ≠ "" && regT ≠ "unknown" && regT ≠ "void*" && regT ≠ "orbit_int" &&
        isEnumType backend regT then
      assignText destReg ('(' :: (backend.mapTypeToC regT ++ [')'])) valStr (chars ";\n")
    else if isIntType regT then assignText destReg castInt valStr closeCast
    else assignText destReg castPtr valStr closeCast
  else if isIntType regT || isEnumType backend regT then
    assignText destReg castInt valStr closeCast
  else if regT = "string" || regT = "orbit_string" then
    assignText destReg (chars "(orbit_string)(") valStr closeCast
  else if regT = "float" || regT = "orbit_float" then
    assignText destReg (chars "(orbit_float)(") valStr closeCast
  else if regT = "result" || regT = "Result" || regT = "OrbitResult" then
    assignText destReg [] valStr (chars ";\n")
  else assignText destReg castPtr valStr closeCast

/-- `(cast)(value)`. -/
def castText (cast : String) (v : IRValue) : Text :=
  chars cast ++ '(' :: (generateValue backend v ++ [')'])

/-- A divisor that is a constant other than 0 and -1 cannot fail and is emitted as the bare
operator. -/
def checkedDivision (helper op : String) (instr : IRInstruction) : Text :=
  let lhs := castText backend "(orbit_int)(uintptr_t)" instr.operand1
  let rhs := castText backend "(orbit_int)(uintptr_t)" instr.operand2
  let checked := chars helper ++ '(' :: (lhs ++ chars ", " ++ rhs ++ chars ", \"" ++
    escapeString backend.module.sourceName.toList ++ chars "\", " ++ intToString instr.line ++ [')'])
  match instr.operand2 with
  | .int d =>
    if d ≠ 0 && d ≠ -1 then lhs ++ ' ' :: (chars op ++ ' ' :: rhs) else checked
  | _ => checked

def operandDefType (func : IRFunction) : IRValue → String
  | .int _ => "int"
  | .float _ => "float"
  | .bool _ => "bool"
  | .string s => if contains s.toList "TAG_" then "int" else "string"
  | .sym s =>
    if s = "true" || s = "false" then "bool"
    else if contains s.toList "TAG_" then "int" else "unknown"
  | .register reg =>
    let t := if reg < 0 then "" else func.registerTypes.getD reg.toNat ""
    if t ≠ "unknown" && t ≠ "" && t ≠ "void" then t else "unknown"
  | _ => "unknown"

def isStringOperand : IRValue → Bool
  | .string _ => true
  | .register v => registerType backend v == "string" || backend.strRegs.contains v
  | .sym s => backend.strVars.contains s
  | _ => false

def isFloatOperation (instr : IRInstruction) : Bool :=
  operandDefType backend.currentFunction instr.operand1 == "float" ||
    operandDefType backend.currentFunction instr.operand2 == "float"

/-- The text of one side of a string concatenation. -/
def stringifyConcatOperand (operand : IRValue) : Text :=
  let raw := generateValue backend operand
  if isStringOperand backend operand then raw
  else
    let t := match operand with
      | .register reg =>
        if reg < 0 || backend.currentFunction.registerTypes.length ≤ reg.toNat then "int"
        else registerType backend reg
      | .bool _ => "bool"
      | .float _ => "float"
      | .sym s => if s = "true" || s = "false" then "bool" else "int"
      | _ => "int"
    if t = "bool" then
      chars "orbit_bool_to_string(arena, (orbit_bool)(uintptr_t)(" ++ raw ++ chars "))"
    else if t = "float" then chars "orbit_float_to_string(arena, (orbit_float)(" ++ raw ++ chars "))"
    else if t = "string" then raw
    else chars "orbit_int_to_string_selfhost((orbit_int)(uintptr_t)(" ++ raw ++ chars "))"

/-- `A op B` with a cast on each side. -/
def binaryText (cast op : String) (instr : IRInstruction) : Text :=
  castText backend cast instr.operand1 ++ chars op ++ castText backend cast instr.operand2

/-- An arithmetic operator: over floats when an operand is one, else over `uintptr_t`. -/
def emitArith (op : String) (instr : IRInstruction) : Text :=
  generateRegAssign backend instr.dest
    (if isFloatOperation backend instr then binaryText backend "(orbit_float)" op instr
      else binaryText backend "(uintptr_t)" op instr)

/-- A comparison, in parentheses. -/
def emitCompare (cast op : String) (instr : IRInstruction) : Text :=
  let cast := if isFloatOperation backend instr then "(orbit_float)" else cast
  generateRegAssign backend instr.dest ('(' :: (binaryText backend cast op instr ++ [')']))

/-- `eq` and `ne`: two strings are compared by `strcmp`. -/
def emitEquality (op : String) (instr : IRInstruction) : Text :=
  if isStringOperand backend instr.operand1 && isStringOperand backend instr.operand2 then
    assignText instr.dest (chars "strcmp(") (generateValue backend instr.operand1 ++ chars ", " ++
      generateValue backend instr.operand2 ++ [')']) (chars op ++ chars "0;\n")
  else emitCompare backend "(uintptr_t)" op instr

/-- `&&` and `||`, on the bare operands. -/
def emitLogic (op : String) (instr : IRInstruction) : Text :=
  assignText instr.dest ['('] (generateValue backend instr.operand1 ++ chars op ++
    generateValue backend instr.operand2) closeCast

/-- A shift: the count is masked modulo 64. -/
def emitShift (cast op : String) (instr : IRInstruction) : Text :=
  generateRegAssign backend instr.dest (castText backend cast instr.operand1 ++ chars op ++
    '(' :: (castText backend "(uintptr_t)" instr.operand2 ++ chars " & 63)"))

/-- `none` for the opcodes that this module does not cover. -/
def emitInstruction (instr : IRInstruction) : Option Text :=
  match instr.opcode with
  | .nop => some []
  | .loadConst =>
    some (generateRegAssign backend instr.dest (generateOperand backend instr.operand1))
  | .add =>
    if isStringOperand backend instr.operand1 || isStringOperand backend instr.operand2 then
      some (assignText instr.dest (chars "orbit_string_concat(arena, ")
        (stringifyConcatOperand backend instr.operand1 ++ chars ", " ++
          stringifyConcatOperand backend instr.operand2) closeCast)
    else some (emitArith backend " + " instr)
  | .sub => some (emitArith backend " - " instr)
  | .mul => some (emitArith backend " * " instr)
  | .div =>
    some (generateRegAssign backend instr.dest
      (if isFloatOperation backend instr then binaryText backend "(orbit_float)" " / " instr
        else checkedDivision backend "orbit_int_div" "/" instr))
  | .mod =>
    some (generateRegAssign backend instr.dest (checkedDivision backend "orbit_int_mod" "%" instr))
  | .bitAnd =>
    some (generateRegAssign backend instr.dest (binaryText backend "(uintptr_t)" " & " instr))
  | .bitOr =>
    some (generateRegAssign backend instr.dest (binaryText backend "(uintptr_t)" " | " instr))
  | .bitXor =>
    some (generateRegAssign backend instr.dest (binaryText backend "(uintptr_t)" " ^ " instr))
  | .shl => some (emitShift backend "(uintptr_t)" " << " instr)
  | .shr => some (emitShift backend "(int64_t)(uintptr_t)" " >> " instr)
  | .bitNot =>
    some (generateRegAssign backend instr.dest
      ('~' :: castText backend "(uintptr_t)" instr.operand1))
  | .eq => some (emitEquality backend " == " instr)
  | .ne => some (emitEquality backend " != " instr)
  -- Relational operators compare as signed.
  | .lt => some (emitCompare backend "(intptr_t)" " < " instr)
  | .le => some (emitCompare backend "(intptr_t)" " <= " instr)
  | .gt => some (emitCompare backend "(intptr_t)" " > " instr)
  | .ge => some (emitCompare backend "(intptr_t)" " >= " instr)
  | .andOp => some (emitLogic backend " && " instr)
  | .orOp => some (emitLogic backend " || " instr)
  | .notOp =>
    some (assignText instr.dest ['!'] (generateValue backend instr.operand1) (chars ";\n"))
  | .neg =>
    if operandDefType backend.currentFunction instr.operand1 == "float" then
      some (assignText instr.dest (chars "-(orbit_float)(") (generateValue backend instr.operand1)
        closeCast)
    else
      some (assignText instr.dest ['-'] (generateValue backend instr.operand1) (chars ";\n"))
  | .beginBlock => some (chars "    \x7b\n")
  | .endBlock => some (chars "    \x7d\n")
  | .label =>
    let lval := generateValue backend instr.operand1
    if backend.refLabels.contains lval then some (chars "label_" ++ lval ++ chars ":;\n")
    else some []
  | .jump => some (chars "    goto label_" ++ generateValue backend instr.operand1 ++ chars ";\n")
  | .jumpIfFalse =>
    some (chars "    if (!(" ++ generateValue backend instr.operand1 ++ chars ")) goto label_" ++
      generateValue backend instr.operand2 ++ chars ";\n")
  | .copy => some (generateRegAssign backend instr.dest (generateValue backend instr.operand1))
  | _ => none

end

end Emit
