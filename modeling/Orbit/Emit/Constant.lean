import Orbit.Build.Literal
import Orbit.Emit.Target
import Orbit.Front.Number
import Orbit.Front.Sema
import Orbit.Front.Tiling
import Orbit.Lib.C.Constant
import Orbit.Opt.Optimizer

/-!
# Integer constants from source to C

`cDefineLiteral`, `declaredParamCast` and the `ret` branch of `emitInstruction` in
`compiler/emit/c_backend.orb`. Over the model, the number that an integer literal
under minus signs denotes (`orbitValue`), and each position it can stand in with what the C text
there denotes (`Position`).
-/

namespace Emit

open Front IR
open Lib.C (Ty Env)
open Lib.Text (chars intToString)

/-- The C text of a top-level declaration's value, for a `#define`. -/
def cDefineLiteral : IRValue → Text
  | .string s => s.toList
  | _ => ['0']

def isMainFuncName (name : String) : Bool :=
  name == "main" || name == "orbit_main" || name == "main_main" ||
    (5 < Lib.Text.len name &&
      Lib.Text.slice name (Lib.Text.len name - 5) (Lib.Text.len name) == "_main")

section
variable (backend : CBackend)

def isResultType (t : String) : Bool := t == "result" || t == "Result" || t == "OrbitResult"

/-- The current function returns an `orbit_int`. -/
def returnsInt : Bool :=
  isIntType backend.currentFunction.returnType ||
    isEnumType backend backend.currentFunction.returnType ||
    isMainFuncName backend.currentFunction.name

/-- `return` of a value whose text is given. -/
def returnText (val : Text) : Text :=
  let rtype := backend.currentFunction.returnType
  if isResultType rtype then chars "    return " ++ val ++ chars ";\n"
  else if returnsInt backend then chars "    return (orbit_int)(uintptr_t)(" ++ val ++ chars ");\n"
  else if rtype = "string" ∨ rtype = "orbit_string" then
    chars "    return (orbit_string)(" ++ val ++ chars ");\n"
  else if rtype = "float" ∨ rtype = "orbit_float" then
    chars "    return (orbit_float)(" ++ val ++ chars ");\n"
  else if rtype = "void" then chars "    return;\n"
  else chars "    return (void*)(" ++ val ++ chars ");\n"

/-- The `ret` branch of `emitInstruction`. -/
def emitRet (instr : IRInstruction) : Text :=
  match instr.operand1 with
  | .none =>
    let rtype := backend.currentFunction.returnType
    if rtype = "int" ∨ rtype = "bool" then chars "    return 0;\n"
    else if isMainFuncName backend.currentFunction.name then chars "    return 0;\n"
    else if rtype = "float" then chars "    return 0.0;\n"
    else if rtype = "void" then chars "    return;\n"
    else if isEnumType backend rtype then
      chars "    return (" ++ backend.mapTypeToC rtype ++ chars ")0;\n"
    else chars "    return NULL;\n"
  | .register v => returnText backend (chars "r_" ++ intToString v)
  | value => returnText backend (generateValue backend value)

/-- The text of an argument for the parameter type that the callee declares, or the empty text. -/
def declaredParamCast (calleeName : String) (argIdx : Int) (aStr : Text) : Text :=
  match backend.module.functions.find? fun cf => cf.name == calleeName with
  | some cf =>
    if argIdx < 0 ∨ cf.paramTypes.length ≤ argIdx then []
    else
      let pt := cf.paramTypes.getD argIdx.toNat ""
      if pt = "int" ∨ pt = "bool" then chars "(orbit_int)(uintptr_t)(" ++ aStr ++ [')']
      else if pt = "string" then chars "(orbit_string)(" ++ aStr ++ [')']
      else if pt = "float" then chars "(orbit_float)(" ++ aStr ++ [')']
      else if pt = "result" then aStr
      else []
  | none => []

end

/-! ## Literals under minus signs -/

/-- The text of an integer token of some source. -/
def IntegerText (w : Text) : Prop :=
  ∃ source l, Front.Lex.Lexes source l ∧ (Front.Lex.nextToken l).1.tag = .IntegerLiteral ∧
    (Front.Lex.nextToken l).1.text = w

/-- The checker reports nothing. -/
def Accepted (n : Nat) (w : Text) : Prop := ∀ other, (checkNode other (intNode n w)).2 = []

/-- What it denotes: the number of the literal, and its negation in 64 bits for each sign. -/
def orbitValue : Nat → Text → Word
  | 0, w => BitVec.ofNat 64 (Front.Lex.literalValue w)
  | n + 1, w => -orbitValue n w

/-! ## Which spellings C reads alike -/

/-- C reads the text as the same number: digits without a leading zero unless they spell at most
7, or digits of the base behind a prefix that C has. -/
inductive ReadsAlike (binary : Bool) : Text → Prop
  | decimal {w} : w ≠ [] → (∀ c ∈ w, Front.Lex.isDigit c = true) →
      (w.head? = some '0' → Front.Lex.literalValue w ≤ 7) → ReadsAlike binary w
  | prefixed {m ds} : Front.Lex.radixOf m = 16 ∨ Front.Lex.radixOf m = 2 ∧ binary = true → ds ≠ [] →
      (∀ c ∈ ds, Front.Lex.isRadixDigit c (Front.Lex.radixOf m) = true) →
      ReadsAlike binary ('0' :: m :: ds)

def HasPrefix (w : Text) : Prop := ∃ m ds, w = '0' :: m :: ds ∧ 0 < Front.Lex.radixOf m

/-- C gives the literal the type `unsigned int`. -/
def UnsignedInC (w : Text) : Prop :=
  HasPrefix w ∧ 2 ^ 31 ≤ Front.Lex.literalValue w ∧ Front.Lex.literalValue w < 2 ^ 32

/-! ## Positions -/

/-- The C statements of the instructions run from `env` to `env'`. -/
def RunsTo (backend : CBackend) (env : Env DivError) (is : List IRInstruction)
    (env' : Env DivError) : Prop :=
  ∃ texts, is.map (emitInstruction backend) = texts.map some ∧
    Lib.C.run cTypes env texts = some env'

/-- Where the code of a literal stands: the builder before it, the finished function, the backend
that emits it and the C environment it runs in. -/
structure Site where
  builder : Build.IRBuilder
  function : IRFunction
  backend : CBackend
  env : Env DivError
  /-- Whether `optimizeFunction` folded the function. -/
  folded : Bool
  other : ASTNode → Build.BuildM Int
  otherArg : ASTNode → Build.BuildM IRValue
  asModel : ASTNode → String → Build.BuildM Int

/-- A position of an integer literal. A compiler of a top-level declaration may have binary
constants or not. -/
inductive Position where
  | topLevel (binary : Bool)
  | expression (s : Site)
  | argument (s : Site) (callee : String) (argIdx : Int)
  | returned (s : Site)

namespace Site
variable (s : Site)

/-- The first register the code may write. -/
def base : Nat := s.builder.currentFunction.registerTypes.length

/-- The position of its first instruction. -/
def start : Nat := s.builder.currentFunction.instructions.length

/-- The instructions before position `stop`, as they are emitted. -/
def code (stop : Nat) : List IRInstruction :=
  (s.backend.currentFunction.instructions.take stop).drop s.start

/-- The finished function has what the builder had in `after`, behind the code. -/
structure Hosts (after : IRFunction) : Prop where
  /-- The builder counts the registers. -/
  counted : s.builder.currentFunction.registerCount = s.base
  grown : after.instructions <+: s.function.instructions
  types : after.registerTypes <+: s.function.registerTypes
  /-- The registers of the code are written in it only. -/
  fresh : ∀ (k : Nat) i, s.function.instructions[k]? = some i →
    s.base ≤ i.dest → i.dest < after.registerTypes.length →
      s.start ≤ k ∧ k < after.instructions.length
  emitted : s.backend.currentFunction =
    if s.folded then (Opt.foldLoop s.function s.function.instructions.length).1 else s.function
  /-- In C they are variables of type `orbit_int`. -/
  declared : ∀ k, s.base ≤ k → k < after.registerTypes.length →
    ∃ v, s.env.vars (regName k) = some (.i64, v)

end Site

namespace Position

/-- The checker accepts the literal at the position. -/
def Accepts (n : Nat) (w : Text) : Position → Prop
  | topLevel _ => isTopLevelConstantExpr (intNode n w) = true ∧ Accepted n w
  | expression _ | argument .. | returned _ => Accepted n w

/-- The code of the literal is at the position; the parameter is an `int`, and the function returns
one. -/
def Hosted (n : Nat) (w : Text) : Position → Prop
  | topLevel _ => True
  | expression s => s.Hosts (Build.buildExpr s.other (intNode n w) s.builder).2.currentFunction
  | argument s callee argIdx =>
    s.Hosts (Build.buildCallArgValue s.other s.otherArg (intNode n w) s.builder).2.currentFunction ∧
      ∃ cf, (s.backend.module.functions.find? fun cf => cf.name == callee) = some cf ∧
        0 ≤ argIdx ∧ cf.paramTypes[argIdx.toNat]? = some "int"
  | returned s =>
    s.Hosts (Build.buildReturn s.other s.asModel (intNode n w) s.builder).2.currentFunction ∧
      isResultType s.backend.currentFunction.returnType = false ∧ returnsInt s.backend = true

/-- The C text at the position denotes the number of the literal: as a constant expression; in the
register that its code writes; as it stands and as a parameter of the callee; in the `return`. -/
def Denotes (n : Nat) (w : Text) : Position → Prop
  | topLevel binary =>
    Lib.C.constantValue binary
      (cDefineLiteral (irString (Build.topLevelConstantValue (intNode n w)))) =
        some (orbitValue n w).toInt
  | expression s =>
    let (reg, after) := Build.buildExpr s.other (intNode n w) s.builder
    ∃ env', RunsTo s.backend s.env (s.code after.currentFunction.instructions.length) env' ∧
      env'.vars (regName reg.toNat) = some (.i64, (orbitValue n w).toInt)
  | argument s callee argIdx =>
    let (value, after) := Build.buildCallArgValue s.other s.otherArg (intNode n w) s.builder
    let text := generateOperand s.backend value
    ∃ env', RunsTo s.backend s.env (s.code after.currentFunction.instructions.length) env' ∧
      Lib.C.valueOf cTypes env' text = some (orbitValue n w).toInt ∧
      Lib.C.valueOf cTypes env' (declaredParamCast s.backend callee argIdx text) =
        some (orbitValue n w).toInt
  | returned s =>
    let after := (Build.buildReturn s.other s.asModel (intNode n w) s.builder).2
    let last := after.currentFunction.instructions.length - 1
    ∃ env' ret, RunsTo s.backend s.env (s.code last) env' ∧
      s.backend.currentFunction.instructions[last]? = some ret ∧ ret.opcode = .ret ∧
      Lib.C.returned cTypes env' (emitRet s.backend ret) = some (orbitValue n w).toInt

/-- Where the number is kept. -/
def Kept (n : Nat) (w : Text) : Position → Prop
  | topLevel binary =>
    w = chars minLiteral ∨ ReadsAlike binary w ∧ (n = 0 ∨ ¬ UnsignedInC w)
  | expression s | argument s .. | returned s => s.folded = true ∨ w ≠ chars minLiteral

end Position

end Emit
