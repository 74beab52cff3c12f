import Mathlib.Data.List.Basic
import Orbit.Front.Ast

/-!
# Canonical typed IR

`compiler/tir/format.orb`: the functions, blocks and instructions of a module and their text. An
operand is kept as what it names, next to the text that the source keeps of it (`TirOperand.text`);
`none` is the id `-1` of what could not be lowered.
-/

namespace Tir

structure TirDiagnostic where
  severity : String
  code : String
  message : String
  line : Nat
  column : Nat
  deriving DecidableEq, Repr

structure TirParameter where
  name : String
  typeName : String
  deriving DecidableEq, Repr

/-- A word of an instruction's operands. -/
inductive TirOperand where
  | value (id : Option Nat)
  | block (id : Nat)
  | word (text : String)
  deriving DecidableEq, Repr

structure TirInstruction where
  blockId : Nat
  valueId : Nat
  opcode : String
  typeName : String
  operands : List TirOperand
  deriving DecidableEq, Repr

structure TirFunction where
  id : Nat
  name : String
  returnType : String
  parameters : List TirParameter
  instructions : List TirInstruction
  nextValueId : Nat
  nextBlockId : Nat
  deriving DecidableEq, Repr

structure TirModule where
  name : String
  functions : List TirFunction
  diagnostics : List TirDiagnostic
  deriving DecidableEq, Repr

/-! ## Building -/

def initTirModule (name : String) : TirModule := ⟨name, [], []⟩

def initTirFunction (id : Nat) (name returnType : String) : TirFunction :=
  ⟨id, name, returnType, [], [], 0, 0⟩

def tirAddParameter (f : TirFunction) (name typeName : String) : TirFunction :=
  { f with parameters := f.parameters ++ [⟨name, typeName⟩] }

def tirCreateBlock (f : TirFunction) : Nat × TirFunction :=
  (f.nextBlockId, { f with nextBlockId := f.nextBlockId + 1 })

def tirEmit (f : TirFunction) (blockId : Nat) (opcode typeName : String)
    (operands : List TirOperand) : Nat × TirFunction :=
  (f.nextValueId, { f with
    nextValueId := f.nextValueId + 1
    instructions := f.instructions ++ [⟨blockId, f.nextValueId, opcode, typeName, operands⟩] })

def tirError (code message : String) (line column : Nat) : TirDiagnostic :=
  ⟨"error", code, message, line, column⟩

/-! ## Checks -/

def tirHasErrors (m : TirModule) : Bool := m.diagnostics.any (·.severity = "error")

def tirHasUnknownTypes (m : TirModule) : Bool :=
  m.functions.any fun f =>
    f.returnType = "unknown" || f.parameters.any (·.typeName = "unknown") ||
      f.instructions.any (·.typeName = "unknown")

/-! ## Text -/

def tirEscape (text : String) : String :=
  String.join (text.toList.map fun c =>
    if c = '\\' then "\\\\" else if c = '\n' then "\\n" else if c = '\x0d' then "\\r"
    else if c = '\t' then "\\t" else String.singleton c)

def tirIntText (value : Nat) : String := toString value

def TirOperand.text : TirOperand → String
  | .value (some id) => "v" ++ tirIntText id
  | .value none => "v"
  | .block id => "b" ++ tirIntText id
  | .word text => text

def TirInstruction.operandText (i : TirInstruction) : String :=
  " ".intercalate (i.operands.map TirOperand.text)

def parameterLines (id : Nat) : (index : Nat) → List TirParameter → String
  | _, [] => ""
  | index, p :: ps =>
    "param " ++ tirIntText id ++ " " ++ tirIntText index ++ " " ++ tirEscape p.name ++ " " ++
      tirEscape p.typeName ++ "\n" ++ parameterLines id (index + 1) ps

/-- The lines of the instructions, each run of a block under its own line. -/
def instructionLines (id : Nat) : (currentBlock : Option Nat) → List TirInstruction → String
  | _, [] => ""
  | currentBlock, i :: is =>
    (if currentBlock = some i.blockId then ""
      else "block " ++ tirIntText id ++ " " ++ tirIntText i.blockId ++ "\n") ++
    "instr " ++ tirIntText id ++ " " ++ tirIntText i.blockId ++ " " ++ tirIntText i.valueId ++ " " ++
      tirEscape i.opcode ++ " " ++ tirEscape i.typeName ++ " " ++ tirEscape i.operandText ++ "\n" ++
    instructionLines id (some i.blockId) is

def functionText (f : TirFunction) : String :=
  "function " ++ tirIntText f.id ++ " " ++ tirEscape f.name ++ " " ++ tirEscape f.returnType ++
    "\n" ++ parameterLines f.id 0 f.parameters ++ instructionLines f.id none f.instructions ++
    "end-function " ++ tirIntText f.id ++ "\n"

def tirCanonical (m : TirModule) : String :=
  if tirHasErrors m then ""
  else if tirHasUnknownTypes m then ""
  else "orbit-tir 1\nmodule " ++ tirEscape m.name ++ "\n" ++ String.join (m.functions.map functionText)

end Tir

/-!
# Lowering to typed IR

`compiler/tir/lower.orb`: a function's body is emitted into blocks as its tree is walked, the list of
bindings and the block that the next statement goes to passed along. A terminator leaves `none` for
the block, the source's `-1`.
-/

namespace Tir

open Front (ASTNode)

structure TirBinding where
  name : String
  typeName : String
  deriving DecidableEq, Repr

/-! ## Types -/

def tirLiteralType (valType : String) : String :=
  if valType = "identifier" then "unknown" else valType

def tirBinaryType (op leftType rightType : String) : String :=
  if op ∈ ["==", "!=", "<", "<=", ">", ">=", "&&", "||"] then "bool"
  else if op ∈ ["&", "|", "^", "<<", ">>"] then
    if leftType = "int" ∧ rightType = "int" then "int" else "unknown"
  else if leftType = rightType then leftType
  else "unknown"

/-- The type of the last binding of a name. -/
def bindingType (bindings : List TirBinding) (name : String) : String :=
  match bindings.reverse.find? (·.name = name) with
  | some binding => binding.typeName
  | none => "unknown"

def tirUnaryType (op operandType : String) : String :=
  if op = "!" then if operandType = "bool" then "bool" else "unknown"
  else if op = "-" ∧ (operandType = "int" ∨ operandType = "float") then operandType
  else if op = "~" ∧ operandType = "int" then "int"
  else "unknown"

/-- The functions whose calls have a known type. -/
def tirIntCalls : List String :=
  ["len", "indexOf", "orbit_os_argc_selfhost", "orbit_string_char_at_selfhost"]

def tirStringCalls : List String :=
  ["orbit_int_to_string_selfhost", "orbit_float_to_string_selfhost", "orbit_os_argv_selfhost",
    "orbit_os_exec_selfhost", "orbit_os_env_selfhost", "orbit_file_read_selfhost", "slice", "at",
    "tirEscape", "tirIntText"]

def tirBoolCalls : List String :=
  ["orbit_file_write_selfhost", "hasErrors", "tirHasErrors", "isVisited"]

def tirCallType (bindings : List TirBinding) : (callee : ASTNode) → String
  | .literal _ text =>
    if text ∈ tirIntCalls then "int"
    else if text ∈ tirStringCalls then "string"
    else if text ∈ tirBoolCalls then "bool"
    else bindingType bindings text
  | .memberAccess _ field _ _ =>
    if field ∈ ["len", "length", "indexOf"] then "int"
    else if field ∈ ["slice", "at"] then "string"
    else "unknown"
  | _ => "unknown"

def typeOfExpression (bindings : List TirBinding) : ASTNode → String
  | .literal valType text => if valType = "identifier" then bindingType bindings text else valType
  | .binaryOp op lhs rhs _ _ =>
    tirBinaryType op (typeOfExpression bindings lhs) (typeOfExpression bindings rhs)
  | .unaryOp op operand => tirUnaryType op (typeOfExpression bindings operand)
  | .memberAccess _ field _ _ => if field = "len" ∨ field = "length" then "int" else "unknown"
  | .call callee _ _ _ => tirCallType bindings callee
  | _ => "unknown"

/-! ## The function under construction -/

/-- A function of the module, with the diagnostics so far. -/
structure Lowering where
  function : TirFunction
  diagnostics : List TirDiagnostic
  deriving DecidableEq, Repr

namespace Lowering

def emit (blockId : Nat) (opcode typeName : String) (operands : List TirOperand) (s : Lowering) :
    Nat × Lowering :=
  let (id, function) := tirEmit s.function blockId opcode typeName operands
  (id, { s with function })

def createBlock (s : Lowering) : Nat × Lowering :=
  let (id, function) := tirCreateBlock s.function
  (id, { s with function })

def error (code message : String) (s : Lowering) : Lowering :=
  { s with diagnostics := s.diagnostics ++ [tirError code message 0 0] }

/-- An error when something is wrong. -/
def errorIf (p : Prop) [Decidable p] (code message : String) (s : Lowering) : Lowering :=
  if p then s.error code message else s

end Lowering

/-! ## Expressions -/

mutual

/-- The value of an expression, emitted into a block. -/
def lowerExpression (blockId : Nat) (bindings : List TirBinding) :
    ASTNode → Lowering → Option Nat × Lowering
  | .literal valType text, s =>
    if valType = "identifier" then
      let typeName := bindingType bindings text
      let s := s.errorIf (typeName = "unknown") "E2001" ("unknown identifier " ++ text)
      let (id, s) := s.emit blockId "load" typeName [.word text]
      (some id, s)
    else
      let (id, s) := s.emit blockId "const" (tirLiteralType valType) [.word text]
      (some id, s)
  | .binaryOp op lhs rhs line col, s =>
    let (left, s) := lowerExpression blockId bindings lhs s
    let (right, s) := lowerExpression blockId bindings rhs s
    let resultType := typeOfExpression bindings (.binaryOp op lhs rhs line col)
    let s := s.errorIf (resultType = "unknown") "E2002" ("incompatible operands for " ++ op)
    let (id, s) := s.emit blockId op resultType [.value left, .value right]
    (some id, s)
  | .unaryOp op operand, s =>
    let (value, s) := lowerExpression blockId bindings operand s
    let resultType := typeOfExpression bindings (.unaryOp op operand)
    let s := s.errorIf (resultType = "unknown") "E2003" ("invalid operand for unary " ++ op)
    let (id, s) := s.emit blockId ("unary." ++ op) resultType [.value value]
    (some id, s)
  | .memberAccess object field line col, s =>
    let (value, s) := lowerExpression blockId bindings object s
    let resultType := typeOfExpression bindings (.memberAccess object field line col)
    let s := s.errorIf (resultType = "unknown") "E2004" ("cannot type the member read ." ++ field)
    let (id, s) := s.emit blockId "member" resultType [.value value, .word field]
    (some id, s)
  | .call callee args line col, s =>
    let (value, s) := lowerExpression blockId bindings callee s
    let (operands, s) := lowerArguments blockId bindings args s
    let resultType := typeOfExpression bindings (.call callee args line col)
    let s := s.errorIf (resultType = "unknown") "E2005" "cannot type the result of this call"
    let (id, s) := s.emit blockId "call" resultType (.value value :: operands)
    (some id, s)
  | _, s => (none, s.error "E3001" "expression cannot be lowered to TIR")

def lowerArguments (blockId : Nat) (bindings : List TirBinding) :
    List ASTNode → Lowering → List TirOperand × Lowering
  | [], s => ([], s)
  | argument :: arguments, s =>
    let (value, s) := lowerExpression blockId bindings argument s
    let (operands, s) := lowerArguments blockId bindings arguments s
    (.value value :: operands, s)

end

/-! ## Statements -/

/-- A jump at the end of a block that is not terminated. -/
def jumpTo (target : Nat) (blockId : Option Nat) (s : Lowering) : Lowering :=
  match blockId with
  | none => s
  | some b => (s.emit b "jump" "unit" [.block target]).2

mutual

/-- The block that the following statement goes to, and the bindings that it sees. -/
def lowerStatement : ASTNode → Option Nat → List TirBinding → Lowering →
    Option Nat × List TirBinding × Lowering
  | _, none, bindings, s => (none, bindings, s)
  | .varDecl name _ value _ _ _, some b, bindings, s =>
    let (v, s) := lowerExpression b bindings value s
    let (_, s) := s.emit b "bind" "unit" [.word name, .value v]
    (some b, bindings ++ [⟨name, typeOfExpression bindings value⟩], s)
  | .returnNode expr, some b, bindings, s =>
    let (v, s) := lowerExpression b bindings expr s
    let (_, s) := s.emit b "return" "unit" [.value v]
    (none, bindings, s)
  | .block statements, some b, bindings, s => lowerStatements statements (some b) bindings s
  | .ifNode condition thenBody elseBody, some b, bindings, s =>
    let (v, s) := lowerExpression b bindings condition s
    let s := s.errorIf (typeOfExpression bindings condition ≠ "bool") "E2100"
      "if condition must have type bool"
    let (thenBlock, s) := s.createBlock
    let (elseBlock, s) := s.createBlock
    let (mergeBlock, s) := s.createBlock
    let (_, s) := s.emit b "branch" "unit" [.value v, .block thenBlock, .block elseBlock]
    -- the bindings of a branch are a copy, and are dropped behind it
    let (thenEnd, _, s) := lowerStatement thenBody (some thenBlock) bindings s
    let s := jumpTo mergeBlock thenEnd s
    let (elseEnd, _, s) := lowerStatement elseBody (some elseBlock) bindings s
    let s := jumpTo mergeBlock elseEnd s
    (some mergeBlock, bindings, s)
  | .whileNode condition body, some b, bindings, s =>
    let (conditionBlock, s) := s.createBlock
    let (bodyBlock, s) := s.createBlock
    let (exitBlock, s) := s.createBlock
    let (_, s) := s.emit b "jump" "unit" [.block conditionBlock]
    let (v, s) := lowerExpression conditionBlock bindings condition s
    let s := s.errorIf (typeOfExpression bindings condition ≠ "bool") "E2101"
      "while condition must have type bool"
    let (_, s) := s.emit conditionBlock "branch" "unit"
      [.value v, .block bodyBlock, .block exitBlock]
    let (bodyEnd, _, s) := lowerStatement body (some bodyBlock) bindings s
    let s := jumpTo conditionBlock bodyEnd s
    (some exitBlock, bindings, s)
  | node, some b, bindings, s => (some b, bindings, (lowerExpression b bindings node s).2)

def lowerStatements : List ASTNode → Option Nat → List TirBinding → Lowering →
    Option Nat × List TirBinding × Lowering
  | [], b, bindings, s => (b, bindings, s)
  | statement :: statements, b, bindings, s =>
    let (b, bindings, s) := lowerStatement statement b bindings s
    lowerStatements statements b bindings s

end

/-! ## Functions and programs -/

/-- The types of the parameters stand next to their names. -/
def parameterList (params paramTypes : List String) : List (String × String) :=
  params.zip paramTypes

/-- A function with its parameters and its entry block, before its body is lowered. -/
def enterFunction (id : Nat) (name returnType : String) (parameters : List (String × String)) :
    Nat × TirFunction :=
  tirCreateBlock (parameters.foldl (fun f p => tirAddParameter f p.1 p.2)
    (initTirFunction id name returnType))

def lowerFunction (m : TirModule) (name : String) (params paramTypes : List String)
    (returnType : String) (body : ASTNode) : TirModule :=
  let parameters := parameterList params paramTypes
  let (entry, function) := enterFunction m.functions.length name returnType parameters
  let (_, _, s) := lowerStatement body (some entry) (parameters.map fun p => ⟨p.1, p.2⟩)
    ⟨function, m.diagnostics⟩
  { m with functions := m.functions ++ [s.function], diagnostics := s.diagnostics }

def lowerDeclaration (m : TirModule) : ASTNode → TirModule
  | .functionDecl name params paramTypes returnType body _ _ _ _ _ =>
    lowerFunction m name params paramTypes returnType body
  | .typeDecl .. | .modelDecl .. | .constDecl .. | .varDecl .. | .importStmt .. | .useStmt ..
  | .routeDecl .. | .traitDecl .. | .implDecl .. | .empty => m
  | _ => { m with diagnostics := m.diagnostics ++
      [tirError "E3000" "top-level declaration cannot be lowered to TIR" 0 0] }

def lowerProgramToTir (moduleName : String) : (root : ASTNode) → TirModule
  | .program decls => decls.foldl lowerDeclaration (initTirModule moduleName)
  | _ => { initTirModule moduleName with diagnostics :=
      [tirError "E3002" "frontend expected a program root" 0 0] }

end Tir
