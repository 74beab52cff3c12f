import Mathlib.Data.List.Basic
import Orbit.Build.Builder

/-!
# The code of integer literals

`compiler/ir/builder.orb`: `topLevelConstantValue`, and the branches of `buildExpr`,
`buildCallArgValue` and the `return` branch of `buildNode` that lower an integer literal under unary
operators. The code of the other nodes is given.
-/

namespace Build

open Front IR

/-- The C literal for a top-level declaration's value, or `""`. -/
def topLevelConstantValue : ASTNode → String
  | .literal valType text =>
    if valType = "int" then text
    else if valType = "bool" then if text = "true" then "1" else "0"
    else ""
  | .unaryOp op operand =>
    if op ≠ "-" then ""
    else
      let inner := topLevelConstantValue operand
      if inner = "" then ""
      else if inner = "9223372036854775808" then "(-9223372036854775807-1)"
      else "-" ++ inner
  | _ => ""

def unaryResultType (b : IRBuilder) (op : String) (operandReg : Int) : String :=
  let types := b.currentFunction.registerTypes
  if operandReg < 0 ∨ types.length ≤ operandReg then "unknown"
  else
    let t := types.getD operandReg.toNat ""
    if op = "-" ∧ (t = "int" ∨ t = "float") then t
    else if op = "~" ∧ t = "int" then "int"
    else "unknown"

def loadInt (w : Word) : IRInstruction := { irInitInstr .loadConst with operand1 := irInt w }

def unaryInstr (opcode : IROpcode) (reg : Int) : IRInstruction :=
  { irInitInstr opcode with operand1 := irRegister reg }

section
variable (other : ASTNode → BuildM Int) (otherArg : ASTNode → BuildM IRValue)
  (buildObjectLiteralAsModel : ASTNode → String → BuildM Int)

def buildExpr : ASTNode → BuildM Int
  | .literal valType text =>
    if valType = "int" then emitTo valType (loadInt (parseIntSelfhost text))
    else other (.literal valType text)
  | .unaryOp op operand => do
    let operandReg ← buildExpr operand
    if op = "!" then emitTo "bool" (unaryInstr .notOp operandReg)
    else if op = "-" then
      emitTo (unaryResultType (← get) "-" operandReg) (unaryInstr .neg operandReg)
    else if op = "~" then
      emitTo (unaryResultType (← get) "~" operandReg) (unaryInstr .bitNot operandReg)
    else return operandReg
  | node => other node

/-- The value of an operand or an argument: an integer literal is one itself. -/
def buildCallArgValue : ASTNode → BuildM IRValue
  | .literal valType text =>
    if valType = "int" then return irInt (parseIntSelfhost text)
    else otherArg (.literal valType text)
  | node => return irRegister (← buildExpr other node)

/-- `return` in `buildNode`. -/
def buildReturn : ASTNode → BuildM Unit
  | .empty => irEmit (retInstr irNone)
  | .literal valType text => do
    if valType = "int" then
      let litVal := parseIntSelfhost text
      irEmit (retInstr (irInt (if text.toList.head? = some '-' then 0 - litVal else litVal)))
    else
      let reg ← buildExpr other (.literal valType text)
      irEmit (retInstr (irRegister reg))
  | .objectLiteral fields => do
    let b ← get
    let reg ← if isModelDeclName b b.currentFunction.returnType then
        buildObjectLiteralAsModel (.objectLiteral fields) b.currentFunction.returnType
      else pure (-1)
    let reg ← if reg < 0 then buildExpr other (.objectLiteral fields) else pure reg
    irEmit (retInstr (irRegister reg))
  | node => do
    let reg ← buildExpr other node
    irEmit (retInstr (irRegister reg))

end

end Build

/-!
# The value of a string literal

`hexNibbleValue` to `unescapeStringBody` in `compiler/ir/builder.orb`. A byte is the character of its
code. Over the model, the spellings of single bytes that a literal's text is made of (`spellings`).
-/

namespace Build

abbrev Text := List Char

def hexNibbleValue (code : Char) : Int :=
  let n : Int := code.toNat
  if 48 ≤ n ∧ n ≤ 57 then n - 48
  else if 65 ≤ n ∧ n ≤ 70 then n - 55
  else if 97 ≤ n ∧ n ≤ 102 then n - 87
  else -1

/-- The code that two hexadecimal digits give, unless it is 0. -/
def escapeCode (a b : Char) : Option Char :=
  let hi := hexNibbleValue a
  let lo := hexNibbleValue b
  if 0 ≤ hi ∧ 0 ≤ lo ∧ 0 < hi * 16 + lo then some (Char.ofNat (hi * 16 + lo).toNat) else none

/-- An escape that has no meaning stays as it is. -/
def unescapeStringBody : Text → Text
  | '\\' :: 'x' :: a :: b :: t =>
    match escapeCode a b with
    | some c => c :: unescapeStringBody t
    | none => '\\' :: 'x' :: unescapeStringBody (a :: b :: t)
  | '\\' :: next :: t =>
    if next = 'n' then '\n' :: unescapeStringBody t
    else if next = 't' then '\t' :: unescapeStringBody t
    else if next = 'r' then '\r' :: unescapeStringBody t
    else if next = '"' then '"' :: unescapeStringBody t
    else if next = '\\' then '\\' :: unescapeStringBody t
    else '\\' :: next :: unescapeStringBody t
  | c :: t => c :: unescapeStringBody t
  | [] => []

/-- The text without a character on either side. -/
def unquote (s : Text) : Text := (s.take (s.length - 1)).drop 1

def unescapeString (s : Text) : Text :=
  if s.length < 2 then s else unescapeStringBody (unquote s)

def rawStringValue (s : Text) : Text :=
  if s.length < 6 then [] else (s.take (s.length - 3)).drop 3

def literalStringValue (valType : String) (text : Text) : Text :=
  if valType = "string_raw" then rawStringValue text else unescapeString text

/-! ## Spellings -/

/-- The byte that a backslash and a character stand for. -/
def namedEscape (c : Char) : Option Char :=
  if c = 'n' then some '\n'
  else if c = 't' then some '\t'
  else if c = 'r' then some '\r'
  else if c = '"' then some '"'
  else if c = '\\' then some '\\'
  else none

/-- How one byte is spelled: by itself, by a named escape or by its code in `\x`. -/
inductive Spelling where
  | self (c : Char)
  | named (c : Char)
  | code (a b : Char)
  deriving DecidableEq, Repr

namespace Spelling

/-- A named escape and a code are spellings only when they have a meaning. -/
def byte : Spelling → Option Char
  | self c => some c
  | named c => namedEscape c
  | code a b => escapeCode a b

end Spelling

/-- The spellings of the bytes of an ordinary literal's body, from the left. -/
def spellings : Text → List Spelling
  | '\\' :: 'x' :: a :: b :: t =>
    if (escapeCode a b).isSome then .code a b :: spellings t
    else .self '\\' :: .self 'x' :: spellings (a :: b :: t)
  | '\\' :: c :: t =>
    if (namedEscape c).isSome then .named c :: spellings t
    else .self '\\' :: .self c :: spellings t
  | c :: t => .self c :: spellings t
  | [] => []

/-- The spellings of the bytes between the quotes of a literal. A text too short for quotes has
none. -/
def literalSpellings (valType : String) (text : Text) : List Spelling :=
  if valType = "string_raw" then ((text.take (text.length - 3)).drop 3).map .self
  else if text.length < 2 then text.map .self
  else spellings (unquote text)

end Build
