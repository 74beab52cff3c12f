import Orbit.Front.Ast
import Orbit.Front.Literal

/-!
# Checks of literals and constants

`compiler/front/sema.orb`: what the checker says of an integer literal under unary operators, and
which values a declaration of file scope may have; the check of a string literal for a NUL byte
(`stringLiteralHasNul`, which `checkNode` asks of an ordinary literal) and of the parts of an
interpolated string (`checkInterpolation`); and whether a `/` or `%` is reported because its operands
are constants that cannot be divided (`literalIndexValue` to `checkDivision`). The text of an ordinary
string literal is that of its token, quotes included. Ints are 64-bit words. What the checker says of
the other nodes is given.
-/

namespace Front

open IR (Word)

/-! ## Integer literals -/

def semaKnownType (t : String) : Bool := t ≠ "" && t ≠ "unknown" && t ≠ "void"

/-- The magnitude of the least `orbit_int`, which is one past the greatest. -/
def minLiteral : String := "9223372036854775808"

def isMinLiteral : ASTNode → Bool
  | .literal valType text => valType = "int" && text = minLiteral
  | _ => false

/-- The type of a node and the errors reported for it. -/
def checkNode (other : ASTNode → String × List String) : ASTNode → String × List String
  | .unaryOp op operand =>
    -- the only spelling of the minimum is a negation of a literal that does not fit
    if op = "-" ∧ isMinLiteral operand then ("int", [])
    else
      let (operandType, errors) := checkNode other operand
      if op = "!" then ("bool", errors)
      else if op = "~" then
        if operandType = "int" then ("int", errors)
        else if semaKnownType operandType then
          ("unknown", errors ++ ["bitwise '~' takes one int, not '" ++ operandType ++ "'"])
        else ("unknown", errors)
      else (operandType, errors)
  | .literal valType text =>
    if valType = "int" then
      if intLiteralFitsSelfhost text then ("int", [])
      else ("int", ["integer literal " ++ text ++ " does not fit an orbit_int, which is 64 bits; " ++
        "write the value as a sum if you mean it"])
    else other (.literal valType text)
  | node => other node

/-- A value that a declaration of file scope may have: a literal, possibly negated. -/
def isTopLevelConstantExpr : ASTNode → Bool
  | .literal valType _ => valType = "int" || valType = "bool"
  | .unaryOp op (.literal valType _) => op = "-" && valType = "int"
  | _ => false

/-! ## Literals under minus signs -/

def minusSigns : Nat → ASTNode → ASTNode
  | 0, e => e
  | n + 1, e => .unaryOp "-" (minusSigns n e)

/-- The node of the literal `w` under `n` minus signs. -/
def intNode (n : Nat) (w : List Char) : ASTNode := minusSigns n (.literal "int" (String.ofList w))

/-! ## String literals -/

/-- A loop over the bytes from the index on: a backslash is stepped over with the three bytes that
follow. -/
def stringLiteralHasNul : List Char → Bool
  | [] => false
  | '\\' :: 'x' :: '0' :: '0' :: _ => true
  | c :: t =>
    if c = '\x00' then true
    else if c = '\\' then stringLiteralHasNul (t.drop 3)
    else stringLiteralHasNul t
termination_by t => t.length

def nulError : String :=
  "a string cannot contain a NUL byte: an orbit_string is a C string, so \"\\x00\" would truncate " ++
    "the value at that point"

def isInterpolatable (typeName : String) : Bool :=
  typeName = "string" || typeName = "int" || typeName = "float" || typeName = "bool" ||
    typeName = "unknown"

def isStringChunk : ASTNode → Bool
  | .literal valType _ => valType = "string_chunk"
  | _ => false

section
variable (other : ASTNode → String × List String)

mutual

/-- The type of a string literal or of an interpolated string and the errors reported for it. -/
def checkString : ASTNode → String × List String
  | .literal valType text =>
    if valType = "string_raw" then ("string", [])
    else if valType = "string" then
      ("string", if stringLiteralHasNul text.toList then [nulError] else [])
    else if valType = "string_chunk" then ("string", [])
    else other (.literal valType text)
  | .interp parts _ => ("string", checkInterpolation parts)
  | node => other node

/-- The parts of an interpolated string. A chunk is not looked at. -/
def checkInterpolation : List ASTNode → List String
  | [] => []
  | part :: parts =>
    if isStringChunk part then checkInterpolation parts
    else
      let (partType, errors) := checkString part
      errors ++ (if isInterpolatable partType then []
        else ["cannot interpolate a value of type '" ++ partType ++
          "' in a string; only string, int, float and bool convert"]) ++ checkInterpolation parts

end

end

/-! ## Constant divisions -/

/-- A reported error, `SemaError`. -/
structure SemaError where
  message : String
  line : Int
  col : Int
  code : String
  hint : String
  deriving DecidableEq, Repr

/-- The loop over the digits of a literal index. -/
def indexDigits : Word → List Char → Word
  | v, [] => v
  | v, c :: t =>
    if c.toNat < 48 ∨ 57 < c.toNat then -1
    else indexDigits (v * 10 + BitVec.ofNat 64 (c.toNat - 48)) t

/-- The value of a literal, or -1 for what is none. -/
def literalIndexValue : ASTNode → Word
  | .unaryOp op operand =>
    if op ≠ "-" then -1
    else
      let inner := literalIndexValue operand
      if inner.toInt < 0 then -1 else 0 - inner
  | .literal valType text =>
    if valType ≠ "int" then -1
    else if text.toList = [] then -1
    else indexDigits 0 text.toList
  | _ => -1

theorem literalIndexValue_unary (op : String) (operand : ASTNode) :
    literalIndexValue (.unaryOp op operand) =
      if op ≠ "-" then -1
      else
        let inner := literalIndexValue operand
        if inner.toInt < 0 then -1 else 0 - inner := rfl

theorem literalIndexValue_literal (valType text : String) :
    literalIndexValue (.literal valType text) =
      if valType ≠ "int" then -1
      else if text.toList = [] then -1
      else indexDigits 0 text.toList := rfl

def isIntMinSpelling : ASTNode → Bool
  | .unaryOp op operand => op = "-" && isMinLiteral operand
  | _ => false

def canFoldInt : ASTNode → Bool
  | .unaryOp op operand =>
    isIntMinSpelling (.unaryOp op operand) ||
      decide (0 ≤ (literalIndexValue (.unaryOp op operand)).toInt) ||
      (op = "-" && canFoldInt operand)
  | .binaryOp op lhs rhs _ _ => (op = "+" || op = "-") && (canFoldInt lhs && canFoldInt rhs)
  | node => decide (0 ≤ (literalIndexValue node).toInt)

/-- The least int, from 32-bit literals. -/
def intMinValue : Word := (0 - 2147483647 - 1) * 65536 * 65536

def foldedIntValue : ASTNode → Word
  | .unaryOp op operand =>
    if isIntMinSpelling (.unaryOp op operand) then intMinValue
    else if 0 ≤ (literalIndexValue (.unaryOp op operand)).toInt then
      literalIndexValue (.unaryOp op operand)
    else 0 - foldedIntValue operand
  | .binaryOp op lhs rhs _ _ =>
    if op = "+" then foldedIntValue lhs + foldedIntValue rhs
    else foldedIntValue lhs - foldedIntValue rhs
  | node => if 0 ≤ (literalIndexValue node).toInt then literalIndexValue node else 0

def checkDivision (op : String) (rhs lhs : ASTNode) (line col : Int) : List SemaError :=
  if op ≠ "/" ∧ op ≠ "%" then []
  else
    let divisor := literalIndexValue rhs
    if divisor = 0 then
      [{ code := "E1004", line, col
         hint := "A divisor of zero is an error, not a value; guard the case with if d != 0."
         message := "This " ++ op ++ " has a literal 0 divisor, which has no answer." }]
    else if divisor = -1 then
      if canFoldInt lhs ∧ foldedIntValue lhs = intMinValue then
        [{ code := "E1004", line, col
           hint := "This quotient is not representable as an int; divide as floats, or guard the " ++
             "case."
           message := "Dividing the most negative int by -1 overflows, and an overflowing " ++
             "division faults the same way a zero divisor does." }]
      else []
    else []

end Front
