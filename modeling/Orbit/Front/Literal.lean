import Orbit.IR.Syntax
import Orbit.Lib.Text

/-!
# Literals and the spelling of types

`compiler/front/literal.orb`, and the splitting of type spellings in `compiler/ir/builder.orb`. A
type is its spelling: `list<int>`, `Box<string>`.
-/

namespace Front

open IR (Word)
open Lib

/-! ## Integer literals -/

def isHexMarker (c : Char) : Bool := c = 'x' || c = 'X'
def isBinMarker (c : Char) : Bool := c = 'b' || c = 'B'
def isOctMarker (c : Char) : Bool := c = 'o' || c = 'O'

/-- The base of a literal's text and the text after its marker. -/
def literalBase : List Char → Nat × List Char
  | '0' :: c :: d :: rest =>
    if isHexMarker c then (16, d :: rest)
    else if isBinMarker c then (2, d :: rest)
    else if isOctMarker c then (8, d :: rest)
    else (10, '0' :: c :: d :: rest)
  | cs => (10, cs)

/-- One character of a literal: digits the base does not have and separators are skipped. -/
def parseIntStep (base : Nat) (result : Word) (c : Char) : Word :=
  let n := c.toNat
  if 48 ≤ n ∧ n ≤ 57 then
    if (base = 8 ∧ 55 < n) ∨ (base = 2 ∧ 49 < n) then result
    else result * BitVec.ofNat 64 base + BitVec.ofNat 64 (n - 48)
  else if base = 16 then
    if 97 ≤ n ∧ n ≤ 102 then result * 16 + BitVec.ofNat 64 (n - 87)
    else if 65 ≤ n ∧ n ≤ 70 then result * 16 + BitVec.ofNat 64 (n - 55)
    else result
  else result

def parseIntSelfhost (s : String) : Word :=
  let (base, digits) := literalBase s.toList
  digits.foldl (parseIntStep base) 0

/-- The value of a digit in any base up to 16, or `-1`. -/
def literalDigitValue (c : Char) : Int :=
  let n : Int := c.toNat
  if 48 ≤ n ∧ n ≤ 57 then n - 48
  else if 97 ≤ n ∧ n ≤ 102 then n - 87
  else if 65 ≤ n ∧ n ≤ 70 then n - 55
  else -1

/-- The digits the base has, without the leading zeros. -/
def significantStep (base : Nat) (digits : List Char) (c : Char) : List Char :=
  let d := literalDigitValue c
  if 0 ≤ d ∧ d < base then
    if digits ≠ [] ∨ d ≠ 0 then digits ++ [c] else digits
  else digits

/-- The loop over the 19 digits of the limit. -/
def digitsWithin : List Char → List Char → Bool
  | digit :: digits, want :: limit =>
    if digit.toNat < want.toNat then true
    else if want.toNat < digit.toNat then false
    else digitsWithin digits limit
  | _, _ => true

def intLimit : List Char :=
  ['9', '2', '2', '3', '3', '7', '2', '0', '3', '6', '8', '5', '4', '7', '7', '5', '8', '0', '7']

/-- Whether `orbit_int` can hold the value of a literal. -/
def intLiteralFitsSelfhost (s : String) : Bool :=
  let (base, rest) := literalBase s.toList
  let digits := rest.foldl (significantStep base) []
  let n := digits.length
  if base = 2 then n ≤ 63
  else if base = 8 then n ≤ 21
  else if base = 16 then
    if n < 16 then true
    else if 16 < n then false
    else literalDigitValue (digits.headD '0') ≤ 7
  else if n < 19 then true
  else if 19 < n then false
  else digitsWithin digits intLimit

/-! ## Type spellings -/

def isTypeNameChar (c : Char) : Bool := c.isAlphanum || c = '_'

/-- Every run of other characters becomes one `_`, none in front and none at the end. -/
def mangleTypeArg (s : String) : String :=
  let out := s.toList.foldl (fun out c =>
    if isTypeNameChar c then out ++ [c]
    else if out ≠ [] ∧ out.getLast? ≠ some '_' then out ++ ['_'] else out) []
  String.ofList (if out.getLast? = some '_' then out.dropLast else out)

def isTypeArgSpace (c : Char) : Bool := c = ' ' || c = '\t' || c = '\n' || c = '\x0d'

def trimTypeArg (s : String) : String :=
  String.ofList (((s.toList.dropWhile isTypeArgSpace).reverse.dropWhile isTypeArgSpace).reverse)

/-- The arguments between the commas that stand outside every `<…>`; an empty last one is dropped.
A depth that goes negative stays negative, as in the source. -/
def splitTypeArgs (s : String) : List String := go s.toList [] 0
where
  go : List Char → List Char → Int → List String
    | [], cur, _ =>
      let last := trimTypeArg (String.ofList cur.reverse)
      if last = "" then [] else [last]
    | c :: cs, cur, depth =>
      let depth := if c = '<' then depth + 1 else if c = '>' then depth - 1 else depth
      if c = ',' ∧ depth = 0 then trimTypeArg (String.ofList cur.reverse) :: go cs [] depth
      else go cs (c :: cur) depth

/-- The parts of a tab-joined list. -/
def splitPayloadTypes (joined : String) : List String :=
  if joined = "" then [] else Text.splitOn '\t' joined

def joinTypeNames (items : List String) : String := ",".intercalate items

def typeParamIndex (params : List String) (declared : String) : Option Nat :=
  params.findIdx? (· == declared)

def argumentForTypeName (word : String) (params args : List String) : String :=
  match typeParamIndex params word with
  | some i => match args[i]? with
    | some a => if a = "" then word else a
    | none => word
  | none => word

/-- Every maximal run of name characters that is a type parameter, replaced by its argument. -/
def substituteTypeParams (declared : String) (params args : List String) : String :=
  go declared.toList []
where
  flush (word : List Char) : String :=
    if word.isEmpty then "" else argumentForTypeName (String.ofList word.reverse) params args
  go : List Char → List Char → String
    | [], word => flush word
    | c :: cs, word =>
      if isTypeNameChar c then go cs (c :: word)
      else flush word ++ String.singleton c ++ go cs []

example : substituteTypeParams "Box<T>" ["T"] ["int"] = "Box<int>" := by decide
example : splitTypeArgs "int, list<Box<T, U>>" = ["int", "list<Box<T, U>>"] := by decide
example : mangleTypeArg "list<Box<int>>" = "list_Box_int" := by decide

end Front
