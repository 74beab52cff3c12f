import Orbit.Front.Lexer
import Orbit.Front.Literal
import Orbit.Lib.Numeral

/-!
# Integer literals

The grammar of integer literals and the number that each denotes, and what the text at a number must
be for the lexer to read a literal of the grammar there (`NumberOk`).
-/

namespace Front.Lex

open Lib

/-! ## The grammar -/

/-- Digits with underscores only between them. -/
inductive Digits (p : Char → Bool) : Text → Prop
  | one {c} : p c = true → Digits p [c]
  | more {c w} : p c = true → Digits p w → Digits p (c :: w)
  | separated {c w} : p c = true → Digits p w → Digits p (c :: '_' :: w)

/-- A decimal literal, or one with the prefix of a base. -/
inductive IntLiteral : Text → Prop
  | decimal {w} : Digits isDigit w → IntLiteral w
  | prefixed {m w} : 0 < radixOf m → Digits (fun c => isRadixDigit c (radixOf m)) w →
      IntLiteral ('0' :: m :: w)

/-! ## The number -/

/-- The value of a digit. -/
def digitOf (c : Char) : Option Nat :=
  let n := c.toNat
  if 48 ≤ n ∧ n ≤ 57 then some (n - 48)
  else if 97 ≤ n ∧ n ≤ 102 then some (n - 87)
  else if 65 ≤ n ∧ n ≤ 70 then some (n - 55)
  else none

/-- The value of a digit that the base has. -/
def digitIn (base : Nat) (c : Char) : Option Nat := (digitOf c).filter (· < base)

def digitsIn (base : Nat) (w : Text) : List Nat := w.filterMap (digitIn base)

/-- The base of a literal, and the text that its digits are in. -/
def baseOf : Text → Nat × Text
  | '0' :: m :: w => if 0 < radixOf m then (radixOf m, w) else (10, '0' :: m :: w)
  | w => (10, w)

/-- The number that the digits of a literal denote. -/
def literalValue (w : Text) : Nat := Numeral.value (baseOf w).1 (digitsIn (baseOf w).1 (baseOf w).2)

/-- The greatest `orbit_int`. -/
def intMax : Nat := 2 ^ 63 - 1

/-! ## Arithmetic without a limit -/

/-- `parseIntStep` on numbers. -/
def parseNatStep (base : Nat) (result : Nat) (c : Char) : Nat :=
  let n := c.toNat
  if 48 ≤ n ∧ n ≤ 57 then
    if (base = 8 ∧ 55 < n) ∨ (base = 2 ∧ 49 < n) then result
    else result * base + (n - 48)
  else if base = 16 then
    if 97 ≤ n ∧ n ≤ 102 then result * 16 + (n - 87)
    else if 65 ≤ n ∧ n ≤ 70 then result * 16 + (n - 55)
    else result
  else result

/-- `parseIntSelfhost` does not wrap: after every character its word is the number without a limit,
and this an `orbit_int`. -/
def NeverWraps (s : String) : Prop :=
  ∀ p, p <+: (literalBase s.toList).2 →
    (p.foldl (parseIntStep (literalBase s.toList).1) 0).toNat =
        p.foldl (parseNatStep (literalBase s.toList).1) 0 ∧
      p.foldl (parseNatStep (literalBase s.toList).1) 0 ≤ intMax

/-! ## The text of a number -/

/-- In the digits and underscores at the start of the text, every underscore stands before a digit. -/
def SeparatorsOk (p : Char → Bool) (t : Text) : Prop :=
  ∀ u v, t.takeWhile (fun c => p c || c = '_') = u ++ '_' :: v → p (v.headD nul) = true

/-- The text where an integer starts: a digit of the base behind a prefix, and every underscore
before a digit. -/
def NumberOk : Text → Prop
  | '0' :: m :: t =>
    if 0 < radixOf m then
      isRadixDigit (t.headD nul) (radixOf m) = true ∧
        SeparatorsOk (fun c => isRadixDigit c (radixOf m)) t
    else SeparatorsOk isDigit ('0' :: m :: t)
  | t => SeparatorsOk isDigit t

end Front.Lex
