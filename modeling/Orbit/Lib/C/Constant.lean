import Mathlib
import Orbit.Lib.C.Block
import Orbit.Lib.Numeral

/-!
# Integer constants of C

What a text of digits is by the rules of C: a decimal, octal or hexadecimal constant (6.4.4.1), or a
binary one where the compiler has them, of the first type of its list that holds its value; and
what minus signs and differences make of constants (6.6). Suffixes are not in the fragment.
`Spells.parseExpr` reads a text that is one expression.
-/

namespace Lib.C

open Lib.Decimal

/-! ## Constants -/

/-- The types of integer constants, where `long` (or `long long`) has 64 bits. -/
inductive IntTy where
  | int | uint | long | ulong
  deriving DecidableEq, Repr

def IntTy.rank : IntTy → Nat
  | .int => 0
  | .uint => 1
  | .long => 2
  | .ulong => 3

def digitValue (c : Char) : Option Nat :=
  let n := c.toNat
  if 48 ≤ n ∧ n ≤ 57 then some (n - 48)
  else if 97 ≤ n ∧ n ≤ 102 then some (n - 87)
  else if 65 ≤ n ∧ n ≤ 70 then some (n - 55)
  else none

/-- The value of a digit that the base has. -/
def baseDigit (base : Nat) (c : Char) : Option Nat := (digitValue c).filter (· < base)

/-- The number a text spells in a base, when it is digits of the base. -/
def numeral (base : Nat) (ds : Text) : Option Nat :=
  if ds ≠ [] ∧ ∀ c ∈ ds, (baseDigit base c).isSome then
    some (Numeral.value base (ds.filterMap (baseDigit base)))
  else none

/-- Whether a constant is decimal, and its number. A `0` before other digits makes it octal. -/
def readConstant (binary : Bool) : Text → Option (Bool × Nat)
  | '0' :: m :: ds =>
    if m = 'x' ∨ m = 'X' then (numeral 16 ds).map (Prod.mk false)
    else if binary = true ∧ (m = 'b' ∨ m = 'B') then (numeral 2 ds).map (Prod.mk false)
    else (numeral 8 (m :: ds)).map (Prod.mk false)
  | ds => (numeral 10 ds).map (Prod.mk true)

/-- The first type that holds the number; a decimal constant is never unsigned. -/
def constantType (decimal : Bool) (n : Nat) : Option IntTy :=
  if n < 2 ^ 31 then some .int
  else if decimal = false ∧ n < 2 ^ 32 then some .uint
  else if n < 2 ^ 63 then some .long
  else if decimal = false ∧ n < 2 ^ 64 then some .ulong
  else none

def intConstant (binary : Bool) (s : Text) : Option (IntTy × Int) :=
  (readConstant binary s).bind fun c => (constantType c.1 c.2).map fun ty => (ty, c.2)

/-! ## Constant expressions -/

/-- An integer as a value of the type: unsigned arithmetic wraps, a signed type has to hold it. -/
def IntTy.result : IntTy → Int → Option (IntTy × Int)
  | .int, v => if -2 ^ 31 ≤ v ∧ v < 2 ^ 31 then some (.int, v) else none
  | .uint, v => some (.uint, v % 2 ^ 32)
  | .long, v => if -2 ^ 63 ≤ v ∧ v < 2 ^ 63 then some (.long, v) else none
  | .ulong, v => some (.ulong, v % 2 ^ 64)

/-- The usual arithmetic conversions: the later type. -/
def IntTy.common (s t : IntTy) : IntTy := if s.rank ≤ t.rank then t else s

/-- A value in a type of at least its rank. -/
def IntTy.convert : IntTy → Int → Int
  | .uint, v => v % 2 ^ 32
  | .ulong, v => v % 2 ^ 64
  | _, v => v

def constantEval (binary : Bool) : Expr → Option (IntTy × Int)
  | .num s => intConstant binary s
  | .un .neg e => (constantEval binary e).bind fun v => v.1.result (-v.2)
  | .bin .sub a b =>
    (constantEval binary a).bind fun x => (constantEval binary b).bind fun y =>
      let ty := x.1.common y.1
      ty.result (ty.convert x.2 - ty.convert y.2)
  | _ => none

/-- The value of a text that is a constant expression. -/
def constantValue (binary : Bool) (t : Text) : Option Int :=
  ((parseExpr (fun _ => none) t).bind (constantEval binary)).map (·.2)

section
variable {binary : Bool} {c : Char} {w : Text}

theorem constantValue_number (hc : isDigit c = true) (hw : ∀ x ∈ w, isIdentChar x = true) :
    constantValue binary (c :: w) = (intConstant binary (c :: w)).map (·.2) := by
  rw [constantValue, (spells_number hc hw).parseExpr (by decide)]
  rfl

theorem constantValue_minus (hc : isDigit c = true) (hw : ∀ x ∈ w, isIdentChar x = true) :
    constantValue binary ('-' :: c :: w) =
      ((intConstant binary (c :: w)).bind fun v => v.1.result (-v.2)).map (·.2) := by
  have hne : (c :: w).head? ≠ some '-' := by
    rw [List.head?_cons, Ne, Option.some.injEq]
    rintro rfl
    exact absurd hc (by decide)
  rw [constantValue, ((spells_number hc hw).neg hne).parseExpr (by decide)]
  rfl

/-! ## Values -/

variable {s : Text} {n : Nat}

theorem constantType_isSome (decimal : Bool) (h : n < 2 ^ 63) :
    (constantType decimal n).isSome = true := by
  unfold constantType
  split
  · rfl
  · split
    · rfl
    · rfl

/-- A constant that is no `unsigned int` has the value of its digits. -/
theorem intConstant_value (h : n < 2 ^ 63) : (intConstant binary s).map (·.2) = some (n : Int) ↔
    ∃ decimal, readConstant binary s = some (decimal, n) := by
  unfold intConstant
  cases hr : readConstant binary s with
  | none => simp
  | some c =>
    obtain ⟨decimal, m⟩ := c
    simp only [Option.bind_some, Option.map_map, Option.some.injEq, Prod.mk.injEq]
    constructor
    · intro hm
      obtain ⟨ty, -, hty⟩ := Option.map_eq_some_iff.mp hm
      exact ⟨decimal, rfl, Int.natCast_inj.mp hty⟩
    · rintro ⟨_, -, rfl⟩
      obtain ⟨ty, hty⟩ := Option.isSome_iff_exists.mp (constantType_isSome decimal h)
      rw [hty]
      rfl

/-- A minus sign negates a constant unless its type is `unsigned int`. -/
theorem intConstant_minus (h : n < 2 ^ 63) :
    ((intConstant binary s).bind fun v => v.1.result (-v.2)).map (·.2) = some (-(n : Int)) ↔
      ∃ decimal, readConstant binary s = some (decimal, n) ∧
        ¬ (decimal = false ∧ 2 ^ 31 ≤ n ∧ n < 2 ^ 32) := by
  unfold intConstant
  cases hr : readConstant binary s with
  | none => simp
  | some c =>
    obtain ⟨decimal, m⟩ := c
    have hread : (∃ d, some (decimal, m) = some (d, n) ∧ ¬ (d = false ∧ 2 ^ 31 ≤ n ∧ n < 2 ^ 32)) ↔
        m = n ∧ ¬ (decimal = false ∧ 2 ^ 31 ≤ m ∧ m < 2 ^ 32) := by
      constructor
      · rintro ⟨d, he, hu⟩
        obtain ⟨rfl, rfl⟩ := Prod.mk.inj (Option.some.inj he)
        exact ⟨rfl, hu⟩
      · rintro ⟨rfl, hu⟩
        exact ⟨decimal, rfl, hu⟩
    rw [hread, Option.bind_some]
    unfold constantType
    split
    · -- `int`
      rw [Option.map_some, Option.bind_some, IntTy.result, if_pos (by omega)]
      simp only [Option.map_some, Option.some.injEq]
      omega
    · split
      · -- `unsigned int`: the negation is not negative
        rename_i hint huint
        obtain ⟨rfl, hlt⟩ := huint
        rw [Option.map_some, Option.bind_some, IntTy.result]
        simp only [Option.map_some, Option.some.injEq, true_and]
        dsimp only at hint hlt
        omega
      · rename_i hint huint
        have hu : ¬ (decimal = false ∧ 2 ^ 31 ≤ m ∧ m < 2 ^ 32) := fun h => huint ⟨h.1, h.2.2⟩
        simp only [hu, not_false_iff, and_true]
        split
        · -- `long`
          rw [Option.map_some, Option.bind_some, IntTy.result, if_pos (by omega)]
          simp only [Option.map_some, Option.some.injEq]
          omega
        · split
          · -- `unsigned long`
            rw [Option.map_some, Option.bind_some, IntTy.result]
            simp only [Option.map_some, Option.some.injEq]
            omega
          · simp only [Option.map_none, Option.bind_none, reduceCtorEq, false_iff]
            omega

end

end Lib.C
