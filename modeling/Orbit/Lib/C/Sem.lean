import Mathlib.Data.Int.Basic
import Mathlib.Data.BitVec
import Orbit.Lib.C.Syntax

/-!
# What integer expressions of C mean

C11 with a 32-bit `int` and 64-bit `int64_t` and `uint64_t`: the type of each expression (`typeOf`,
which also says whether it satisfies the constraints of the language), and its value or that its
evaluation has undefined behaviour (`eval`). The two points the standard leaves to the
implementation are taken as every mainstream compiler does: a conversion to a signed type that does
not fit is taken modulo the width, and `>>` of a negative value keeps the sign.
-/

namespace Lib.C

open Lib.Decimal

/-- Why an evaluation has no value; `σ` is what a call that stops the program says. -/
inductive Fault (σ : Type) where
  | undefined
  | illFormed
  | stops (s : σ)
  deriving DecidableEq, Repr

/-- An argument of a call: a number, or the body of a string literal. -/
inductive Arg where
  | int (v : Int)
  | str (s : Text)

/-- A function: `none` is a parameter of type `const char*`. -/
structure Fun (σ : Type) where
  params : List (Option Ty)
  result : Ty
  run : List Arg → Except (Fault σ) Int

structure Env (σ : Type) where
  vars : Text → Option (Ty × Int)
  funs : Text → Option (Fun σ)

/-! ## Types and constants -/

/-- The integer promotions. -/
def promote : Ty → Ty
  | .bool => .i32
  | t => t

/-- The usual arithmetic conversions. -/
def common (s t : Ty) : Ty :=
  if s = .u64 ∨ t = .u64 then .u64 else if s = .i64 ∨ t = .i64 then .i64 else .i32

def conv : Ty → Int → Int
  | .bool, v => if v = 0 then 0 else 1
  | .i32, v => v.bmod 4294967296
  | .i64, v => v.bmod 18446744073709551616
  | .u64, v => v % 18446744073709551616

theorem conv_i64 (v : Int) : conv .i64 v = v.bmod 18446744073709551616 := rfl

def maxInt32 : Int := 2147483647
def maxInt64 : Int := 9223372036854775807

def fits : Ty → Int → Bool
  | .bool, v => 0 ≤ v && v ≤ 1
  | .i32, v => -maxInt32 - 1 ≤ v && v ≤ maxInt32
  | .i64, v => -maxInt64 - 1 ≤ v && v ≤ maxInt64
  | .u64, v => 0 ≤ v && v ≤ 18446744073709551615

def width : Ty → Int
  | .bool | .i32 => 32
  | .i64 | .u64 => 64

/-- The type and value of a decimal constant, with or without the suffix `LL`. -/
def constant (s : Text) : Option (Ty × Int) :=
  let ds := s.takeWhile isDigit
  let v := digitsValue ds
  if ds = [] ∨ (ds.length ≠ 1 ∧ ds.head? = some '0') ∨ maxInt64 < v then none
  else if s.drop ds.length = [] then some (if v ≤ maxInt32 then .i32 else .i64, v)
  else if s.drop ds.length = ['L', 'L'] then some (.i64, v)
  else none

section
variable {σ : Type} (env : Env σ)

mutual

/-- The type of an expression that satisfies the constraints. -/
def typeOf : Expr → Option Ty
  | .num s => (constant s).map (·.1)
  | .str _ => none
  | .var x => (env.vars x).map (·.1)
  | .cast ty e => (typeOf e).map fun _ => ty
  | .un .not e => (typeOf e).map fun _ => .i32
  | .un _ e => (typeOf e).map promote
  -- The operand has to be a modifiable lvalue.
  | .preInc (.var x) => (env.vars x).map (·.1)
  | .preDec (.var x) => (env.vars x).map (·.1)
  | .preInc _ => none
  | .preDec _ => none
  | .bin op a b =>
    match typeOf a, typeOf b with
    | some s, some t =>
      match op with
      | .lt | .le | .gt | .ge | .eq | .ne | .land | .lor => some .i32
      | .shl | .shr => some (promote s)
      | _ => some (common (promote s) (promote t))
    | _, _ => none
  | .call f args =>
    match env.funs f with
    | some g => if typeArgs g.params args then some g.result else none
    | none => none

/-- The arguments match the parameters. -/
def typeArgs : List (Option Ty) → Args → Bool
  | [], .nil => true
  | none :: ps, .cons (.str _) es => typeArgs ps es
  | some _ :: ps, .cons e es => (typeOf e).isSome && typeArgs ps es
  | _, _ => false

end

attribute [simp] typeOf typeArgs

/-! ## Values -/

/-- A result of type `t`: unsigned arithmetic wraps, signed overflow is undefined. -/
def arith (t : Ty) (v : Int) : Except (Fault σ) (Ty × Int) :=
  if t = .u64 then .ok (t, v % 18446744073709551616)
  else if fits t v then .ok (t, v)
  else .error .undefined

def truth (b : Bool) : Ty × Int := (.i32, if b then 1 else 0)

def bits (op : BitVec 64 → BitVec 64 → BitVec 64) (t : Ty) (a b : Int) : Ty × Int :=
  (t, conv t (op (BitVec.ofInt 64 a) (BitVec.ofInt 64 b)).toInt)

/-- A binary operator other than `&&` and `||`, on converted operands of type `t`. -/
def binCommon (op : Bin) (t : Ty) (a b : Int) : Except (Fault σ) (Ty × Int) :=
  match op with
  | .add => arith t (a + b)
  | .sub => arith t (a - b)
  | .mul => arith t (a * b)
  | .div => if b = 0 then .error .undefined else arith t (a.tdiv b)
  | .mod =>
    if b = 0 then .error .undefined
    else match (arith t (a.tdiv b) : Except (Fault σ) (Ty × Int)) with
      | .ok _ => .ok (t, a.tmod b)
      | .error e => .error e
  | .lt => .ok (truth (a < b))
  | .le => .ok (truth (a ≤ b))
  | .gt => .ok (truth (b < a))
  | .ge => .ok (truth (b ≤ a))
  | .eq => .ok (truth (a = b))
  | .ne => .ok (truth (a ≠ b))
  | .band => .ok (bits (· &&& ·) t a b)
  | .bxor => .ok (bits (· ^^^ ·) t a b)
  | .bor => .ok (bits (· ||| ·) t a b)
  | _ => .error .illFormed

/-- A shift of a value of the promoted type `t`. -/
def shift (op : Bin) (t : Ty) (a c : Int) : Except (Fault σ) (Ty × Int) :=
  if c < 0 ∨ width t ≤ c then .error .undefined
  else if op = .shr then .ok (t, a / 2 ^ c.toNat)
  else if t = .u64 then .ok (t, a * 2 ^ c.toNat % 18446744073709551616)
  else if 0 ≤ a then arith t (a * 2 ^ c.toNat)
  else .error .undefined

mutual

def eval : Expr → Except (Fault σ) (Ty × Int)
  | .num s =>
    match constant s with
    | some v => .ok v
    | none => .error .illFormed
  | .str _ => .error .illFormed
  | .var x =>
    match env.vars x with
    | some v => .ok v
    | none => .error .illFormed
  | .cast ty e => do
    let v ← eval e
    return (ty, conv ty v.2)
  | .un .neg e => do
    let v ← eval e
    arith (promote v.1) (-v.2)
  | .un .not e => do
    let v ← eval e
    return truth (v.2 = 0)
  | .un .bnot e => do
    let v ← eval e
    return (promote v.1, conv (promote v.1) (~~~ BitVec.ofInt 64 v.2).toInt)
  -- Expressions with side effects are not in the fragment.
  | .preInc _ => .error .illFormed
  | .preDec _ => .error .illFormed
  | .bin op a b => do
    let v ← eval a
    match op with
    | .land => if v.2 = 0 then return truth false else do
        let w ← eval b
        return truth (w.2 ≠ 0)
    | .lor => if v.2 ≠ 0 then return truth true else do
        let w ← eval b
        return truth (w.2 ≠ 0)
    | .shl | .shr => do
        let w ← eval b
        shift op (promote v.1) v.2 w.2
    | op => do
        let w ← eval b
        let t := common (promote v.1) (promote w.1)
        binCommon op t (conv t v.2) (conv t w.2)
  | .call f args =>
    match env.funs f with
    | some g => do
      let vs ← evalArgs g.params args
      let v ← g.run vs
      return (g.result, v)
    | none => .error .illFormed

/-- The arguments, converted to the types of the parameters. -/
def evalArgs : List (Option Ty) → Args → Except (Fault σ) (List Arg)
  | [], .nil => return []
  | none :: ps, .cons (.str s) es => do return .str s :: (← evalArgs ps es)
  | some t :: ps, .cons e es => do
    let v ← eval e
    return .int (conv t v.2) :: (← evalArgs ps es)
  | _, _ => .error .illFormed

end

theorem typeOf_cast (ty : Ty) (e : Expr) :
    typeOf env (.cast ty e) = (typeOf env e).map fun _ => ty := rfl

theorem typeOf_not (e : Expr) : typeOf env (.un .not e) = (typeOf env e).map fun _ => .i32 := rfl

theorem typeOf_bin (op : Bin) (a b : Expr) :
    typeOf env (.bin op a b) =
      match typeOf env a, typeOf env b with
      | some s, some t =>
        match op with
        | .lt | .le | .gt | .ge | .eq | .ne | .land | .lor => some .i32
        | .shl | .shr => some (promote s)
        | _ => some (common (promote s) (promote t))
      | _, _ => none := rfl

theorem eval_bin (op : Bin) (a b : Expr) :
    eval env (.bin op a b) = (do
      let v ← eval env a
      match op with
      | .land => if v.2 = 0 then return truth false else do
          let w ← eval env b
          return truth (w.2 ≠ 0)
      | .lor => if v.2 ≠ 0 then return truth true else do
          let w ← eval env b
          return truth (w.2 ≠ 0)
      | .shl | .shr => do
          let w ← eval env b
          shift op (promote v.1) v.2 w.2
      | op => do
          let w ← eval env b
          let t := common (promote v.1) (promote w.1)
          binCommon op t (conv t v.2) (conv t w.2)) := rfl

attribute [simp] eval evalArgs

/-! ## Statements -/

/-- What a statement does. -/
inductive Effect where
  | next
  | assign (x : Text) (v : Int)
  | goto (l : Text)
  deriving DecidableEq, Repr

/-- The statement satisfies the constraints. -/
def Stmt.WellTyped : Stmt → Prop
  | .assign x e => (env.vars x).isSome ∧ (typeOf env e).isSome
  | .ifGoto e _ => (typeOf env e).isSome
  | _ => True

/-- An assignment converts to the type of the variable. -/
def exec : Stmt → Except (Fault σ) Effect
  | .empty => return .next
  | .assign x e => do
    let v ← eval env e
    match env.vars x with
    | some d => return .assign x (conv d.1 v.2)
    | none => .error .illFormed
  | .label _ => return .next
  | .goto l => return .goto l
  | .ifGoto e l => do
    let v ← eval env e
    return if v.2 = 0 then .next else .goto l

end

end Lib.C
