import Orbit.Build.Literal
import Orbit.Front.Sema

/-!
# The code of an integer literal under minus signs

`buildExpr` gives a register for the literal and one for each sign, and an instruction for each
(`buildExpr_intNode`); `buildCallArgValue` and `buildReturn` take the literal itself when there is no
sign.
-/

namespace Build

open Front IR

def loadAt (dest : Int) (w : Word) : IRInstruction := { loadInt w with dest }

def negAt (dest reg : Int) : IRInstruction := { unaryInstr .neg reg with dest }

/-- The instruction that writes register `base + k` of the code. -/
def minusAt (base : Nat) (w : Word) : Nat → IRInstruction
  | 0 => loadAt base w
  | k + 1 => negAt (base + (k + 1 : Nat)) (base + k)

def minusCode (base : Nat) (w : Word) (n : Nat) : List IRInstruction :=
  (List.range (n + 1)).map (minusAt base w)

@[simp] theorem length_minusCode (base : Nat) (w : Word) (n : Nat) :
    (minusCode base w n).length = n + 1 := by simp [minusCode]

theorem minusCode_succ (base : Nat) (w : Word) (n : Nat) :
    minusCode base w (n + 1) = minusCode base w n ++ [minusAt base w (n + 1)] := by
  rw [minusCode, List.range_succ, List.map_append]
  rfl

theorem getElem?_minusCode (base : Nat) (w : Word) {n k : Nat} (hk : k ≤ n) :
    (minusCode base w n)[k]? = some (minusAt base w k) := by
  have : k < n + 1 := by omega
  simp [minusCode, this]

@[simp] theorem dest_minusAt (base : Nat) (w : Word) (k : Nat) :
    (minusAt base w k).dest = base + k := by
  cases k with
  | zero => simp [minusAt, loadAt]
  | succ k => rfl

/-- The function with the code of a literal under `n` signs behind its own. -/
def withMinus (f : IRFunction) (w : Word) (n : Nat) : IRFunction :=
  { f with instructions := f.instructions ++ minusCode f.registerTypes.length w n,
           registerCount := f.registerCount + (n + 1 : Nat),
           registerTypes := f.registerTypes ++ List.replicate (n + 1) "int" }

/-- The function with one more instruction that writes a register of its own. -/
def withInstr (f : IRFunction) (typeName : String) (i : IRInstruction) : IRFunction :=
  IRFunction.emit (IRFunction.allocRegister f typeName) { i with dest := f.registerCount }

theorem emitTo_eq (typeName : String) (i : IRInstruction) (b : IRBuilder) : emitTo typeName i b =
    (b.currentFunction.registerCount,
      { b with currentFunction := withInstr b.currentFunction typeName i }) := rfl

theorem withInstr_load {f : IRFunction} (hc : f.registerCount = f.registerTypes.length) (w : Word) :
    withInstr f "int" (loadInt w) = withMinus f w 0 := by
  simp [withInstr, withMinus, IRFunction.emit, IRFunction.allocRegister,
    minusCode, minusAt, loadAt, hc]

theorem withInstr_neg {f : IRFunction} (hc : f.registerCount = f.registerTypes.length) (w : Word)
    (n : Nat) : withInstr (withMinus f w n) "int" (unaryInstr .neg (f.registerTypes.length + n)) =
      withMinus f w (n + 1) := by
  have htypes : List.replicate (n + 1) "int" ++ ["int"] = List.replicate (n + 2) "int" := by
    rw [List.replicate_succ' (n := n + 1)]
  simp [withInstr, withMinus, IRFunction.emit, IRFunction.allocRegister, minusCode_succ, minusAt,
    negAt, hc, htypes]
  omega

/-- The negation of an `int` register is an `int`. -/
theorem unaryResultType_int {b : IRBuilder} {r : Int} {k : Nat} (hr : r = k)
    (h : b.currentFunction.registerTypes[k]? = some "int") : unaryResultType b "-" r = "int" := by
  obtain ⟨hlt, -⟩ := List.getElem?_eq_some_iff.mp h
  have hin : ¬ (r < 0 ∨ (b.currentFunction.registerTypes.length : Int) ≤ r) := by omega
  have hget : b.currentFunction.registerTypes.getD r.toNat "" = "int" := by
    rw [hr, Int.toNat_natCast, List.getD_eq_getElem?_getD, h]
    rfl
  simp only [unaryResultType, if_neg hin, hget]
  rfl

section
variable (other : ASTNode → BuildM Int) (otherArg : ASTNode → BuildM IRValue)
  (asModel : ASTNode → String → BuildM Int) {b : IRBuilder}

/-- **The code of a literal under minus signs.** -/
theorem buildExpr_intNode (n : Nat) (w : List Char)
    (hc : b.currentFunction.registerCount = b.currentFunction.registerTypes.length) :
    buildExpr other (intNode n w) b = ((b.currentFunction.registerTypes.length + n : Int),
      { b with currentFunction :=
          withMinus b.currentFunction (parseIntSelfhost (String.ofList w)) n }) := by
  induction n with
  | zero =>
    rw [intNode, minusSigns, buildExpr, if_pos rfl, emitTo_eq, withInstr_load hc, hc]
    simp
  | succ n ih =>
    have hreg : unaryResultType
        { b with currentFunction :=
            withMinus b.currentFunction (parseIntSelfhost (String.ofList w)) n }
        "-" (b.currentFunction.registerTypes.length + n) = "int" := by
      refine unaryResultType_int (k := b.currentFunction.registerTypes.length + n) (by simp) ?_
      simp [withMinus]
    have hstep : buildExpr other (intNode (n + 1) w) b =
        emitTo "int" (unaryInstr .neg (b.currentFunction.registerTypes.length + n))
          { b with currentFunction :=
              withMinus b.currentFunction (parseIntSelfhost (String.ofList w)) n } := by
      rw [← hreg, show intNode (n + 1) w = .unaryOp "-" (intNode n w) from rfl, buildExpr]
      simp only [bind, StateT.bind, ih]
      rfl
    rw [hstep, emitTo_eq, withInstr_neg hc]
    simp only [withMinus, hc]

theorem buildCallArgValue_literal (w : List Char) (b : IRBuilder) :
    buildCallArgValue other otherArg (intNode 0 w) b =
      (irInt (parseIntSelfhost (String.ofList w)), b) := by
  rw [intNode, minusSigns, buildCallArgValue, if_pos rfl]
  rfl

theorem buildCallArgValue_minus (n : Nat) (w : List Char)
    (hc : b.currentFunction.registerCount = b.currentFunction.registerTypes.length) :
    buildCallArgValue other otherArg (intNode (n + 1) w) b =
      (irRegister (b.currentFunction.registerTypes.length + (n + 1 : Nat)),
        { b with currentFunction :=
            withMinus b.currentFunction (parseIntSelfhost (String.ofList w)) (n + 1) }) := by
  have h := buildExpr_intNode other (n + 1) w hc
  rw [show intNode (n + 1) w = .unaryOp "-" (intNode n w) from rfl] at h ⊢
  rw [buildCallArgValue]
  · simp only [bind, StateT.bind, h]
    rfl
  · simp

theorem buildReturn_literal {w : List Char} (hw : w.head? ≠ some '-') (b : IRBuilder) :
    (buildReturn other asModel (intNode 0 w) b).2.currentFunction =
      IRFunction.emit b.currentFunction
        (retInstr (irInt (parseIntSelfhost (String.ofList w)))) := by
  rw [intNode, minusSigns, buildReturn, if_pos rfl, String.toList_ofList, if_neg hw]
  rfl

theorem buildReturn_minus (n : Nat) (w : List Char)
    (hc : b.currentFunction.registerCount = b.currentFunction.registerTypes.length) :
    (buildReturn other asModel (intNode (n + 1) w) b).2.currentFunction =
      IRFunction.emit
        (withMinus b.currentFunction (parseIntSelfhost (String.ofList w)) (n + 1))
        (retInstr (irRegister (b.currentFunction.registerTypes.length + (n + 1 : Nat)))) := by
  have h := buildExpr_intNode other (n + 1) w hc
  rw [show intNode (n + 1) w = .unaryOp "-" (intNode n w) from rfl] at h ⊢
  rw [buildReturn]
  · simp only [bind, StateT.bind, h]
    rfl
  · simp
  · simp
  · simp

end

end Build
