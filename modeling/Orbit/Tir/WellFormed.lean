import Mathlib.Logic.Relation
import Orbit.Tir.Lower

/-!
# Well-formed typed IR

What it is for a lowered function to be well formed (`WellFormed`): its blocks, its jumps, its values,
and the bindings that its loads read. Lexical scoping is stated apart from the lowering, with a frame
for each block, branch and loop body (`scopedLoads`).
-/

namespace Tir

open Front (ASTNode)

/-! ## Instructions -/

def TirOperand.value? : TirOperand → Option (Option Nat)
  | .value id => some id
  | _ => none

def TirOperand.block? : TirOperand → Option Nat
  | .block id => some id
  | _ => none

/-- The values that an instruction names. -/
def TirInstruction.values (i : TirInstruction) : List (Option Nat) :=
  i.operands.filterMap TirOperand.value?

/-- The blocks that an instruction names. -/
def TirInstruction.targets (i : TirInstruction) : List Nat :=
  i.operands.filterMap TirOperand.block?

def terminators : List String := ["branch", "jump", "return"]

def TirInstruction.isTerminator (i : TirInstruction) : Bool := decide (i.opcode ∈ terminators)

/-- The name and the type of a load. -/
def TirInstruction.load? (i : TirInstruction) : Option (String × String) :=
  if i.opcode = "load" then
    match i.operands with
    | [.word name] => some (name, i.typeName)
    | _ => none
  else none

/-! ## Blocks -/

def blockOf (b : Nat) (is : List TirInstruction) : List TirInstruction :=
  is.filter (·.blockId = b)

/-- One terminator, at the end. -/
def Terminated (is : List TirInstruction) : Prop :=
  ∃ before last, is = before ++ [last] ∧ last.isTerminator = true ∧
    ∀ i ∈ before, i.isTerminator = false

/-- No terminator. -/
def Open (is : List TirInstruction) : Prop := ∀ i ∈ is, i.isTerminator = false

/-- Control goes from a block to one that an instruction in it names. -/
def Goes (is : List TirInstruction) (b t : Nat) : Prop := ∃ i ∈ blockOf b is, t ∈ i.targets

/-- The blocks that control can reach from the entry block. -/
def Reaches (is : List TirInstruction) : Nat → Prop := Relation.ReflTransGen (Goes is) 0

/-! ## Statements -/

mutual

/-- Control can run off the end of a statement. -/
def fallsThrough : ASTNode → Bool
  | .returnNode _ => false
  | .block statements => allFallThrough statements
  | .ifNode _ thenBody elseBody => fallsThrough thenBody || fallsThrough elseBody
  | _ => true

def allFallThrough : List ASTNode → Bool
  | [] => true
  | statement :: statements => fallsThrough statement && allFallThrough statements

end

mutual

/-- Nothing behind the statement in its block is lowered. -/
def stops : ASTNode → Bool
  | .returnNode _ => true
  | .block statements => anyStops statements
  | _ => false

def anyStops : List ASTNode → Bool
  | [] => false
  | statement :: statements => stops statement || anyStops statements

end

def isBlock : ASTNode → Bool
  | .block _ => true
  | _ => false

mutual

/-- The trees that the parser builds, as far as they are lowered: an operator is short, and no block
is a statement of a block. -/
def wellShaped : ASTNode → Bool
  | .binaryOp op lhs rhs _ _ => decide (op.length ≤ 2) && wellShaped lhs && wellShaped rhs
  | .unaryOp _ operand => wellShaped operand
  | .memberAccess object _ _ _ => wellShaped object
  | .call callee args _ _ => wellShaped callee && allWellShaped args
  | .varDecl _ _ value _ _ _ => wellShaped value
  | .returnNode expr => wellShaped expr
  | .block statements => allWellShaped statements && !statements.any isBlock
  | .ifNode condition thenBody elseBody =>
    wellShaped condition && wellShaped thenBody && wellShaped elseBody
  | .whileNode condition body => wellShaped condition && wellShaped body
  | _ => true

def allWellShaped : List ASTNode → Bool
  | [] => true
  | node :: nodes => wellShaped node && allWellShaped nodes

end

/-! ## Scopes -/

/-- The bindings in scope: the innermost frame first, and in a frame the last binding. -/
abbrev Scope := List (List TirBinding)

/-- The bindings of a scope in the order in which they were made. -/
def Scope.bindings (Γ : Scope) : List TirBinding := Γ.flatten.reverse

def Scope.lookup (Γ : Scope) (name : String) : Option TirBinding :=
  Γ.findSome? fun frame => frame.find? (·.name = name)

def Scope.declare (name typeName : String) : Scope → Scope
  | [] => [[⟨name, typeName⟩]]
  | frame :: Γ => (⟨name, typeName⟩ :: frame) :: Γ

/-- The scope behind a statement: only a declaration changes it. -/
def Scope.after (Γ : Scope) : ASTNode → Scope
  | .varDecl name _ value _ _ _ => Γ.declare name (typeOfExpression Γ.bindings value)
  | _ => Γ

/-- A read of a name, with the type of the binding that it reads. -/
def Scope.read (Γ : Scope) (name : String) : String × String :=
  (name, ((Γ.lookup name).map (·.typeName)).getD "unknown")

mutual

/-- The reads of names in an expression, each with the binding that lexical scoping gives it. -/
def expressionLoads (Γ : Scope) : ASTNode → List (String × String)
  | .literal valType text => if valType = "identifier" then [Γ.read text] else []
  | .binaryOp _ lhs rhs _ _ => expressionLoads Γ lhs ++ expressionLoads Γ rhs
  | .unaryOp _ operand => expressionLoads Γ operand
  | .memberAccess object _ _ _ => expressionLoads Γ object
  | .call callee args _ _ => expressionLoads Γ callee ++ argumentLoads Γ args
  | _ => []

def argumentLoads (Γ : Scope) : List ASTNode → List (String × String)
  | [] => []
  | node :: nodes => expressionLoads Γ node ++ argumentLoads Γ nodes

end

mutual

/-- The reads of names in what is lowered of a statement. -/
def scopedLoads (Γ : Scope) : ASTNode → List (String × String)
  | .varDecl _ _ value _ _ _ => expressionLoads Γ value
  | .returnNode expr => expressionLoads Γ expr
  | .block statements => blockLoads ([] :: Γ) statements
  | .ifNode condition thenBody elseBody =>
    expressionLoads Γ condition ++
      (scopedLoads ([] :: Γ) thenBody ++ scopedLoads ([] :: Γ) elseBody)
  | .whileNode condition body => expressionLoads Γ condition ++ scopedLoads ([] :: Γ) body
  | node => expressionLoads Γ node

def blockLoads (Γ : Scope) : List ASTNode → List (String × String)
  | [] => []
  | statement :: statements => scopedLoads Γ statement ++
      if stops statement then [] else blockLoads (Γ.after statement) statements

end

/-! ## Functions -/

/-- **A lowered function is well formed.** -/
structure WellFormed (parameters : List TirBinding) (body : ASTNode) (f : TirFunction) : Prop where
  blocks : ∀ b, Reaches f.instructions b → Terminated (blockOf b f.instructions) ∨
    (fallsThrough body = true ∧ Open (blockOf b f.instructions))
  one_open : ∀ b c, Reaches f.instructions b → Reaches f.instructions c →
    ¬ Terminated (blockOf b f.instructions) → ¬ Terminated (blockOf c f.instructions) → b = c
  targets : ∀ i ∈ f.instructions, ∀ t ∈ i.targets, t < f.nextBlockId
  values : ∀ (k : Nat) (i : TirInstruction), f.instructions[k]? = some i → i.valueId = k ∧
    ∀ v ∈ i.values, ∃ n, n < k ∧ v = some n
  loads : f.instructions.filterMap TirInstruction.load? = scopedLoads [parameters.reverse] body

/-- The parameters and the body of a function declaration. -/
def functionDecl? : ASTNode → Option (List TirBinding × ASTNode)
  | .functionDecl _ params paramTypes _ body _ _ _ _ _ =>
    some ((parameterList params paramTypes).map fun p => ⟨p.1, p.2⟩, body)
  | _ => none

end Tir
