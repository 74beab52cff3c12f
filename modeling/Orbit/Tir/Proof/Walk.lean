import Orbit.Tir.WellFormed

/-!
# Walks over trees

The inductions along which expressions and statements are lowered: what is not lowered is one case
(`expression_induct`, `statement_induct`).
-/

namespace Tir

open Front (ASTNode)

/-! ## Expressions -/

/-- The nodes that `lowerExpression` has a case for. -/
def isExpression : ASTNode → Bool
  | .literal .. | .binaryOp .. | .unaryOp .. | .memberAccess .. | .call .. => true
  | _ => false

theorem lowerExpression_other {node : ASTNode} (h : isExpression node = false) (b : Nat)
    (bindings : List TirBinding) (s : Lowering) : lowerExpression b bindings node s =
      (none, s.error "E3001" "expression cannot be lowered to TIR") := by
  cases node <;> first | rfl | cases h

/-- The cases of an induction along `lowerExpression` and `lowerArguments`. -/
structure ExpressionCases (P : ASTNode → Prop) (Q : List ASTNode → Prop) : Prop where
  literal : ∀ valType text, P (.literal valType text)
  binaryOp : ∀ op lhs rhs line col, P lhs → P rhs → P (.binaryOp op lhs rhs line col)
  unaryOp : ∀ op operand, P operand → P (.unaryOp op operand)
  memberAccess : ∀ object field line col, P object → P (.memberAccess object field line col)
  call : ∀ callee args line col, P callee → Q args → P (.call callee args line col)
  other : ∀ node, isExpression node = false → P node
  nil : Q []
  cons : ∀ node nodes, P node → Q nodes → Q (node :: nodes)

section
variable {P : ASTNode → Prop} {Q : List ASTNode → Prop}

mutual

theorem ExpressionCases.node (h : ExpressionCases P Q) : ∀ node, P node
  | .literal valType text => h.literal valType text
  | .binaryOp op lhs rhs line col =>
    h.binaryOp op lhs rhs line col (h.node lhs) (h.node rhs)
  | .unaryOp op operand => h.unaryOp op operand (h.node operand)
  | .memberAccess object field line col => h.memberAccess object field line col (h.node object)
  | .call callee args line col => h.call callee args line col (h.node callee) (h.nodes args)
  | .program .. | .functionDecl .. | .routeDecl .. | .modelDecl .. | .typeDecl .. | .fieldDecl ..
  | .traitDecl .. | .implDecl .. | .varDecl .. | .constDecl .. | .scheduleDecl .. | .configDecl ..
  | .migrationDecl .. | .importStmt .. | .useStmt .. | .expressionStmt .. | .ifNode ..
  | .whileNode .. | .forNode .. | .returnNode .. | .returnOk .. | .returnErr .. | .matchNode ..
  | .matchCase .. | .tryNode .. | .interp .. | .objectLiteral .. | .indexAccess ..
  | .listLiteral .. | .assignment .. | .typeAnn .. | .genericParam .. | .decorator ..
  | .block .. | .breakNode .. | .continueNode .. | .fieldInit .. | .typedLiteral .. | .empty
  | .range .. => h.other _ rfl

theorem ExpressionCases.nodes (h : ExpressionCases P Q) : ∀ nodes, Q nodes
  | [] => h.nil
  | node :: nodes => h.cons node nodes (h.node node) (h.nodes nodes)

end

/-- The induction along `lowerExpression` and `lowerArguments`. -/
theorem expression_induct (h : ExpressionCases P Q) : (∀ node, P node) ∧ ∀ nodes, Q nodes :=
  ⟨h.node, h.nodes⟩

end

/-! ## Counters -/

@[simp] theorem Lowering.function_errorIf (s : Lowering) (p : Prop) [Decidable p]
    (code message : String) : (s.errorIf p code message).function = s.function := by
  rw [Lowering.errorIf]
  split <;> rfl

/-- No expression creates a block. -/
theorem nextBlockId_both (b : Nat) (Γ : List TirBinding) :
    (∀ (node : ASTNode) (s : Lowering),
      (lowerExpression b Γ node s).2.function.nextBlockId = s.function.nextBlockId) ∧
    ∀ (nodes : List ASTNode) (s : Lowering),
      (lowerArguments b Γ nodes s).2.function.nextBlockId = s.function.nextBlockId := by
  have hemit : ∀ (s : Lowering) (opcode typeName : String) (operands : List TirOperand),
      (s.emit b opcode typeName operands).2.function.nextBlockId = s.function.nextBlockId :=
    fun _ _ _ _ => rfl
  apply expression_induct
  constructor
  case literal =>
    intro valType text s
    rw [lowerExpression]
    split
    · dsimp only
      rw [hemit, Lowering.function_errorIf]
    · rfl
  case binaryOp =>
    intro op lhs rhs line col hl hr s
    rw [lowerExpression]
    dsimp only
    rw [hemit, Lowering.function_errorIf, hr, hl]
  case unaryOp =>
    intro op operand hv s
    rw [lowerExpression]
    dsimp only
    rw [hemit, Lowering.function_errorIf, hv]
  case memberAccess =>
    intro object field line col hv s
    rw [lowerExpression]
    dsimp only
    rw [hemit, Lowering.function_errorIf, hv]
  case call =>
    intro callee args line col hv ha s
    rw [lowerExpression]
    dsimp only
    rw [hemit, Lowering.function_errorIf, ha, hv]
  case other =>
    intro node hnode s
    rw [lowerExpression_other hnode]
    rfl
  case nil => exact fun s => rfl
  case cons =>
    intro node nodes hv ha s
    rw [lowerArguments]
    dsimp only
    rw [ha, hv]

theorem nextBlockId_expression (b : Nat) (Γ : List TirBinding) (node : ASTNode) (s : Lowering) :
    (lowerExpression b Γ node s).2.function.nextBlockId = s.function.nextBlockId :=
  (nextBlockId_both b Γ).1 node s

/-! ## Statements -/

/-- Three blocks are created. -/
def createBlocks (s : Lowering) : Lowering := s.createBlock.2.createBlock.2.createBlock.2

/-- An `if` up to its branch, with the condition in the same block. -/
def ifHead (condition : ASTNode) (b : Nat) (Γ : List TirBinding) (s : Lowering) : Lowering :=
  let n := s.function.nextBlockId
  let (v, s) := lowerExpression b Γ condition s
  let s := createBlocks (s.errorIf (typeOfExpression Γ condition ≠ "bool") "E2100"
    "if condition must have type bool")
  (s.emit b "branch" "unit" [.value v, .block n, .block (n + 1)]).2

theorem lowerStatement_if (condition thenBody elseBody : ASTNode) (b : Nat) (Γ : List TirBinding)
    (s : Lowering) : lowerStatement (.ifNode condition thenBody elseBody) (some b) Γ s =
      let n := s.function.nextBlockId
      let t := lowerStatement thenBody (some n) Γ (ifHead condition b Γ s)
      let e := lowerStatement elseBody (some (n + 1)) Γ (jumpTo (n + 2) t.1 t.2.2)
      (some (n + 2), Γ, jumpTo (n + 2) e.1 e.2.2) := by
  have hn : ((lowerExpression b Γ condition s).2.errorIf (typeOfExpression Γ condition ≠ "bool")
      "E2100" "if condition must have type bool").function.nextBlockId =
        s.function.nextBlockId := by
    rw [Lowering.function_errorIf, nextBlockId_expression]
  dsimp only [ifHead]
  rw [← hn]
  rfl

/-- A `while` up to its branch, with the condition in a block of its own. -/
def whileHead (condition : ASTNode) (b : Nat) (Γ : List TirBinding) (s : Lowering) : Lowering :=
  let n := s.function.nextBlockId
  let (_, s) := (createBlocks s).emit b "jump" "unit" [.block n]
  let (v, s) := lowerExpression n Γ condition s
  let s := s.errorIf (typeOfExpression Γ condition ≠ "bool") "E2101"
    "while condition must have type bool"
  (s.emit n "branch" "unit" [.value v, .block (n + 1), .block (n + 2)]).2

theorem lowerStatement_while (condition body : ASTNode) (b : Nat) (Γ : List TirBinding)
    (s : Lowering) : lowerStatement (.whileNode condition body) (some b) Γ s =
      let n := s.function.nextBlockId
      let r := lowerStatement body (some (n + 1)) Γ (whileHead condition b Γ s)
      (some (n + 2), Γ, jumpTo n r.1 r.2.2) := rfl

/-- The nodes that `lowerStatement` has a case for. -/
def isStatement : ASTNode → Bool
  | .varDecl .. | .returnNode .. | .block .. | .ifNode .. | .whileNode .. => true
  | _ => false

theorem lowerStatement_other {node : ASTNode} (h : isStatement node = false) (b : Nat)
    (bindings : List TirBinding) (s : Lowering) : lowerStatement node (some b) bindings s =
      (some b, bindings, (lowerExpression b bindings node s).2) := by
  cases node <;> first | rfl | cases h

theorem lowerStatement_none (node : ASTNode) (bindings : List TirBinding) (s : Lowering) :
    lowerStatement node none bindings s = (none, bindings, s) := by
  cases node <;> rfl

theorem lowerStatements_none (nodes : List ASTNode) (bindings : List TirBinding) (s : Lowering) :
    lowerStatements nodes none bindings s = (none, bindings, s) := by
  induction nodes with
  | nil => rfl
  | cons node nodes ih =>
    rw [lowerStatements, lowerStatement_none]
    exact ih

/-- The cases of an induction along `lowerStatement` and `lowerStatements`. -/
structure StatementCases (P : ASTNode → Prop) (Q : List ASTNode → Prop) : Prop where
  varDecl : ∀ name isMutable value annotated line col,
    P (.varDecl name isMutable value annotated line col)
  returnNode : ∀ expr, P (.returnNode expr)
  block : ∀ statements, Q statements → P (.block statements)
  ifNode : ∀ condition thenBody elseBody, P thenBody → P elseBody →
    P (.ifNode condition thenBody elseBody)
  whileNode : ∀ condition body, P body → P (.whileNode condition body)
  other : ∀ node, isStatement node = false → P node
  nil : Q []
  cons : ∀ node nodes, P node → Q nodes → Q (node :: nodes)

section
variable {P : ASTNode → Prop} {Q : List ASTNode → Prop}

mutual

theorem StatementCases.node (h : StatementCases P Q) : ∀ node, P node
  | .varDecl name isMutable value annotated line col =>
    h.varDecl name isMutable value annotated line col
  | .returnNode expr => h.returnNode expr
  | .block statements => h.block statements (h.nodes statements)
  | .ifNode condition thenBody elseBody =>
    h.ifNode condition thenBody elseBody (h.node thenBody) (h.node elseBody)
  | .whileNode condition body => h.whileNode condition body (h.node body)
  | .program .. | .functionDecl .. | .routeDecl .. | .modelDecl .. | .typeDecl .. | .fieldDecl ..
  | .traitDecl .. | .implDecl .. | .constDecl .. | .scheduleDecl .. | .configDecl ..
  | .migrationDecl .. | .importStmt .. | .useStmt .. | .expressionStmt .. | .forNode ..
  | .returnOk .. | .returnErr .. | .matchNode .. | .matchCase .. | .tryNode .. | .literal ..
  | .interp .. | .objectLiteral .. | .binaryOp .. | .unaryOp .. | .call .. | .memberAccess ..
  | .indexAccess .. | .listLiteral .. | .assignment .. | .typeAnn .. | .genericParam ..
  | .decorator .. | .breakNode .. | .continueNode .. | .fieldInit .. | .typedLiteral .. | .empty
  | .range .. => h.other _ rfl

theorem StatementCases.nodes (h : StatementCases P Q) : ∀ nodes, Q nodes
  | [] => h.nil
  | node :: nodes => h.cons node nodes (h.node node) (h.nodes nodes)

end

/-- The induction along `lowerStatement` and `lowerStatements`. -/
theorem statement_induct (h : StatementCases P Q) : (∀ node, P node) ∧ ∀ nodes, Q nodes :=
  ⟨h.node, h.nodes⟩

end

end Tir
