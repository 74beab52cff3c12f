import Mathlib.Order.Nat
import Orbit.Tir.Proof.Walk

/-!
# Values of lowered functions

What lowering adds to a function stands behind what it had, and the diagnostics only grow. As long as
there is none, each instruction has its index as its value id, and names values that stand in front
of it (`Numbered`).
-/

namespace Tir

open Front (ASTNode)

/-! ## Clean lowerings -/

/-- Nothing is reported. -/
def Lowering.clean (s : Lowering) : Prop := s.diagnostics = []

theorem Lowering.errorIf_prefix (s : Lowering) (p : Prop) [Decidable p] (code message : String) :
    s.diagnostics <+: (s.errorIf p code message).diagnostics := by
  rw [Lowering.errorIf]
  split
  · exact List.prefix_append _ _
  · exact List.prefix_rfl

/-! ## Values -/

/-- The instructions of a function are numbered, and name values that stand in front of them. -/
structure Numbered (f : TirFunction) : Prop where
  next : f.nextValueId = f.instructions.length
  ok : ∀ (k : Nat) (i : TirInstruction), f.instructions[k]? = some i → i.valueId = k ∧
    ∀ v ∈ i.values, ∃ n, n < k ∧ v = some n

/-- A value that a function has given out. -/
def Stands (f : TirFunction) (v : Option Nat) : Prop := ∃ n, n < f.nextValueId ∧ v = some n

/-- Whatever is reported is an error. -/
def AllErrors (ds : List TirDiagnostic) : Prop := ∀ d ∈ ds, d.severity = "error"

theorem AllErrors.append {ds es : List TirDiagnostic} (h : AllErrors ds) (h' : AllErrors es) :
    AllErrors (ds ++ es) := by
  intro d hd
  rcases List.mem_append.mp hd with hd | hd
  · exact h d hd
  · exact h' d hd

theorem allErrors_tirError (code message : String) (line column : Nat) :
    AllErrors [tirError code message line column] := by
  intro d hd
  rw [List.mem_singleton.mp hd]
  rfl

/-- What a step of the lowering keeps. -/
structure Keeps (s s' : Lowering) : Prop where
  diagnostics : s.diagnostics <+: s'.diagnostics
  errors : AllErrors s.diagnostics → AllErrors s'.diagnostics
  next_le : s.function.nextValueId ≤ s'.function.nextValueId
  numbered : s'.clean → Numbered s.function → Numbered s'.function

theorem Keeps.clean {s s' : Lowering} (h : Keeps s s') (hc : s'.clean) : s.clean := by
  have hp := h.diagnostics
  rw [show s'.diagnostics = [] from hc] at hp
  exact List.prefix_nil.mp hp

theorem Keeps.refl (s : Lowering) : Keeps s s := ⟨List.prefix_rfl, id, le_rfl, fun _ h => h⟩

theorem Keeps.trans {s s' s'' : Lowering} (h : Keeps s s') (h' : Keeps s' s'') : Keeps s s'' :=
  ⟨h.diagnostics.trans h'.diagnostics, h'.errors ∘ h.errors, h.next_le.trans h'.next_le,
    fun hc hn => h'.numbered hc (h.numbered (h'.clean hc) hn)⟩

theorem Keeps.stands {s s' : Lowering} {v : Option Nat} (h : Keeps s s')
    (hv : s.clean → Stands s.function v) (hc : s'.clean) : Stands s'.function v := by
  obtain ⟨n, hn, rfl⟩ := hv (h.clean hc)
  exact ⟨n, hn.trans_le h.next_le, rfl⟩

theorem keeps_errorIf (s : Lowering) (p : Prop) [Decidable p] (code message : String) :
    Keeps s (s.errorIf p code message) := by
  refine ⟨s.errorIf_prefix p code message, fun h => ?_, by rw [Lowering.function_errorIf],
    fun _ h => by rwa [Lowering.function_errorIf]⟩
  rw [Lowering.errorIf]
  split
  · exact h.append (allErrors_tirError _ _ _ _)
  · exact h

theorem keeps_createBlock (s : Lowering) : Keeps s s.createBlock.2 :=
  ⟨List.prefix_rfl, id, le_rfl, fun _ h => ⟨h.next, h.ok⟩⟩

/-- The values of operands stand in the function, unless something is reported. -/
def AllStand (s : Lowering) (operands : List TirOperand) : Prop :=
  s.clean → ∀ v ∈ operands.filterMap TirOperand.value?, Stands s.function v

theorem AllStand.nil (s : Lowering) : AllStand s [] := fun _ _ hv => absurd hv List.not_mem_nil

theorem AllStand.word {s : Lowering} {operands : List TirOperand} (text : String)
    (h : AllStand s operands) : AllStand s (.word text :: operands) := h

theorem AllStand.block {s : Lowering} {operands : List TirOperand} (id : Nat)
    (h : AllStand s operands) : AllStand s (.block id :: operands) := h

theorem AllStand.value {s : Lowering} {operands : List TirOperand} {v : Option Nat}
    (hv : s.clean → Stands s.function v) (h : AllStand s operands) :
    AllStand s (.value v :: operands) := by
  intro hc w hw
  rcases List.mem_cons.mp hw with rfl | hw
  · exact hv hc
  · exact h hc w hw

theorem Keeps.allStand {s s' : Lowering} {operands : List TirOperand} (h : Keeps s s')
    (ho : AllStand s operands) : AllStand s' operands :=
  fun hc v hv => h.stands (fun hc => ho hc v hv) hc

theorem keeps_emit {s : Lowering} {operands : List TirOperand} (h : AllStand s operands) (b : Nat)
    (opcode typeName : String) : Keeps s (s.emit b opcode typeName operands).2 := by
  refine ⟨List.prefix_rfl, id, Nat.le_succ _, fun hc hn => ⟨?_, fun k i hi => ?_⟩⟩
  · change s.function.nextValueId + 1 = (s.function.instructions ++ [_]).length
    rw [hn.next, List.length_append, List.length_singleton]
  · change (s.function.instructions ++ [_])[k]? = some i at hi
    rcases Nat.lt_trichotomy k s.function.instructions.length with hk | rfl | hk
    · rw [List.getElem?_append_left hk] at hi
      exact hn.ok k i hi
    · rw [List.getElem?_concat_length] at hi
      obtain rfl := Option.some.inj hi
      refine ⟨hn.next, fun v hv => ?_⟩
      obtain ⟨n, hlt, rfl⟩ := h hc v hv
      exact ⟨n, hn.next ▸ hlt, rfl⟩
    · rw [List.getElem?_eq_none (by rw [List.length_append, List.length_singleton]; omega)] at hi
      cases hi

/-- A step that leaves a value. -/
structure Evaluates (s s' : Lowering) (v : Option Nat) : Prop extends Keeps s s' where
  stands : s'.clean → Stands s'.function v

/-- An instruction behind a step leaves its own value. -/
theorem evaluates_emit {s s' : Lowering} {operands : List TirOperand} (hs : Keeps s s')
    (h : AllStand s' operands) (b : Nat) (opcode typeName : String) :
    Evaluates s (s'.emit b opcode typeName operands).2 (s'.emit b opcode typeName operands).1 :=
  ⟨hs.trans (keeps_emit h b opcode typeName), fun _ => ⟨_, Nat.lt_succ_self _, rfl⟩⟩

/-! ## Expressions -/

/-- What cannot be lowered is reported. -/
theorem evaluates_error (s : Lowering) (code message : String) :
    Evaluates s (s.error code message) none :=
  ⟨⟨List.prefix_append _ _, fun h => h.append (allErrors_tirError _ _ _ _), le_rfl, fun _ h => h⟩,
    fun hc => absurd hc (List.append_ne_nil_of_right_ne_nil _ (List.cons_ne_nil _ _))⟩

/-- What lowering an expression, or a list of arguments, does. -/
theorem evaluates_both (b : Nat) (Γ : List TirBinding) :
    (∀ (node : ASTNode) (s : Lowering),
      Evaluates s (lowerExpression b Γ node s).2 (lowerExpression b Γ node s).1) ∧
    ∀ (nodes : List ASTNode) (s : Lowering), Keeps s (lowerArguments b Γ nodes s).2 ∧
      AllStand (lowerArguments b Γ nodes s).2 (lowerArguments b Γ nodes s).1 := by
  apply expression_induct
  constructor
  case literal =>
    intro valType text s
    rw [lowerExpression]
    split
    · exact evaluates_emit (keeps_errorIf s _ _ _) (.word text (.nil _)) _ _ _
    · exact evaluates_emit (Keeps.refl s) (.word text (.nil _)) _ _ _
  case binaryOp =>
    intro op lhs rhs line col hl hr s
    have he := keeps_errorIf (lowerExpression b Γ rhs (lowerExpression b Γ lhs s).2).2
      (typeOfExpression Γ (.binaryOp op lhs rhs line col) = "unknown") "E2002"
      ("incompatible operands for " ++ op)
    rw [lowerExpression]
    exact evaluates_emit (((hl s).toKeeps.trans (hr _).toKeeps).trans he)
      (.value (((hr _).toKeeps.trans he).stands (hl s).stands)
        (.value (he.stands (hr _).stands) (.nil _))) _ _ _
  case unaryOp =>
    intro op operand hv s
    have he := keeps_errorIf (lowerExpression b Γ operand s).2
      (typeOfExpression Γ (.unaryOp op operand) = "unknown") "E2003"
      ("invalid operand for unary " ++ op)
    rw [lowerExpression]
    exact evaluates_emit ((hv s).toKeeps.trans he) (.value (he.stands (hv s).stands) (.nil _)) _ _ _
  case memberAccess =>
    intro object field line col hv s
    have he := keeps_errorIf (lowerExpression b Γ object s).2
      (typeOfExpression Γ (.memberAccess object field line col) = "unknown") "E2004"
      ("cannot type the member read ." ++ field)
    rw [lowerExpression]
    exact evaluates_emit ((hv s).toKeeps.trans he)
      (.value (he.stands (hv s).stands) (.word field (.nil _))) _ _ _
  case call =>
    intro callee args line col hv ha s
    have he := keeps_errorIf (lowerArguments b Γ args (lowerExpression b Γ callee s).2).2
      (typeOfExpression Γ (.call callee args line col) = "unknown") "E2005"
      "cannot type the result of this call"
    rw [lowerExpression]
    exact evaluates_emit (((hv s).toKeeps.trans (ha _).1).trans he)
      (.value (((ha _).1.trans he).stands (hv s).stands) (he.allStand (ha _).2)) _ _ _
  case other =>
    intro node hnode s
    rw [lowerExpression_other hnode]
    exact evaluates_error s _ _
  case nil => exact fun s => ⟨Keeps.refl s, .nil s⟩
  case cons =>
    intro node nodes hv ha s
    rw [lowerArguments]
    exact ⟨(hv s).toKeeps.trans (ha _).1, .value ((ha _).1.stands (hv s).stands) (ha _).2⟩

theorem evaluates_expression (b : Nat) (Γ : List TirBinding) (node : ASTNode) (s : Lowering) :
    Evaluates s (lowerExpression b Γ node s).2 (lowerExpression b Γ node s).1 :=
  (evaluates_both b Γ).1 node s

/-! ## Statements -/

theorem keeps_jumpTo (target : Nat) (b : Option Nat) (s : Lowering) :
    Keeps s (jumpTo target b s) := by
  cases b with
  | none => exact Keeps.refl s
  | some b => exact keeps_emit (.block target (.nil s)) b "jump" "unit"

theorem keeps_createBlocks (s : Lowering) : Keeps s (createBlocks s) :=
  ((keeps_createBlock s).trans (keeps_createBlock _)).trans (keeps_createBlock _)

theorem keeps_ifHead (condition : ASTNode) (b : Nat) (Γ : List TirBinding) (s : Lowering) :
    Keeps s (ifHead condition b Γ s) := by
  have hv := evaluates_expression b Γ condition s
  have hc := (keeps_errorIf (lowerExpression b Γ condition s).2
    (typeOfExpression Γ condition ≠ "bool") "E2100" "if condition must have type bool").trans
      (keeps_createBlocks _)
  exact (hv.toKeeps.trans hc).trans
    (keeps_emit (.value (hc.stands hv.stands) (.block _ (.block _ (.nil _)))) b "branch" "unit")

theorem keeps_whileHead (condition : ASTNode) (b : Nat) (Γ : List TirBinding) (s : Lowering) :
    Keeps s (whileHead condition b Γ s) := by
  have hjump := (keeps_createBlocks s).trans (keeps_emit
    (.block s.function.nextBlockId (.nil (createBlocks s))) b "jump" "unit")
  have hv := evaluates_expression s.function.nextBlockId Γ condition
    ((createBlocks s).emit b "jump" "unit" [.block s.function.nextBlockId]).2
  have hc := keeps_errorIf (lowerExpression s.function.nextBlockId Γ condition
    ((createBlocks s).emit b "jump" "unit" [.block s.function.nextBlockId]).2).2
      (typeOfExpression Γ condition ≠ "bool") "E2101" "while condition must have type bool"
  exact (((hjump.trans hv.toKeeps).trans hc).trans
    (keeps_emit (.value (hc.stands hv.stands) (.block _ (.block _ (.nil _)))) _ "branch" "unit"))

/-- **No step of the lowering loses the numbering.** -/
theorem keeps_both : (∀ (node : ASTNode) (b : Option Nat) (Γ : List TirBinding) (s : Lowering),
      Keeps s (lowerStatement node b Γ s).2.2) ∧
    ∀ (nodes : List ASTNode) (b : Option Nat) (Γ : List TirBinding) (s : Lowering),
      Keeps s (lowerStatements nodes b Γ s).2.2 := by
  apply statement_induct
  constructor
  case varDecl =>
    intro name isMutable value annotated line col b Γ s
    cases b with
    | none => exact Keeps.refl s
    | some b =>
      have hv := evaluates_expression b Γ value s
      exact hv.toKeeps.trans (keeps_emit (.word name (.value hv.stands (.nil _))) _ _ _)
  case returnNode =>
    intro expr b Γ s
    cases b with
    | none => exact Keeps.refl s
    | some b =>
      have hv := evaluates_expression b Γ expr s
      exact hv.toKeeps.trans (keeps_emit (.value hv.stands (.nil _)) _ _ _)
  case block =>
    intro statements h b Γ s
    cases b with
    | none => exact Keeps.refl s
    | some b => exact h (some b) Γ s
  case ifNode =>
    intro condition thenBody elseBody ht he b Γ s
    cases b with
    | none => exact Keeps.refl s
    | some b =>
      rw [lowerStatement_if]
      exact ((((keeps_ifHead condition b Γ s).trans (ht _ _ _)).trans (keeps_jumpTo _ _ _)).trans
        (he _ _ _)).trans (keeps_jumpTo _ _ _)
  case whileNode =>
    intro condition body hbody b Γ s
    cases b with
    | none => exact Keeps.refl s
    | some b =>
      rw [lowerStatement_while]
      exact ((keeps_whileHead condition b Γ s).trans (hbody _ _ _)).trans (keeps_jumpTo _ _ _)
  case other =>
    intro node hnode b Γ s
    cases b with
    | none =>
      rw [lowerStatement_none]
      exact Keeps.refl s
    | some b =>
      rw [lowerStatement_other hnode]
      exact (evaluates_expression b Γ node s).toKeeps
  case nil => exact fun b Γ s => Keeps.refl s
  case cons =>
    intro node nodes h hs b Γ s
    exact (h b Γ s).trans (hs _ _ _)

end Tir
