import Orbit.Tir.Proof.Walk

/-!
# Scopes of lowered functions

The list of bindings that lowering passes along is the lexical scope with its frames forgotten, so
each load has the type of the binding that lexical scoping gives it (`loads_statement`). A block is no
statement of a block: its declarations would stay in the list.
-/

namespace Tir

open Front (ASTNode)

/-! ## Loads -/

def loadsOf (s : Lowering) : List (String × String) :=
  s.function.instructions.filterMap TirInstruction.load?

theorem loadsOf_emit {opcode : String} (h : opcode ≠ "load") (s : Lowering) (b : Nat)
    (typeName : String) (operands : List TirOperand) :
    loadsOf (s.emit b opcode typeName operands).2 = loadsOf s := by
  have hnone : TirInstruction.load? ⟨b, s.function.nextValueId, opcode, typeName, operands⟩ = none :=
    if_neg h
  refine List.filterMap_append.trans ?_
  rw [List.filterMap_cons_none hnone, List.filterMap_nil, List.append_nil]
  rfl

theorem loadsOf_load (s : Lowering) (b : Nat) (typeName name : String) :
    loadsOf (s.emit b "load" typeName [.word name]).2 = loadsOf s ++ [(name, typeName)] :=
  List.filterMap_append

@[simp] theorem loadsOf_errorIf (s : Lowering) (p : Prop) [Decidable p] (code message : String) :
    loadsOf (s.errorIf p code message) = loadsOf s := by
  rw [loadsOf, Lowering.function_errorIf]
  rfl

theorem short_ne_load {op : String} (h : op.length ≤ 2) : op ≠ "load" := by
  rintro rfl
  exact absurd h (by decide)

theorem unary_ne_load (op : String) : "unary." ++ op ≠ "load" := by
  intro h
  exact absurd (congrArg String.toList h) (by simp)

/-! ## Bindings -/

theorem bindingType_bindings (Γ : Scope) (name : String) :
    bindingType Γ.bindings name = (Γ.read name).2 := by
  rw [bindingType, Scope.bindings, List.reverse_reverse, Scope.read, Scope.lookup,
    List.find?_flatten]
  cases Γ.findSome? fun frame => frame.find? (·.name = name) <;> rfl

theorem bindings_push (Γ : Scope) : Scope.bindings ([] :: Γ) = Γ.bindings := rfl

theorem bindings_declare (Γ : Scope) (name typeName : String) :
    (Γ.declare name typeName).bindings = Γ.bindings ++ [⟨name, typeName⟩] := by
  cases Γ with
  | nil => rfl
  | cons frame Γ => exact List.reverse_cons ..

/-! ## Expressions -/

theorem loads_both (b : Nat) (Γ : Scope) :
    (∀ node : ASTNode, wellShaped node = true → ∀ s : Lowering,
      loadsOf (lowerExpression b Γ.bindings node s).2 = loadsOf s ++ expressionLoads Γ node) ∧
    ∀ nodes : List ASTNode, allWellShaped nodes = true → ∀ s : Lowering,
      loadsOf (lowerArguments b Γ.bindings nodes s).2 = loadsOf s ++ argumentLoads Γ nodes := by
  apply expression_induct
  constructor
  case literal =>
    intro valType text _ s
    rw [lowerExpression, expressionLoads]
    split
    · dsimp only
      rw [loadsOf_load, loadsOf_errorIf, bindingType_bindings]
      rfl
    · exact (loadsOf_emit (by decide) s b _ _).trans (List.append_nil _).symm
  case binaryOp =>
    intro op lhs rhs line col hl hr h s
    rw [wellShaped, Bool.and_eq_true, Bool.and_eq_true, decide_eq_true_eq] at h
    rw [lowerExpression, expressionLoads]
    dsimp only
    rw [loadsOf_emit (short_ne_load h.1.1), loadsOf_errorIf, hr h.2, hl h.1.2, List.append_assoc]
  case unaryOp =>
    intro op operand hv h s
    rw [lowerExpression, expressionLoads]
    dsimp only
    rw [loadsOf_emit (unary_ne_load op), loadsOf_errorIf, hv h]
  case memberAccess =>
    intro object field line col hv h s
    rw [lowerExpression, expressionLoads]
    dsimp only
    rw [loadsOf_emit (by decide), loadsOf_errorIf, hv h]
  case call =>
    intro callee args line col hv ha h s
    rw [wellShaped, Bool.and_eq_true] at h
    rw [lowerExpression, expressionLoads]
    dsimp only
    rw [loadsOf_emit (by decide), loadsOf_errorIf, ha h.2, hv h.1, List.append_assoc]
  case other =>
    intro node hnode _ s
    have hnone : expressionLoads Γ node = [] := by cases node <;> first | rfl | cases hnode
    rw [lowerExpression_other hnode, hnone, List.append_nil]
    rfl
  case nil => exact fun _ s => (List.append_nil _).symm
  case cons =>
    intro node nodes hv ha h s
    rw [allWellShaped, Bool.and_eq_true] at h
    rw [lowerArguments, argumentLoads]
    dsimp only
    rw [ha h.2, hv h.1, List.append_assoc]

theorem loads_expression {node : ASTNode} (h : wellShaped node = true) (b : Nat) (Γ : Scope)
    (s : Lowering) :
    loadsOf (lowerExpression b Γ.bindings node s).2 = loadsOf s ++ expressionLoads Γ node :=
  (loads_both b Γ).1 node h s

/-! ## Statements -/

theorem loadsOf_jumpTo (target : Nat) (r : Option Nat) (s : Lowering) :
    loadsOf (jumpTo target r s) = loadsOf s := by
  cases r with
  | none => rfl
  | some k => exact loadsOf_emit (by decide) s k _ _

theorem loadsOf_createBlocks (s : Lowering) : loadsOf (createBlocks s) = loadsOf s := rfl

theorem loads_ifHead {condition : ASTNode} (h : wellShaped condition = true) (b : Nat) (Γ : Scope)
    (s : Lowering) :
    loadsOf (ifHead condition b Γ.bindings s) = loadsOf s ++ expressionLoads Γ condition := by
  dsimp only [ifHead]
  rw [loadsOf_emit (by decide), loadsOf_createBlocks, loadsOf_errorIf, loads_expression h]

theorem loads_whileHead {condition : ASTNode} (h : wellShaped condition = true) (b : Nat)
    (Γ : Scope) (s : Lowering) :
    loadsOf (whileHead condition b Γ.bindings s) = loadsOf s ++ expressionLoads Γ condition := by
  dsimp only [whileHead]
  rw [loadsOf_emit (by decide), loadsOf_errorIf, loads_expression h, loadsOf_emit (by decide),
    loadsOf_createBlocks]

/-- A statement leaves no block if and only if it stops. -/
theorem stops_both :
    (∀ (node : ASTNode) (b : Nat) (Γ : List TirBinding) (s : Lowering),
      (lowerStatement node (some b) Γ s).1 = none ↔ stops node = true) ∧
    ∀ (nodes : List ASTNode) (b : Nat) (Γ : List TirBinding) (s : Lowering),
      (lowerStatements nodes (some b) Γ s).1 = none ↔ anyStops nodes = true := by
  have hnot : ∀ {k : Nat} {node : ASTNode}, stops node = false →
      (some k = none ↔ stops node = true) := by
    intro k node h
    rw [h]
    exact iff_of_false (Option.some_ne_none k) Bool.false_ne_true
  apply statement_induct
  constructor
  case varDecl => exact fun _ _ _ _ _ _ _ _ _ => hnot rfl
  case returnNode => exact fun _ _ _ _ => iff_of_true rfl rfl
  case block => exact fun _ ih b Γ s => ih b Γ s
  case ifNode =>
    intro condition thenBody elseBody _ _ b Γ s
    rw [lowerStatement_if]
    exact hnot rfl
  case whileNode => exact fun _ _ _ _ _ _ => hnot rfl
  case other =>
    intro node hnode b Γ s
    rw [lowerStatement_other hnode]
    exact hnot (by cases node <;> first | rfl | cases hnode)
  case nil => exact fun b Γ s => iff_of_false (Option.some_ne_none b) Bool.false_ne_true
  case cons =>
    intro node nodes ih ihs b Γ s
    rw [lowerStatements, anyStops, Bool.or_eq_true, ← ih b Γ s]
    generalize lowerStatement node (some b) Γ s = out
    rcases out with ⟨r, Γ', s'⟩
    cases r with
    | none => exact iff_of_true (congrArg (·.1) (lowerStatements_none nodes Γ' s')) (.inl rfl)
    | some c =>
      rw [← ihs c Γ' s']
      exact ⟨.inr, fun h => h.resolve_left (Option.some_ne_none c)⟩

/-- **Loads read what lexical scoping gives them.** -/
theorem loads_statement_both :
    (∀ node : ASTNode, wellShaped node = true → ∀ (b : Nat) (Γ : Scope) (s : Lowering),
      loadsOf (lowerStatement node (some b) Γ.bindings s).2.2 = loadsOf s ++ scopedLoads Γ node ∧
      (isBlock node = false →
        (lowerStatement node (some b) Γ.bindings s).2.1 = (Γ.after node).bindings)) ∧
    ∀ nodes : List ASTNode, allWellShaped nodes = true → nodes.any isBlock = false →
      ∀ (b : Nat) (Γ : Scope) (s : Lowering),
        loadsOf (lowerStatements nodes (some b) Γ.bindings s).2.2 =
          loadsOf s ++ blockLoads Γ nodes := by
  apply statement_induct
  constructor
  case varDecl =>
    intro name isMutable value annotated line col h b Γ s
    have hv : wellShaped value = true := h
    refine ⟨?_, fun _ => (bindings_declare Γ name _).symm⟩
    exact (loadsOf_emit (by decide) _ b _ _).trans (loads_expression hv b Γ s)
  case returnNode =>
    intro expr h b Γ s
    have hv : wellShaped expr = true := h
    exact ⟨(loadsOf_emit (by decide) _ b _ _).trans (loads_expression hv b Γ s), fun _ => rfl⟩
  case block =>
    intro statements ih h b Γ s
    rw [wellShaped, Bool.and_eq_true, Bool.not_eq_true'] at h
    exact ⟨ih h.1 h.2 b ([] :: Γ) s, fun hb => Bool.noConfusion hb⟩
  case ifNode =>
    intro condition thenBody elseBody ht he h b Γ s
    rw [wellShaped, Bool.and_eq_true, Bool.and_eq_true] at h
    rw [lowerStatement_if]
    refine ⟨?_, fun _ => rfl⟩
    dsimp only
    rw [← bindings_push Γ, loadsOf_jumpTo, (he h.2 _ _ _).1, loadsOf_jumpTo, (ht h.1.2 _ _ _).1,
      bindings_push, loads_ifHead h.1.1, scopedLoads]
    simp only [List.append_assoc]
  case whileNode =>
    intro condition body ih h b Γ s
    rw [wellShaped, Bool.and_eq_true] at h
    rw [lowerStatement_while]
    refine ⟨?_, fun _ => rfl⟩
    dsimp only
    rw [← bindings_push Γ, loadsOf_jumpTo, (ih h.2 _ _ _).1, bindings_push, loads_whileHead h.1,
      scopedLoads, List.append_assoc]
  case other =>
    intro node hnode h b Γ s
    have hloads : scopedLoads Γ node = expressionLoads Γ node := by
      cases node <;> first | rfl | cases hnode
    have hafter : Γ.after node = Γ := by cases node <;> first | rfl | cases hnode
    rw [lowerStatement_other hnode, hloads, hafter]
    exact ⟨loads_expression h b Γ s, fun _ => rfl⟩
  case nil => exact fun _ _ b Γ s => (List.append_nil _).symm
  case cons =>
    intro node nodes ih ihs h hb b Γ s
    rw [allWellShaped, Bool.and_eq_true] at h
    rw [List.any_cons, Bool.or_eq_false_iff] at hb
    obtain ⟨hloads, hbindings⟩ := ih h.1 b Γ s
    have hstop := stops_both.1 node b Γ.bindings s
    rw [lowerStatements, blockLoads]
    generalize lowerStatement node (some b) Γ.bindings s = out at hloads hbindings hstop ⊢
    rcases out with ⟨r, Γ', s'⟩
    obtain rfl : Γ' = (Γ.after node).bindings := hbindings hb.1
    cases r with
    | none =>
      rw [if_pos (hstop.mp rfl), List.append_nil]
      exact (congrArg (fun out => loadsOf out.2.2) (lowerStatements_none nodes _ s')).trans hloads
    | some c =>
      rw [if_neg fun hs => absurd (hstop.mpr hs) (Option.some_ne_none c)]
      dsimp only
      rw [ihs h.2 hb.2, ← List.append_assoc]
      exact congrArg (· ++ _) hloads

end Tir
