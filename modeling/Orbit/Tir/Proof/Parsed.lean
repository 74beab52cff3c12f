import Orbit.Front.Proof.Ready
import Orbit.Tir.WellFormed

/-!
# The parser builds what the lowering takes

Each function of the parser builds trees of the shape that the lowering relies on, if the calls that
it makes do (`Shapes`), and so do the calls tied together (`shapes_parse`): the operators of binary
operations are short, and a block is the body of a construct and never a statement. So every function
declaration of a program that was parsed has such a body (`builds_parseProgram`).
-/

namespace Tir

open Front Lib Partial
open Front.Lex (TokType)

/-- A tree that the lowering takes for an expression or a statement of a block. -/
structure Shaped (node : ASTNode) : Prop where
  shape : wellShaped node = true
  inner : isBlock node = false

attribute [grind ←] Shaped.mk
attribute [grind] wellShaped isBlock

/-- What the calls of the parser build. -/
structure Shapes (call : Self) : Prop where
  expression : Builds (call .expression) Shaped
  statement : Builds (call .statement) Shaped
  primary : Builds (call .primary) Shaped
  binary : ∀ precedence, Builds (call (.binary precedence)) Shaped
  typeName : Keeps (call .typeName)
  ifNode : ∀ wantValue, Builds (call (.ifNode wantValue)) Shaped

theorem allWellShaped_append (xs ys : List ASTNode) :
    allWellShaped (xs ++ ys) = (allWellShaped xs && allWellShaped ys) := by
  induction xs with
  | nil => rfl
  | cons x xs ih => rw [List.cons_append, allWellShaped, allWellShaped, ih, Bool.and_assoc]

section
variable {self : Self} (hself : Shapes self)
include hself

/-! ## Types and objects -/

theorem keeps_parseTypeName : Keeps (parseTypeName self) := by
  have h := hself.typeName
  refine keeps_bind (keeps_check _) fun named => ?_
  split
  · refine keeps_bind keeps_advance fun _ => keeps_bind keeps_get fun p => ?_
    grind
  · grind

theorem keeps_parseReference : Keeps (parseReference self) := by
  have h := hself.typeName
  unfold parseReference
  grind

omit hself in
@[grind ←]
theorem keeps_consumeObjectKey : Keeps consumeObjectKey := by
  unfold consumeObjectKey
  grind

theorem builds_parseObjectLiteralBody : Builds (parseObjectLiteralBody self) Shaped := by
  have h := hself.expression.keeps
  refine builds_get_bind fun p _ => ?_
  split
  · unfold parseObjectLiteralFallback
    grind
  · refine builds_keeps_bind ?_ fun fields => ?_ <;> grind

/-! ## Calls, members and indices -/

theorem builds_parseArguments : Builds (parseArguments self) fun args => allWellShaped args := by
  refine builds_keeps_bind (keeps_check _) fun closed => ?_
  split
  · exact builds_pure rfl
  · refine builds_rounds (I := fun args => allWellShaped args = true) (fun args hargs => ?_) rfl
    refine hself.expression.bind fun arg harg => ?_
    have hall : allWellShaped (args ++ [arg]) = true := by
      rw [allWellShaped_append, hargs, allWellShaped, harg.shape]
      rfl
    refine builds_keeps_bind (keeps_matchToken _) fun more => ?_
    split <;> exact builds_pure hall

theorem builds_parseCall {callee : ASTNode} (hc : Shaped callee) :
    Builds (parseCall self callee) Shaped := by
  refine builds_get_bind fun p _ => builds_keeps_bind keeps_advance fun _ => ?_
  refine (builds_parseArguments hself).bind fun args hargs => ?_
  have hcall : Shaped (.call callee args p.currentToken.token.line p.currentToken.token.col) :=
    ⟨by rw [wellShaped, hc.shape, hargs]; rfl, rfl⟩
  exact builds_keeps_bind (keeps_consume _ _) fun _ => builds_pure hcall

omit hself in
theorem builds_parseMember {object : ASTNode} (ho : Shaped object) :
    Builds (parseMember object) Shaped := by
  refine builds_get_bind fun dot _ => ?_
  refine Builds.bind (R := Shaped) ?_ fun object hobject => ?_
  · split
    · exact builds_keeps_bind keeps_advance fun _ => builds_pure ⟨ho.shape, rfl⟩
    · exact builds_keeps_bind (keeps_consumeMemberName _) fun _ => builds_pure ho
  · exact builds_get_bind fun p _ => builds_pure ⟨hobject.shape, rfl⟩

theorem builds_parseIndex (object : ASTNode) : Builds (parseIndex self object) Shaped := by
  have h := hself.expression.keeps
  unfold parseIndex
  grind

theorem builds_parsePostfix {lhs : ASTNode} (hl : Shaped lhs) :
    Builds (parsePostfix self lhs) Shaped := by
  refine builds_rounds (I := Shaped) (fun result hr => ?_) hl
  have hagain : ∀ {m : P ASTNode}, Builds m Shaped → Builds
      (do let next ← m; return Next.again next : P (Next ASTNode ASTNode))
      (Next.All Shaped Shaped) :=
    fun hm => hm.bind fun _ hnext => builds_pure hnext
  refine builds_keeps_bind (keeps_check _) fun call => ?_
  split
  · exact hagain (builds_parseCall hself hr)
  · refine builds_keeps_bind (keeps_matchToken _) fun dot => ?_
    split
    · exact hagain (builds_parseMember hr)
    · refine builds_keeps_bind (keeps_matchToken _) fun bracket => ?_
      split
      · exact hagain (builds_parseIndex hself result)
      · exact builds_pure hr

/-! ## Blocks and branches -/

theorem builds_parseBlockBody : Builds (parseBlockBody self) (wellShaped · = true) := by
  refine Builds.bind (R := fun statements => wellShaped (.block statements) = true) ?_
    fun statements h => builds_keeps_bind (keeps_consume _ _) fun _ => builds_pure h
  refine builds_rounds (I := fun statements => wellShaped (.block statements) = true)
    (fun statements hs => builds_get_bind fun p _ => ?_) rfl
  split
  · exact builds_pure hs
  · refine hself.statement.bind fun statement hst => builds_pure ?_
    change wellShaped (.block (statements ++ [statement])) = true
    rw [wellShaped, Bool.and_eq_true, Bool.not_eq_true'] at hs ⊢
    rw [allWellShaped_append, hs.1, allWellShaped, hst.shape, List.any_append, hs.2, List.any_cons,
      hst.inner]
    exact ⟨rfl, rfl⟩

theorem builds_parseBlock : Builds (parseBlock self) (wellShaped · = true) :=
  builds_keeps_bind (keeps_consume _ _) fun _ => builds_parseBlockBody hself

theorem builds_parseThenBranch : Builds (parseThenBranch self) (wellShaped · = true) := by
  refine builds_keeps_bind keeps_advance fun _ => builds_keeps_bind (keeps_matchToken _) fun b => ?_
  split
  · exact builds_parseBlockBody hself
  · refine builds_get_bind fun p _ => ?_
    split
    · exact hself.expression.mono fun _ h => h.shape
    · exact builds_pure rfl

theorem builds_parseIfBranch : Builds (parseIfBranch self) (wellShaped · = true) := by
  refine builds_keeps_bind (keeps_matchToken _) fun brace => ?_
  split
  · exact builds_parseBlockBody hself
  · refine builds_get_bind fun p _ => ?_
    dsimp only
    split
    · exact builds_parseThenBranch hself
    · split
      · exact builds_keeps_bind (keeps_report _) fun _ => builds_pure rfl
      · split
        · exact builds_keeps_bind (keeps_report _) fun _ =>
            hself.statement.mono fun _ h => h.shape
        · exact hself.expression.mono fun _ h => h.shape

theorem builds_parseElse (wantValue : Bool) :
    Builds (parseElse self wantValue) fun e => wellShaped (e.getD .empty) = true := by
  refine builds_keeps_bind (keeps_matchToken _) fun found => ?_
  split
  · refine builds_keeps_bind (keeps_matchToken _) fun chained => ?_
    split
    · exact (hself.ifNode wantValue).bind fun _ h => builds_pure h.shape
    · exact (builds_parseIfBranch hself).bind fun _ h => builds_pure h
  · exact builds_pure rfl

theorem builds_parseIf (wantValue : Bool) : Builds (parseIf self wantValue) Shaped := by
  refine builds_get_bind fun keyword _ => hself.expression.bind fun condition hc => ?_
  refine (builds_parseIfBranch hself).bind fun thenBody ht => ?_
  refine (builds_parseElse hself wantValue).bind fun elseBody he => ?_
  have hif : ∀ other, wellShaped other = true → Shaped (.ifNode condition thenBody other) :=
    fun other ho => ⟨by rw [wellShaped, hc.shape, ht, ho]; rfl, rfl⟩
  split
  · exact builds_keeps_bind (keeps_report _) fun _ => builds_pure (hif _ rfl)
  · exact builds_pure (hif _ he)

/-! ## Matches -/

theorem keeps_parseMatchArmBody (wantValue : Bool) : Keeps (parseMatchArmBody self wantValue) := by
  have he := hself.expression.keeps
  have hs := hself.statement.keeps
  have hb := (builds_parseBlockBody hself).keeps
  unfold parseMatchArmBody
  grind

theorem builds_parseMatch (wantValue : Bool) : Builds (parseMatch self wantValue) Shaped := by
  have he := hself.expression.keeps
  have hb := keeps_parseMatchArmBody hself wantValue
  refine builds_get_bind fun keyword _ => builds_keeps_bind he fun expr => ?_
  refine builds_keeps_bind (keeps_consume _ _) fun _ => ?_
  refine builds_keeps_bind (keeps_rounds (fun cases => keeps_bind keeps_get fun before => ?_) _)
    fun cases => by grind
  split
  · exact keeps_pure _
  · refine keeps_bind he fun pattern => ?_
    grind

/-! ## Primary expressions -/

theorem builds_parseName : Builds (parseName self) Shaped := by
  refine builds_get_bind fun p _ => ?_
  dsimp only
  split
  · exact builds_pure ⟨rfl, rfl⟩
  · split
    · refine builds_keeps_bind keeps_advance fun _ => ?_
      exact builds_keeps_bind (builds_parseObjectLiteralBody hself).keeps fun body =>
        builds_parsePostfix hself ⟨rfl, rfl⟩
    · exact builds_parsePostfix hself ⟨rfl, rfl⟩

theorem keeps_parseCatch : Keeps (parseCatch self) := by
  have h := (builds_parseBlock hself).keeps
  unfold parseCatch
  grind

theorem builds_parseTry : Builds (parseTry self) Shaped :=
  builds_keeps_bind hself.expression.keeps fun _ =>
    builds_keeps_bind (keeps_parseCatch hself) fun _ => builds_pure ⟨rfl, rfl⟩

theorem builds_parseListLiteral : Builds (parseListLiteral self) Shaped := by
  have h := hself.expression.keeps
  unfold parseListLiteral
  grind

theorem builds_parseParenthesised : Builds (parseParenthesised self) Shaped :=
  hself.expression.bind fun _ h => builds_keeps_bind (keeps_consume _ _) fun _ => builds_pure h

theorem builds_parsePrefix (op : String) : Builds (parsePrefix self op) Shaped :=
  hself.primary.bind fun _ h => builds_pure ⟨h.shape, rfl⟩

omit hself in
theorem builds_parseLiteral (valType : String) : Builds (parseLiteral valType) Shaped :=
  builds_get_bind fun _ _ => builds_pure ⟨rfl, rfl⟩

theorem builds_primaryRules : ∀ rule ∈ primaryRules self, Builds rule.2 Shaped := by
  have hpost : ∀ valType, Builds (do let node ← parseLiteral valType; parsePostfix self node) Shaped :=
    fun valType => (builds_parseLiteral valType).bind fun _ => builds_parsePostfix hself
  have hobject : Builds (do let node ← parseObjectLiteralBody self; parsePostfix self node) Shaped :=
    (builds_parseObjectLiteralBody hself).bind fun _ => builds_parsePostfix hself
  simp only [primaryRules, List.forall_mem_cons, List.not_mem_nil, false_imp_iff, implies_true,
    and_true]
  exact ⟨builds_parsePrefix hself _, builds_parsePrefix hself _, builds_parsePrefix hself _,
    builds_parseLiteral _, builds_parseLiteral _, builds_parseLiteral _, builds_parseLiteral _,
    builds_parseInterpolated hself.expression.keeps (fun _ _ => ⟨rfl, rfl⟩) ⟨rfl, rfl⟩,
    builds_parseLiteral _, builds_parseName hself, hpost _, hpost _,
    builds_parseMatch hself true, builds_parseTry hself, builds_parseParenthesised hself,
    hself.ifNode true, builds_parseListLiteral hself, hobject⟩

theorem builds_parsePrimary : Builds (parsePrimary self) Shaped := by
  refine builds_get_bind fun p _ => ?_
  split
  · next rule hrule =>
    exact builds_keeps_bind keeps_advance fun _ => builds_find (builds_primaryRules hself) hrule
  · unfold parseUnexpected
    grind

/-! ## Expressions -/

theorem builds_parseBinary (precedence : Nat) : Builds (parseBinary self precedence) Shaped := by
  refine hself.primary.bind fun lhs hl => ?_
  refine builds_rounds (I := Shaped) (fun lhs hl => builds_get_bind fun p hp => ?_) hl
  split
  · next hprec =>
    refine builds_keeps_bind keeps_advance fun _ => (hself.binary _).bind fun rhs hr => ?_
    have hop : p.text.length ≤ 2 := by
      rw [Parser.text, String.length_ofList]
      exact hp (Nat.zero_lt_of_lt hprec)
    refine builds_pure ⟨?_, rfl⟩
    rw [wellShaped, hl.shape, hr.shape, decide_eq_true hop]
    rfl
  · exact builds_pure hl

theorem builds_parseExpressionInner : Builds (parseExpressionInner self) Shaped := by
  have he := hself.expression.keeps
  refine (hself.binary 0).bind fun lhs hl => builds_keeps_bind (keeps_matchToken _) fun eq => ?_
  split
  · grind
  · refine builds_get_bind fun p _ => ?_
    split
    · unfold parseCompoundAssign
      grind
    · split
      · refine builds_keeps_bind keeps_advance fun _ => hself.expression.bind fun t ht => ?_
        refine builds_keeps_bind (keeps_consume _ _) fun _ => hself.expression.bind fun e he => ?_
        exact builds_pure ⟨by rw [wellShaped, hl.shape, ht.shape, he.shape]; rfl, rfl⟩
      · exact builds_pure hl

/-! ## Statements -/

theorem keeps_parseAnnotated : Keeps (parseAnnotated self) := by
  have h := keeps_parseReference hself
  unfold parseAnnotated
  grind

theorem builds_parseVarDecl {Q : ASTNode → Prop} (isMutable : Bool)
    (h : ∀ name isMut value annotated line col, wellShaped value = true →
      Q (.varDecl name isMut value annotated line col)) :
    Builds (parseVarDecl self isMutable) Q := by
  refine builds_keeps_bind (keeps_matchToken _) fun isMut => ?_
  refine builds_keeps_bind (keeps_consume _ _) fun _ => builds_get_bind fun name _ => ?_
  refine builds_keeps_bind (keeps_parseAnnotated hself) fun annotated => ?_
  refine builds_keeps_bind (keeps_consume _ _) fun _ => hself.expression.bind fun value hv => ?_
  exact builds_pure (h _ _ _ _ _ _ hv.shape)

theorem builds_parseConstDecl {Q : ASTNode → Prop} (isPrivate : Bool)
    (h : ∀ name value line col, Q (.constDecl name value isPrivate line col)) :
    Builds (parseConstDecl self isPrivate) Q := by
  have he := hself.expression.keeps
  unfold parseConstDecl
  grind

theorem builds_parseWhileStatement : Builds (parseWhileStatement self) Shaped :=
  hself.expression.bind fun _ hc => (builds_parseBlock hself).bind fun _ hb =>
    builds_pure ⟨by rw [wellShaped, hc.shape, hb]; rfl, rfl⟩

omit hself in
@[grind ←]
theorem keeps_parseForItem : Keeps parseForItem := by
  unfold parseForItem
  grind

omit hself in
@[grind ←]
theorem keeps_parseForIndex : Keeps parseForIndex := by
  unfold parseForIndex
  grind

theorem keeps_parseIterable : Keeps (parseIterable self) := by
  have h := hself.expression.keeps
  unfold parseIterable
  grind

theorem builds_parseForStatement : Builds (parseForStatement self) Shaped := by
  have hi := keeps_parseIterable hself
  have hb := (builds_parseBlock hself).keeps
  unfold parseForStatement
  grind

theorem builds_parseOptional : Builds (parseOptional self) Shaped := by
  refine builds_get_bind fun p _ => ?_
  split
  · exact builds_pure ⟨rfl, rfl⟩
  · exact hself.expression

omit hself in
@[grind ←]
theorem keeps_parseStatus (default : String) : Keeps (parseStatus default) := by
  unfold parseStatus
  grind

theorem builds_parseReturn : Builds (parseReturn self) Shaped := by
  have h := (builds_parseOptional hself).keeps
  refine builds_get_bind fun p _ => ?_
  split
  · grind
  · exact (builds_parseOptional hself).bind fun _ he => builds_pure ⟨he.shape, rfl⟩

theorem builds_parseErr : Builds (parseErr self) Shaped := by
  have h := (builds_parseOptional hself).keeps
  unfold parseErr
  grind

omit hself in
@[grind ←]
theorem keeps_parseLoopLabel : Keeps parseLoopLabel := by
  unfold parseLoopLabel
  grind

omit hself in
theorem builds_parseBreak : Builds parseBreak Shaped := by
  unfold parseBreak
  grind

omit hself in
theorem builds_parseContinue : Builds parseContinue Shaped := by
  unfold parseContinue
  grind

theorem builds_statementRules : ∀ rule ∈ statementRules self, Builds rule.2 Shaped := by
  simp only [statementRules, List.forall_mem_cons, List.not_mem_nil, false_imp_iff, implies_true,
    and_true]
  have hvar : ∀ isMutable, Builds (parseVarDecl self isMutable) Shaped := fun isMutable =>
    builds_parseVarDecl hself isMutable fun _ _ _ _ _ _ hv => ⟨hv, rfl⟩
  exact ⟨hvar _, hvar _, builds_parseConstDecl hself _ fun _ _ _ _ => ⟨rfl, rfl⟩,
    builds_parseReturn hself, hself.ifNode false, builds_parseErr hself,
    builds_parseWhileStatement hself, builds_parseForStatement hself, builds_parseMatch hself _,
    builds_parseBreak, builds_parseContinue⟩

theorem builds_parseStatementInner : Builds (parseStatementInner self) Shaped := by
  refine builds_get_bind fun p _ => ?_
  split
  · next rule hrule =>
    exact builds_keeps_bind keeps_advance fun _ => builds_find (builds_statementRules hself) hrule
  · exact hself.expression

/-! ## Calls -/

omit hself in
theorem builds_guarded {inner : P ASTNode} (h : Builds inner Shaped) :
    Builds (guarded inner) Shaped := by
  refine builds_keeps_bind (keeps_modify fun _ hp => hp) fun _ => builds_get_bind fun p _ => ?_
  refine Builds.bind (R := Shaped) ?_ fun out hout =>
    builds_keeps_bind (keeps_modify fun _ hp => hp) fun _ => builds_pure hout
  split
  · exact builds_keeps_bind (keeps_modify fun _ => ready_tooDeep) fun _ => builds_pure ⟨rfl, rfl⟩
  · exact h

omit hself in
theorem builds_parseStatement {inner : P ASTNode} (h : Builds inner Shaped) :
    Builds (parseStatement inner) Shaped :=
  builds_get_bind fun before _ => (builds_guarded h).bind fun _ hout =>
    builds_keeps_bind (keeps_recover before) fun _ => builds_pure hout

theorem shapes_parseCallee : Shapes (parseCallee self) where
  expression := builds_guarded (builds_parseExpressionInner hself)
  statement := builds_parseStatement (builds_parseStatementInner hself)
  primary := builds_parsePrimary hself
  binary := builds_parseBinary hself
  typeName := keeps_parseTypeName hself
  ifNode := builds_parseIf hself

end

/-- **Whatever the calls inside each other, they build shapes that the lowering takes.** -/
theorem shapes_parse (calls : Nat) : Shapes (parse calls) := by
  induction calls with
  | zero => constructor <;> intros <;> exact fun _ _ _ _ h => nomatch h
  | succ calls ih => exact shapes_parseCallee ih

/-! ## Declarations -/

/-- A function that is declared has a body that the lowering takes. -/
structure Declared (node : ASTNode) : Prop where
  body : ∀ d, functionDecl? node = some d → wellShaped d.2 = true

attribute [grind ←] Declared.mk
attribute [grind] functionDecl?

@[grind ←]
theorem keeps_parseExpectedName : Keeps parseExpectedName := by
  unfold parseExpectedName
  grind

@[grind ←]
theorem keeps_parseConstraint : Keeps parseConstraint := by
  unfold parseConstraint
  grind

@[grind ←]
theorem keeps_parseGenericParams : Keeps parseGenericParams := by
  refine keeps_bind (keeps_matchToken _) fun found => ?_
  split
  · refine keeps_bind (keeps_rounds (fun params => keeps_bind keeps_get fun p => ?_) _)
      fun params => by grind
    grind
  · exact keeps_pure _

@[grind ←]
theorem keeps_reportConstraints (keyword name kind : String) (params : List (String × String)) :
    Keeps (reportConstraints keyword name kind params) := by
  induction params with
  | nil => exact keeps_pure _
  | cons param params ih =>
    unfold reportConstraints
    grind

@[grind ←]
theorem keeps_parseAsync : Keeps parseAsync := by
  refine keeps_bind (keeps_matchToken _) fun found => ?_
  split
  · exact keeps_bind (keeps_error _) fun _ => keeps_pure _
  · exact keeps_pure _

@[grind ←]
theorem keeps_parseDecorators : Keeps parseDecorators := by
  unfold parseDecorators
  grind

@[grind ←]
theorem keeps_refusePrivate (isPrivate : Bool) (message : String) :
    Keeps (refusePrivate isPrivate message) := by
  unfold refusePrivate
  grind

@[grind ←]
theorem keeps_parseLimitNumber (message : String) : Keeps (parseLimitNumber message) := by
  unfold parseLimitNumber
  grind

@[grind ←]
theorem keeps_parseWindow : Keeps parseWindow := by
  unfold parseWindow
  grind

@[grind ←]
theorem keeps_parseBurst : Keeps parseBurst := by
  unfold parseBurst
  grind

@[grind ←]
theorem keeps_parseLimit : Keeps parseLimit := by
  unfold parseLimit
  grind

@[grind ←]
theorem keeps_parseMethod : Keeps parseMethod := by
  unfold parseMethod
  grind

@[grind ←]
theorem keeps_skipParameters : Keeps skipParameters := by
  unfold skipParameters
  grind

@[grind ←]
theorem keeps_parseTraitReturn : Keeps parseTraitReturn := by
  unfold parseTraitReturn
  grind

@[grind ←]
theorem keeps_parseTraitMethod : Keeps parseTraitMethod := by
  unfold parseTraitMethod
  grind

@[grind ←]
theorem keeps_parseAtTime : Keeps parseAtTime := by
  unfold parseAtTime
  grind

@[grind ←]
theorem keeps_parseExport : Keeps parseExport := by
  unfold parseExport
  grind

@[grind ←]
theorem keeps_parseModifiers : Keeps parseModifiers := by
  unfold parseModifiers
  grind

theorem builds_parseMigration : Builds parseMigration Declared := by
  unfold parseMigration
  grind

theorem builds_parseImport : Builds parseImport Declared := by
  unfold parseImport
  grind

theorem builds_parseUse : Builds parseUse Declared := by
  unfold parseUse
  grind

theorem builds_parseInvalid : Builds parseInvalid Declared := by
  unfold parseInvalid
  grind

theorem builds_parseTraitDecl (isPrivate : Bool) : Builds (parseTraitDecl isPrivate) Declared := by
  refine builds_keeps_bind (keeps_consume _ _) fun _ => builds_get_bind fun name _ => ?_
  refine builds_keeps_bind keeps_parseGenericParams fun generics => ?_
  refine builds_keeps_bind (keeps_consume _ _) fun _ => ?_
  refine builds_keeps_bind (keeps_rounds (fun methods => keeps_bind keeps_get fun p => ?_) _)
    fun methods => by grind
  grind

section
variable {self : Self} (hself : Shapes self)
include hself

/-! ## Functions -/

theorem keeps_parseParameterType : Keeps (parseParameterType self) := by
  have h := keeps_parseReference hself
  unfold parseParameterType
  grind

theorem keeps_parseParameters : Keeps (parseParameters self) := by
  have h := keeps_parseParameterType hself
  refine keeps_bind (keeps_check _) fun closed => ?_
  split
  · exact keeps_pure _
  · refine keeps_rounds (fun params => keeps_bind keeps_parseExpectedName fun _ => ?_) _
    grind

theorem keeps_parseReturnType : Keeps (parseReturnType self) := by
  have h := keeps_parseReference hself
  unfold parseReturnType
  grind

theorem builds_parseFunctionBody (isExtern : Bool) :
    Builds (parseFunctionBody self isExtern) (wellShaped · = true) := by
  refine builds_keeps_bind (keeps_check _) fun brace => ?_
  split
  · exact builds_parseBlock hself
  · split
    · exact builds_pure rfl
    · exact builds_keeps_bind (keeps_error _) fun _ => builds_pure rfl

theorem builds_parseFunctionDecl (isPrivate isExtern isExport : Bool) :
    Builds (parseFunctionDecl self isPrivate isExtern isExport) Declared := by
  refine builds_keeps_bind (keeps_matchToken _) fun _ => builds_keeps_bind keeps_parseAsync ?_
  refine fun isAsync => builds_keeps_bind (keeps_consume _ _) fun _ => ?_
  refine builds_get_bind fun name _ => builds_keeps_bind keeps_parseGenericParams fun generics => ?_
  refine builds_keeps_bind (keeps_reportConstraints _ _ _ _) fun _ => ?_
  refine builds_keeps_bind (keeps_consume _ _) fun _ => ?_
  refine builds_keeps_bind (keeps_parseParameters hself) fun params => ?_
  refine builds_keeps_bind (keeps_consume _ _) fun _ => ?_
  refine builds_keeps_bind (keeps_parseReturnType hself) fun returnType => ?_
  refine (builds_parseFunctionBody hself isExtern).bind fun body hbody => builds_pure ⟨?_⟩
  rintro d hd
  obtain rfl := Option.some.inj hd
  exact hbody

/-! ## Models and types -/

theorem keeps_parseField : Keeps (parseField self) := by
  have h := keeps_parseReference hself
  unfold parseField
  grind

theorem builds_parseModelDecl (isPrivate : Bool) :
    Builds (parseModelDecl self isPrivate) Declared := by
  have h := keeps_parseField hself
  refine builds_keeps_bind (keeps_refusePrivate _ _) fun _ => ?_
  refine builds_keeps_bind keeps_parseExpectedName fun _ => builds_get_bind fun name _ => ?_
  refine builds_keeps_bind (keeps_modify fun _ hp => hp) fun _ => ?_
  refine builds_keeps_bind keeps_parseGenericParams fun generics => ?_
  refine builds_keeps_bind (keeps_reportConstraints _ _ _ _) fun _ => ?_
  grind

theorem keeps_parsePayloadTypes : Keeps (parsePayloadTypes self) := by
  have h := hself.typeName
  unfold parsePayloadTypes
  grind

theorem keeps_parseVariantPayloads : Keeps (parseVariantPayloads self) := by
  have h := keeps_parsePayloadTypes hself
  unfold parseVariantPayloads
  grind

theorem keeps_parseVariant (message : String) : Keeps (parseVariant self message) := by
  have h := keeps_parseVariantPayloads hself
  unfold parseVariant
  grind

theorem builds_parseVariants (name kind : String) :
    Builds (parseVariants self name kind) Declared := by
  have h := keeps_parseVariant hself
  unfold parseVariants
  grind

theorem keeps_parseAlternatives : Keeps (parseAlternatives self) := by
  have h := keeps_parseVariant hself
  unfold parseAlternatives
  grind

theorem builds_parseAlias (name : String) : Builds (parseAlias self name) Declared := by
  have h := keeps_parseAlternatives hself
  unfold parseAlias
  grind

theorem builds_parseTypeDecl (kw : TokType) (isPrivate : Bool) :
    Builds (parseTypeDecl self kw isPrivate) Declared := by
  have hv := builds_parseVariants hself
  have ha := builds_parseAlias hself
  refine builds_keeps_bind (keeps_refusePrivate _ _) fun _ => ?_
  refine builds_keeps_bind (keeps_consume _ _) fun _ => builds_get_bind fun name _ => ?_
  grind

/-! ## Programs -/

theorem builds_parseRouteDecl (decorators : List ASTNode) :
    Builds (parseRouteDecl self decorators) Declared := by
  have h := (builds_parseBlock hself).keeps
  unfold parseRouteDecl
  grind

theorem builds_parseImplDecl : Builds (parseImplDecl self) Declared := by
  have h := hself.statement.keeps
  refine builds_keeps_bind (keeps_consume _ _) fun _ => builds_get_bind fun traitName _ => ?_
  refine builds_keeps_bind (keeps_consume _ _) fun _ => builds_keeps_bind (keeps_consume _ _) ?_
  grind

theorem builds_parseScheduleDecl : Builds (parseScheduleDecl self) Declared := by
  have h := hself.expression.keeps
  refine builds_keeps_bind (keeps_error _) fun _ => builds_keeps_bind (keeps_consume _ _) fun _ => ?_
  refine builds_get_bind fun amount _ => builds_keeps_bind (keeps_consume _ _) fun _ => ?_
  grind

theorem builds_parseConfigDecl : Builds (parseConfigDecl self) Declared := by
  have h := hself.expression.keeps
  unfold parseConfigDecl
  grind

theorem builds_parseExpressionStmt : Builds (parseExpressionStmt self) Declared := by
  have h := hself.expression.keeps
  unfold parseExpressionStmt
  grind

theorem builds_declarationRules (m : Modifiers) :
    ∀ rule ∈ declarationRules self m, Builds rule.2 Declared := by
  have hvar : ∀ isMutable, Builds (parseVarDecl self isMutable) Declared := fun isMutable =>
    builds_parseVarDecl hself isMutable fun _ _ _ _ _ _ _ => ⟨fun _ hd => nomatch hd⟩
  simp only [declarationRules, List.forall_mem_cons, List.not_mem_nil, false_imp_iff, implies_true,
    and_true]
  exact ⟨builds_parseScheduleDecl hself, builds_parseImport, builds_parseUse,
    builds_parseModelDecl hself _, builds_parseRouteDecl hself _, hvar _, hvar _,
    builds_parseConstDecl hself _ fun _ _ _ _ => ⟨fun _ hd => nomatch hd⟩,
    builds_parseTypeDecl hself _ _, builds_parseTypeDecl hself _ _, builds_parseTypeDecl hself _ _,
    builds_parseTraitDecl _, builds_parseImplDecl hself⟩

theorem builds_parseModified (m : Modifiers) : Builds (parseModified self m) Declared := by
  refine builds_get_bind fun p _ => ?_
  split
  · exact builds_parseConfigDecl hself
  · split
    · exact builds_parseMigration
    · split
      · exact builds_parseFunctionDecl hself _ _ _
      · split
        · next rule hrule =>
          exact builds_keeps_bind keeps_advance fun _ =>
            builds_find (builds_declarationRules hself m) hrule
        · exact builds_parseExpressionStmt hself

theorem builds_parseDeclaration : Builds (parseDeclaration self) Declared := by
  refine builds_get_bind fun p _ => ?_
  split
  · exact builds_pure ⟨fun _ hd => nomatch hd⟩
  · split
    · exact builds_parseInvalid
    · exact builds_keeps_bind keeps_parseModifiers fun m => builds_parseModified hself m

/-- What a program is parsed as. -/
theorem builds_parseProgram : Builds (parseProgram self) fun root =>
    ∃ decls, root = .program decls ∧ ∀ d ∈ decls, Declared d := by
  refine Builds.bind (R := fun decls => ∀ d ∈ decls, Declared d) ?_ fun decls hdecls =>
    builds_pure ⟨decls, rfl, hdecls⟩
  refine builds_rounds (I := fun decls => ∀ d ∈ decls, Declared d)
    (fun decls hdecls => builds_get_bind fun before _ => ?_) (fun d hd => absurd hd List.not_mem_nil)
  split
  · exact builds_pure hdecls
  · refine (builds_parseDeclaration hself).bind fun decl hdecl => ?_
    refine builds_keeps_bind (keeps_modify fun _ => ready_recoveredDeclaration) fun _ => ?_
    refine builds_pure fun d hd => ?_
    rcases List.mem_append.mp hd with hd | hd
    · exact hdecls d hd
    · exact List.mem_singleton.mp hd ▸ hdecl

end

/-- **Every function of a source that was parsed has a body that the lowering takes.** -/
theorem shapes_parseSource {calls : Nat} {source : Front.Lex.Text} {root : ASTNode} {p : Parser}
    (h : parseSource calls source = some (root, p)) :
    ∃ decls, root = .program decls ∧
      ∀ d ∈ decls.filterMap functionDecl?, wellShaped d.2 = true := by
  obtain ⟨⟨decls, rfl, hdecls⟩, -⟩ := builds_parseProgram (shapes_parse calls) _
    (ready_advanceParser _) root p h
  refine ⟨decls, rfl, fun d hd => ?_⟩
  obtain ⟨node, hnode, hd⟩ := List.mem_filterMap.mp hd
  exact (hdecls node hnode).body d hd

end Tir
