import Orbit.Front.Interpolation
import Orbit.Front.Lexer
import Orbit.Lib.Prog

/-!
# The parser

`compiler/front/parser.orb`: expressions and statements. The functions that call each other in a circle
are given the circle as `self`, and `parse` ties it: it allows so many calls inside each other
(`Call`). A loop is allowed two rounds for each token that can be left.
-/

namespace Front

open Lib Partial
open Front.Lex (Text TokType Placed)

abbrev P := Partial Parser

/-- The calls by which the parser comes back to itself. -/
inductive Call where
  | expression
  | statement
  | primary
  | binary (precedence : Nat)
  | typeName
  | ifNode (wantValue : Bool)
  deriving DecidableEq, Repr

abbrev Ret : Call → Type
  | .typeName => String
  | _ => ASTNode

abbrev Self := (c : Call) → P (Ret c)

/-! ## Tokens -/

def Parser.tag (p : Parser) : TokType := p.currentToken.token.tag

def Parser.text (p : Parser) : String := String.ofList p.currentToken.token.text

def Parser.previousText (p : Parser) : String := String.ofList p.previousToken.token.text

/-- The characters that are left, and the current token. -/
def Parser.left (p : Parser) : Nat :=
  p.lexer.cursor.rest.length + (if isAtEnd p then 0 else 1)

/-- A loop of the parser: no loop goes two rounds without a token, and the last round ends it. -/
def rounds {σ β : Type} (body : σ → P (Next σ β)) (x : σ) : P β := do
  let p ← get
  loop body (2 * (p.left + 1)) x

def check (tag : TokType) : P Bool := do
  let p ← get
  return p.tag = tag

def advance : P Unit := modify advanceParser

def advanceUnlessAtEnd : P Unit := do
  let p ← get
  if isAtEnd p then return () else advance

def matchToken (tag : TokType) : P Bool := do
  if ← check tag then
    advance
    return true
  else return false

/-- A diagnostic with its own place, code and kind. -/
def report (d : ParserDiagnostic) : P Unit :=
  modify fun p => { p with diagnostics := p.diagnostics ++ [d] }

def error (message : String) : P Unit := modify (parserError message)

def parserUnexpectedToken (kind : String) : P Unit := do
  let p ← get
  let tok := p.currentToken.token
  let col := if tokIsSymbol tok.tag then tok.col + tok.text.length else tok.col
  report ⟨"unexpected token '" ++ tokTagName tok.tag ++ "'", tok.line, col, "E0301", kind⟩

def consume (expected : TokType) (message : String) : P Unit := do
  if ← check expected then advance
  else
    error message
    advanceUnlessAtEnd

def consumeMemberName (message : String) : P Unit := do
  let p ← get
  if isMemberName p.tag then advance
  else
    error message
    advanceUnlessAtEnd

/-- A token that a round did not get past is advanced over. -/
def recover (before : Parser) : P Unit := modify (recovered before)

/-- One of two closers of a type that are one token is left for the next. -/
def splitShift (p : Parser) : Parser :=
  let t := p.currentToken
  { p with currentToken :=
      ⟨⟨.Greater, ['>'], t.token.line, t.token.col + 1⟩, t.start + 1, 1⟩ }

def consumeTypeCloser : P Unit := do
  if ← matchToken .Greater then return ()
  else if ← check .ShiftRight then modify splitShift
  else
    error "Expected '>' after the type parameters."
    advanceUnlessAtEnd

def parserDeclaredModel (p : Parser) (name : String) : Bool := decide (name ∈ p.modelNames)

/-! ## Operations of interpolations -/

section
variable (self : Self)

def answer : (o : ParserOp) → P (Answer o)
  | .get => get
  | .update f => modify fun p => { f p with depth := p.depth }
  | .parseExpression => self .expression
  | .parseStatement => self .statement

def interpret {α : Type} : ParserM α → P α
  | .ret a => pure a
  | .ask o k => do
    let r ← answer self o
    interpret (k r)

/-! ## Types -/

def parseTypeName : P String := do
  if ← check .Identifier then
    advance
    let p ← get
    let typeName := p.previousText
    if ← matchToken .Less then
      let inner ← self .typeName
      let inner ← rounds (fun inner => do
        if ← matchToken .Comma then
          let next ← self .typeName
          return .again (inner ++ ", " ++ next)
        else return .done inner) inner
      consumeTypeCloser
      return typeName ++ "<" ++ inner ++ ">"
    else return typeName
  else
    error "Expected type name."
    return "unknown"

/-- A type behind an optional `&`. -/
def parseReference : P String := do
  if ← matchToken .Ampersand then
    let typeName ← self .typeName
    return "&" ++ typeName
  else self .typeName

/-! ## Objects -/

def unquoteObjectKey (literal : Text) : String :=
  if literal.length < 2 then String.ofList literal
  else String.ofList (Lex.sliceAt literal 1 (literal.length - 1))

def consumeObjectKey : P String := do
  if ← matchToken .StringLiteral then
    let p ← get
    return unquoteObjectKey p.previousToken.token.text
  else
    let p ← get
    if isMemberName p.tag then
      advance
      return p.text
    else
      parserUnexpectedToken "error.ExpectedObjectKey"
      advanceUnlessAtEnd
      return p.text

def parseObjectLiteralFallback : P ASTNode := do
  let p ← get
  report ⟨"unexpected '\x7b' in an expression", p.currentToken.token.line, p.currentToken.token.col,
    "E0301", "error.UnexpectedBrace"⟩
  advanceUnlessAtEnd
  return .empty

def parseObjectLiteralBody : P ASTNode := do
  let p ← get
  if isObjectKeyStart p.tag = false then parseObjectLiteralFallback
  else
    let fields ← rounds (fun fields => do
      let p ← get
      if p.tag = .CloseBrace ∨ isAtEnd p then return .done fields
      else
        let key ← consumeObjectKey
        consume .Colon "Expected ':' after an object key."
        let value ← self .expression
        let _ ← matchToken .Comma
        return .again (fields ++ [.fieldInit key value])) []
    consume .CloseBrace "Expected '\x7d' after an object literal."
    return .objectLiteral fields

/-! ## Calls, members and indices -/

def parseArguments : P (List ASTNode) := do
  if ← check .CloseParen then return []
  else
    rounds (fun args => do
      let arg ← self .expression
      if ← matchToken .Comma then return .again (args ++ [arg])
      else return .done (args ++ [arg])) []

def parseCall (callee : ASTNode) : P ASTNode := do
  let p ← get
  advance
  let args ← parseArguments self
  consume .CloseParen "Expected ')' after arguments."
  return .call callee args p.currentToken.token.line p.currentToken.token.col

/-- A member, the dot read. A quoted name is read twice: as a member, and as a member of it. -/
def parseMember (object : ASTNode) : P ASTNode := do
  let dot ← get
  let line := dot.previousToken.token.line
  let col := dot.previousToken.token.col
  let object ← (do
    if dot.tag = .StringLiteral then
      let quoted := dot.currentToken.token.text
      advance
      return .memberAccess object (String.ofList (Lex.sliceAt quoted 1 (quoted.length - 1))) line col
    else
      consumeMemberName "Expected member name after '.'."
      return object)
  let p ← get
  return .memberAccess object p.previousText line col

def parseIndex (object : ASTNode) : P ASTNode := do
  let bracket ← get
  let index ← self .expression
  consume .CloseBracket "Expected ']' after index."
  return .indexAccess object index bracket.previousToken.token.line bracket.previousToken.token.col

def parsePostfix (lhs : ASTNode) : P ASTNode :=
  rounds (fun result => do
    if ← check .OpenParen then
      let next ← parseCall self result
      return .again next
    else if ← matchToken .Dot then
      let next ← parseMember result
      return .again next
    else if ← matchToken .OpenBracket then
      let next ← parseIndex self result
      return .again next
    else return .done result) lhs

/-! ## Blocks and branches -/

def parseBlockBody : P ASTNode := do
  let statements ← rounds (fun statements => do
    let p ← get
    if p.tag = .CloseBrace ∨ isAtEnd p then return .done statements
    else
      let statement ← self .statement
      return .again (statements ++ [statement])) []
  consume .CloseBrace "Expected '\x7d' after block."
  return .block statements

def parseBlock : P ASTNode := do
  consume .OpenBrace "Expected '\x7b' before block."
  parseBlockBody self

def isThenIdentifier (p : Parser) : Bool := p.tag = .Identifier && p.text = "then"

/-- The branch behind a `then`, which may be the branch. -/
def parseThenBranch : P ASTNode := do
  advance
  if ← matchToken .OpenBrace then parseBlockBody self
  else
    let p ← get
    if canStartBranch p.tag then self .expression
    else return .literal "identifier" "then"

def parseIfBranch : P ASTNode := do
  if ← matchToken .OpenBrace then parseBlockBody self
  else
    let p ← get
    let tok := p.currentToken.token
    if isThenIdentifier p then parseThenBranch self
    else if p.tag = .KeywordElse then
      report ⟨"this `if` has no then branch: `else` must follow a then branch", tok.line, tok.col,
        "E0303", "error.IfMissingThenBranch"⟩
      return .empty
    else if isStatementOnlyToken p.tag then
      report ⟨"an `if` branch written without braces must be a single expression; wrap " ++
        "statements in `\x7b ... \x7d`", tok.line, tok.col, "E0304", "error.IfBranchNotExpression"⟩
      self .statement
    else self .expression

/-- The `else` of an `if`, if there is one. -/
def parseElse (wantValue : Bool) : P (Option ASTNode) := do
  if ← matchToken .KeywordElse then
    if ← matchToken .KeywordIf then
      let elseBody ← self (.ifNode wantValue)
      return some elseBody
    else
      let elseBody ← parseIfBranch self
      return some elseBody
  else return none

def parseIf (wantValue : Bool) : P ASTNode := do
  let keyword ← get
  let tok := keyword.previousToken.token
  let condition ← self .expression
  let thenBody ← parseIfBranch self
  let elseBody ← parseElse self wantValue
  if wantValue = true ∧ elseBody = none then
    report ⟨"this `if` is used as a value, so it needs an `else` branch: without one the " ++
      "false path has no value", tok.line, tok.col, "E0302", "error.IfWithoutElse"⟩
    return .ifNode condition thenBody .empty
  else return .ifNode condition thenBody (elseBody.getD .empty)

/-! ## Matches -/

def parseMatchArmBody (wantValue : Bool) : P ASTNode := do
  if wantValue then self .expression
  else if ← matchToken .OpenBrace then parseBlockBody self
  else self .statement

def parseMatch (wantValue : Bool) : P ASTNode := do
  let keyword ← get
  let tok := keyword.previousToken.token
  let expr ← self .expression
  consume .OpenBrace "Expected '\x7b' after match expression."
  let cases ← rounds (fun cases => do
    let before ← get
    if before.tag = .CloseBrace ∨ isAtEnd before then return .done cases
    else
      let pattern ← self .expression
      consume .FatArrow "Expected '=>' in match case."
      let body ← parseMatchArmBody self wantValue
      let _ ← matchToken .Comma
      recover before
      return .again (cases ++ [.matchCase pattern body])) []
  consume .CloseBrace "Expected '\x7d' after match cases."
  return .matchNode expr cases tok.line tok.col

/-! ## Primary expressions -/

def parseName : P ASTNode := do
  let p ← get
  let name := p.previousText
  if name = "true" ∨ name = "false" then return .literal "bool" name
  else if p.tag = .OpenBrace ∧ parserDeclaredModel p name then
    advance
    let body ← parseObjectLiteralBody self
    parsePostfix self (.typedLiteral body name)
  else parsePostfix self (.literal "identifier" name)

/-- The `catch` of a `try`: its body and the name of its error. -/
def parseCatch : P (ASTNode × String) := do
  if ← matchToken .KeywordCatch then
    let errName ← (do
      if ← matchToken .Identifier then
        let p ← get
        return p.previousText
      else return "")
    let catchBody ← parseBlock self
    return (catchBody, errName)
  else return (.empty, "")

def parseTry : P ASTNode := do
  let expr ← self .expression
  let (catchBody, errName) ← parseCatch self
  return .tryNode expr catchBody errName

def parseListLiteral : P ASTNode := do
  let elements ← rounds (fun elements => do
    let before ← get
    if before.tag = .CloseBracket ∨ isAtEnd before then return .done elements
    else
      let element ← self .expression
      recover before
      let _ ← matchToken .Comma
      return .again (elements ++ [element])) []
  consume .CloseBracket "Expected ']' after list literal."
  return .listLiteral elements

def parseParenthesised : P ASTNode := do
  let expr ← self .expression
  consume .CloseParen "Expected ')' after expression."
  return expr

def parsePrefix (op : String) : P ASTNode := do
  let operand ← self .primary
  return .unaryOp op operand

/-- The literal that was read, with its type. -/
def parseLiteral (valType : String) : P ASTNode := do
  let p ← get
  return .literal valType p.previousText

def parseInterpolated : P ASTNode := do
  let p ← get
  interpret self (parseInterpolation p.previousToken.token.text p.previousToken.start)

def parseUnexpected : P ASTNode := do
  parserUnexpectedToken "error.UnexpectedToken"
  advanceUnlessAtEnd
  return .empty

/-- What the first token of a primary expression is read as. -/
def primaryRules : List (TokType × P ASTNode) :=
  [(.Bang, parsePrefix self "!"),
    (.Tilde, parsePrefix self "~"),
    (.Minus, parsePrefix self "-"),
    (.IntegerLiteral, parseLiteral "int"),
    (.FloatLiteral, parseLiteral "float"),
    (.StringLiteral, parseLiteral "string"),
    (.RawStringLiteral, parseLiteral "string_raw"),
    (.InterpStringLiteral, parseInterpolated self),
    (.CharLiteral, parseLiteral "char"),
    (.Identifier, parseName self),
    (.KeywordOk, do
      let node ← parseLiteral "identifier"
      parsePostfix self node),
    (.KeywordErr, do
      let node ← parseLiteral "identifier"
      parsePostfix self node),
    (.KeywordMatch, parseMatch self true),
    (.KeywordTry, parseTry self),
    (.OpenParen, parseParenthesised self),
    (.KeywordIf, self (.ifNode true)),
    (.OpenBracket, parseListLiteral self),
    (.OpenBrace, do
      let node ← parseObjectLiteralBody self
      parsePostfix self node)]

def parsePrimary : P ASTNode := do
  let p ← get
  match (primaryRules self).find? (·.1 = p.tag) with
  | some rule =>
    advance
    rule.2
  | none => parseUnexpected

/-! ## Expressions -/

def parseBinary (precedence : Nat) : P ASTNode := do
  let lhs ← self .primary
  rounds (fun lhs => do
    let p ← get
    if precedence < getPrecedence p.tag then
      advance
      let rhs ← self (.binary (getPrecedence p.tag))
      return .again (.binaryOp p.text lhs rhs p.currentToken.token.line p.currentToken.token.col)
    else return .done lhs) lhs

def compoundOp (tag : TokType) : String :=
  if tag = .PercentEqual then "%" else if tag = .SlashEqual then "/"
  else if tag = .StarEqual then "*" else if tag = .MinusEqual then "-" else "+"

def parseCompoundAssign (lhs : ASTNode) : P ASTNode := do
  let p ← get
  advance
  let rhs ← self .expression
  return .assignment lhs (.binaryOp (compoundOp p.tag) lhs rhs p.currentToken.token.line
    p.currentToken.token.col)

def parseTernary (cond : ASTNode) : P ASTNode := do
  advance
  let thenBranch ← self .expression
  consume .Colon "Expected ':' between the branches of '?:'."
  let elseBranch ← self .expression
  return .ifNode cond thenBranch elseBranch

def parseExpressionInner : P ASTNode := do
  let lhs ← self (.binary 0)
  if ← matchToken .Equal then
    let rhs ← self .expression
    return .assignment lhs rhs
  else
    let p ← get
    if isCompoundAssign p.tag then parseCompoundAssign self lhs
    else if p.tag = .Question then parseTernary self lhs
    else return lhs

/-! ## Statements -/

/-- The annotation of a declaration, empty if there is none. -/
def parseAnnotated : P String := do
  if ← matchToken .Colon then parseReference self else return ""

def parseVarDecl (isMutable : Bool) : P ASTNode := do
  let isMut ← matchToken .KeywordMut
  consume .Identifier "Expected variable name."
  let name ← get
  let tok := name.previousToken.token
  let annotated ← parseAnnotated self
  consume .Equal "Expected '=' after variable name."
  let value ← self .expression
  return .varDecl name.previousText (isMutable || isMut) value annotated tok.line tok.col

def parseConstDecl (isPrivate : Bool) : P ASTNode := do
  consume .Identifier "Expected constant name."
  let name ← get
  let tok := name.previousToken.token
  consume .Equal "Expected '=' after constant name."
  let value ← self .expression
  return .constDecl name.previousText value isPrivate tok.line tok.col

def parseWhileStatement : P ASTNode := do
  let condition ← self .expression
  let body ← parseBlock self
  return .whileNode condition body

/-- The name behind `for`, or the label and the name behind it. -/
def parseForItem : P (String × String) := do
  consume .Identifier "Expected loop variable name."
  let first ← get
  if ← matchToken .Colon then
    consume .Identifier "Expected loop variable name after the loop label."
    let p ← get
    return (first.previousText, p.previousText)
  else return ("", first.previousText)

def parseForIndex : P String := do
  if ← matchToken .Comma then
    consume .Identifier "Expected index variable name after ','."
    let p ← get
    return p.previousText
  else return ""

def parseIterable : P ASTNode := do
  let iterable ← self .expression
  if ← matchToken .DotDot then
    let dots ← get
    let tok := dots.previousToken.token
    let hi ← self .expression
    return .range iterable hi tok.line tok.col
  else return iterable

def parseForStatement : P ASTNode := do
  let (label, item) ← parseForItem
  let indexVar ← parseForIndex
  consume .KeywordIn "Expected 'in' after loop variable."
  let iterable ← parseIterable self
  let body ← parseBlock self
  return .forNode item iterable body indexVar label

/-- A value, unless the statement ends here. -/
def parseOptional : P ASTNode := do
  let p ← get
  if p.tag = .SemiColon ∨ p.tag = .CloseBrace then return .empty else self .expression

/-- A number that may stand here, and the text of it. -/
def parseStatus (default : String) : P String := do
  let p ← get
  if p.tag = .IntegerLiteral then
    advance
    return p.text
  else return default

def parseReturn : P ASTNode := do
  let p ← get
  if p.tag = .KeywordOk then
    advance
    let status ← parseStatus ""
    let expr ← parseOptional self
    let _ ← matchToken .SemiColon
    return .returnOk expr status
  else
    let expr ← parseOptional self
    return .returnNode expr

def parseErr : P ASTNode := do
  let code ← parseStatus "500"
  let message ← parseOptional self
  let _ ← matchToken .SemiColon
  return .returnErr message code

def parseLoopLabel : P String := do
  let p ← get
  if p.tag ≠ .Identifier then return ""
  else if p.currentToken.token.line ≠ p.previousToken.token.line then return ""
  else
    advance
    return p.text

def parseBreak : P ASTNode := do
  let label ← parseLoopLabel
  return .breakNode label

def parseContinue : P ASTNode := do
  let label ← parseLoopLabel
  return .continueNode label

/-- What the first token of a statement is read as. -/
def statementRules : List (TokType × P ASTNode) :=
  [(.KeywordVal, parseVarDecl self false),
    (.KeywordVar, parseVarDecl self true),
    (.KeywordConst, parseConstDecl self false),
    (.KeywordReturn, parseReturn self),
    (.KeywordIf, self (.ifNode false)),
    (.KeywordErr, parseErr self),
    (.KeywordWhile, parseWhileStatement self),
    (.KeywordFor, parseForStatement self),
    (.KeywordMatch, parseMatch self false),
    (.KeywordBreak, parseBreak),
    (.KeywordContinue, parseContinue)]

def parseStatementInner : P ASTNode := do
  let p ← get
  match (statementRules self).find? (·.1 = p.tag) with
  | some rule =>
    advance
    rule.2
  | none => self .expression

end

/-! ## The depth guard -/

/-- `inner` one level deeper, unless that is too deep. -/
def guarded (inner : P ASTNode) : P ASTNode := do
  modify fun p => { p with depth := p.depth + 1 }
  let p ← get
  let out ← (do
    if depthLimit < p.depth then
      modify tooDeep
      return .literal "int" "0"
    else inner)
  modify fun p => { p with depth := p.depth - 1 }
  return out

def parseStatement (inner : P ASTNode) : P ASTNode := do
  let before ← get
  let out ← guarded inner
  recover before
  return out

/-- One call, with the calls inside it. -/
def parseCallee (self : Self) : Self
  | .expression => guarded (parseExpressionInner self)
  | .statement => parseStatement (parseStatementInner self)
  | .primary => parsePrimary self
  | .binary precedence => parseBinary self precedence
  | .typeName => parseTypeName self
  | .ifNode wantValue => parseIf self wantValue

/-- The calls of the parser, at most so many inside each other. -/
def parse : (calls : Nat) → Self
  | 0 => fun _ _ => none
  | calls + 1 => parseCallee (parse calls)

end Front
