import Orbit.Front.Ast
import Orbit.Front.Tiling
import Orbit.Lib.Prog

/-!
# Interpolated strings

`compiler/front/parser.orb`, `findInterpCloseRange` and `parseInterpolation`: a literal with holes is
cut into chunks and holes, and each hole is parsed in place, by the lexer of the file bound to the
hole. The parser is a program over its own state (`ParserOp`): the depth is written only by
`parseExpression` and `parseStatement`, whatever the rest of the grammar does (`Grammar`).
-/

namespace Front

open Lib
open Front.Lex (Text TokType Placed Lexer nextPlaced)

/-! ## The parser -/

/-- `Lexer` of the source, with its bounds. -/
structure SourceLexer where
  source : Text
  sourceLen : Nat
  pos : Nat
  line : Nat
  col : Nat
  deriving DecidableEq, Repr

/-- The text that is left up to the bound, and the place where it stands. -/
def SourceLexer.cursor (l : SourceLexer) : Lexer :=
  ⟨(l.source.take l.sourceLen).drop l.pos, l.line, l.col⟩

def SourceLexer.nextToken (l : SourceLexer) : Placed × SourceLexer :=
  let bounded := l.source.take l.sourceLen
  let (token, c) := nextPlaced bounded l.cursor
  (token, { l with pos := bounded.length - c.rest.length, line := c.line, col := c.col })

structure ParserDiagnostic where
  message : String
  line : Nat
  column : Nat
  code : String
  kind : String
  deriving DecidableEq, Repr

structure Parser where
  lexer : SourceLexer
  currentToken : Placed
  previousToken : Placed
  diagnostics : List ParserDiagnostic
  depth : Nat
  modelNames : List String
  deriving DecidableEq, Repr

def advanceParser (p : Parser) : Parser :=
  let (token, lexer) := p.lexer.nextToken
  { p with previousToken := p.currentToken, currentToken := token, lexer }

def parserError (message : String) (p : Parser) : Parser :=
  { p with diagnostics := p.diagnostics ++
      [⟨message, p.currentToken.token.line, p.currentToken.token.col, "", ""⟩] }

/-- Where a parser stands: its lexer, its two tokens and its depth. -/
structure Place where
  pos : Nat
  line : Nat
  col : Nat
  sourceLen : Nat
  currentToken : Placed
  previousToken : Placed
  depth : Nat
  deriving DecidableEq, Repr

def Parser.place (p : Parser) : Place :=
  ⟨p.lexer.pos, p.lexer.line, p.lexer.col, p.lexer.sourceLen, p.currentToken, p.previousToken,
    p.depth⟩

def isAtEnd (p : Parser) : Bool := p.currentToken.token.tag = .EOF

/-! ## Programs of the parser -/

/-- What a function of the parser does: look at the parser, change anything but its depth, or parse
an expression or a statement. -/
inductive ParserOp where
  | get
  | update (f : Parser → Parser)
  | parseExpression
  | parseStatement

def Answer : ParserOp → Type
  | .get => Parser
  | .update _ => Unit
  | .parseExpression => ASTNode
  | .parseStatement => ASTNode

abbrev ParserM := Prog ParserOp Answer

def getParser : ParserM Parser := .ask .get .ret

def update (f : Parser → Parser) : ParserM Unit := .ask (.update f) .ret

def parseExpression : ParserM ASTNode := .ask .parseExpression .ret

/-- The functions behind the depth guard. -/
structure Grammar where
  parseExpressionInner : ParserM ASTNode
  parseStatementInner : ParserM ASTNode

def depthLimit : Nat := 600

/-- What `parseDepthGuard` reports of a parser that is too deep. -/
def tooDeep (p : Parser) : Parser :=
  if p.diagnostics = [] then
    { p with diagnostics := [⟨"expression or statement nesting too deep", p.currentToken.token.line,
        p.currentToken.token.col, "E0130", "error.SyntaxDepthLimit"⟩] }
  else p

/-- `inner` one level deeper, unless that is too deep. -/
def Guarded (E : Parser → (o : ParserOp) → Answer o → Parser → Prop) (inner : ParserM ASTNode)
    (p : Parser) (out : ASTNode) (p' : Parser) : Prop :=
  let q := { p with depth := p.depth + 1 }
  if depthLimit < q.depth then
    out = .literal "int" "0" ∧ p' = { tooDeep q with depth := q.depth - 1 }
  else ∃ q', Prog.Runs E q inner q' out ∧ p' = { q' with depth := q'.depth - 1 }

/-- A statement that consumed nothing is advanced over. -/
def recovered (before p : Parser) : Parser :=
  if p.currentToken.token.tag = before.currentToken.token.tag ∧
      p.currentToken.token.line = before.currentToken.token.line ∧
      p.currentToken.token.col = before.currentToken.token.col ∧ isAtEnd p = false then
    advanceParser p
  else p

/-- What the operations answer, with at most so many expressions and statements inside each other. -/
def Answers (g : Grammar) : (calls : Nat) → Parser → (o : ParserOp) → Answer o → Parser → Prop
  | _, p, .get, r, p' => r = p ∧ p' = p
  | _, p, .update f, _, p' => p' = { f p with depth := p.depth }
  | 0, _, .parseExpression, _, _ => False
  | 0, _, .parseStatement, _, _ => False
  | calls + 1, p, .parseExpression, r, p' =>
    Guarded (Answers g calls) g.parseExpressionInner p r p'
  | calls + 1, p, .parseStatement, r, p' =>
    ∃ q, Guarded (Answers g calls) g.parseStatementInner p r q ∧ p' = recovered p q

/-! ## Holes -/

/-- The text behind a quoted string in a hole. -/
def quotedRest (quote : Char) : Text → Text
  | [] => []
  | '\\' :: t => quotedRest quote (t.drop 1)
  | c :: t => if c = quote then t else quotedRest quote t
termination_by t => t.length

/-- The loop of `findInterpCloseRange` from index `i`, with the text up to its bound. -/
def closeFrom : (fuel : Nat) → (depth i : Nat) → Text → Option Nat
  | 0, _, _, _ => none
  | _ + 1, _, _, [] => none
  | fuel + 1, depth, i, c :: t =>
    if c = '"' ∨ c = '\'' then
      closeFrom fuel depth (i + 1 + (t.length - (quotedRest c t).length)) (quotedRest c t)
    else if c = '\x7b' then closeFrom fuel (depth + 1) (i + 1) t
    else if c = '\x7d' then
      if depth = 0 then some i else closeFrom fuel (depth - 1) (i + 1) t
    else closeFrom fuel depth (i + 1) t

/-- The index of the brace that closes the hole which opens at `openIdx`. -/
def findInterpCloseRange (text : Text) (openIdx endIdx : Nat) : Option Nat :=
  let window := (text.take endIdx).drop (openIdx + 2)
  closeFrom (window.length + 1) 0 (openIdx + 2) window

/-! ## The cuts -/

/-- A piece of a literal's body: a chunk, or a hole between two indices. -/
inductive Cut where
  | chunk (text : Text)
  | hole (start close : Nat)
  deriving DecidableEq, Repr

def Cut.range? : Cut → Option (Nat × Nat)
  | .chunk _ => none
  | .hole start close => some (start, close)

/-- The holes among the pieces. -/
def holes (cuts : List Cut) : List (Nat × Nat) := cuts.filterMap Cut.range?

def Lex.sliceAt (text : Text) (i j : Nat) : Text := (text.take j).drop i

/-- The loop over the body: its pieces, and whether every hole is closed. -/
def cutFrom (text : Text) (bodyEnd : Nat) : (fuel : Nat) → (chunkStart i : Nat) → List Cut × Bool
  | 0, _, _ => ([], true)
  | fuel + 1, chunkStart, i =>
    if i + 1 < bodyEnd then
      if text[i]? = some '$' ∧ text[i + 1]? = some '\x7b' then
        match findInterpCloseRange text i bodyEnd with
        | none => ([], false)
        | some close =>
          let (cuts, closed) := cutFrom text bodyEnd fuel (close + 1) (close + 1)
          ((if chunkStart < i then [.chunk (Lex.sliceAt text chunkStart i)] else []) ++
            .hole (i + 2) close :: cuts, closed)
      else cutFrom text bodyEnd fuel chunkStart (i + 1)
    else (if chunkStart < bodyEnd then [.chunk (Lex.sliceAt text chunkStart bodyEnd)] else [], true)

/-- A literal of three quotes. -/
def isRawText (text : Text) : Bool := decide (6 ≤ text.length) && ['"', '"', '"'].isPrefixOf text

def bodyStart (text : Text) : Nat := if isRawText text then 3 else 1

def bodyEnd (text : Text) : Nat := if isRawText text then text.length - 3 else text.length - 1

def quotes (text : Text) : Text := if isRawText text then ['"', '"', '"'] else ['"']

def cuts (text : Text) : List Cut × Bool :=
  cutFrom text (bodyEnd text) (text.length + 1) (bodyStart text) (bodyStart text)

/-- What a piece was cut out of the text as, with its delimiters. -/
def Cut.source (text : Text) : Cut → Text
  | .chunk t => t
  | .hole start close => '$' :: '\x7b' :: Lex.sliceAt text start close ++ ['\x7d']

/-! ## The holes of the lexer -/

/-- The cursors between which each hole of an ordinary literal stands: where `scanString` calls
`skipInterpHole`, and where that call leaves it. -/
def lexedHoles : (fuel : Nat) → Lexer → List (Lexer × Lexer)
  | 0, _ => []
  | fuel + 1, l =>
    if l.rest = [] ∨ l.peek = '"' then []
    else
      let l := if l.peek = '\\' then l.advance else l
      if l.peek = '$' ∧ l.peekNext = '\x7b' then
        (l, Lex.skipInterpHole l) :: lexedHoles fuel (Lex.skipInterpHole l)
      else lexedHoles fuel l.advance

/-- The hole between two cursors, in a text of which `total` characters were left at its start: where
its expression starts, and where its brace stands. -/
def holeRange (total : Nat) (hole : Lexer × Lexer) : Nat × Nat :=
  (total - hole.1.rest.length + 2, total - hole.2.rest.length - 1)

/-- The literal at the cursor is raw, or `scanString` finds its closing quote. A raw literal that is
not closed is an invalid token. -/
def closedLiteral (l : Lexer) : Bool :=
  ['"', '"', '"'].isPrefixOf l.rest ||
    (Lex.scanString l.advance.rest.length false l.advance).2.peek = '"'

/-! ## Parsing -/

/-- The lexer bound to a range of the source. -/
def Parser.bindTo (pos sourceLen : Nat) (p : Parser) : Parser :=
  { p with diagnostics := [], lexer := { p.lexer with pos, sourceLen, line := 1, col := 1 } }

/-- What was saved is put back. -/
def Parser.restore (saved p : Parser) : Parser :=
  { p with
    diagnostics := saved.diagnostics
    lexer := { p.lexer with
      pos := saved.lexer.pos
      line := saved.lexer.line
      col := saved.lexer.col
      sourceLen := saved.lexer.sourceLen }
    currentToken := saved.currentToken
    previousToken := saved.previousToken }

/-- The diagnostics of a hole, at the place of the literal. -/
def Parser.adopt (holeDiags : List ParserDiagnostic) (p : Parser) : Parser :=
  { p with diagnostics := p.diagnostics ++ holeDiags.map fun d =>
      { d with line := p.previousToken.token.line, column := p.previousToken.token.col } }

def parseHole (tokStart start close : Nat) : ParserM ASTNode := do
  let saved ← getParser
  update (Parser.bindTo (tokStart + start) (tokStart + close))
  update advanceParser
  let expr ← parseExpression
  let hole ← getParser
  update (Parser.restore saved)
  update (Parser.adopt hole.diagnostics)
  if isAtEnd hole then return expr
  else
    update (parserError "unexpected text after the expression inside $\x7b")
    return expr

/-- The parts of the literal. -/
def parseCuts (tokStart : Nat) : List Cut → ParserM (List ASTNode)
  | [] => return []
  | .chunk text :: cuts => do
    let parts ← parseCuts tokStart cuts
    return .literal "string_chunk" (String.ofList text) :: parts
  | .hole start close :: cuts => do
    if close = start then
      update (parserError "empty interpolation: nothing between $\x7b and the closing brace")
      parseCuts tokStart cuts
    else
      let expr ← parseHole tokStart start close
      let parts ← parseCuts tokStart cuts
      return expr :: parts

def parseInterpolation (text : Text) (tokStart : Nat) : ParserM ASTNode := do
  let parts ← parseCuts tokStart (cuts text).1
  if (cuts text).2 then
    return .interp (if parts = [] then [.literal "string_chunk" ""] else parts) (isRawText text)
  else
    update (parserError "unterminated interpolation: missing closing brace")
    return .literal "string" "\"\""

end Front
