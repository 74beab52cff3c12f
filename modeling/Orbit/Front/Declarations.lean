import Orbit.Front.Literal
import Orbit.Front.Parser

/-!
# Declarations

`compiler/front/parser.orb`: the declarations of a file and `parseProgram`.
-/

namespace Front

open Lib Partial
open Front.Lex (Text TokType Lexer)

/-! ## Parameters -/

/-- A name in its place: any other token is reported and taken for it. -/
def parseExpectedName : P Unit := do
  if ← check .Identifier then advance
  else
    parserUnexpectedToken "error.UnexpectedToken"
    advanceUnlessAtEnd

def parseConstraint : P String := do
  if ← matchToken .Colon then
    consume .Identifier "Expected constraint type."
    let p ← get
    return p.previousText
  else return ""

/-- Generic parameters: each with its constraint. -/
def parseGenericParams : P (List (String × String)) := do
  if ← matchToken .OpenBracket then
    let params ← rounds (fun params => do
      let p ← get
      if p.tag = .CloseBracket ∨ isAtEnd p then return .done params
      else
        consume .Identifier "Expected generic parameter name."
        let name ← get
        let constraint ← parseConstraint
        let _ ← matchToken .Comma
        return .again (params ++ [(name.previousText, constraint)])) []
    consume .CloseBracket "Expected ']' after generic parameters."
    return params
  else return []

def genericNodes (params : List (String × String)) : List ASTNode :=
  params.map fun p => .genericParam p.1 p.2

/-- What is reported of a constraint. -/
def constraintMessage (keyword name kind : String) (param : String × String) : String :=
  "'" ++ keyword ++ " " ++ name ++ "[" ++ param.1 ++ ": " ++ param.2 ++ "]' is not supported: a " ++
    kind ++ " there is no argument to constrain. Leave the constraint off and let the argument " ++
    "fit, or declare one " ++ (if keyword = "fn" then "function" else "model") ++ " per type."

def reportConstraints (keyword name kind : String) : List (String × String) → P Unit
  | [] => return ()
  | param :: params => do
    if param.2 = "" then reportConstraints keyword name kind params
    else
      error (constraintMessage keyword name kind param)
      reportConstraints keyword name kind params

section
variable (self : Self)

def parseParameterType : P String := do
  if ← matchToken .Colon then parseReference self else return "unknown"

def parseParameters : P (List (String × String)) := do
  if ← check .CloseParen then return []
  else
    rounds (fun params => do
      parseExpectedName
      let name ← get
      let paramType ← parseParameterType self
      let params := params ++ [(name.previousText, paramType)]
      if ← matchToken .Comma then return .again params else return .done params) []

def parseReturnType : P String := do
  if ← matchToken .Arrow then parseReference self else return "void"

/-- The body of a function; an extern one has none. -/
def parseFunctionBody (isExtern : Bool) : P ASTNode := do
  if ← check .OpenBrace then parseBlock self
  else if isExtern then return .block []
  else
    error "Expected '\x7b' before block."
    return .block []

def parseAsync : P Bool := do
  if ← matchToken .KeywordAsync then
    error ("'async fn' is not supported: async functions have no runtime semantics yet; remove " ++
      "'async' and the function runs synchronously as written.")
    return true
  else return false

def parseFunctionDecl (isPrivate isExtern isExport : Bool) : P ASTNode := do
  let _ ← matchToken .KeywordFn
  let isAsync ← parseAsync
  consume .Identifier "Expected function name."
  let name ← get
  let generics ← parseGenericParams
  reportConstraints "fn" name.previousText
    "function's type parameter is inferred from the value passed for it, so" generics
  consume .OpenParen "Expected '(' after function name."
  let params ← parseParameters self
  consume .CloseParen "Expected ')' after parameters."
  let returnType ← parseReturnType self
  let body ← parseFunctionBody self isExtern
  return .functionDecl name.previousText (params.map (·.1)) (params.map (·.2)) returnType body
    isAsync isPrivate isExtern (genericNodes generics) isExport

/-! ## Models and types -/

def parseDecorators : P (List ASTNode) :=
  rounds (fun decorators => do
    if ← matchToken .At then
      consume .Identifier "Expected decorator name."
      let p ← get
      return .again (decorators ++ [.decorator p.previousText []])
    else return .done decorators) []

def parseField : P ASTNode := do
  let decorators ← parseDecorators
  consume .Identifier "Expected field name."
  let name ← get
  consume .Colon "Expected ':' after field name."
  let fieldType ← parseReference self
  let _ ← matchToken .Comma
  return .fieldDecl name.previousText fieldType decorators

/-- A keyword that a declaration does not take. -/
def refusePrivate (isPrivate : Bool) (message : String) : P Unit := do
  if isPrivate then error message else return ()

def parseModelDecl (isPrivate : Bool) : P ASTNode := do
  refusePrivate isPrivate "'private' is not supported on models yet."
  parseExpectedName
  let name ← get
  modify fun p => { p with modelNames := p.modelNames ++ [name.previousText] }
  let generics ← parseGenericParams
  reportConstraints "model" name.previousText
    "model's type parameter is inferred from the value written for it, so" generics
  consume .OpenBrace "Expected '\x7b' after model name."
  let fields ← rounds (fun fields => do
    let p ← get
    if p.tag = .CloseBrace ∨ isAtEnd p then return .done fields
    else
      let field ← parseField self
      return .again (fields ++ [field])) []
  consume .CloseBrace "Expected '\x7d' after model fields."
  return .modelDecl name.previousText fields (genericNodes generics)

/-- The payload types up to the closing parenthesis, joined with tabs. -/
def parsePayloadTypes : P String := do
  let joined ← rounds (fun (joined : Option String) => do
    let p ← get
    if p.tag = .CloseParen ∨ isAtEnd p then return .done joined
    else
      if joined = none then pure () else consume .Comma "Expected ',' between payload types."
      let t ← self .typeName
      return .again (some (if joined.getD "" = "" then t else joined.getD "" ++ "\t" ++ t))) none
  return joined.getD ""

def parseVariantPayloads : P String := do
  if ← matchToken .OpenParen then
    let joined ← (do
      if ← check .CloseParen then
        error "Expected payload type."
        return ""
      else parsePayloadTypes self)
    consume .CloseParen "Expected ')' after payload types."
    return joined
  else return ""

/-- A variant and its payloads. -/
def parseVariant (message : String) : P (ASTNode × String) := do
  consume .Identifier message
  let name ← get
  let payloads ← parseVariantPayloads self
  return (.literal "variant" name.previousText, payloads)

/-- The variants of an `enum` or a `union` in its braces. -/
def parseVariants (name kind : String) : P ASTNode := do
  consume .OpenBrace ("Expected '\x7b' after '" ++ kind ++ "'.")
  let variants ← rounds (fun variants => do
    let p ← get
    if p.tag = .CloseBrace ∨ isAtEnd p then return .done variants
    else
      let variant ← parseVariant self "Expected variant name."
      let _ ← matchToken .Comma
      return .again (variants ++ [variant])) []
  consume .CloseBrace ("Expected '\x7d' after " ++ kind ++ " variants.")
  return .typeDecl name kind (variants.map (·.1)) "" (variants.map (·.2))

/-- Names with bars between them: whether they are a sum, the base type, and the variants. -/
structure Alternatives where
  isSumType : Bool
  baseType : String
  variants : List (ASTNode × String)

def parseAlternatives : P Alternatives :=
  rounds (fun (a : Alternatives) => do
    let p ← get
    if p.tag ≠ .Identifier then return .done a
    else
      let variant ← parseVariant self "Expected variant or type name."
      let variants := a.variants ++ [variant]
      let isSumType := a.isSumType || decide (variant.2 ≠ "")
      if ← matchToken .Pipe then return .again ⟨true, a.baseType, variants⟩
      else if isSumType = false ∧ variants.length = 1 then
        return .done ⟨isSumType, p.text, variants⟩
      else return .done ⟨isSumType, a.baseType, variants⟩) ⟨false, "", []⟩

def parseAlias (name : String) : P ASTNode := do
  let _ ← matchToken .Pipe
  if ← check .Identifier then
    let a ← parseAlternatives self
    if a.isSumType then
      return .typeDecl name "union" (a.variants.map (·.1)) "" (a.variants.map (·.2))
    else return .typeDecl name "alias" [] a.baseType []
  else return .typeDecl name "alias" [] "" []

def parseTypeDecl (kw : TokType) (isPrivate : Bool) : P ASTNode := do
  refusePrivate isPrivate "'private' is not supported on types yet."
  consume .Identifier "Expected type name."
  let name ← get
  let _ ← matchToken .Equal
  if kw = .KeywordEnum then parseVariants self name.previousText "enum"
  else if ← matchToken .KeywordEnum then parseVariants self name.previousText "enum"
  else if kw = .KeywordUnion then parseVariants self name.previousText "union"
  else if ← matchToken .KeywordUnion then parseVariants self name.previousText "union"
  else parseAlias self name.previousText

/-! ## Routes, traits and the rest -/

/-- The word that a declaration may go on with. -/
def isWord (p : Parser) (word : String) : Bool := p.tag = .Identifier && p.text = word

def parseLimitNumber (message : String) : P Int := do
  consume .IntegerLiteral message
  let p ← get
  return (parseIntSelfhost p.previousText).toInt

def windowOf (unit : String) : Int :=
  if unit = "min" then 60000 else if unit = "ms" then 1 else 1000

/-- The window of a limit, in milliseconds. -/
def parseWindow : P Int := do
  if ← matchToken .Slash then
    if ← matchToken .Identifier then
      let p ← get
      return windowOf p.previousText
    else return 1000
  else return 1000

def parseBurst : P Int := do
  let p ← get
  if isWord p "burst" then
    advance
    parseLimitNumber "Expected burst number."
  else return 0

/-- The limit of a route: whether there is one, its rate, its window and its burst. -/
def parseLimit : P (Bool × Int × Int × Int) := do
  let p ← get
  if isWord p "limit" then
    advance
    let rate ← parseLimitNumber "Expected limit rate number."
    let window ← parseWindow
    let burst ← parseBurst
    return (true, rate, window, burst)
  else return (false, 0, 1000, 0)

def parseMethod : P String := do
  let p ← get
  if isHttpMethodToken p.tag then
    advance
    return p.text
  else
    parserUnexpectedToken "error.ExpectedHttpMethod"
    advanceUnlessAtEnd
    return ""

def parseRouteDecl (decorators : List ASTNode) : P ASTNode := do
  let method ← parseMethod
  consume .StringLiteral "Expected path string."
  let path ← get
  let (hasLimit, rate, window, burst) ← parseLimit
  let body ← parseBlock self
  return .routeDecl method path.previousText decorators body hasLimit rate window burst

/-- The tokens up to a closing parenthesis are not looked at. -/
def skipParameters : P Unit :=
  rounds (fun () => do
    let p ← get
    if p.tag = .CloseParen ∨ isAtEnd p then return .done ()
    else
      advance
      return .again ()) ()

def parseTraitReturn : P String := do
  if ← matchToken .Arrow then
    let isPointer ← matchToken .Ampersand
    consume .Identifier "Expected return type."
    let p ← get
    return if isPointer then "&" ++ p.previousText else p.previousText
  else return ""

def parseTraitMethod : P ASTNode := do
  consume .Identifier "Expected method name."
  let name ← get
  consume .OpenParen "Expected '(' after method name."
  skipParameters
  consume .CloseParen "Expected ')' after parameters."
  let returnType ← parseTraitReturn
  let _ ← matchToken .SemiColon
  return .functionDecl name.previousText [] [] returnType (.block []) false false false [] false

def parseTraitDecl (isPrivate : Bool) : P ASTNode := do
  consume .Identifier "Expected trait name."
  let name ← get
  let generics ← parseGenericParams
  consume .OpenBrace "Expected '\x7b' after trait name."
  let methods ← rounds (fun methods => do
    let p ← get
    if p.tag = .CloseBrace ∨ isAtEnd p then return .done methods
    else
      advance
      if p.tag = .KeywordFn then
        let method ← parseTraitMethod
        return .again (methods ++ [method])
      else return .again methods) []
  consume .CloseBrace "Expected '\x7d' after trait methods."
  return .traitDecl name.previousText (genericNodes generics) methods isPrivate

def parseImplDecl : P ASTNode := do
  consume .Identifier "Expected trait name."
  let traitName ← get
  consume .KeywordFor "Expected 'for' after trait name in impl."
  consume .Identifier "Expected type name."
  let typeName ← get
  consume .OpenBrace "Expected '\x7b' before impl body."
  let methods ← rounds (fun methods => do
    let p ← get
    if p.tag = .CloseBrace ∨ isAtEnd p then return .done methods
    else
      let method ← self .statement
      return .again (methods ++ [method])) []
  consume .CloseBrace "Expected '\x7d' after impl body."
  return .implDecl traitName.previousText typeName.previousText methods

def parseAtTime : P String := do
  if ← matchToken .Identifier then
    let p ← get
    if p.previousText = "at" then
      consume .IntegerLiteral "Expected time value."
      let p ← get
      return p.previousText
    else return ""
  else return ""

def parseScheduleDecl : P ASTNode := do
  error ("'every' schedules are not supported: there is no timer runtime yet; call the handler " ++
    "explicitly or drive it from a loop.")
  consume .IntegerLiteral "Expected amount (number)."
  let amount ← get
  consume .Identifier "Expected time unit."
  let unit ← get
  let atTime ← parseAtTime
  consume .FatArrow "Expected '=>' after schedule."
  let handler ← self .expression
  return .scheduleDecl amount.previousText unit.previousText atTime handler

def parseConfigDecl : P ASTNode := do
  let key ← get
  advance
  let value ← self .expression
  return .configDecl key.text value key.currentToken.token.line key.currentToken.token.col

/-! ## Programs -/

/-- `export` in front of `fn` only. -/
def parseExport : P Bool := do
  let p ← get
  if isWord p "export" then
    advance
    if ← check .KeywordFn then return true
    else
      error "Expected 'fn' after 'export'."
      return true
  else return false

def configWords : List String := ["port", "cors", "db", "env"]

/-- The modifiers of a declaration. -/
structure Modifiers where
  decorators : List ASTNode
  isPrivate : Bool
  isExtern : Bool
  isExport : Bool

def parseModifiers : P Modifiers := do
  let decorators ← parseDecorators
  let isPrivate ← matchToken .KeywordPrivate
  let isExtern ← matchToken .KeywordExtern
  let isExport ← parseExport
  return ⟨decorators, isPrivate, isExtern, isExport⟩

def parseMigration : P ASTNode := do
  advance
  consume .StringLiteral "Expected migration SQL string."
  let p ← get
  return .migrationDecl p.previousText

def parseImport : P ASTNode := do
  consume .StringLiteral "Expected import path."
  let p ← get
  return .importStmt p.previousText

def parseUse : P ASTNode := do
  consume .Identifier "Expected module name."
  let p ← get
  return .useStmt p.previousText

/-- What the first token of a declaration is read as, once it is read. -/
def declarationRules (m : Modifiers) : List (TokType × P ASTNode) :=
  [(.KeywordEvery, parseScheduleDecl self),
    (.KeywordImport, parseImport),
    (.KeywordUse, parseUse),
    (.KeywordModel, parseModelDecl self m.isPrivate),
    (.KeywordRoute, parseRouteDecl self m.decorators),
    (.KeywordVal, parseVarDecl self false),
    (.KeywordVar, parseVarDecl self true),
    (.KeywordConst, parseConstDecl self m.isPrivate),
    (.KeywordType, parseTypeDecl self .KeywordType m.isPrivate),
    (.KeywordEnum, parseTypeDecl self .KeywordEnum m.isPrivate),
    (.KeywordUnion, parseTypeDecl self .KeywordUnion m.isPrivate),
    (.KeywordTrait, parseTraitDecl m.isPrivate),
    (.KeywordImpl, parseImplDecl self)]

def parseExpressionStmt : P ASTNode := do
  let expr ← self .expression
  return .expressionStmt expr

/-- A declaration behind its modifiers. -/
def parseModified (m : Modifiers) : P ASTNode := do
  let p ← get
  if p.tag = .Identifier ∧ p.text ∈ configWords then parseConfigDecl self
  else if isWord p "migrations" then parseMigration
  else if p.tag = .KeywordFn ∨ p.tag = .KeywordAsync then
    parseFunctionDecl self m.isPrivate m.isExtern m.isExport
  else
    match (declarationRules self m).find? (·.1 = p.tag) with
    | some rule =>
      advance
      rule.2
    | none => parseExpressionStmt self

def parseInvalid : P ASTNode := do
  let p ← get
  error ("Invalid character: " ++ p.text)
  advance
  return .empty

def parseDeclaration : P ASTNode := do
  let p ← get
  if p.tag = .EOF then return .empty
  else if p.tag = .Invalid then parseInvalid
  else
    let m ← parseModifiers
    parseModified self m

/-- A declaration that did not get past its first token is advanced over. -/
def recoveredDeclaration (before p : Parser) : Parser :=
  if p.currentToken.token.line = before.currentToken.token.line ∧
      p.currentToken.token.col = before.currentToken.token.col ∧ p.tag ≠ .EOF then
    advanceParser p
  else p

def parseProgram : P ASTNode := do
  let decls ← rounds (fun decls => do
    let before ← get
    if before.tag = .EOF then return .done decls
    else
      let decl ← parseDeclaration self
      modify (recoveredDeclaration before)
      return .again (decls ++ [decl])) []
  return .program decls

end

/-- The first token is read. -/
def initParser (source : Text) : Parser :=
  let dummy := ⟨⟨.EOF, [], 1, 1⟩, 0, 0⟩
  let lexer : SourceLexer :=
    ⟨source, source.length, source.length - (Lex.skipBom source).length, 1, 1⟩
  advanceParser ⟨lexer, dummy, dummy, [], 0, []⟩

/-- The tree of a source and the parser behind it, with at most so many calls inside each other. -/
def parseSource (calls : Nat) (source : Text) : Option (ASTNode × Parser) :=
  parseProgram (parse calls) (initParser source)

end Front
