import Orbit.Lib.Text

/-!
# The lexer

`compiler/front/lexer.orb`. A byte is the character of its code, and a source text holds no NUL; the
lexer keeps the text in front of it instead of an offset into the source.
-/

namespace Front.Lex

open Lib.Text (chars)

abbrev Text := List Char

/-- What `peek` returns at the end. -/
abbrev nul : Char := '\x00'

/-! ## Tokens -/

inductive TokType where
  | EOF | Invalid | Identifier | StringLiteral | IntegerLiteral | FloatLiteral | CharLiteral
  | RawStringLiteral | InterpStringLiteral
  | KeywordIf | KeywordElse | KeywordFor | KeywordIn | KeywordWhile | KeywordLoop | KeywordBreak
  | KeywordContinue | KeywordReturn | KeywordMatch | KeywordType | KeywordEnum | KeywordUnion
  | KeywordConst | KeywordVal | KeywordVar | KeywordMut | KeywordPrivate | KeywordExtern
  | KeywordEvery | KeywordFn | KeywordAsync | KeywordModel | KeywordRoute | KeywordGet | KeywordPost
  | KeywordPut | KeywordPatch | KeywordDelete | KeywordHead | KeywordOptions | KeywordErr | KeywordOk
  | KeywordWith | KeywordUse | KeywordImport | KeywordTrait | KeywordImpl | KeywordTry | KeywordCatch
  | Plus | Minus | Asterisk | Slash | Percent | PlusEqual | MinusEqual | StarEqual | SlashEqual
  | PercentEqual | Equal | DoubleEqual | NotEqual | Less | LessEqual | Greater | GreaterEqual
  | DoublePipe | Pipe | DoubleAmpersand | Ampersand | Bang | Arrow | FatArrow | At
  | OpenBrace | CloseBrace | OpenParen | CloseParen | OpenBracket | CloseBracket | Colon | Dot | Comma
  | SemiColon | Question | DotDot | ShiftLeft | ShiftRight | Caret | Tilde
  deriving DecidableEq, Repr

structure Token where
  tag : TokType
  text : Text
  line : Nat
  col : Nat
  deriving DecidableEq, Repr

/-! ## The cursor -/

/-- The text that is left, and the place where it stands. -/
structure Lexer where
  rest : Text
  line : Nat
  col : Nat
  deriving DecidableEq, Repr

def bom : Text := ['\xef', '\xbb', '\xbf']

/-- The text behind a byte order mark. -/
def skipBom (source : Text) : Text := if bom.isPrefixOf source then source.drop 3 else source

def initLexer (source : Text) : Lexer := ⟨skipBom source, 1, 1⟩

def Lexer.peek (l : Lexer) : Char := l.rest.headD nul
def Lexer.peekNext (l : Lexer) : Char := l.rest.tail.headD nul

def Lexer.advance (l : Lexer) : Lexer :=
  match l.rest with
  | [] => l
  | c :: t => if c = '\n' then ⟨t, l.line + 1, 1⟩ else ⟨t, l.line, l.col + 1⟩

/-- The text between two cursors. -/
def slice (l l' : Lexer) : Text := l.rest.take (l.rest.length - l'.rest.length)

/-- `advance` as long as the character has a property: no loop of this kind goes past the end. -/
def advanceWhile (p : Char → Bool) : Nat → Lexer → Lexer
  | 0, l => l
  | fuel + 1, l => if l.rest ≠ [] ∧ p l.peek then advanceWhile p fuel l.advance else l

def Lexer.skipWhile (l : Lexer) (p : Char → Bool) : Lexer := advanceWhile p l.rest.length l

/-! ## Characters -/

def isWhitespace (c : Char) : Bool := c = ' ' || c = '\t' || c = '\x0d' || c = '\n'
def isDigit (c : Char) : Bool := '0' ≤ c && c ≤ '9'
def isAlpha (c : Char) : Bool := ('A' ≤ c && c ≤ 'Z') || ('a' ≤ c && c ≤ 'z') || c = '_'
def isAlphaNumeric (c : Char) : Bool := isAlpha c || isDigit c

def isRadixDigit (c : Char) (radix : Nat) : Bool :=
  if isDigit c then
    if radix = 2 then c = '0' || c = '1'
    else if radix = 8 then '0' ≤ c && c ≤ '7'
    else true
  else if 'a' ≤ c && c ≤ 'f' then radix = 16
  else if 'A' ≤ c && c ≤ 'F' then radix = 16
  else false

/-! ## Comments -/

/-- The rest of a block comment that is open `depth` times. -/
def skipBlock : (fuel : Nat) → (depth : Nat) → Lexer → Lexer
  | 0, _, l => l
  | fuel + 1, depth, l =>
    if l.rest = [] ∨ depth = 0 then l
    else if l.peek = '/' ∧ l.peekNext = '*' then skipBlock fuel (depth + 1) l.advance.advance
    else if l.peek = '*' ∧ l.peekNext = '/' then skipBlock fuel (depth - 1) l.advance.advance
    else skipBlock fuel depth l.advance

def skipFrom : (fuel : Nat) → Lexer → Lexer
  | 0, l => l
  | fuel + 1, l =>
    if l.rest = [] then l
    else if isWhitespace l.peek then skipFrom fuel l.advance
    else if l.peek = '/' ∧ l.peekNext = '/' then
      skipFrom fuel (l.advance.advance.skipWhile (· ≠ '\n'))
    else if l.peek = '/' ∧ l.peekNext = '*' then
      skipFrom fuel (skipBlock l.rest.length 1 l.advance.advance)
    else l

def skipWhitespaceAndComments (l : Lexer) : Lexer := skipFrom l.rest.length l

/-! ## Words -/

/-- `matchKeyword` finds by length and first letter what stands here in one table. -/
def keywords : List (String × TokType) :=
  [("fn", .KeywordFn), ("if", .KeywordIf), ("in", .KeywordIn), ("ok", .KeywordOk),
    ("GET", .KeywordGet), ("PUT", .KeywordPut), ("err", .KeywordErr), ("val", .KeywordVal),
    ("var", .KeywordVar), ("mut", .KeywordMut), ("use", .KeywordUse), ("try", .KeywordTry),
    ("for", .KeywordFor), ("POST", .KeywordPost), ("HEAD", .KeywordHead), ("with", .KeywordWith),
    ("loop", .KeywordLoop), ("else", .KeywordElse), ("enum", .KeywordEnum), ("type", .KeywordType),
    ("impl", .KeywordImpl), ("model", .KeywordModel), ("match", .KeywordMatch),
    ("route", .KeywordRoute), ("PATCH", .KeywordPatch), ("async", .KeywordAsync),
    ("while", .KeywordWhile), ("break", .KeywordBreak), ("union", .KeywordUnion),
    ("trait", .KeywordTrait), ("every", .KeywordEvery), ("const", .KeywordConst),
    ("catch", .KeywordCatch), ("DELETE", .KeywordDelete), ("return", .KeywordReturn),
    ("import", .KeywordImport), ("extern", .KeywordExtern), ("OPTIONS", .KeywordOptions),
    ("private", .KeywordPrivate), ("continue", .KeywordContinue)]

def matchKeyword (text : Text) : TokType :=
  match keywords.find? fun k => chars k.1 = text with
  | some k => k.2
  | none => .Identifier

/-! ## Numbers -/

/-- The digits of a prefixed literal, and how many there are. -/
def radixDigits (radix : Nat) : (fuel : Nat) → Nat → Bool → Lexer → Nat × Lexer
  | 0, n, _, l => (n, l)
  | fuel + 1, n, afterSeparator, l =>
    if l.rest = [] then (n, l)
    else if isRadixDigit l.peek radix then radixDigits radix fuel (n + 1) false l.advance
    else if l.peek = '_' ∧ afterSeparator = false ∧ n > 0 then
      radixDigits radix fuel n true l.advance
    else (n, l)

def radixOf (c : Char) : Nat :=
  if c = 'x' ∨ c = 'X' then 16 else if c = 'b' ∨ c = 'B' then 2 else if c = 'o' ∨ c = 'O' then 8
  else 0

def decimalDigits : (fuel : Nat) → Bool → Lexer → Lexer
  | 0, _, l => l
  | fuel + 1, lastWasDigit, l =>
    if isDigit l.peek || l.peek = '_' && lastWasDigit then
      decimalDigits fuel (isDigit l.peek) l.advance
    else l

/-- The cursor behind an exponent, and whether the number is a float. -/
def scanExponent (isFloat : Bool) (l : Lexer) : Bool × Lexer :=
  if l.peek = 'e' ∨ l.peek = 'E' then
    let sign := if l.advance.peek = '+' ∨ l.advance.peek = '-' then l.advance.advance else l.advance
    let digits := sign.skipWhile isDigit
    -- the offset goes back to the mark, the column does not
    if digits.rest.length = sign.rest.length then (isFloat, { digits with rest := l.rest })
    else (true, digits)
  else (isFloat, l)

/-- The cursor behind a number whose first digit is read, and whether the number is a float. -/
def scanNumber (first : Char) (l : Lexer) : Bool × Lexer :=
  let (n, radixEnd) := radixDigits (radixOf l.peek) l.rest.length 0 false l.advance
  if first = '0' ∧ radixOf l.peek > 0 ∧ n > 0 then (false, radixEnd)
  else
    -- the letter of a prefix without digits stays read
    let l := if first = '0' ∧ radixOf l.peek > 0 then radixEnd else l
    let l := decimalDigits l.rest.length true l
    let (isFloat, l) :=
      if l.peek = '.' ∧ isDigit l.peekNext then (true, l.advance.skipWhile isDigit) else (false, l)
    scanExponent isFloat l

/-! ## Strings -/

/-- The rest of a string inside a hole. -/
def skipQuoted (quote : Char) : (fuel : Nat) → Lexer → Lexer
  | 0, l => l
  | fuel + 1, l =>
    if l.rest = [] then l
    else if l.peek = '\\' then skipQuoted quote fuel l.advance.advance
    else if l.peek = quote then l.advance
    else skipQuoted quote fuel l.advance

def skipHoleFrom : (fuel : Nat) → (depth : Nat) → Lexer → Lexer
  | 0, _, l => l
  | fuel + 1, depth, l =>
    if l.rest = [] then l
    else if l.peek = '"' ∨ l.peek = '\'' then
      skipHoleFrom fuel depth (skipQuoted l.peek l.rest.length l.advance)
    else if l.peek = '\x7b' then skipHoleFrom fuel (depth + 1) l.advance
    else if l.peek = '\x7d' then
      if depth = 0 then l.advance else skipHoleFrom fuel (depth - 1) l.advance
    else skipHoleFrom fuel depth l.advance

def skipInterpHole (l : Lexer) : Lexer := skipHoleFrom l.rest.length 0 l.advance.advance

/-- A string up to its closing quote, and whether it has a hole. -/
def scanString : (fuel : Nat) → (sawInterp : Bool) → Lexer → Bool × Lexer
  | 0, saw, l => (saw, l)
  | fuel + 1, saw, l =>
    if l.rest = [] ∨ l.peek = '"' then (saw, l)
    else
      let l := if l.peek = '\\' then l.advance else l
      if l.peek = '$' ∧ l.peekNext = '\x7b' then scanString fuel true (skipInterpHole l)
      else scanString fuel saw l.advance

/-- A triple-quoted string behind its opening quotes: whether it is closed, whether it has a hole, and
how long it is with the closing quotes. -/
def scanRaw : (fuel : Nat) → (sawInterp : Bool) → (n : Nat) → Text → Bool × Bool × Nat
  | 0, saw, n, t => (false, saw, n + t.length)
  | fuel + 1, saw, n, t =>
    if t.length ≤ 2 then (false, saw, n + t.length)
    else
      let saw := saw || ['$', '\x7b'].isPrefixOf t
      if ['"', '"', '"'].isPrefixOf t then (true, saw, n + 3)
      else scanRaw fuel saw (n + 1) t.tail

def Lexer.advanceBy : Nat → Lexer → Lexer
  | 0, l => l
  | n + 1, l => advanceBy n l.advance

/-- The tag of a string and the cursor behind it; the opening quote is read. -/
def lexString (l : Lexer) : TokType × Lexer :=
  if l.peek = '"' ∧ l.peekNext = '"' then
    let body := l.advance.advance
    let (closed, saw, n) := scanRaw body.rest.length false 0 body.rest
    (if closed then if saw then .InterpStringLiteral else .RawStringLiteral else .Invalid,
      Lexer.advanceBy n body)
  else
    let (saw, l) := scanString l.rest.length false l
    (if saw then .InterpStringLiteral else .StringLiteral, if l.peek = '"' then l.advance else l)

def isEscape (c : Char) : Bool :=
  c = 'n' || c = 't' || c = 'r' || c = '0' || c = '\\' || c = '\'' || c = '"'

/-- The cursor behind a character; the opening quote is read. -/
def lexChar (l : Lexer) : Lexer :=
  let l :=
    if l.peek = '\\' then if isEscape l.advance.peek then l.advance.advance else l.advance
    else if l.peek ≠ '\'' ∧ l.peek ≠ nul then l.advance else l
  if l.peek = '\'' then l.advance else l

/-! ## Operators -/

/-- The operators of two characters, and those of one. -/
def lexOperator (c d : Char) : TokType × Nat :=
  if c = '\x7b' then (.OpenBrace, 1)
  else if c = '\x7d' then (.CloseBrace, 1)
  else if c = '(' then (.OpenParen, 1)
  else if c = ')' then (.CloseParen, 1)
  else if c = '[' then (.OpenBracket, 1)
  else if c = ']' then (.CloseBracket, 1)
  else if c = ',' then (.Comma, 1)
  else if c = ':' then (.Colon, 1)
  else if c = '.' then if d = '.' then (.DotDot, 2) else (.Dot, 1)
  else if c = ';' then (.SemiColon, 1)
  else if c = '@' then (.At, 1)
  else if c = '?' then (.Question, 1)
  else if c = '+' then if d = '=' then (.PlusEqual, 2) else (.Plus, 1)
  else if c = '-' then
    if d = '>' then (.Arrow, 2) else if d = '=' then (.MinusEqual, 2) else (.Minus, 1)
  else if c = '*' then if d = '=' then (.StarEqual, 2) else (.Asterisk, 1)
  else if c = '/' then if d = '=' then (.SlashEqual, 2) else (.Slash, 1)
  else if c = '%' then if d = '=' then (.PercentEqual, 2) else (.Percent, 1)
  else if c = '=' then
    if d = '=' then (.DoubleEqual, 2) else if d = '>' then (.FatArrow, 2) else (.Equal, 1)
  else if c = '!' then if d = '=' then (.NotEqual, 2) else (.Bang, 1)
  else if c = '<' then
    if d = '=' then (.LessEqual, 2) else if d = '<' then (.ShiftLeft, 2) else (.Less, 1)
  else if c = '>' then
    if d = '=' then (.GreaterEqual, 2) else if d = '>' then (.ShiftRight, 2) else (.Greater, 1)
  else if c = '|' then if d = '|' then (.DoublePipe, 2) else (.Pipe, 1)
  else if c = '&' then if d = '&' then (.DoubleAmpersand, 2) else (.Ampersand, 1)
  else if c = '^' then (.Caret, 1)
  else if c = '~' then (.Tilde, 1)
  else (.Invalid, 1)

/-! ## The next token -/

/-- The tag of the token at the cursor, which starts with `c`, and the cursor behind it. -/
def lexToken (c : Char) (l : Lexer) : TokType × Lexer :=
  if isAlpha c then
    let l' := l.advance.skipWhile isAlphaNumeric
    (matchKeyword (slice l l'), l')
  else if isDigit c then
    let (isFloat, l') := scanNumber c l.advance
    (if isFloat then .FloatLiteral else .IntegerLiteral, l')
  else if c = '"' then lexString l.advance
  else if c = '\'' then (.CharLiteral, lexChar l.advance)
  else
    let (tag, n) := lexOperator c l.peekNext
    (tag, Lexer.advanceBy n l)

def nextToken (lexer : Lexer) : Token × Lexer :=
  let l := skipWhitespaceAndComments lexer
  if l.peek = nul then (⟨.EOF, [], l.line, l.col⟩, l.advance)
  else
    let (tag, l') := lexToken l.peek l
    (⟨tag, slice l l', l.line, l.col⟩, l')

end Front.Lex

/-!
# Kinds of tokens

`compiler/front/token.orb`, and the sets of tags that `compiler/front/parser.orb` decides by.
-/

namespace Front

open Front.Lex (TokType)

def tokTagName : TokType → String
  | .EOF => "EOF" | .Invalid => "Invalid" | .Identifier => "Identifier"
  | .StringLiteral => "StringLiteral" | .IntegerLiteral => "IntegerLiteral"
  | .FloatLiteral => "FloatLiteral" | .CharLiteral => "CharLiteral"
  | .RawStringLiteral => "RawStringLiteral" | .InterpStringLiteral => "InterpStringLiteral"
  | .KeywordIf => "KeywordIf" | .KeywordElse => "KeywordElse" | .KeywordFor => "KeywordFor"
  | .KeywordIn => "KeywordIn" | .KeywordWhile => "KeywordWhile" | .KeywordLoop => "KeywordLoop"
  | .KeywordBreak => "KeywordBreak" | .KeywordContinue => "KeywordContinue"
  | .KeywordReturn => "KeywordReturn" | .KeywordMatch => "KeywordMatch"
  | .KeywordType => "KeywordType" | .KeywordEnum => "KeywordEnum" | .KeywordUnion => "KeywordUnion"
  | .KeywordConst => "KeywordConst" | .KeywordVal => "KeywordVal" | .KeywordVar => "KeywordVar"
  | .KeywordMut => "KeywordMut" | .KeywordPrivate => "KeywordPrivate"
  | .KeywordExtern => "KeywordExtern" | .KeywordEvery => "KeywordEvery"
  | .KeywordAsync => "KeywordAsync" | .KeywordFn => "KeywordFn" | .KeywordModel => "KeywordModel"
  | .KeywordRoute => "KeywordRoute" | .KeywordGet => "KeywordGet" | .KeywordPost => "KeywordPost"
  | .KeywordPut => "KeywordPut" | .KeywordPatch => "KeywordPatch"
  | .KeywordDelete => "KeywordDelete" | .KeywordHead => "KeywordHead"
  | .KeywordOptions => "KeywordOptions" | .KeywordErr => "KeywordErr" | .KeywordOk => "KeywordOk"
  | .KeywordWith => "KeywordWith" | .KeywordUse => "KeywordUse" | .KeywordImport => "KeywordImport"
  | .KeywordTrait => "KeywordTrait" | .KeywordImpl => "KeywordImpl" | .KeywordTry => "KeywordTry"
  | .KeywordCatch => "KeywordCatch" | .Plus => "Plus" | .Minus => "Minus" | .Asterisk => "Asterisk"
  | .Slash => "Slash" | .Percent => "Percent" | .PlusEqual => "PlusEqual"
  | .MinusEqual => "MinusEqual" | .StarEqual => "StarEqual" | .SlashEqual => "SlashEqual"
  | .PercentEqual => "PercentEqual" | .Equal => "Equal" | .DoubleEqual => "DoubleEqual"
  | .NotEqual => "NotEqual" | .Less => "Less" | .LessEqual => "LessEqual" | .Greater => "Greater"
  | .GreaterEqual => "GreaterEqual" | .DoublePipe => "DoublePipe" | .Pipe => "Pipe"
  | .DoubleAmpersand => "DoubleAmpersand" | .Ampersand => "Ampersand" | .Bang => "Bang"
  | .Arrow => "Arrow" | .FatArrow => "FatArrow" | .At => "At" | .OpenBrace => "OpenBrace"
  | .CloseBrace => "CloseBrace" | .OpenParen => "OpenParen" | .CloseParen => "CloseParen"
  | .OpenBracket => "OpenBracket" | .CloseBracket => "CloseBracket" | .Colon => "Colon"
  | .Dot => "Dot" | .Comma => "Comma" | .SemiColon => "SemiColon" | .Question => "Question"
  | .DotDot => "DotDot" | .ShiftLeft => "ShiftLeft" | .ShiftRight => "ShiftRight"
  | .Caret => "Caret" | .Tilde => "Tilde"

def symbolTags : List TokType :=
  [.Plus, .Minus, .Asterisk, .Slash, .Percent, .PlusEqual, .MinusEqual, .StarEqual, .SlashEqual,
    .PercentEqual, .Equal, .DoubleEqual, .NotEqual, .Less, .LessEqual, .Greater, .GreaterEqual,
    .DoublePipe, .Pipe, .DoubleAmpersand, .Ampersand, .Bang, .Arrow, .FatArrow, .At, .OpenBrace,
    .CloseBrace, .OpenParen, .CloseParen, .OpenBracket, .CloseBracket, .Colon, .Dot, .Comma,
    .SemiColon, .Question, .DotDot, .ShiftLeft, .ShiftRight, .Caret, .Tilde]

def tokIsSymbol (tag : TokType) : Bool := decide (tag ∈ symbolTags)

/-! ## Sets of tags -/

def keywordTags : List TokType :=
  [.KeywordIf, .KeywordElse, .KeywordFor, .KeywordIn, .KeywordWhile, .KeywordLoop, .KeywordBreak,
    .KeywordContinue, .KeywordReturn, .KeywordMatch, .KeywordType, .KeywordEnum, .KeywordUnion,
    .KeywordConst, .KeywordVal, .KeywordVar, .KeywordMut, .KeywordPrivate, .KeywordExtern,
    .KeywordEvery, .KeywordAsync, .KeywordFn, .KeywordModel, .KeywordRoute, .KeywordGet,
    .KeywordPost, .KeywordPut, .KeywordPatch, .KeywordDelete, .KeywordHead, .KeywordOptions,
    .KeywordUse, .KeywordImport, .KeywordTrait, .KeywordImpl]

def isKeywordToken (tag : TokType) : Bool := decide (tag ∈ keywordTags)

/-- The tokens that can begin a branch of an `if`. -/
def branchTags : List TokType :=
  [.Identifier, .IntegerLiteral, .FloatLiteral, .StringLiteral, .RawStringLiteral,
    .InterpStringLiteral, .CharLiteral, .OpenParen, .OpenBracket, .OpenBrace, .Minus, .Bang,
    .KeywordIf, .KeywordMatch, .KeywordTry, .KeywordOk, .KeywordErr]

def canStartBranch (tag : TokType) : Bool := decide (tag ∈ branchTags)

/-- The tokens that can only begin a statement. -/
def statementTags : List TokType :=
  [.KeywordVal, .KeywordVar, .KeywordConst, .KeywordMut, .KeywordWhile, .KeywordFor, .KeywordLoop,
    .KeywordBreak, .KeywordContinue, .KeywordReturn, .KeywordIn, .KeywordFn, .KeywordAsync,
    .KeywordModel, .KeywordRoute, .KeywordEvery, .KeywordImport, .KeywordUse, .KeywordTrait,
    .KeywordImpl, .KeywordType, .KeywordEnum, .KeywordUnion, .KeywordPrivate, .KeywordExtern,
    .KeywordCatch]

def isStatementOnlyToken (tag : TokType) : Bool := decide (tag ∈ statementTags)

def httpMethodTags : List TokType :=
  [.KeywordGet, .KeywordPost, .KeywordPut, .KeywordPatch, .KeywordDelete, .KeywordHead,
    .KeywordOptions]

def isHttpMethodToken (tag : TokType) : Bool := decide (tag ∈ httpMethodTags)

def compoundTags : List TokType :=
  [.PlusEqual, .MinusEqual, .StarEqual, .SlashEqual, .PercentEqual]

def isCompoundAssign (tag : TokType) : Bool := decide (tag ∈ compoundTags)

/-- A bare name, a quoted one, or a word of the language. -/
def isObjectKeyStart (tag : TokType) : Bool :=
  tag = .StringLiteral || tag = .Identifier || isKeywordToken tag || tag = .KeywordOk ||
    tag = .KeywordErr

def isMemberName (tag : TokType) : Bool :=
  tag = .Identifier || isKeywordToken tag || tag = .KeywordOk || tag = .KeywordErr

def getPrecedence : TokType → Nat
  | .DoublePipe => 1
  | .DoubleAmpersand => 2
  | .Pipe => 3
  | .Caret => 4
  | .Ampersand => 5
  | .DoubleEqual | .NotEqual => 6
  | .Less | .LessEqual | .Greater | .GreaterEqual => 7
  | .ShiftLeft | .ShiftRight => 8
  | .Plus | .Minus => 9
  | .Asterisk | .Slash | .Percent => 10
  | _ => 0

end Front
