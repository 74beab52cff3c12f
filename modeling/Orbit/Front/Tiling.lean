import Mathlib.Logic.Relation
import Orbit.Front.Lexer

/-!
# The places of tokens

The offset and the length of each token of a source (`lexPlaced`), and what it is for the tokens to
tile the source (`Tiled`). Places are counted from behind a byte order mark, as `initLexer` does.
-/

namespace Front.Lex

/-! ## Tokens with their offsets -/

/-- A token with the rest of its record. -/
structure Placed where
  token : Token
  start : Nat
  length : Nat
  deriving DecidableEq, Repr

/-- `nextToken`; an offset is what the text in front of the cursor leaves of the source. -/
def nextPlaced (source : Text) (lexer : Lexer) : Placed × Lexer :=
  let l := skipWhitespaceAndComments lexer
  let (token, l') := nextToken lexer
  (⟨token, source.length - l.rest.length, l.rest.length - l'.rest.length⟩, l')

/-- The tokens up to the end of the source, unless the calls run out. -/
def lexPlaced (source : Text) : (calls : Nat) → Lexer → Option (List Placed)
  | 0, _ => none
  | calls + 1, l =>
    let (p, l') := nextPlaced source l
    if p.token.tag = .EOF then some [p] else (lexPlaced source calls l').map (p :: ·)

/-- The lexer goes from one state to the next. -/
def LexStep (l l' : Lexer) : Prop := (nextToken l).1.tag ≠ .EOF ∧ l' = (nextToken l).2

/-- The states of a run on the source. -/
def Lexes (source : Text) : Lexer → Prop := Relation.ReflTransGen LexStep (initLexer source)

/-! ## Gaps -/

/-- The rest of a block comment that is open `depth` times, and the text behind it: comments nest,
and the end of the text ends them. -/
inductive BlockBody : (depth : Nat) → (body after : Text) → Prop
  | closed {after} : BlockBody 0 [] after
  | atEnd {depth} : BlockBody (depth + 1) [] []
  | opens {depth body after} : BlockBody (depth + 2) body after →
      BlockBody (depth + 1) ('/' :: '*' :: body) after
  | closes {depth body after} : BlockBody depth body after →
      BlockBody (depth + 1) ('*' :: '/' :: body) after
  | other {depth c body after} : ¬ ['/', '*'] <+: c :: (body ++ after) →
      ¬ ['*', '/'] <+: c :: (body ++ after) → BlockBody (depth + 1) body after →
      BlockBody (depth + 1) (c :: body) after

/-- White space and comments, and the text behind them. -/
inductive Gap : (gap after : Text) → Prop
  | nil {after} : Gap [] after
  | space {c gap after} : isWhitespace c = true → Gap gap after → Gap (c :: gap) after
  | line {body gap after} : '\n' ∉ body → (∀ c ∈ (gap ++ after).head?, c = '\n') →
      Gap gap after → Gap ('/' :: '/' :: (body ++ gap)) after
  | block {body gap after} : BlockBody 1 body (gap ++ after) → Gap gap after →
      Gap ('/' :: '*' :: (body ++ gap)) after

/-! ## Tilings -/

def lineOf (before : Text) : Nat := before.count '\n' + 1
def colOf (before : Text) : Nat := (before.reverse.takeWhile (· ≠ '\n')).length + 1

/-- The source up to an offset, without the byte order mark. -/
def textBefore (source : Text) (start : Nat) : Text :=
  (source.take start).drop (source.length - (skipBom source).length)

def Placed.stop (p : Placed) : Nat := p.start + p.length

/-- The place of a token is that of its offset. -/
def Placed.Right (source : Text) (p : Placed) : Prop :=
  p.token.line = lineOf (textBefore source p.start) ∧
    p.token.col = colOf (textBefore source p.start)

/-- **The tokens tile the source.** -/
structure Tiled (source : Text) (toks : List Placed) : Prop where
  inside : ∀ p ∈ toks, p.stop ≤ source.length
  text : ∀ p ∈ toks, p.token.text = (source.drop p.start).take p.length
  increasing : toks.Pairwise fun p q => p.start < q.start ∧ p.stop ≤ q.start
  gaps : toks.IsChain fun p q =>
    Gap ((source.drop p.stop).take (q.start - p.stop)) (source.drop q.start)
  place : ∀ p ∈ toks, p.Right source

/-! ## Exponents -/

/-- The cursor behind a number at which its exponent is looked for: nowhere when the number has a
prefix. -/
def mantissa (first : Char) (l : Lexer) : Option Lexer :=
  let (n, radixEnd) := radixDigits (radixOf l.peek) l.rest.length 0 false l.advance
  if first = '0' ∧ radixOf l.peek > 0 ∧ n > 0 then none
  else
    let l := if first = '0' ∧ radixOf l.peek > 0 then radixEnd else l
    let l := decimalDigits l.rest.length true l
    some (if l.peek = '.' ∧ isDigit l.peekNext then l.advance.skipWhile isDigit else l)

/-- The cursor behind the letter of an exponent and its sign. -/
def exponentDigits (l : Lexer) : Lexer :=
  if l.advance.peek = '+' ∨ l.advance.peek = '-' then l.advance.advance else l.advance

/-- The next token is a number, and the letter of an exponent without digits follows it. -/
def Dangling (l : Lexer) : Prop :=
  let k := skipWhitespaceAndComments l
  isDigit k.peek = true ∧ ∃ m, mantissa k.peek k.advance = some m ∧
    (m.peek = 'e' ∨ m.peek = 'E') ∧ isDigit (exponentDigits m).peek = false

end Front.Lex
