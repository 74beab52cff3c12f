import Orbit.Lib.Decimal

/-!
# Tokens of C

The preprocessing tokens of a C text, by maximal munch. The lexer is a machine that reads one
character at a time and holds the token it is in, so the tokens of a text put together from pieces
are those of the pieces, each read from the state the one before it left (`scan_append`). Comments,
character constants and universal names are not in the fragment: a text that has one has no tokens.
-/

namespace Lib.C

open Lib.Decimal

abbrev Text := List Char

/-- The punctuators, without digraphs and the ellipsis. -/
inductive Punct where
  | lbrack | rbrack | lpar | rpar | lbrace | rbrace | dot | arrow | plusPlus | minusMinus | amp
  | star | plus | minus | tilde | bang | slash | percent | shl | shr | lt | gt | le | ge | eqEq
  | bangEq | caret | bar | ampAmp | barBar | question | colon | semi | assign | starEq | slashEq
  | percentEq | plusEq | minusEq | shlEq | shrEq | ampEq | caretEq | barEq | comma | hash
  | hashHash
  deriving DecidableEq, Repr

inductive Tok where
  | ident (name : Text)
  | number (spelling : Text)
  | str (body : Text)
  | punct (p : Punct)
  deriving DecidableEq, Repr

/-- The token the lexer is in. -/
inductive Pending where
  | none
  | word (s : Text)
  | num (s : Text)
  | op (s : Text)
  | str (s : Text)
  | esc (s : Text)
  | bad
  deriving DecidableEq, Repr

def isIdentStart (c : Char) : Bool := ('a' ≤ c && c ≤ 'z') || ('A' ≤ c && c ≤ 'Z') || c == '_'
def isIdentChar (c : Char) : Bool := isIdentStart c || isDigit c

def punctuators : List (Text × Punct) :=
  [(['['], .lbrack), ([']'], .rbrack), (['('], .lpar), ([')'], .rpar), (['\x7b'], .lbrace),
    (['\x7d'], .rbrace), (['.'], .dot), (['-', '>'], .arrow), (['+', '+'], .plusPlus),
    (['-', '-'], .minusMinus), (['&'], .amp), (['*'], .star), (['+'], .plus), (['-'], .minus),
    (['~'], .tilde), (['!'], .bang), (['/'], .slash), (['%'], .percent), (['<', '<'], .shl),
    (['>', '>'], .shr), (['<'], .lt), (['>'], .gt), (['<', '='], .le), (['>', '='], .ge),
    (['=', '='], .eqEq), (['!', '='], .bangEq), (['^'], .caret), (['|'], .bar),
    (['&', '&'], .ampAmp), (['|', '|'], .barBar), (['?'], .question), ([':'], .colon),
    ([';'], .semi), (['='], .assign), (['*', '='], .starEq), (['/', '='], .slashEq),
    (['%', '='], .percentEq), (['+', '='], .plusEq), (['-', '='], .minusEq),
    (['<', '<', '='], .shlEq), (['>', '>', '='], .shrEq), (['&', '='], .ampEq),
    (['^', '='], .caretEq), (['|', '='], .barEq), ([','], .comma), (['#'], .hash),
    (['#', '#'], .hashHash)]

def punctOf (s : Text) : Option Punct := (punctuators.find? fun e => e.1 = s).map (·.2)

def start (c : Char) : Pending :=
  if c = ' ' ∨ c = '\n' ∨ c = '\t' then .none
  else if isDigit c then .num [c]
  else if isIdentStart c then .word [c]
  else if c = '"' then .str []
  else if (punctOf [c]).isSome then .op [c]
  else .bad

/-- Read one character: the token it ends, if it ends one, and the token it is in. -/
def step : Pending → Char → List Tok × Pending
  | .none, c => ([], start c)
  | .word s, c => if isIdentChar c then ([], .word (s ++ [c])) else ([.ident s], start c)
  | .num s, c =>
    if isIdentChar c || c == '.' then ([], .num (s ++ [c])) else ([.number s], start c)
  | .op s, c =>
    if (punctOf (s ++ [c])).isSome then ([], .op (s ++ [c]))
    else if s = ['/'] ∧ (c = '/' ∨ c = '*') then ([], .bad)
    else ((punctOf s).toList.map .punct, start c)
  | .str s, c =>
    if c = '"' then ([.str s], .none)
    else if c = '\\' then ([], .esc s)
    else if c = '\n' then ([], .bad)
    else ([], .str (s ++ [c]))
  | .esc s, c => ([], .str (s ++ ['\\', c]))
  | .bad, _ => ([], .bad)

theorem step_word (s : Text) (c : Char) :
    step (.word s) c =
      if isIdentChar c then ([], .word (s ++ [c])) else ([.ident s], start c) := rfl

theorem step_num (s : Text) (c : Char) :
    step (.num s) c =
      if isIdentChar c || c == '.' then ([], .num (s ++ [c])) else ([.number s], start c) := rfl

theorem step_op (s : Text) (c : Char) :
    step (.op s) c =
      if (punctOf (s ++ [c])).isSome then ([], .op (s ++ [c]))
      else if s = ['/'] ∧ (c = '/' ∨ c = '*') then ([], .bad)
      else ((punctOf s).toList.map .punct, start c) := rfl

/-- Read a text from a state on. -/
def scan (p : Pending) : Text → List Tok × Pending
  | [] => ([], p)
  | c :: t => ((step p c).1 ++ (scan (step p c).2 t).1, (scan (step p c).2 t).2)

theorem scan_nil (p : Pending) : scan p [] = ([], p) := rfl

theorem scan_cons (p : Pending) (c : Char) (t : Text) :
    scan p (c :: t) = ((step p c).1 ++ (scan (step p c).2 t).1, (scan (step p c).2 t).2) := rfl

/-- The token at the end of the text. -/
def finish : Pending → Option (List Tok)
  | .none => some []
  | .word s => some [.ident s]
  | .num s => some [.number s]
  | .op s => some ((punctOf s).toList.map .punct)
  | .str _ | .esc _ | .bad => Option.none

def lex (t : Text) : Option (List Tok) := (finish (scan .none t).2).map ((scan .none t).1 ++ ·)

theorem scan_append (p : Pending) (s t : Text) :
    scan p (s ++ t) = ((scan p s).1 ++ (scan (scan p s).2 t).1, (scan (scan p s).2 t).2) := by
  induction s generalizing p with
  | nil => rfl
  | cons c s ih => simp only [List.cons_append, scan_cons, ih, List.append_assoc]

/-- Within an identifier, identifier characters go on with it. -/
theorem scan_word {s w : Text} (hw : ∀ c ∈ w, isIdentChar c = true) :
    scan (.word s) w = ([], .word (s ++ w)) := by
  induction w generalizing s with
  | nil => simp [scan_nil]
  | cons c w ih =>
    have hc : isIdentChar c = true := hw c List.mem_cons_self
    rw [scan_cons, step_word, if_pos hc, ih fun d hd => hw d (List.mem_cons_of_mem c hd)]
    simp

theorem scan_num {s w : Text} (hw : ∀ c ∈ w, isIdentChar c = true) :
    scan (.num s) w = ([], .num (s ++ w)) := by
  induction w generalizing s with
  | nil => simp [scan_nil]
  | cons c w ih =>
    have hc : isIdentChar c = true := hw c List.mem_cons_self
    have hcond : (isIdentChar c || c == '.') = true := by rw [hc, Bool.true_or]
    rw [scan_cons, step_num, if_pos hcond, ih fun d hd => hw d (List.mem_cons_of_mem c hd)]
    simp

/-! ## Decimal numbers -/

theorem isIdentChar_of_mem_digits {c : Char} {n : Nat} (h : c ∈ Nat.toDigits 10 n) :
    isIdentChar c = true := by
  rw [isIdentChar, isDigit_of_mem_digits h, Bool.or_true]

end Lib.C
