import Orbit.Lib.C.Lex

/-!
# Expressions and statements of C

A recursive-descent parser for the integer expressions of C11 (6.5) over a set of type names, and
for the statements that assign to a variable, place a label or jump. `parseBin` climbs the
precedences. The fuel bounds the nesting, as a compiler's translation limits do (5.2.4.1).
-/

namespace Lib.C

inductive Ty where
  | bool | i32 | i64 | u64
  deriving DecidableEq, Repr

inductive Un where
  | neg | not | bnot
  deriving DecidableEq, Repr

inductive Bin where
  | mul | div | mod | add | sub | shl | shr | lt | le | gt | ge | eq | ne | band | bxor | bor
  | land | lor
  deriving DecidableEq, Repr

mutual

inductive Expr where
  | num (spelling : Text)
  | str (body : Text)
  | var (name : Text)
  | cast (ty : Ty) (e : Expr)
  | un (op : Un) (e : Expr)
  | preInc (e : Expr)
  | preDec (e : Expr)
  | bin (op : Bin) (a b : Expr)
  | call (f : Text) (args : Args)

inductive Args where
  | nil
  | cons (e : Expr) (es : Args)

end

inductive Stmt where
  | empty
  | assign (x : Text) (e : Expr)
  | label (l : Text)
  | goto (l : Text)
  | ifGoto (e : Expr) (l : Text)

/-- A binary operator and its precedence. -/
def binOf : Punct → Option (Bin × Nat)
  | .star => some (.mul, 10)
  | .slash => some (.div, 10)
  | .percent => some (.mod, 10)
  | .plus => some (.add, 9)
  | .minus => some (.sub, 9)
  | .shl => some (.shl, 8)
  | .shr => some (.shr, 8)
  | .lt => some (.lt, 7)
  | .le => some (.le, 7)
  | .gt => some (.gt, 7)
  | .ge => some (.ge, 7)
  | .eqEq => some (.eq, 6)
  | .bangEq => some (.ne, 6)
  | .amp => some (.band, 5)
  | .caret => some (.bxor, 4)
  | .bar => some (.bor, 3)
  | .ampAmp => some (.land, 2)
  | .barBar => some (.lor, 1)
  | _ => none

section
variable (types : Text → Option Ty)

mutual

/-- A cast expression. -/
def parseCast : Nat → List Tok → Option (Expr × List Tok)
  | 0, _ => none
  | n + 1, .punct .lpar :: .ident t :: .punct .rpar :: rest =>
    match types t with
    | some ty => (parseCast n rest).map fun r => (.cast ty r.1, r.2)
    | none => parsePrimary n (.punct .lpar :: .ident t :: .punct .rpar :: rest)
  | n + 1, .punct .minus :: rest => (parseCast n rest).map fun r => (.un .neg r.1, r.2)
  | n + 1, .punct .bang :: rest => (parseCast n rest).map fun r => (.un .not r.1, r.2)
  | n + 1, .punct .tilde :: rest => (parseCast n rest).map fun r => (.un .bnot r.1, r.2)
  | n + 1, .punct .plusPlus :: rest => (parseCast n rest).map fun r => (.preInc r.1, r.2)
  | n + 1, .punct .minusMinus :: rest => (parseCast n rest).map fun r => (.preDec r.1, r.2)
  | n + 1, ts => parsePrimary n ts

/-- A constant, a variable, a call or an expression in parentheses. -/
def parsePrimary : Nat → List Tok → Option (Expr × List Tok)
  | 0, _ => none
  | _ + 1, .number s :: rest => some (.num s, rest)
  | _ + 1, .str s :: rest => some (.str s, rest)
  | n + 1, .ident f :: .punct .lpar :: rest =>
    (parseArgs n rest).map fun r => (.call f r.1, r.2)
  | _ + 1, .ident x :: rest => some (.var x, rest)
  | n + 1, .punct .lpar :: rest =>
    match parseBin n 0 rest with
    | some (e, .punct .rpar :: rest) => some (e, rest)
    | _ => none
  | _ + 1, _ => none

/-- A binary expression whose operators bind at least as tight as `least`. -/
def parseBin : Nat → Nat → List Tok → Option (Expr × List Tok)
  | 0, _, _ => none
  | n + 1, least, ts =>
    match parseCast n ts with
    | some (e, rest) => parseRest n least e rest
    | none => none

/-- The operators and operands after the operand `a`. -/
def parseRest : Nat → Nat → Expr → List Tok → Option (Expr × List Tok)
  | 0, _, _, _ => none
  | n + 1, least, a, .punct p :: rest =>
    match binOf p with
    | none => some (a, .punct p :: rest)
    | some (op, prec) =>
      if prec < least then some (a, .punct p :: rest)
      else match parseBin n (prec + 1) rest with
        | some (b, rest) => parseRest n least (.bin op a b) rest
        | none => none
  | _ + 1, _, a, ts => some (a, ts)

def parseArgs : Nat → List Tok → Option (Args × List Tok)
  | 0, _ => none
  | _ + 1, .punct .rpar :: rest => some (.nil, rest)
  | n + 1, ts =>
    match parseBin n 0 ts with
    | some (e, .punct .comma :: rest) => (parseArgs n rest).map fun r => (.cons e r.1, r.2)
    | some (e, .punct .rpar :: rest) => some (.cons e .nil, rest)
    | _ => none

end

attribute [simp] parseCast parsePrimary parseBin parseRest parseArgs

/-- The nesting a statement may have. -/
def depth : Nat := 100

def gotoWord : Text := ['g', 'o', 't', 'o']
def ifWord : Text := ['i', 'f']

/-- At most one statement. -/
def parseStmt : List Tok → Option Stmt
  | [] => some .empty
  | [.ident g, .ident l, .punct .semi] => if g = gotoWord then some (.goto l) else none
  | [.ident l, .punct .colon, .punct .semi] => some (.label l)
  | .ident x :: .punct .assign :: rest =>
    match parseBin types depth 0 rest with
    | some (e, [.punct .semi]) => some (.assign x e)
    | _ => none
  | .ident k :: .punct .lpar :: rest =>
    if k = ifWord then
      match parseBin types depth 0 rest with
      | some (e, [.punct .rpar, .ident g, .ident l, .punct .semi]) =>
        if g = gotoWord then some (.ifGoto e l) else none
      | _ => none
    else none
  | _ => none

/-- The statement a text is. -/
def parse (t : Text) : Option Stmt := (lex t).bind (parseStmt types)

end

end Lib.C
