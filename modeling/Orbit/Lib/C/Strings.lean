import Orbit.Lib.C.Lex

/-!
# String literals of C

The characters that the body of a string literal stands for (`bodyChars`). A body is read by a
machine, like a text into tokens: an octal escape takes up to three digits, a hexadecimal one takes
all that follow (`bodyChars_hex`), and a number that no character has is an error. Universal names
and trigraphs are not in the fragment.
-/

namespace Lib.C

open Lib.Decimal

def isHexDigit (c : Char) : Bool :=
  isDigit c || ('a' ≤ c && c ≤ 'f') || ('A' ≤ c && c ≤ 'F')

def hexValue (c : Char) : Nat :=
  if isDigit c then c.toNat - 48 else if 'a' ≤ c then c.toNat - 87 else c.toNat - 55

def isOctDigit (c : Char) : Bool := '0' ≤ c && c ≤ '7'

def simpleEscape (c : Char) : Option Char :=
  if c = '\'' ∨ c = '"' ∨ c = '?' ∨ c = '\\' then some c
  else if c = 'a' then some '\x07'
  else if c = 'b' then some '\x08'
  else if c = 'f' then some '\x0c'
  else if c = 'n' then some '\n'
  else if c = 'r' then some '\r'
  else if c = 't' then some '\t'
  else if c = 'v' then some '\x0b'
  else none

/-- The character of a numeric escape. -/
def charOfCode (n : Nat) : Option Char := if n < 256 then some (Char.ofNat n) else none

/-- What of the body is open. -/
inductive Escape where
  | none
  | backslash
  /-- An octal escape, and how many digits it may still take. -/
  | oct (n left : Nat)
  /-- Behind `\x`. -/
  | hexMark
  | hex (n : Nat)
  deriving DecidableEq, Repr

/-- A character outside escapes. -/
def plain (c : Char) : Option (Text × Escape) :=
  if c = '\\' then some ([], .backslash)
  else if c = '"' ∨ c = '\n' then none
  else some ([c], .none)

/-- Read one character: the characters it completes and what is then open. -/
def bodyStep : Escape → Char → Option (Text × Escape)
  | .none, c => plain c
  | .backslash, c =>
    if c = 'x' then some ([], .hexMark)
    else if isOctDigit c then some ([], .oct (hexValue c) 2)
    else (simpleEscape c).map fun x => ([x], .none)
  | .oct n left, c =>
    if isOctDigit c && left != 0 then some ([], .oct (8 * n + hexValue c) (left - 1))
    else (charOfCode n).bind fun x => (plain c).map fun r => (x :: r.1, r.2)
  | .hexMark, c => if isHexDigit c then some ([], .hex (hexValue c)) else none
  | .hex n, c =>
    if isHexDigit c then some ([], .hex (16 * n + hexValue c))
    else (charOfCode n).bind fun x => (plain c).map fun r => (x :: r.1, r.2)

def bodyEnd : Escape → Option Text
  | .none => some []
  | .oct n _ | .hex n => (charOfCode n).map fun x => [x]
  | .backslash | .hexMark => none

def readBody (e : Escape) : Text → Option Text
  | [] => bodyEnd e
  | c :: t => (bodyStep e c).bind fun r => (readBody r.2 t).map (r.1 ++ ·)

theorem readBody_nil (e : Escape) : readBody e [] = bodyEnd e := rfl

theorem readBody_cons (e : Escape) (c : Char) (t : Text) :
    readBody e (c :: t) = (bodyStep e c).bind fun r => (readBody r.2 t).map (r.1 ++ ·) := rfl

/-- The characters that the body of a string literal stands for. -/
def bodyChars (body : Text) : Option Text := readBody .none body

theorem bodyChars_eq (body : Text) : bodyChars body = readBody .none body := rfl

theorem bodyStep_hex (n : Nat) (c : Char) :
    bodyStep (.hex n) c = if isHexDigit c then some ([], .hex (16 * n + hexValue c))
      else (charOfCode n).bind fun x => (plain c).map fun r => (x :: r.1, r.2) := rfl

/-- The characters of a text that is one string literal. -/
def literalChars (t : Text) : Option Text :=
  match lex t with
  | some [.str body] => bodyChars body
  | _ => none

/-! ## The characters of a body -/

@[simp] theorem bodyChars_nil : bodyChars [] = some [] := rfl

theorem bodyChars_plain {c : Char} (h : c ≠ '\\' ∧ c ≠ '"' ∧ c ≠ '\n') (t : Text) :
    bodyChars (c :: t) = (bodyChars t).map (c :: ·) := by
  have hc : plain c = some ([c], .none) := by
    rw [plain, if_neg h.1, if_neg (not_or.mpr h.2)]
  have hnone : bodyStep .none c = plain c := rfl
  rw [bodyChars_eq, readBody_cons, hnone, hc]
  rfl

theorem bodyChars_simple {c d : Char} (hx : c ≠ 'x') (ho : isOctDigit c = false)
    (h : simpleEscape c = some d) (t : Text) :
    bodyChars ('\\' :: c :: t) = (bodyChars t).map (d :: ·) := by
  have hback : bodyStep .none '\\' = some ([], .backslash) := rfl
  have hc : bodyStep .backslash c = some ([d], .none) := by
    rw [bodyStep, if_neg hx, if_neg (by simp [ho]), h]
    rfl
  rw [bodyChars_eq, readBody_cons, hback, Option.bind_some, readBody_cons, hc, Option.bind_some,
    bodyChars_eq]
  cases readBody .none t <;> rfl

/-- A number that no character has gets larger with each digit. -/
theorem readBody_hex_large {n : Nat} (hn : 256 ≤ n) (t : Text) : readBody (.hex n) t = none := by
  have hcode : ∀ m, 256 ≤ m → charOfCode m = none := fun m hm => if_neg (Nat.not_lt.mpr hm)
  induction t generalizing n with
  | nil => rw [readBody_nil, bodyEnd, hcode n hn, Option.map_none]
  | cons c t ih =>
    rw [readBody_cons, bodyStep_hex]
    split_ifs
    · rw [Option.bind_some, ih (by omega), Option.map_none]
    · rw [hcode n hn, Option.bind_none, Option.bind_none]

/-- A hexadecimal escape of two digits, when a third follows. -/
theorem readBody_hex_digit {n : Nat} {c : Char} (hn : 16 ≤ n) (hc : isHexDigit c = true) (t : Text) :
    readBody (.hex n) (c :: t) = none := by
  have hstep : bodyStep (.hex n) c = some ([], .hex (16 * n + hexValue c)) := if_pos hc
  rw [readBody_cons, hstep, Option.bind_some, readBody_hex_large (by omega), Option.map_none]

/-- A hexadecimal escape ends before a character that is no digit. -/
theorem readBody_hex_end {n : Nat} {x : Char} (hx : charOfCode n = some x) {t : Text}
    (ht : ∀ c, t.head? = some c → isHexDigit c = false) :
    readBody (.hex n) t = (bodyChars t).map (x :: ·) := by
  cases t with
  | nil => rw [readBody_nil, bodyEnd, hx]; rfl
  | cons c t =>
    have hc : isHexDigit c = false := ht c rfl
    have hstep : bodyStep (.hex n) c = (plain c).map fun r => (x :: r.1, r.2) := by
      rw [bodyStep_hex, if_neg (by simp [hc]), hx, Option.bind_some]
    have hnone : bodyStep .none c = plain c := rfl
    rw [readBody_cons, hstep, bodyChars_eq, readBody_cons, hnone]
    cases plain c with
    | none => rfl
    | some r =>
      simp only [Option.map_some, Option.bind_some]
      cases readBody r.2 t <;> rfl

/-- A hexadecimal escape of two digits takes all the digits that follow, so it has a character
only when none does. -/
theorem bodyChars_hex {a b x : Char} (ha : isHexDigit a = true) (hb : isHexDigit b = true)
    (hone : 1 ≤ hexValue a) (hx : charOfCode (16 * hexValue a + hexValue b) = some x) (t : Text) :
    bodyChars ('\\' :: 'x' :: a :: b :: t) =
      if t.head?.any isHexDigit then none else (bodyChars t).map (x :: ·) := by
  have hread : bodyChars ('\\' :: 'x' :: a :: b :: t) =
      readBody (.hex (16 * hexValue a + hexValue b)) t := by
    have h1 : bodyStep .none '\\' = some ([], .backslash) := rfl
    have h2 : bodyStep .backslash 'x' = some ([], .hexMark) := rfl
    have h3 : bodyStep .hexMark a = some ([], .hex (hexValue a)) := if_pos ha
    have h4 : bodyStep (.hex (hexValue a)) b = some ([], .hex (16 * hexValue a + hexValue b)) :=
      if_pos hb
    rw [bodyChars_eq, readBody_cons, h1, Option.bind_some, readBody_cons, h2, Option.bind_some,
      readBody_cons, h3, Option.bind_some, readBody_cons, h4, Option.bind_some]
    simp
  rw [hread]
  cases t with
  | nil => exact readBody_hex_end hx (by simp)
  | cons c t =>
    rw [List.head?_cons, Option.any_some]
    split_ifs with hc
    · exact readBody_hex_digit (by omega) hc t
    · refine readBody_hex_end hx fun d hd => ?_
      obtain rfl : c = d := by simpa using hd
      simpa using hc

/-- A literal is its body in quotes. -/
theorem literalChars_quote {body : Text} (h : scan (.str []) body = ([], .str body)) :
    literalChars ('"' :: (body ++ ['"'])) = bodyChars body := by
  have hlex : lex ('"' :: (body ++ ['"'])) = some [.str body] := by
    have hquote : step .none '"' = ([], .str []) := by decide
    rw [lex, scan, hquote, scan_append, h]
    rfl
  rw [literalChars, hlex]

end Lib.C
