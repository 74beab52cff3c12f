import Orbit.Lib.Decimal
import Orbit.Lib.Text

/-!
# JSON of the runtime

`runtime/json.c`: the object model, the reader `orbit_json_parse` and the writer
`orbit_object_to_json`. A byte is the character of its code. A cursor into a text that ends in NUL
is the rest of the text, without the NUL: the cursor at the NUL is `[]`, and there is no cursor
past it. A read or a move past the NUL is the stop `wild`.
-/

namespace Runtime.Json

open Lib.Decimal (isDigit digitsValue)
open Lib.Text (chars intToString)

abbrev Text := List Char

abbrev nul : Char := '\x00'

/-- Why the reader stops without a value. -/
inductive Stop where
  | fail (msg : String)
  /-- A byte past the terminating NUL. -/
  | wild
  /-- A loop that does not end. -/
  | spin
  deriving DecidableEq, Repr

/-! ## Objects -/

section
variable (F : Type)

mutual

/-- `OrbitValue`, with the kind as the constructor. -/
inductive OrbitValue where
  | null
  | int (i : BitVec 64)
  | float (f : F)
  | bool (b : Bool)
  | string (s : Text)
  | object (o : OrbitObject)
  | list (l : OrbitList)

/-- The keys and values of an object, in order. -/
inductive OrbitObject where
  | nil
  | cons (key : Text) (value : OrbitValue) (rest : OrbitObject)

/-- The elements of a list. Its element kind is theirs; an empty list has none. -/
inductive OrbitList where
  | nil
  | cons (value : OrbitValue) (rest : OrbitList)

end

end

variable {F : Type}

/-- A repeated key overwrites and keeps its position. -/
def orbitObjectSet : OrbitObject F → Text → OrbitValue F → OrbitObject F
  | .nil, key, v => .cons key v .nil
  | .cons k w rest, key, v =>
    if k = key then .cons k v rest else .cons k w (orbitObjectSet rest key v)

/-- The kind of a value, as a list records it. -/
inductive Kind where
  | null | int | float | bool | string | object | list
  deriving DecidableEq, Repr

def OrbitValue.kind : OrbitValue F → Kind
  | .null => .null
  | .int _ => .int
  | .float _ => .float
  | .bool _ => .bool
  | .string _ => .string
  | .object _ => .object
  | .list _ => .list

/-! ## Strings -/

/-- The byte at the cursor. -/
def cur (q : Text) : Char := q.headD nul

/-- The byte `k` places on. -/
def peek (q : Text) (k : Nat) : Except Stop Char :=
  if k ≤ q.length then .ok (q.getD k nul) else .error .wild

def advance (q : Text) (k : Nat) : Except Stop Text :=
  if k ≤ q.length then .ok (q.drop k) else .error .wild

def jsonWs : Text → Text
  | [] => []
  | c :: q => if c = ' ' ∨ c = '\t' ∨ c = '\n' ∨ c = '\r' then jsonWs q else c :: q

def jsonHexval (c : Char) : Option Nat :=
  if '0' ≤ c ∧ c ≤ '9' then some (c.toNat - '0'.toNat)
  else if 'a' ≤ c ∧ c ≤ 'f' then some (c.toNat - 'a'.toNat + 10)
  else if 'A' ≤ c ∧ c ≤ 'F' then some (c.toNat - 'A'.toNat + 10)
  else none

/-- One unit of four hexadecimal digits, `none` for `-1`. -/
def jsonUnicodeUnit (q : Text) (k : Nat) : Except Stop (Option Nat) := do
  let h0 := jsonHexval (← peek q k)
  let h1 := jsonHexval (← peek q (k + 1))
  let h2 := jsonHexval (← peek q (k + 2))
  let h3 := jsonHexval (← peek q (k + 3))
  match h0, h1, h2, h3 with
  | some h0, some h1, some h2, some h3 => return some (((h0 * 16 + h1) * 16 + h2) * 16 + h3)
  | _, _, _, _ => return none

def jsonUtf8Len (cp : Nat) : Nat :=
  if cp < 0x80 then 1 else if cp < 0x800 then 2 else if cp < 0x10000 then 3 else 4

def jsonUtf8Emit (cp : Nat) : Text :=
  if cp < 0x80 then [Char.ofNat cp]
  else if cp < 0x800 then [Char.ofNat (0xc0 + cp / 64), Char.ofNat (0x80 + cp % 64)]
  else if cp < 0x10000 then
    [Char.ofNat (0xe0 + cp / 4096), Char.ofNat (0x80 + cp / 64 % 64), Char.ofNat (0x80 + cp % 64)]
  else
    [Char.ofNat (0xf0 + cp / 262144), Char.ofNat (0x80 + cp / 4096 % 64),
      Char.ofNat (0x80 + cp / 64 % 64), Char.ofNat (0x80 + cp % 64)]

/-- The code point of two surrogates. -/
def surrogatePair (hi lo : Nat) : Nat := 0x10000 + (hi - 0xd800) * 1024 + (lo - 0xdc00)

/-- One of the four bytes from `k` on is the NUL; no byte after it is read. -/
def endsWithin (q : Text) (k : Nat) : Except Stop Bool := do
  if (← peek q k) = nul then return true
  if (← peek q (k + 1)) = nul then return true
  if (← peek q (k + 2)) = nul then return true
  return (← peek q (k + 3)) = nul

/-- What a letter after a backslash stands for. -/
def shortEscape (e : Char) : Option Char :=
  if e = '"' ∨ e = '\\' ∨ e = '/' then some e
  else if e = 'b' then some '\x08'
  else if e = 'f' then some '\x0c'
  else if e = 'n' then some '\n'
  else if e = 'r' then some '\r'
  else if e = 't' then some '\t'
  else none

section
-- how far the cursor goes on from the `u` of the escape of a code point
variable (stride : Nat → Except Stop Nat)

/-- An escape in the measuring pass: how many bytes it stands for and the cursor after it. The
cursor `q` is behind the backslash. -/
def jsonMeasureEscape (q : Text) : Except Stop (Nat × Text) := do
  if (shortEscape (cur q)).isSome then
    return (1, q.drop 1)
  else if cur q = 'u' then
    if ← endsWithin q 1 then throw (.fail "json: truncated unicode escape")
    match ← jsonUnicodeUnit q 1 with
    | none => throw (.fail "json: bad unicode escape")
    | some cp =>
      if 0xd800 ≤ cp ∧ cp ≤ 0xdbff then
        if (← peek q 5) ≠ '\\' then throw (.fail "json: lone surrogate")
        if (← peek q 6) ≠ 'u' then throw (.fail "json: lone surrogate")
        if ← endsWithin q 7 then throw (.fail "json: truncated unicode escape")
        match ← jsonUnicodeUnit q 7 with
        | none => throw (.fail "json: lone surrogate")
        | some lo =>
          if lo < 0xdc00 ∨ lo > 0xdfff then throw (.fail "json: lone surrogate")
          -- from the `u`: itself, four digits, a backslash, a `u` and four digits
          return (4, ← advance q 11)
      else if 0xdc00 ≤ cp ∧ cp ≤ 0xdfff then throw (.fail "json: lone surrogate")
      else return (jsonUtf8Len cp, ← advance q (← stride cp))
  else throw (.fail "json: bad escape")

/-- The measuring pass: the length of the decoded string and the cursor at its closing quote. -/
def jsonMeasure : Nat → Text → Except Stop (Nat × Text)
  | 0, _ => .error .spin
  | n + 1, q =>
    if cur q = nul ∨ cur q = '"' then .ok (0, q)
    else if (cur q).toNat < 0x20 then
      .error (.fail "json: unescaped control character in string")
    else if cur q ≠ '\\' then do
      let r ← jsonMeasure n (q.drop 1)
      return (1 + r.1, r.2)
    else do
      let e ← jsonMeasureEscape stride (q.drop 1)
      let r ← jsonMeasure n e.2
      return (e.1 + r.1, r.2)

/-- An escape in the decoding pass, from behind its backslash. -/
def jsonDecodeEscape (r : Text) : Except Stop (Text × Text) := do
  if cur r = 'u' then
    match ← jsonUnicodeUnit r 1 with
    | none => throw .wild
    | some cp =>
      if 0xd800 ≤ cp ∧ cp ≤ 0xdbff then
        match ← jsonUnicodeUnit r 7 with
        | none => throw .wild
        | some lo => return (jsonUtf8Emit (surrogatePair cp lo), ← advance r 11)
      else return (jsonUtf8Emit cp, ← advance r (← stride cp))
  else return ([(shortEscape (cur r)).getD (cur r)], ← advance r 1)

/-- The decoding pass, up to the cursor `q`. -/
def jsonDecode (q : Text) : Nat → Text → Except Stop Text
  | 0, _ => .error .spin
  | n + 1, r =>
    if r.length ≤ q.length then .ok []
    else if cur r ≠ '\\' then do
      let out ← jsonDecode q n (← advance r 1)
      return cur r :: out
    else do
      let e ← jsonDecodeEscape stride (r.drop 1)
      let out ← jsonDecode q n e.2
      return e.1 ++ out

/-- A string of C ends at its first NUL. -/
def cString (s : Text) : Text := s.takeWhile (· ≠ nul)

/-- The string at `p` (the opening quote), and the cursor after it. -/
def jsonParseString (p : Text) : Except Stop (Text × Text) := do
  let s := p.drop 1
  let m ← jsonMeasure stride (s.length + 1) s
  if cur m.2 ≠ '"' then throw (.fail "json: unterminated string")
  let out ← jsonDecode stride m.2 (s.length + 1) s
  return (cString out, m.2.drop 1)

end

/-! ## Numbers -/

/-- The floating-point numbers of C: `strtod` and `isfinite`. -/
structure Floats (F : Type) where
  strtod : Text → F
  isfinite : F → Bool

def skipDigits (s : Text) : Text := s.dropWhile isDigit

/-- `strtoll` in base 10, without its limits. -/
def decimalValue (copy : Text) : Int :=
  match copy with
  | '-' :: ds => -digitsValue ds
  | ds => digitsValue ds

def jsonIntegerPart (s : Text) : Except Stop Text :=
  if cur s = '0' then
    if isDigit (cur (s.drop 1)) then .error (.fail "json: leading zeros are not numbers")
    else .ok (s.drop 1)
  else if '1' ≤ cur s ∧ cur s ≤ '9' then .ok (skipDigits s)
  else .error (.fail "json: bad number")

/-- The fraction, and whether there is one. -/
def jsonFraction (s : Text) : Except Stop (Bool × Text) :=
  if cur s = '.' then
    if isDigit (cur (s.drop 1)) then .ok (true, skipDigits (s.drop 1))
    else .error (.fail "json: bad number")
  else .ok (false, s)

def jsonExponent (s : Text) : Except Stop (Bool × Text) :=
  if cur s = 'e' ∨ cur s = 'E' then
    let t := s.drop 1
    let t := if cur t = '+' ∨ cur t = '-' then t.drop 1 else t
    if isDigit (cur t) then .ok (true, skipDigits t) else .error (.fail "json: bad number")
  else .ok (false, s)

def jsonParseNumber (fl : Floats F) (start : Text) : Except Stop (OrbitValue F × Text) := do
  let s ← jsonIntegerPart (if cur start = '-' then start.drop 1 else start)
  let f ← jsonFraction s
  let e ← jsonExponent f.2
  let copy := start.take (start.length - e.2.length)
  if f.1 || e.1 then
    let d := fl.strtod copy
    if fl.isfinite d then return (.float d, e.2) else throw (.fail "json: float out of range")
  else
    let v := decimalValue copy
    if -9223372036854775808 ≤ v ∧ v ≤ 9223372036854775807 then
      return (.int (BitVec.ofInt 64 v), e.2)
    else throw (.fail "json: integer out of int64 range")

/-! ## Values -/

def jsonLit (p : Text) (word : Text) : Option Text :=
  if word.isPrefixOf p then some (p.drop word.length) else none

/-- A member of the document; a `null` is not stored. -/
def storeMember (o : OrbitObject F) (key : Text) : OrbitValue F → OrbitObject F
  | .null => o
  | v => orbitObjectSet o key v

section
variable (parseString : Text → Except Stop (Text × Text))
variable (parseValue : Text → Except Stop (OrbitValue F × Text))

/-- The members of an object, from a key on. -/
def jsonParseMembers : Nat → OrbitObject F → Text → Except Stop (OrbitObject F × Text)
  | 0, _, _ => .error .spin
  | n + 1, o, p => do
    if cur p ≠ '"' then throw (.fail "json: object keys must be strings")
    let k ← parseString p
    let p := jsonWs k.2
    if cur p ≠ ':' then throw (.fail "json: expected ':' after key")
    let v ← parseValue (jsonWs (p.drop 1))
    let o := storeMember o k.1 v.1
    let p := jsonWs v.2
    if cur p = ',' then jsonParseMembers n o (jsonWs (p.drop 1))
    else if cur p = '\x7d' then return (o, p.drop 1)
    else throw (.fail "json: expected ',' or '\x7d' in object")

/-- An object, from its brace on. -/
def jsonParseObject (p : Text) : Except Stop (OrbitObject F × Text) :=
  let p := jsonWs (p.drop 1)
  if cur p = '\x7d' then .ok (.nil, p.drop 1)
  else jsonParseMembers parseString parseValue (p.length + 1) .nil p

/-- The elements of an array; `firstKind` is the kind of the elements before. -/
def jsonParseElements : Nat → Option Kind → Text → Except Stop (OrbitList F × Text)
  | 0, _, _ => .error .spin
  | n + 1, firstKind, p => do
    let v ← parseValue p
    if v.1.kind = .null then throw (.fail "json: null array elements have no list slot")
    if v.1.kind = .list then throw (.fail "json: nested arrays have no indexed reader")
    if firstKind.isSome ∧ firstKind ≠ some v.1.kind then
      throw (.fail "json: heterogeneous arrays have no one element type")
    let p := jsonWs v.2
    if cur p = ',' then
      let r ← jsonParseElements n (some v.1.kind) (jsonWs (p.drop 1))
      return (.cons v.1 r.1, r.2)
    else if cur p = ']' then return (.cons v.1 .nil, p.drop 1)
    else throw (.fail "json: expected ',' or ']' in array")

/-- An array, from its bracket on. -/
def jsonParseArray (p : Text) : Except Stop (OrbitList F × Text) :=
  let p := jsonWs (p.drop 1)
  if cur p = ']' then .ok (.nil, p.drop 1)
  else jsonParseElements parseValue (p.length + 1) none p

end

section
variable (fl : Floats F) (parseString : Text → Except Stop (Text × Text))

/-- A value. `levels` is how many levels are left: 65 less the depth of the source. -/
def jsonParseValue : (levels : Nat) → Text → Except Stop (OrbitValue F × Text)
  | 0, _ => .error (.fail "json: nesting past 64 levels")
  | levels + 1, p => do
    let p := jsonWs p
    let c := cur p
    if c = '\x7b' then
      let r ← jsonParseObject parseString (jsonParseValue levels) p
      return (.object r.1, r.2)
    else if c = '[' then
      let r ← jsonParseArray (jsonParseValue levels) p
      return (.list r.1, r.2)
    else if c = '"' then
      let r ← parseString p
      return (.string r.1, r.2)
    else if c = 't' then
      match jsonLit p (chars "true") with
      | some p => return (.bool true, p)
      | none => throw (.fail "json: bad literal")
    else if c = 'f' then
      match jsonLit p (chars "false") with
      | some p => return (.bool false, p)
      | none => throw (.fail "json: bad literal")
    else if c = 'n' then
      match jsonLit p (chars "null") with
      | some p => return (.null, p)
      | none => throw (.fail "json: bad literal")
    else if c = '-' ∨ isDigit c then jsonParseNumber fl p
    else if c = nul then throw (.fail "json: unexpected end of input")
    else throw (.fail "json: unexpected character")

def ORBIT_JSON_MAX_DEPTH : Nat := 64

/-- The document in the text `t`. -/
def jsonDocument (t : Text) : Except Stop (OrbitObject F) := do
  let r ← jsonParseValue fl parseString (ORBIT_JSON_MAX_DEPTH + 1) t
  match r.1 with
  | .object o =>
    if cur (jsonWs r.2) ≠ nul then throw (.fail "json: trailing data after document")
    return o
  | _ => throw (.fail "json: top level must be an object")

end

/-- The scanners go on by six bytes after the `u` of an escape. -/
def jsonStride (_ : Nat) : Except Stop Nat := .ok 6

/-- The object that the bytes of `memory`, up to the first NUL, are the text of. -/
def orbitJsonParse (fl : Floats F) (memory : Text) : Except Stop (OrbitObject F) :=
  jsonDocument fl (jsonParseString jsonStride) (cString memory)

/-! ## Writing -/

/-- Two lower-case hexadecimal digits. -/
def hex2 (n : Nat) : Text :=
  [Nat.digitChar (n / 16), Nat.digitChar (n % 16)]

/-- How one byte of a string is written. -/
def jsonPutChar (c : Char) : Text :=
  if c = '"' ∨ c = '\\' then ['\\', c]
  else if c = '\n' then ['\\', 'n']
  else if c = '\r' then ['\\', 'r']
  else if c = '\t' then ['\\', 't']
  else if c.toNat < 0x20 then ['\\', 'u', '0', '0'] ++ hex2 c.toNat
  else [c]

def jsonPutString (s : Text) : Text := '"' :: ((cString s).flatMap jsonPutChar ++ ['"'])

section
-- what `%g` prints
variable (printFloat : F → Text)

mutual

def jsonPutValue : OrbitValue F → Text
  | .null => chars "null"
  | .bool b => if b then chars "true" else chars "false"
  | .int i => intToString i.toInt
  | .float f => printFloat f
  | .string s => jsonPutString s
  | .object o => '\x7b' :: (jsonPutMembers o ++ ['\x7d'])
  | .list l => '[' :: (jsonPutElements l ++ [']'])

/-- The members of an object, with commas between them. -/
def jsonPutMembers : OrbitObject F → Text
  | .nil => []
  | .cons k v .nil => jsonPutString k ++ ':' :: jsonPutValue v
  | .cons k v (.cons l w rest) =>
    jsonPutString k ++ ':' :: jsonPutValue v ++ ',' :: jsonPutMembers (.cons l w rest)

def jsonPutElements : OrbitList F → Text
  | .nil => []
  | .cons v .nil => jsonPutValue v
  | .cons v (.cons w rest) => jsonPutValue v ++ ',' :: jsonPutElements (.cons w rest)

end

def orbitObjectToJson (o : OrbitObject F) : Text := jsonPutValue printFloat (.object o)

end

end Runtime.Json
