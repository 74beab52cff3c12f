import Orbit.Lib.Decimal
import Orbit.Runtime.Http

/-!
# Header fields

What the header lines of a head say, as a reader of the whole list takes them: folded lines are one,
a name ends at the colon and compares in any letter case, blanks around a value do not count. On
this stand the two specifications of the scan of `orbit_http_parse_request_ex`: the codings that
name `chunked` (`NamesChunked`) and the length that the `Content-Length` values denote
(`strictLength`). Beside them is the length as the scan reads it, `lenientLength`.
-/

namespace Runtime.Http

open Lib.Decimal (isDigit digitsValue)

/-! ## Lines and fields -/

/-- The lines of a text that end in LF, without it; `line` is what was read of the line so far,
backwards. -/
def linesFrom : (line : Text) → Text → List Text
  | _, [] => []
  | line, c :: t =>
    if c = '\n' then line.reverse :: linesFrom [] t else linesFrom (c :: line) t

def headLines (head : Text) : List Text := linesFrom [] head

def isBlank (c : Char) : Bool := c = ' ' || c = '\t'

/-- The text without blanks around it. -/
def trim (t : Text) : Text := ((t.dropWhile isBlank).reverse.dropWhile isBlank).reverse

def dropCr (line : Text) : Text := if line.getLast? = some '\r' then line.dropLast else line

/-- A line that starts with a blank goes on with the one before. -/
def unfoldLines : List Text → List Text
  | [] => []
  | line :: rest =>
    match unfoldLines rest with
    | [] => [line]
    | next :: more =>
      if isBlank (next.headD nul) then (dropCr line ++ next) :: more else line :: next :: more

/-- The name of a field, up to the colon, and its value. -/
def fieldOf (line : Text) : Option (Text × Text) :=
  if ':' ∈ line then
    some (line.takeWhile (· ≠ ':'), trim (dropCr ((line.dropWhile (· ≠ ':')).drop 1)))
  else none

/-- `t` is `word`, which is in lower case, in any letter case. -/
def isCaseless (word : String) (t : Text) : Bool := t.map Char.toLower = word.toList

/-- The values of the fields of a name, the request line aside. -/
def fieldValues (name : String) (head : Text) : List Text :=
  ((unfoldLines (headLines head).tail).filterMap fieldOf).filterMap fun f =>
    if isCaseless name f.1 then some f.2 else none

/-! ## Transfer codings -/

/-- The codings of a list, without their parameters. -/
def codings (value : Text) : List Text :=
  (value.splitOn ',').map fun coding => trim (coding.takeWhile (· ≠ ';'))

/-- A `Transfer-Encoding` of the head lists the coding `chunked`. -/
def NamesChunked (head : Text) : Prop :=
  ∃ value ∈ fieldValues "transfer-encoding" head, ∃ coding ∈ codings value,
    isCaseless "chunked" coding = true

instance (head : Text) : Decidable (NamesChunked head) :=
  inferInstanceAs (Decidable (∃ value ∈ _, ∃ coding ∈ _, _))

/-- The line is a `Transfer-Encoding` whose value begins with `chunked`. -/
def beginsChunked (line : Text) : Bool :=
  line.length > 19 && startsCaseless "transfer-encoding:" line &&
    startsCaseless "chunked" ((line.drop 18).dropWhile isBlank)

/-! ## Lengths -/

/-- The largest length there is, `LLONG_MAX`. -/
def maxLength : Nat := 0x7FFFFFFFFFFFFFFF

/-- A plain string of decimal digits, in range. -/
def strictNumber (value : Text) : Option Nat :=
  if value ≠ [] ∧ value.all isDigit ∧ (digitsValue value).toNat ≤ maxLength then
    some (digitsValue value).toNat
  else none

/-- The one length of several readings: `none` when one of them is none or two differ, zero when
there is no reading. -/
def agreed : List (Option Nat) → Option Nat
  | [] => some 0
  | r :: rs => if rs.all (· = r) then r else none

/-- The body length that the `Content-Length` fields of the head denote. -/
def strictLength (head : Text) : Option Nat :=
  agreed ((fieldValues "content-length" head).map strictNumber)

/-- How the scan reads a length: past blanks and a plus, the digits up to any other character, and
at most the largest. -/
def lenientNumber (p : Text) : Option Nat :=
  let p := p.dropWhile isLengthBlank
  let ds := (if p.head? = some '+' then p.drop 1 else p).takeWhile isDigit
  if ds = [] then none else some (min (digitsValue ds).toNat maxLength)

/-- The scan takes the line for a `Content-Length`. -/
def isLengthLine (line : Text) : Bool :=
  line.length > 15 && startsCaseless "content-length:" line

/-- The texts that the scan takes for lengths, of the request line too. -/
def lengthTexts (head : Text) : List Text :=
  ((headLines head).filter isLengthLine).map (·.drop 15)

def lenientLength (head : Text) : Option Nat := agreed ((lengthTexts head).map lenientNumber)

section
variable (lim : OrbitHttpLimits) (raw : Text)

/-- The request is refused before its lengths are looked at. -/
def RefusedBefore (e : Nat) : Prop :=
  lineTooLong lim raw = true ∨ headersTooLarge lim raw = true ∨
    ∃ line ∈ headLines (raw.take (e + 4)), beginsChunked line = true

instance (e : Nat) : Decidable (RefusedBefore lim raw e) :=
  inferInstanceAs (Decidable (_ ∨ _ ∨ ∃ line ∈ _, _))

/-- The answer on a head that ends at `e` and denotes the length. -/
def answerOf (e : Nat) : Option Nat → Head
  | none => .refuse .length
  | some n =>
    if n > lim.maxBody then .refuse .body
    else if raw.length < e + 4 + n then .more
    else .complete e n

end

/-- A text is not read, or two are read differently. -/
def Spoiled (number : Text → Option Nat) (ts : List Text) : Prop :=
  (∃ t ∈ ts, number t = none) ∨ ∃ t ∈ ts, ∃ u ∈ ts, number t ≠ number u

/-- All texts are read as `n`, which is zero when there is none. -/
def AllRead (number : Text → Option Nat) (ts : List Text) (n : Nat) : Prop :=
  (ts = [] → n = 0) ∧ ∀ t ∈ ts, number t = some n

/-- A field is malformed or two differ, and a line that the scan takes for a length has no digits
or two differ; or the fields denote one number and the lines are read as one, and these are the
same or both over the limit. -/
def SameLength (lim : OrbitHttpLimits) (head : Text) : Prop :=
  (Spoiled strictNumber (fieldValues "content-length" head) ∧
      Spoiled lenientNumber (lengthTexts head)) ∨
    ∃ n m, AllRead strictNumber (fieldValues "content-length" head) n ∧
      AllRead lenientNumber (lengthTexts head) m ∧ (m = n ∨ lim.maxBody < n ∧ lim.maxBody < m)

/-- No line of the head is folded, the request line is not taken for a length, and no line ends
behind the colon of `content-length:`. -/
structure Unfolded (head : Text) : Prop where
  starts : ∀ line ∈ headLines head, isBlank (line.headD nul) = false
  request : ∀ line ∈ (headLines head).head?, isLengthLine line = false
  goesOn : ∀ line ∈ (headLines head).tail,
    startsCaseless "content-length:" line = true → 15 < line.length

end Runtime.Http
