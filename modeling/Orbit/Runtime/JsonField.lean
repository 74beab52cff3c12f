import Orbit.Lib.JsonText
import Orbit.Runtime.JsonGrammar

/-!
# Members found by searching the text

`orbit_json_get_value` of `runtime/database.c`, by which rows are inserted and updated, and
`orbit_json_field` of `runtime/builtins.c`: both look for the quoted name in the text of a document.
A text is a C string: it holds no NUL. Allocations do not fail.
-/

namespace Runtime.JsonField

open Json (Text jsonWs shortEscape OrbitValue OrbitObject orbitObjectGet Written objectOf Ws
  IsWritten ORBIT_JSON_MAX_DEPTH)
open Lib.JsonText (Member lastNamed unicodeFree)
open Lib.Text (intToString)

/-! ## Searching -/

/-- The text from the first place at which `pat` stands. -/
def strstr (pat : Text) : Text → Option Text
  | [] => if pat = [] then some [] else none
  | c :: t => if pat.isPrefixOf (c :: t) then some (c :: t) else strstr pat t

/-- The text behind the first place at which `pat` stands. -/
def behind (json pat : Text) : Option Text := (strstr pat json).map (·.drop pat.length)

/-! ## The columns of a row -/

def quoted (name : Text) : Text := '"' :: (name ++ ['"'])

/-- The text from the value on that is taken for the one of the name. -/
def valuePlace (json key : Text) : Option Text :=
  match behind json (quoted key) with
  | none => none
  | some pos =>
    match jsonWs pos with
    | ':' :: pos => some (jsonWs pos)
    | _ => none

/-- The bytes up to the closing quote; an escaped byte is skipped. -/
def scanQuoted : Text → Option Text
  | [] => none
  | '"' :: _ => some []
  | '\\' :: e :: t => (scanQuoted t).map fun b => '\\' :: e :: b
  | c :: t => (scanQuoted t).map (c :: ·)

/-- An escape that is none of the short ones stays as it is. -/
def unescape : Text → Text
  | '\\' :: e :: t =>
    match shortEscape e with
    | some c => c :: unescape t
    | none => '\\' :: e :: unescape t
  | c :: t => c :: unescape t
  | [] => []

def inBareValue (c : Char) : Bool := c ≠ ',' && c ≠ '\x7d' && c ≠ ']' && c ≠ '\n'

def isTrimmed (c : Char) : Bool := c = ' ' || c = '\t' || c = '\r'

def trimEnd (t : Text) : Text := (t.reverse.dropWhile isTrimmed).reverse

def orbitJsonGetValue (json key : Text) : Option Text :=
  match valuePlace json key with
  | none => none
  | some ('"' :: pos) => (scanQuoted pos).map unescape
  | some pos => some (trimEnd (pos.takeWhile inBareValue))

def kMaxCols : Nat := 64

/-- The values that `orbit_db_add` binds to the columns of the table. -/
def orbitDbAddValues (columns : List Text) (json : Text) : List Text :=
  (columns.take kMaxCols).map fun name => (orbitJsonGetValue json name).getD []

/-- The columns that `orbit_db_set` writes, with their values. -/
def orbitDbSetValues (columns : List Text) (json : Text) : List (Text × Text) :=
  ((columns.filter (· ≠ ['i', 'd'])).filterMap fun name =>
    (orbitJsonGetValue json name).map fun value => (name, value)).take kMaxCols

/-! ### What a column is to get -/

section
variable (json : Text) (ms : List Member) (name : Text)

/-- The value of a name is what the member says, and the one of no member is none. -/
def ReadsMember : Prop :=
  match lastNamed name ms with
  | some m => ∃ s, m.Says s ∧ orbitJsonGetValue json name = some s
  | none => orbitJsonGetValue json name = none

/-- A value that is stored in the column of a name: what its member says, or the empty text. -/
def Stored (value : Text) : Prop :=
  match lastNamed name ms with
  | some m => m.Says value
  | none => value = []

/-- It is taken from the place of the member. -/
def FromMember : Prop := ∀ m ∈ lastNamed name ms, valuePlace json name = some m.value

/-- A value of which the search makes what it says: no object, no array and no string with an
escape of a code unit. -/
def Simple : Text → Prop
  | '"' :: t => unicodeFree t = true
  | c :: _ => c ≠ '\x7b' ∧ c ≠ '['
  | [] => True

/-- A string that is not closed. -/
def Unclosed : Text → Prop
  | '"' :: t => scanQuoted t = none
  | _ => False

/-- The first place of the quoted name is the member, and its value is a simple one. Where there is
no member of the name, no value stands behind the first place of the quoted name. -/
def Searchable : Prop :=
  match lastNamed name ms with
  | some m => behind json (quoted name) = some m.behindName ∧ Simple m.value
  | none => ∀ pos ∈ valuePlace json name, Unclosed pos

end

end Runtime.JsonField

/-!
# The fields of a body

`orbit_json_field` of `runtime/builtins.c`, which reads a field of a document by searching its text,
beside what the reader makes of the document. `Placed` is a member with the place of its value in
the text. Allocations do not fail.
-/

namespace Runtime.BodyField

open Json
open JsonField (behind)
open Lib.Text (intToString)

/-! ## The search -/

/-- Where a value is taken from: behind an opening quote, or behind a colon. -/
inductive FieldPlace where
  | string (pos : Text)
  | bare (pos : Text)
  deriving DecidableEq, Repr

/-- The size of `search`. -/
def searchSize : Nat := 256

def quotedPattern (key : Text) : Text := '"' :: (key ++ ['"', ':', '"'])

def barePattern (key : Text) : Text := '"' :: (key ++ ['"', ':'])

def barePlace (json key : Text) : Option FieldPlace :=
  if searchSize ≤ key.length + 3 then none else (behind json (barePattern key)).map .bare

def fieldPlace (json key : Text) : Option FieldPlace :=
  if searchSize ≤ key.length + 4 then none
  else
    match behind json (quotedPattern key) with
    | some pos => if '"' ∈ pos then some (.string pos) else barePlace json key
    | none => barePlace json key

def inString (c : Char) : Bool := c ≠ '"'

def inBareField (c : Char) : Bool := c ≠ ',' && c ≠ '\x7d' && c ≠ '\n'

def orbitJsonField (json key : Text) : Text :=
  match fieldPlace json key with
  | none => []
  | some (.string pos) => pos.takeWhile inString
  | some (.bare pos) => pos.takeWhile inBareField

/-! ## Members and their places -/

/-- A member as it is written, the text from its value on and the text behind the value. -/
structure Placed (F : Type) where
  name : Text
  value : Written F
  start : Text
  stop : Text

variable {F : Type}

section
variable (fl : Floats F) (str : Text → Text → Text → Prop)

/-- Members up to the closing brace. -/
inductive PlacedMembers (wr : Text → Written F → Text → Prop) :
    Text → List (Placed F) → Text → Prop where
  | last {u key w x m y z r} : str u key w → Ws w (':' :: x) → Ws x y → wr y m z →
      Ws z ('\x7d' :: r) → PlacedMembers wr ('"' :: u) [⟨key, m, y, z⟩] r
  | more {u key w x m y z a b ms r} : str u key w → Ws w (':' :: x) → Ws x y → wr y m z →
      Ws z (',' :: a) → Ws a b → PlacedMembers wr b ms r →
      PlacedMembers wr ('"' :: u) (⟨key, m, y, z⟩ :: ms) r

/-- The whole text is the object of the members, blanks around it aside. -/
inductive PlacedDocument (t : Text) : List (Placed F) → Prop where
  | empty {u r} : Ws t ('\x7b' :: u) → Ws u ('\x7d' :: r) → Ws r [] → PlacedDocument t []
  | members {u v ms r} : Ws t ('\x7b' :: u) → Ws u v →
      PlacedMembers str (IsWritten fl str ORBIT_JSON_MAX_DEPTH) v ms r → Ws r [] →
      PlacedDocument t ms

end

/-- The members without their places. -/
def written (ms : List (Placed F)) : List (Text × Written F) := ms.map fun m => (m.name, m.value)

/-- The member whose value a key reads as: the last of the name that is no `null`. -/
def memberOf (key : Text) (ms : List (Placed F)) : Option (Placed F) :=
  (ms.filter fun m => m.name = key ∧ m.value.value.kind ≠ .null).getLast?

/-! ## What a field is to be -/

section
variable (json : Text) (ms : List (Placed F)) (key : Text)

/-- The field is the text of what the key reads as, if that is a string or an integer, and nothing
if there is no member of the name. -/
structure Agrees : Prop where
  string : ∀ s, orbitObjectGet (objectOf (written ms)) key = .string s → orbitJsonField json key = s
  int : ∀ i, orbitObjectGet (objectOf (written ms)) key = .int i →
    orbitJsonField json key = intToString i.toInt
  absent : key ∉ ms.map Placed.name → orbitJsonField json key = []

/-- The bytes that are copied are those of the value, without its quotes; for no member none are. -/
structure FromValue : Prop where
  value : ∀ m ∈ memberOf key ms,
    (∀ s, m.value.value = .string s → fieldPlace json key = some (.string (m.start.drop 1)) ∧
      (m.start.drop 1).dropWhile inString = '"' :: m.stop) ∧
    ∀ i, m.value.value = .int i → fieldPlace json key = some (.bare m.start) ∧
      m.start.dropWhile inBareField = m.stop
  absent : key ∉ ms.map Placed.name → fieldPlace json key = none

/-- The text of the value. -/
def Placed.text (m : Placed F) : Text := m.start.take (m.start.length - m.stop.length)

/-- The key fits the buffer, and the first place at which the key stands as the search wants it is
the member: a string directly behind the colon and without escapes, or an integer directly behind
the colon that is not written `-0` and that a comma, a brace or a line end follows, with no string
behind the key elsewhere. A key of no member has no colon directly behind it anywhere. -/
structure Searchable : Prop where
  string : ∀ m ∈ memberOf key ms, ∀ s, m.value.value = .string s → key.length + 4 < searchSize ∧
    behind json (quotedPattern key) = some (m.start.drop 1) ∧ '\\' ∉ m.text
  int : ∀ m ∈ memberOf key ms, ∀ i, m.value.value = .int i → key.length + 4 < searchSize ∧
    (∀ pos ∈ behind json (quotedPattern key), '"' ∉ pos) ∧
    behind json (barePattern key) = some m.start ∧ m.text ≠ ['-', '0'] ∧
    ∀ c ∈ m.stop.head?, inBareField c = false
  absent : key ∉ ms.map Placed.name →
    searchSize ≤ key.length + 4 ∨ behind json (barePattern key) = none

end

end Runtime.BodyField
