import Orbit.Runtime.Json

/-!
# The grammar of JSON documents

What `orbit_json_parse` documents to accept: objects of RFC 8259 with strict numbers, strings
without raw control bytes, lone surrogates and decoded NULs, arrays of elements of one kind that is
neither `null` nor an array, and at most 64 levels; with the value that each text denotes. The
relations leave a rest: `IsValue n t v r` says that `t` is a text of the value `v`, followed by `r`,
with at most `n` levels. How strings are written (`str`) is a parameter; `IsString` is the strict
one.
-/

namespace Runtime.Json

open Lib.Decimal (isDigit digitsValue)
open Lib.Text (chars)

/-! ## Strings -/

def isWs (c : Char) : Prop := c = ' ' ∨ c = '\t' ∨ c = '\n' ∨ c = '\r'

/-- Blanks, then the rest. -/
inductive Ws : Text → Text → Prop where
  | nil {t} : Ws t t
  | cons {c t r} : isWs c → Ws t r → Ws (c :: t) r

/-- The code unit that four hexadecimal digits spell. -/
def hexUnit (a b c d : Char) : Option Nat := do
  let h0 ← jsonHexval a
  let h1 ← jsonHexval b
  let h2 ← jsonHexval c
  let h3 ← jsonHexval d
  return ((h0 * 16 + h1) * 16 + h2) * 16 + h3

def isHigh (cp : Nat) : Prop := 0xd800 ≤ cp ∧ cp ≤ 0xdbff

def isLow (cp : Nat) : Prop := 0xdc00 ≤ cp ∧ cp ≤ 0xdfff

instance (cp : Nat) : Decidable (isHigh cp) := inferInstanceAs (Decidable (_ ∧ _))

instance (cp : Nat) : Decidable (isLow cp) := inferInstanceAs (Decidable (_ ∧ _))

/-- The UTF-8 bytes of a code point. -/
def utf8 (cp : Nat) : Text :=
  (String.utf8EncodeChar (Char.ofNat cp)).map fun b => Char.ofNat b.toNat

/-- The characters of a string, after its opening quote. -/
inductive IsString : Text → Text → Text → Prop where
  | close {t} : IsString ('"' :: t) [] t
  | plain {c t s r} : 0x20 ≤ c.toNat → c ≠ '"' → c ≠ '\\' → IsString t s r →
      IsString (c :: t) (c :: s) r
  | short {e c t s r} : shortEscape e = some c → IsString t s r →
      IsString ('\\' :: e :: t) (c :: s) r
  | unit {a b c d cp t s r} : hexUnit a b c d = some cp → ¬ isHigh cp → ¬ isLow cp → cp ≠ 0 →
      IsString t s r → IsString ('\\' :: 'u' :: a :: b :: c :: d :: t) (utf8 cp ++ s) r
  | pair {a b c d hi e f g h lo t s r} : hexUnit a b c d = some hi → isHigh hi →
      hexUnit e f g h = some lo → isLow lo → IsString t s r →
      IsString ('\\' :: 'u' :: a :: b :: c :: d :: '\\' :: 'u' :: e :: f :: g :: h :: t)
        (utf8 (surrogatePair hi lo) ++ s) r

/-! ## Numbers -/

def Digits (ds : Text) : Prop := ds ≠ [] ∧ ∀ c ∈ ds, isDigit c = true

/-- The integer part of a number. -/
def IsInt (i : Text) : Prop := Digits i ∧ (i.head? = some '0' → i = ['0'])

def IsFraction (f : Text) : Prop := ∃ ds, Digits ds ∧ f = '.' :: ds

def IsExponent (e : Text) : Prop :=
  ∃ c sign ds, (c = 'e' ∨ c = 'E') ∧ (sign = [] ∨ sign = ['+'] ∨ sign = ['-']) ∧ Digits ds ∧
    e = c :: (sign ++ ds)

variable {F : Type} (fl : Floats F)

/-- A number without fraction and exponent is an integer of 64 bits, any other a finite float. -/
inductive IsNumber : Text → OrbitValue F → Prop where
  | int {sign i} : sign = [] ∨ sign = ['-'] → IsInt i →
      -9223372036854775808 ≤ decimalValue (sign ++ i) →
      decimalValue (sign ++ i) ≤ 9223372036854775807 →
      IsNumber (sign ++ i) (.int (BitVec.ofInt 64 (decimalValue (sign ++ i))))
  | float {sign i f e} : sign = [] ∨ sign = ['-'] → IsInt i → f = [] ∨ IsFraction f →
      e = [] ∨ IsExponent e → f ≠ [] ∨ e ≠ [] → fl.isfinite (fl.strtod (sign ++ i ++ f ++ e)) →
      IsNumber (sign ++ i ++ f ++ e) (.float (fl.strtod (sign ++ i ++ f ++ e)))

/-! ## Values -/

section
variable (str : Text → Text → Text → Prop) (val : Text → OrbitValue F → Text → Prop)

/-- Members up to the closing brace. `o` holds the members before; a repeated key overwrites, a
`null` is not stored. -/
inductive IsMembers : OrbitObject F → Text → OrbitObject F → Text → Prop where
  | last {o u k w x v y z r} : str u k w → Ws w (':' :: x) → Ws x y → val y v z →
      Ws z ('\x7d' :: r) → IsMembers o ('"' :: u) (storeMember o k v) r
  | more {o u k w x v y z a b o' r} : str u k w → Ws w (':' :: x) → Ws x y → val y v z →
      Ws z (',' :: a) → Ws a b → IsMembers (storeMember o k v) b o' r →
      IsMembers o ('"' :: u) o' r

/-- An element of a list is no `null` and no list, and has the kind of the elements before. -/
def IsElement (kind : Option Kind) (v : OrbitValue F) : Prop :=
  v.kind ≠ .null ∧ v.kind ≠ .list ∧ ∀ k ∈ kind, k = v.kind

/-- Elements up to the closing bracket. -/
inductive IsElements : Option Kind → Text → OrbitList F → Text → Prop where
  | last {kind t v x z r} : Ws t x → val x v z → IsElement kind v → Ws z (']' :: r) →
      IsElements kind t (.cons v .nil) r
  | more {kind t v x z a l r} : Ws t x → val x v z → IsElement kind v → Ws z (',' :: a) →
      IsElements (some v.kind) a l r → IsElements kind t (.cons v l) r

/-- A value whose parts are those of `val`. -/
inductive ValueOf : Text → OrbitValue F → Text → Prop where
  | null {r} : ValueOf (chars "null" ++ r) .null r
  | true {r} : ValueOf (chars "true" ++ r) (.bool true) r
  | false {r} : ValueOf (chars "false" ++ r) (.bool false) r
  | number {t v r} : IsNumber fl t v → ValueOf (t ++ r) v r
  | string {t s r} : str t s r → ValueOf ('"' :: t) (.string s) r
  | emptyObject {t r} : Ws t ('\x7d' :: r) → ValueOf ('\x7b' :: t) (.object .nil) r
  | object {t u o r} : Ws t u → IsMembers str val .nil u o r → ValueOf ('\x7b' :: t) (.object o) r
  | emptyArray {t r} : Ws t (']' :: r) → ValueOf ('[' :: t) (.list .nil) r
  | array {t l r} : IsElements val none t l r → ValueOf ('[' :: t) (.list l) r

end

section
variable (str : Text → Text → Text → Prop)

/-- A value of at most `n` levels. -/
def IsValue : (n : Nat) → Text → OrbitValue F → Text → Prop
  | 0 => fun _ _ _ => False
  | n + 1 => ValueOf fl str (IsValue n)

/-- The whole text is one object, blanks around it aside. -/
def IsDocument (t : Text) (o : OrbitObject F) : Prop :=
  ∃ u r, Ws t u ∧ IsValue fl str (ORBIT_JSON_MAX_DEPTH + 1) u (.object o) r ∧ Ws r []

end

/-! ## Beginnings -/

section
variable (str : Text → Text → Text → Prop) (val : Text → OrbitValue F → Text → Prop)
variable (openStr openVal : Text → Prop)

/-- Members that come to a string of `openStr` or to a value of `openVal`. -/
inductive OpensMembers : Text → Prop where
  | key {u} : openStr u → OpensMembers ('"' :: u)
  | value {u k w x} : str u k w → Ws w (':' :: x) → openVal x → OpensMembers ('"' :: u)
  | later {u k w x y v z a b} : str u k w → Ws w (':' :: x) → Ws x y → val y v z →
      Ws z (',' :: a) → Ws a b → OpensMembers b → OpensMembers ('"' :: u)

inductive OpensElements : Option Kind → Text → Prop where
  | value {kind t} : openVal t → OpensElements kind t
  | later {kind t x v z a} : Ws t x → val x v z → IsElement kind v → Ws z (',' :: a) →
      OpensElements (some v.kind) a → OpensElements kind t

end

/-- A text that follows the grammar up to a string of `openStr`, whatever comes after. -/
def Opens (str : Text → Text → Text → Prop) (openStr : Text → Prop) : (n : Nat) → Text → Prop
  | 0, _ => False
  | n + 1, t =>
    (∃ u, Ws t ('"' :: u) ∧ openStr u) ∨
      (∃ u w, Ws t ('\x7b' :: u) ∧ Ws u w ∧
        OpensMembers str (IsValue fl str n) openStr (Opens str openStr n) w) ∨
      ∃ u, Ws t ('[' :: u) ∧ OpensElements (IsValue fl str n) (Opens str openStr n) none u

end Runtime.Json

/-!
# Documents as they are written

An object of a document is a list of members, in which a key may stand twice and a `null` has its
place. `Written` keeps all of them, and `IsWritten` relates it to the text as `IsValue` does the
value. `Written.value` is what the reader keeps, and `orbitObjectGet`, behind every getter, what a
program sees of it.
-/

namespace Runtime.Json

open Lib.Text (chars)

variable {F : Type}

/-- A missing key reads as `null`. -/
def orbitObjectGet : OrbitObject F → Text → OrbitValue F
  | .nil, _ => .null
  | .cons k v rest, key => if k = key then v else orbitObjectGet rest key

section
variable (F)

/-- A value as it is written. A scalar is anything but an object or an array. -/
inductive Written where
  | scalar (v : OrbitValue F)
  | object (ms : List (Text × Written))
  | array (l : List Written)

end

mutual

/-- What is kept of a value. -/
def Written.value : Written F → OrbitValue F
  | .scalar v => v
  | .object ms => .object (storeMembers .nil ms)
  | .array l => .list (listOf l)

/-- The object `o` after the members `ms`. -/
def storeMembers : OrbitObject F → List (Text × Written F) → OrbitObject F
  | o, [] => o
  | o, (key, w) :: ms => storeMembers (storeMember o key w.value) ms

def listOf : List (Written F) → OrbitList F
  | [] => .nil
  | w :: l => .cons w.value (listOf l)

end

/-- The object that is kept of the members `ms`. -/
def objectOf (ms : List (Text × Written F)) : OrbitObject F := storeMembers .nil ms

/-- The members without those of the name `key` that another one follows. -/
def onlyLast (key : Text) : List (Text × Written F) → List (Text × Written F)
  | [] => []
  | (k, w) :: ms =>
    if k = key ∧ key ∈ ms.map Prod.fst then onlyLast key ms else (k, w) :: onlyLast key ms

/-- The members of the name `key`. -/
def named (key : Text) (ms : List (Text × Written F)) : List (Written F) :=
  (ms.filter (·.1 = key)).map Prod.snd

/-- The last member of the name is `null` and another one of the name is not. -/
def NullAfterValue (key : Text) (ms : List (Text × Written F)) : Prop :=
  ((named key ms).getLast?.map (·.value.kind)) = some .null ∧
    ∃ w ∈ named key ms, w.value.kind ≠ .null

/-- `ms` are the members of the value or of an object inside it. -/
inductive Written.HasObject : Written F → List (Text × Written F) → Prop where
  | here {ms} : HasObject (.object ms) ms
  | member {ms key w ms'} : (key, w) ∈ ms → HasObject w ms' → HasObject (.object ms) ms'
  | element {l w ms'} : w ∈ l → HasObject w ms' → HasObject (.array l) ms'

/-! ## Texts -/

section
variable (fl : Floats F) (str : Text → Text → Text → Prop)

section
variable (wr : Text → Written F → Text → Prop)

/-- Members up to the closing brace. -/
inductive WrittenMembers : Text → List (Text × Written F) → Text → Prop where
  | last {u key w x m y z r} : str u key w → Ws w (':' :: x) → Ws x y → wr y m z →
      Ws z ('\x7d' :: r) → WrittenMembers ('"' :: u) [(key, m)] r
  | more {u key w x m y z a b ms r} : str u key w → Ws w (':' :: x) → Ws x y → wr y m z →
      Ws z (',' :: a) → Ws a b → WrittenMembers b ms r →
      WrittenMembers ('"' :: u) ((key, m) :: ms) r

/-- Elements up to the closing bracket. -/
inductive WrittenElements : Option Kind → Text → List (Written F) → Text → Prop where
  | last {kind t m x z r} : Ws t x → wr x m z → IsElement kind m.value → Ws z (']' :: r) →
      WrittenElements kind t [m] r
  | more {kind t m x z a l r} : Ws t x → wr x m z → IsElement kind m.value → Ws z (',' :: a) →
      WrittenElements (some m.value.kind) a l r → WrittenElements kind t (m :: l) r

inductive WrittenOf : Text → Written F → Text → Prop where
  | scalar {t v r} : v.kind ≠ .object → v.kind ≠ .list →
      ValueOf fl str (fun _ _ _ => False) t v r → WrittenOf t (.scalar v) r
  | emptyObject {t r} : Ws t ('\x7d' :: r) → WrittenOf ('\x7b' :: t) (.object []) r
  | object {t u ms r} : Ws t u → WrittenMembers str wr u ms r →
      WrittenOf ('\x7b' :: t) (.object ms) r
  | emptyArray {t r} : Ws t (']' :: r) → WrittenOf ('[' :: t) (.array []) r
  | array {t l r} : WrittenElements wr none t l r → WrittenOf ('[' :: t) (.array l) r

end

/-- `t` is a text of `w` with at most `n` levels, followed by `r`. -/
def IsWritten : (n : Nat) → Text → Written F → Text → Prop
  | 0 => fun _ _ _ => False
  | n + 1 => WrittenOf fl str (IsWritten n)

/-- The whole text is the object of the members `ms`, blanks around it aside. -/
def IsWrittenDocument (t : Text) (ms : List (Text × Written F)) : Prop :=
  ∃ u r, Ws t u ∧ IsWritten fl str (ORBIT_JSON_MAX_DEPTH + 1) u (.object ms) r ∧ Ws r []

end

end Runtime.Json
