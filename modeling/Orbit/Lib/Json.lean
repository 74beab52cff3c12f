import Orbit.Lib.Decimal
import Orbit.Lib.Text

/-!
# JSON

The values of RFC 8259 with whole numbers, a reader and a compact writer. A text is a sequence of
bytes, each the character of that code; an escape `\u` of a code above 127 is not in the fragment.
`read_write`: a reader gets back what the writer wrote, whatever way it escapes strings, as long as
the reader understands the escapes (`Escapes`).
-/

namespace Lib.Json

open Lib.Decimal
open Lib.Text (intToString)

abbrev Text := List Char

mutual

inductive Value where
  | null
  | bool (b : Bool)
  | num (n : Int)
  | str (s : Text)
  | arr (xs : Elems)
  | obj (fs : Fields)

inductive Elems where
  | nil
  | cons (x : Value) (xs : Elems)

inductive Fields where
  | nil
  | cons (key : Text) (x : Value) (fs : Fields)

end

def Elems.ofList : List Value → Elems
  | [] => .nil
  | x :: xs => .cons x (ofList xs)

def Fields.ofList : List (Text × Value) → Fields
  | [] => .nil
  | (k, x) :: fs => .cons k x (ofList fs)

/-! ## Reading -/

def isSpace (c : Char) : Bool := c == ' ' || c == '\n' || c == '\t' || c == '\r'

def skipSpace : Text → Text
  | [] => []
  | c :: t => if isSpace c then skipSpace t else c :: t

def hexValue (c : Char) : Option Nat :=
  if isDigit c then some (c.toNat - 48)
  else if 'a' ≤ c ∧ c ≤ 'f' then some (c.toNat - 87)
  else if 'A' ≤ c ∧ c ≤ 'F' then some (c.toNat - 55)
  else none

/-- What a backslash and a character stand for. -/
def escaped : Char → Option Char
  | '"' => some '"'
  | '\\' => some '\\'
  | '/' => some '/'
  | 'b' => some '\x08'
  | 'f' => some '\x0c'
  | 'n' => some '\n'
  | 'r' => some '\r'
  | 't' => some '\t'
  | _ => none

/-- The character of the code `00xy`. -/
def unicode (x y : Char) : Option Char :=
  match hexValue x, hexValue y with
  | some a, some b => if a < 8 then some (Char.ofNat (16 * a + b)) else none
  | _, _ => none

/-- The body of a string, after its opening quote, up to its closing one. -/
def readBody : Text → Option (Text × Text)
  | '"' :: t => some ([], t)
  | '\\' :: 'u' :: '0' :: '0' :: x :: y :: t =>
    match unicode x y with
    | some c => (readBody t).map fun r => (c :: r.1, r.2)
    | none => none
  | '\\' :: e :: t =>
    match escaped e with
    | some c => (readBody t).map fun r => (c :: r.1, r.2)
    | none => none
  | c :: t => if c.toNat < 32 ∨ c = '\\' then none else (readBody t).map fun r => (c :: r.1, r.2)
  | [] => none

/-- A number goes on with these characters. -/
def inNumber (c : Char) : Bool := isDigit c || c == '.' || c == 'e' || c == 'E'

/-- A natural number, without leading zeros, fraction and exponent. -/
def readNat (t : Text) : Option (Int × Text) :=
  let ds := t.takeWhile inNumber
  if ds = [] ∨ ds.all isDigit = false ∨ (ds.length ≠ 1 ∧ ds.head? = some '0') then none
  else some (digitsValue ds, t.dropWhile inNumber)

def readNumber : Text → Option (Int × Text)
  | '-' :: t => (readNat t).map fun r => (-r.1, r.2)
  | t => readNat t

mutual

/-- A value; the fuel bounds the nesting. -/
def readValue : Nat → Text → Option (Value × Text)
  | 0, _ => none
  | n + 1, t =>
    match skipSpace t with
    | '"' :: t => (readBody t).map fun r => (.str r.1, r.2)
    | '[' :: t =>
      match skipSpace t with
      | ']' :: t => some (.arr .nil, t)
      | t => (readElems n t).map fun r => (.arr r.1, r.2)
    | '\x7b' :: t =>
      match skipSpace t with
      | '\x7d' :: t => some (.obj .nil, t)
      | t => (readFields n t).map fun r => (.obj r.1, r.2)
    | 't' :: 'r' :: 'u' :: 'e' :: t => some (.bool true, t)
    | 'f' :: 'a' :: 'l' :: 's' :: 'e' :: t => some (.bool false, t)
    | 'n' :: 'u' :: 'l' :: 'l' :: t => some (.null, t)
    | t => (readNumber t).map fun r => (.num r.1, r.2)

/-- The elements of an array, up to its closing bracket. -/
def readElems : Nat → Text → Option (Elems × Text)
  | 0, _ => none
  | n + 1, t =>
    match readValue n t with
    | some (x, t) =>
      match skipSpace t with
      | ',' :: t => (readElems n t).map fun r => (.cons x r.1, r.2)
      | ']' :: t => some (.cons x .nil, t)
      | _ => none
    | none => none

/-- The members of an object, up to its closing brace. -/
def readFields : Nat → Text → Option (Fields × Text)
  | 0, _ => none
  | n + 1, t =>
    match skipSpace t with
    | '"' :: t =>
      match readBody t with
      | some (k, t) =>
        match skipSpace t with
        | ':' :: t =>
          match readValue n t with
          | some (x, t) =>
            match skipSpace t with
            | ',' :: t => (readFields n t).map fun r => (.cons k x r.1, r.2)
            | '\x7d' :: t => some (.cons k x .nil, t)
            | _ => none
          | none => none
        | _ => none
      | none => none
    | _ => none

end

/-- The value of a text that is one value between blanks. -/
def read (t : Text) : Option Value :=
  match readValue (t.length + 1) t with
  | some (v, rest) => if skipSpace rest = [] then some v else none
  | none => none

/-! ## Writing -/

def boolText : Bool → Text
  | true => ['t', 'r', 'u', 'e']
  | false => ['f', 'a', 'l', 's', 'e']

section
variable (esc : Text → Text)

mutual

def write : Value → Text
  | .null => ['n', 'u', 'l', 'l']
  | .bool b => boolText b
  | .num n => intToString n
  | .str s => '"' :: (esc s ++ ['"'])
  | .arr xs => '[' :: (writeElems xs ++ [']'])
  | .obj fs => '\x7b' :: (writeFields fs ++ ['\x7d'])

def writeElems : Elems → Text
  | .nil => []
  | .cons x .nil => write x
  | .cons x (.cons y ys) => write x ++ ',' :: writeElems (.cons y ys)

def writeFields : Fields → Text
  | .nil => []
  | .cons k x .nil => '"' :: (esc k ++ '"' :: ':' :: write x)
  | .cons k x (.cons l y fs) =>
    '"' :: (esc k ++ '"' :: ':' :: (write x ++ ',' :: writeFields (.cons l y fs)))

end

/-- The reader understands the escapes. -/
def Escapes : Prop := ∀ s rest, readBody (esc s ++ '"' :: rest) = some (s, rest)

end

attribute [simp] readValue readElems readFields write writeElems writeFields

/-! ## Reading what was written -/

mutual

/-- The fuel a value needs. -/
def size : Value → Nat
  | .arr xs => sizeElems xs + 1
  | .obj fs => sizeFields fs + 1
  | _ => 1

def sizeElems : Elems → Nat
  | .nil => 0
  | .cons x xs => size x + sizeElems xs + 1

def sizeFields : Fields → Nat
  | .nil => 0
  | .cons _ x fs => size x + sizeFields fs + 1

end

/-- What follows a value does not go on with a number. -/
def Ends (rest : Text) : Prop := ∀ c ∈ rest.head?, inNumber c = false

theorem ends_cons {c : Char} (h : inNumber c = false) (t : Text) : Ends (c :: t) := by
  intro d hd
  rw [List.head?_cons, Option.mem_def, Option.some.injEq] at hd
  rw [← hd, h]

theorem inNumber_digits {c : Char} {n : Nat} (h : c ∈ Nat.toDigits 10 n) : inNumber c = true := by
  rw [inNumber, isDigit_of_mem_digits h]
  rfl

theorem readNat_digits (n : Nat) {rest : Text} (h : Ends rest) :
    readNat (Nat.toDigits 10 n ++ rest) = some ((n : Int), rest) := by
  have htake : (Nat.toDigits 10 n ++ rest).takeWhile inNumber = Nat.toDigits 10 n := by
    rw [List.takeWhile_append_of_pos fun c hc => inNumber_digits hc]
    cases rest with
    | nil => simp
    | cons c t => simp [h c rfl]
  have hdrop : (Nat.toDigits 10 n ++ rest).dropWhile inNumber = rest := by
    rw [List.dropWhile_append_of_pos fun c hc => inNumber_digits hc]
    cases rest with
    | nil => rfl
    | cons c t => simp [h c rfl]
  have hok : ¬ (Nat.toDigits 10 n = [] ∨ (Nat.toDigits 10 n).all isDigit = false ∨
      ((Nat.toDigits 10 n).length ≠ 1 ∧ (Nat.toDigits 10 n).head? = some '0')) := by
    rintro (h0 | hall | ⟨hlen, hhead⟩)
    · exact Nat.toDigits_ne_nil h0
    · have : (Nat.toDigits 10 n).all isDigit = true :=
        List.all_eq_true.mpr fun c hc => isDigit_of_mem_digits hc
      rw [this] at hall
      cases hall
    · rw [head_digits hhead] at hlen
      exact hlen rfl
  simp only [readNat, htake, hdrop, if_neg hok, digitsValue_digits]

theorem readNumber_int (n : Int) {rest : Text} (h : Ends rest) :
    readNumber (intToString n ++ rest) = some (n, rest) := by
  rw [intToString]
  split
  · rename_i hn
    rw [List.cons_append, readNumber, readNat_digits n.natAbs h, Option.map_some]
    simp only [Option.some.injEq, Prod.mk.injEq, and_true]
    omega
  · rename_i hn
    obtain ⟨d, ds, hd⟩ := List.exists_cons_of_ne_nil (Nat.toDigits_ne_nil (b := 10) (n := n.natAbs))
    have hne : d ≠ '-' := by
      rintro rfl
      exact head_digits_ne_minus n.natAbs (by rw [hd]; rfl)
    have hread := readNat_digits n.natAbs h
    rw [hd, List.cons_append] at hread ⊢
    rw [readNumber, hread]
    · simp only [Option.some.injEq, Prod.mk.injEq, and_true]
      omega
    · intro t ht
      rw [List.cons.injEq] at ht
      exact hne ht.1

theorem skipSpace_cons {c : Char} (h : isSpace c = false) (t : Text) :
    skipSpace (c :: t) = c :: t := by
  rw [skipSpace, if_neg (by simp [h])]

/-- A character that a value can start with. -/
def opensValue (c : Char) : Bool :=
  isDigit c || c == '-' || c == '"' || c == '[' || c == '\x7b' || c == 't' || c == 'f' || c == 'n'

theorem opensValue_spec {c : Char} (h : opensValue c = true) :
    isSpace c = false ∧ c ≠ ']' ∧ c ≠ '\x7d' := by
  refine ⟨?_, ?_, ?_⟩
  · rw [← Bool.not_eq_true]
    intro hs
    simp only [isSpace, Bool.or_eq_true, beq_iff_eq] at hs
    rcases hs with ((rfl | rfl) | rfl) | rfl <;> exact absurd h (by decide)
  · rintro rfl
    exact absurd h (by decide)
  · rintro rfl
    exact absurd h (by decide)

theorem intToString_cons (n : Int) :
    ∃ c w, intToString n = c :: w ∧ (c = '-' ∨ isDigit c = true) := by
  rw [intToString]
  split
  · exact ⟨'-', _, rfl, .inl rfl⟩
  · obtain ⟨d, ds, hd⟩ := List.exists_cons_of_ne_nil (Nat.toDigits_ne_nil (b := 10) (n := n.natAbs))
    exact ⟨d, ds, hd, .inr (isDigit_of_mem_digits (hd ▸ List.mem_cons_self))⟩

section
variable {esc : Text → Text}

theorem write_cons (v : Value) : ∃ c w, write esc v = c :: w ∧ opensValue c = true := by
  cases v with
  | null => exact ⟨_, _, rfl, by decide⟩
  | bool b => cases b <;> exact ⟨_, _, rfl, by decide⟩
  | num n =>
    obtain ⟨c, w, hw, hc⟩ := intToString_cons n
    refine ⟨c, w, hw, ?_⟩
    rcases hc with rfl | hc
    · decide
    · simp [opensValue, hc]
  | str s => exact ⟨_, _, rfl, by decide⟩
  | arr xs => exact ⟨_, _, rfl, by decide⟩
  | obj fs => exact ⟨_, _, rfl, by decide⟩

/-- A text that starts like a number is read as one. -/
theorem readValue_number {n : Nat} {c : Char} {w : Text} (h : c = '-' ∨ isDigit c = true) :
    readValue (n + 1) (c :: w) = (readNumber (c :: w)).map fun r => (.num r.1, r.2) := by
  have hspace : isSpace c = false := by
    refine (opensValue_spec ?_).1
    rcases h with rfl | h
    · decide
    · simp [opensValue, h]
  have hne : ∀ d, d ≠ '-' → isDigit d = false → c ≠ d := by
    rintro d hd hdig rfl
    rcases h with h | h
    · exact hd h
    · rw [h] at hdig
      cases hdig
  rw [readValue, skipSpace_cons hspace]
  split
  all_goals first
    | rfl
    | (rename_i heq; rw [List.cons.injEq] at heq
       exact absurd heq.1 (hne _ (by decide) (by decide)))

theorem writeElems_cons (x : Value) (xs : Elems) :
    ∃ c w, writeElems esc (.cons x xs) = c :: w ∧ opensValue c = true := by
  obtain ⟨c, w, hw, hc⟩ : ∃ c w, write esc x = c :: w ∧ opensValue c = true := write_cons x
  cases xs with
  | nil => exact ⟨c, w, by rw [writeElems, hw], hc⟩
  | cons y ys => exact ⟨c, _, by rw [writeElems, hw, List.cons_append], hc⟩

theorem writeFields_cons (k : Text) (x : Value) (fs : Fields) :
    ∃ w, writeFields esc (.cons k x fs) = '"' :: w := by
  cases fs with
  | nil => exact ⟨_, rfl⟩
  | cons l y fs => exact ⟨_, rfl⟩

theorem readValue_arr {n : Nat} {t rest : Text} {xs : Elems}
    (hopen : ∃ c w, t = c :: w ∧ opensValue c = true) (h : readElems n t = some (xs, rest)) :
    readValue (n + 1) ('[' :: t) = some (.arr xs, rest) := by
  obtain ⟨c, w, rfl, hc⟩ := hopen
  obtain ⟨hspace, hne, -⟩ := opensValue_spec hc
  have hskip : skipSpace ('[' :: c :: w) = '[' :: c :: w := skipSpace_cons (by decide) _
  simp only [readValue, hskip, skipSpace_cons hspace]
  split
  · rename_i heq
    rw [List.cons.injEq] at heq
    exact absurd heq.1 hne
  · rw [h]
    rfl

theorem readValue_obj {n : Nat} {w rest : Text} {fs : Fields}
    (h : readFields n ('"' :: w) = some (fs, rest)) :
    readValue (n + 1) ('\x7b' :: '"' :: w) = some (.obj fs, rest) := by
  have hskip : skipSpace ('\x7b' :: '"' :: w) = '\x7b' :: '"' :: w := skipSpace_cons (by decide) _
  have hquote : skipSpace ('"' :: w) = '"' :: w := skipSpace_cons (by decide) _
  simp only [readValue, hskip, hquote]
  split
  · rename_i heq
    rw [List.cons.injEq] at heq
    exact absurd heq.1 (by decide)
  · rw [h]
    rfl

mutual

theorem readValue_write (h : Escapes esc) : ∀ (v : Value) (n : Nat) (rest : Text), size v ≤ n →
    Ends rest → readValue n (write esc v ++ rest) = some (v, rest)
  | v, 0, rest, hn, _ => by cases v <;> simp [size] at hn
  | .null, n + 1, rest, _, _ => rfl
  | .bool true, n + 1, rest, _, _ => rfl
  | .bool false, n + 1, rest, _, _ => rfl
  | .num m, n + 1, rest, _, hrest => by
    obtain ⟨c, w, hw, hc⟩ := intToString_cons m
    have hread := readNumber_int m hrest
    rw [write]
    rw [hw, List.cons_append] at hread ⊢
    rw [readValue_number hc, hread]
    rfl
  | .str s, n + 1, rest, _, _ => by
    have hbody := h s rest
    have hskip : ∀ t, skipSpace ('"' :: t) = '"' :: t := fun t => skipSpace_cons (by decide) _
    rw [write, List.cons_append, List.append_assoc, List.singleton_append]
    simp only [readValue, hskip, hbody, Option.map_some]
  | .arr .nil, n + 1, rest, _, _ => rfl
  | .arr (.cons x xs), n + 1, rest, hn, _ => by
    obtain ⟨c, w, hw, hc⟩ : ∃ c w, writeElems esc (.cons x xs) = c :: w ∧ opensValue c = true :=
      writeElems_cons x xs
    have hread := readElems_write h (.cons x xs) n rest (by simpa [size] using hn) (by simp)
    rw [write, List.cons_append, List.append_assoc, List.singleton_append]
    exact readValue_arr ⟨c, w ++ ']' :: rest, by rw [hw, List.cons_append], hc⟩ hread
  | .obj .nil, n + 1, rest, _, _ => rfl
  | .obj (.cons k x fs), n + 1, rest, hn, _ => by
    obtain ⟨w, hw⟩ : ∃ w, writeFields esc (.cons k x fs) = '"' :: w := writeFields_cons k x fs
    have hread := readFields_write h (.cons k x fs) n rest (by simpa [size] using hn) (by simp)
    rw [write, List.cons_append, List.append_assoc, List.singleton_append]
    rw [hw, List.cons_append] at hread ⊢
    exact readValue_obj hread

theorem readElems_write (h : Escapes esc) : ∀ (xs : Elems) (n : Nat) (rest : Text),
    sizeElems xs ≤ n → xs ≠ .nil →
    readElems n (writeElems esc xs ++ ']' :: rest) = some (xs, rest)
  | .nil, _, _, _, hne => absurd rfl hne
  | .cons x xs, 0, _, hn, _ => by simp [sizeElems] at hn
  | .cons x .nil, n + 1, rest, hn, _ => by
    have hx := readValue_write h x n (']' :: rest) (by simp [sizeElems] at hn; omega)
      (ends_cons (by decide) rest)
    have hskip : skipSpace (']' :: rest) = ']' :: rest := skipSpace_cons (by decide) _
    rw [writeElems]
    simp only [readElems, hx, hskip]
  | .cons x (.cons y ys), n + 1, rest, hn, _ => by
    have hx := readValue_write h x n (',' :: (writeElems esc (.cons y ys) ++ ']' :: rest))
      (by simp [sizeElems] at hn; omega) (ends_cons (by decide) _)
    have hys := readElems_write h (.cons y ys) n rest
      (by simp [sizeElems] at hn ⊢; omega) (by simp)
    have hskip : ∀ t, skipSpace (',' :: t) = ',' :: t := fun t => skipSpace_cons (by decide) _
    rw [writeElems, List.append_assoc, List.cons_append]
    simp only [readElems, hx, hskip, hys, Option.map_some]

theorem readFields_write (h : Escapes esc) : ∀ (fs : Fields) (n : Nat) (rest : Text),
    sizeFields fs ≤ n → fs ≠ .nil →
    readFields n (writeFields esc fs ++ '\x7d' :: rest) = some (fs, rest)
  | .nil, _, _, _, hne => absurd rfl hne
  | .cons k x fs, 0, _, hn, _ => by simp [sizeFields] at hn
  | .cons k x .nil, n + 1, rest, hn, _ => by
    have hk := h k (':' :: (write esc x ++ '\x7d' :: rest))
    have hx := readValue_write h x n ('\x7d' :: rest) (by simp [sizeFields] at hn; omega)
      (ends_cons (by decide) rest)
    have hquote : ∀ t, skipSpace ('"' :: t) = '"' :: t := fun t => skipSpace_cons (by decide) _
    have hcolon : ∀ t, skipSpace (':' :: t) = ':' :: t := fun t => skipSpace_cons (by decide) _
    have hclose : skipSpace ('\x7d' :: rest) = '\x7d' :: rest := skipSpace_cons (by decide) _
    rw [writeFields, List.cons_append, List.append_assoc, List.cons_append, List.cons_append]
    simp only [readFields, hquote, hk, hcolon, hx, hclose]
  | .cons k x (.cons l y fs), n + 1, rest, hn, _ => by
    have hk := h k (':' :: (write esc x ++ ',' :: (writeFields esc (.cons l y fs) ++
      '\x7d' :: rest)))
    have hx := readValue_write h x n (',' :: (writeFields esc (.cons l y fs) ++ '\x7d' :: rest))
      (by simp [sizeFields] at hn; omega) (ends_cons (by decide) _)
    have hfs := readFields_write h (.cons l y fs) n rest
      (by simp [sizeFields] at hn ⊢; omega) (by simp)
    have hquote : ∀ t, skipSpace ('"' :: t) = '"' :: t := fun t => skipSpace_cons (by decide) _
    have hcolon : ∀ t, skipSpace (':' :: t) = ':' :: t := fun t => skipSpace_cons (by decide) _
    have hcomma : ∀ t, skipSpace (',' :: t) = ',' :: t := fun t => skipSpace_cons (by decide) _
    rw [writeFields, List.cons_append, List.append_assoc, List.cons_append, List.cons_append,
      List.append_assoc, List.cons_append]
    simp only [readFields, hquote, hk, hcolon, hx, hcomma, hfs, Option.map_some]

end

mutual

theorem size_le : ∀ v : Value, size v ≤ (write esc v).length
  | .null => by simp [size]
  | .bool true => by simp [size, boolText]
  | .bool false => by simp [size, boolText]
  | .num n => by
    obtain ⟨c, w, hw, -⟩ := intToString_cons n
    simp [size, hw]
  | .str s => by simp [size]
  | .arr xs => by
    have := sizeElems_le xs
    simp only [size, write, List.length_cons, List.length_append, List.length_nil]
    omega
  | .obj fs => by
    have := sizeFields_le fs
    simp only [size, write, List.length_cons, List.length_append, List.length_nil]
    omega

theorem sizeElems_le : ∀ xs : Elems, sizeElems xs ≤ (writeElems esc xs).length + 1
  | .nil => by simp [sizeElems]
  | .cons x .nil => by
    have := size_le x
    simp only [sizeElems, writeElems]
    omega
  | .cons x (.cons y ys) => by
    have hx := size_le x
    have hys := sizeElems_le (.cons y ys)
    rw [sizeElems, writeElems, List.length_append, List.length_cons]
    omega

theorem sizeFields_le : ∀ fs : Fields, sizeFields fs ≤ (writeFields esc fs).length + 1
  | .nil => by simp [sizeFields]
  | .cons k x .nil => by
    have := size_le x
    simp only [sizeFields, writeFields, List.length_cons, List.length_append]
    omega
  | .cons k x (.cons l y fs) => by
    have hx := size_le x
    have hfs := sizeFields_le (.cons l y fs)
    rw [sizeFields, writeFields]
    simp only [List.length_cons, List.length_append]
    omega

end

/-- **Round trip.** A value that was written is read back, blanks after it aside. -/
theorem read_write (h : Escapes esc) (v : Value) {blanks : Text} (hb : skipSpace blanks = [])
    (hends : Ends blanks) : read (write esc v ++ blanks) = some v := by
  have hsize : size v ≤ (write esc v ++ blanks).length + 1 := by
    have : size v ≤ (write esc v).length := size_le v
    rw [List.length_append]
    omega
  simp only [read, readValue_write h v _ blanks hsize hends, if_pos hb]

/-! ## Properties of the written text -/

mutual

/-- Every string and key satisfies `Q`. -/
def Value.All (Q : Text → Prop) : Value → Prop
  | .str s => Q s
  | .arr xs => xs.All Q
  | .obj fs => fs.All Q
  | _ => True

def Elems.All (Q : Text → Prop) : Elems → Prop
  | .nil => True
  | .cons x xs => x.All Q ∧ xs.All Q

def Fields.All (Q : Text → Prop) : Fields → Prop
  | .nil => True
  | .cons k x fs => Q k ∧ x.All Q ∧ fs.All Q

end

/-- A property of texts that concatenation keeps and ASCII texts have. -/
structure Textual (P : Text → Prop) : Prop where
  append : ∀ {s t}, P s → P t → P (s ++ t)
  ascii : ∀ {t : Text}, (∀ c ∈ t, c.toNat < 128) → P t

section
variable {P Q : Text → Prop} (hP : Textual P) (hesc : ∀ s, Q s → P (esc s))

theorem ascii_intToString (n : Int) : ∀ c ∈ intToString n, c.toNat < 128 := by
  have hdigit : ∀ c, isDigit c = true → c.toNat < 128 := by
    intro c hc
    simp only [isDigit, Bool.and_eq_true, decide_eq_true_eq, Char.le_def] at hc
    have := hc.2
    have h9 : '9'.val.toNat = 57 := rfl
    have : c.val.toNat ≤ 57 := by rw [← h9]; exact this
    exact lt_of_le_of_lt this (by decide)
  intro c hc
  rw [intToString] at hc
  split at hc
  · rcases List.mem_cons.mp hc with rfl | hc
    · decide
    · exact hdigit c (isDigit_of_mem_digits hc)
  · exact hdigit c (isDigit_of_mem_digits hc)

include hP in
theorem Textual.cons {c : Char} {t : Text} (hc : c.toNat < 128) (ht : P t) : P (c :: t) := by
  have hone : P [c] := hP.ascii (by simpa using hc)
  simpa using hP.append hone ht

include hP hesc in
theorem Textual.quoted {s t : Text} (hs : Q s) (ht : P t) : P ('"' :: (esc s ++ '"' :: t)) :=
  hP.cons (by decide) (hP.append (hesc s hs) (hP.cons (by decide) ht))

mutual

theorem write_textual (hP : Textual P) (hesc : ∀ s, Q s → P (esc s)) :
    ∀ v : Value, v.All Q → P (write esc v)
  | .null, _ => hP.ascii (by simp)
  | .bool true, _ => hP.ascii (by simp [boolText])
  | .bool false, _ => hP.ascii (by simp [boolText])
  | .num n, _ => hP.ascii (ascii_intToString n)
  | .str s, h => hP.quoted hesc h (hP.ascii (by simp))
  | .arr xs, h => hP.cons (by decide)
    (hP.append (writeElems_textual hP hesc xs h) (hP.ascii (by simp)))
  | .obj fs, h => hP.cons (by decide)
    (hP.append (writeFields_textual hP hesc fs h) (hP.ascii (by simp)))

theorem writeElems_textual (hP : Textual P) (hesc : ∀ s, Q s → P (esc s)) :
    ∀ xs : Elems, xs.All Q → P (writeElems esc xs)
  | .nil, _ => hP.ascii (by simp)
  | .cons x .nil, h => write_textual hP hesc x h.1
  | .cons x (.cons y ys), h => hP.append (write_textual hP hesc x h.1)
    (hP.cons (by decide) (writeElems_textual hP hesc (.cons y ys) h.2))

theorem writeFields_textual (hP : Textual P) (hesc : ∀ s, Q s → P (esc s)) :
    ∀ fs : Fields, fs.All Q → P (writeFields esc fs)
  | .nil, _ => hP.ascii (by simp)
  | .cons k x .nil, h =>
    hP.quoted hesc h.1 (hP.cons (by decide) (write_textual hP hesc x h.2.1))
  | .cons k x (.cons l y fs), h =>
    hP.quoted hesc h.1 (hP.cons (by decide) (hP.append (write_textual hP hesc x h.2.1)
      (hP.cons (by decide) (writeFields_textual hP hesc (.cons l y fs) h.2.2))))

end

end

end

end Lib.Json
