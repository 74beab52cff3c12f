import Orbit.Lib.Json

/-!
# Places in JSON texts

The grammar of RFC 8259 as it stands in a text: `Value t r` says that a value starts `t` and that
`r` follows it, and `Document t ms` that `t` is an object with the members `ms`, each with the
places at which it is written. A text is a sequence of bytes, each the character of that code.
-/

namespace Lib.JsonText

open Lib.Decimal (isDigit)
open Lib.Json (Text skipSpace hexValue escaped)

/-! ## Strings -/

/-- The code unit of four hexadecimal digits. -/
def codeUnit (a b c d : Char) : Option Nat := do
  let h0 ← hexValue a
  let h1 ← hexValue b
  let h2 ← hexValue c
  let h3 ← hexValue d
  return ((h0 * 16 + h1) * 16 + h2) * 16 + h3

def isHigh (n : Nat) : Prop := 0xd800 ≤ n ∧ n ≤ 0xdbff

def isLow (n : Nat) : Prop := 0xdc00 ≤ n ∧ n ≤ 0xdfff

/-- The bytes of a code point. -/
def utf8 (n : Nat) : Text :=
  (String.utf8EncodeChar (Char.ofNat n)).map fun b => Char.ofNat b.toNat

/-- `t` is the text of the string `s` from behind its opening quote on, and `r` follows it. -/
inductive StringBody : Text → Text → Text → Prop where
  | close {t} : StringBody ('"' :: t) [] t
  | plain {c t s r} : 0x20 ≤ c.toNat → c ≠ '"' → c ≠ '\\' → StringBody t s r →
      StringBody (c :: t) (c :: s) r
  | short {e c t s r} : escaped e = some c → StringBody t s r →
      StringBody ('\\' :: e :: t) (c :: s) r
  | unit {a b c d n t s r} : codeUnit a b c d = some n → ¬ isHigh n → ¬ isLow n →
      StringBody t s r → StringBody ('\\' :: 'u' :: a :: b :: c :: d :: t) (utf8 n ++ s) r
  | pair {a b c d hi e f g h lo t s r} : codeUnit a b c d = some hi → isHigh hi →
      codeUnit e f g h = some lo → isLow lo → StringBody t s r →
      StringBody ('\\' :: 'u' :: a :: b :: c :: d :: '\\' :: 'u' :: e :: f :: g :: h :: t)
        (utf8 (0x10000 + (hi - 0xd800) * 1024 + (lo - 0xdc00)) ++ s) r

/-- The string with its short escapes decoded and its code units as they are written. -/
inductive ShortBody : Text → Text → Text → Prop where
  | close {t} : ShortBody ('"' :: t) [] t
  | plain {c t s r} : 0x20 ≤ c.toNat → c ≠ '"' → c ≠ '\\' → ShortBody t s r →
      ShortBody (c :: t) (c :: s) r
  | short {e c t s r} : escaped e = some c → ShortBody t s r →
      ShortBody ('\\' :: e :: t) (c :: s) r
  | unit {a b c d n t s r} : codeUnit a b c d = some n → ShortBody t s r →
      ShortBody ('\\' :: 'u' :: a :: b :: c :: d :: t) ('\\' :: 'u' :: a :: b :: c :: d :: s) r

/-- No escape of a string is one of a code unit. -/
def unicodeFree : Text → Bool
  | [] => true
  | '"' :: _ => true
  | '\\' :: 'u' :: _ => false
  | '\\' :: _ :: t => unicodeFree t
  | _ :: t => unicodeFree t

/-! ## Numbers -/

def Digits (t : Text) : Prop := t ≠ [] ∧ ∀ c ∈ t, isDigit c = true

/-- A number: its sign, whole part, fraction and exponent. -/
inductive Number : Text → Prop where
  | mk {sign int fraction exponent : Text} : sign = [] ∨ sign = ['-'] →
      Digits int → (int.head? = some '0' → int = ['0']) →
      (fraction = [] ∨ ∃ ds, Digits ds ∧ fraction = '.' :: ds) →
      (exponent = [] ∨ ∃ e sign ds, (e = 'e' ∨ e = 'E') ∧
        (sign = [] ∨ sign = ['+'] ∨ sign = ['-']) ∧ Digits ds ∧ exponent = e :: (sign ++ ds)) →
      Number (sign ++ int ++ fraction ++ exponent)

def literals : List Text :=
  [['n', 'u', 'l', 'l'], ['t', 'r', 'u', 'e'], ['f', 'a', 'l', 's', 'e']]

/-! ## Values -/

/-- A member of an object: its name, the text from behind the closing quote of the name on, the text
from its value on, and the text behind the value. -/
structure Member where
  name : Text
  behindName : Text
  value : Text
  behind : Text
  deriving DecidableEq, Repr

mutual

inductive Value : Text → Text → Prop where
  | literal {w r} : w ∈ literals → Value (w ++ r) r
  | number {w r} : Number w → Value (w ++ r) r
  | string {t s r} : StringBody t s r → Value ('"' :: t) r
  | emptyObject {t r} : skipSpace t = '\x7d' :: r → Value ('\x7b' :: t) r
  | object {t ms r} : Members t ms r → Value ('\x7b' :: t) r
  | emptyArray {t r} : skipSpace t = ']' :: r → Value ('[' :: t) r
  | array {t r} : Elements t r → Value ('[' :: t) r

/-- Members up to the closing brace. -/
inductive Members : Text → List Member → Text → Prop where
  | last {t u name w x z r} : skipSpace t = '"' :: u → StringBody u name w →
      skipSpace w = ':' :: x → Value (skipSpace x) z → skipSpace z = '\x7d' :: r →
      Members t [⟨name, w, skipSpace x, z⟩] r
  | more {t u name w x z a ms r} : skipSpace t = '"' :: u → StringBody u name w →
      skipSpace w = ':' :: x → Value (skipSpace x) z → skipSpace z = ',' :: a →
      Members a ms r → Members t (⟨name, w, skipSpace x, z⟩ :: ms) r

/-- Elements up to the closing bracket. -/
inductive Elements : Text → Text → Prop where
  | last {t z r} : Value (skipSpace t) z → skipSpace z = ']' :: r → Elements t r
  | more {t z a r} : Value (skipSpace t) z → skipSpace z = ',' :: a → Elements a r → Elements t r

end

/-- The text is an object, blanks around it aside. -/
inductive Document (t : Text) : List Member → Prop where
  | empty {u r} : skipSpace t = '\x7b' :: u → skipSpace u = '\x7d' :: r → skipSpace r = [] →
      Document t []
  | members {u ms r} : skipSpace t = '\x7b' :: u → Members u ms r → skipSpace r = [] →
      Document t ms

/-- The last member of the name. -/
def lastNamed (name : Text) (ms : List Member) : Option Member :=
  (ms.filter (·.name = name)).getLast?

/-- `s` is the string of the member, or its value as it is written. -/
def Member.Gives (body : Text → Text → Text → Prop) (m : Member) (s : Text) : Prop :=
  match m.value with
  | '"' :: t => body t s m.behind
  | v => v = s ++ m.behind

/-- What the member says. -/
def Member.Says (m : Member) (s : Text) : Prop := m.Gives StringBody s

section
variable {body : Text → Text → Text → Prop} {m : Member} {s : Text}

theorem Member.gives_string {t : Text} (h : m.value = '"' :: t) :
    m.Gives body s ↔ body t s m.behind := by
  rw [Member.Gives, h]
  rfl

theorem Member.gives_other (h : ∀ t, m.value ≠ '"' :: t) :
    m.Gives body s ↔ m.value = s ++ m.behind := by
  rw [Member.Gives]
  split
  next t heq => exact absurd heq (h t)
  next => rfl

end

/-! ## Blanks -/

open Lib.Json (isSpace)

theorem exists_blanks (t : Text) :
    ∃ b, t = b ++ skipSpace t ∧ ∀ c ∈ b, isSpace c = true := by
  induction t with
  | nil => exact ⟨[], rfl, fun c hc => absurd hc List.not_mem_nil⟩
  | cons c t ih =>
    by_cases hc : isSpace c = true
    · obtain ⟨b, hb, hblank⟩ := ih
      refine ⟨c :: b, ?_, List.forall_mem_cons.mpr ⟨hc, hblank⟩⟩
      rw [skipSpace, if_pos hc, List.cons_append, ← hb]
    · rw [skipSpace, if_neg hc]
      exact ⟨[], rfl, fun c hc => absurd hc List.not_mem_nil⟩

/-! ## Shapes of values -/

/-- A character of a number or a literal. -/
def isBare (c : Char) : Bool :=
  isDigit c || c = '-' || c = '+' || c = '.' || c.isAlpha

theorem StringBody.suffix {t s r : Text} (h : StringBody t s r) : '"' :: r <:+ t := by
  induction h with
  | close => exact List.suffix_refl _
  | plain _ _ _ _ ih => exact ih.trans (List.suffix_cons _ _)
  | short _ _ ih => exact ih.trans ⟨[_, _], rfl⟩
  | unit _ _ _ _ ih => exact ih.trans ⟨[_, _, _, _, _, _], rfl⟩
  | pair _ _ _ _ _ ih => exact ih.trans ⟨[_, _, _, _, _, _, _, _, _, _, _, _], rfl⟩

theorem Digits.bare {t : Text} (h : Digits t) : ∀ c ∈ t, isBare c = true := fun c hc => by
  simp [isBare, h.2 c hc]

theorem literal_bare {w : Text} (h : w ∈ literals) : w ≠ [] ∧ ∀ c ∈ w, isBare c = true := by
  have hall : ∀ w ∈ literals, w ≠ [] ∧ w.all isBare = true := by decide
  exact ⟨(hall w h).1, List.all_eq_true.mp (hall w h).2⟩

theorem Number.bare {w : Text} (h : Number w) : w ≠ [] ∧ ∀ c ∈ w, isBare c = true := by
  obtain ⟨hsign, hint, -, hfraction, hexponent⟩ := h
  rename_i sign int fraction exponent
  refine ⟨by simp [hint.1], fun c hc => ?_⟩
  simp only [List.mem_append] at hc
  rcases hc with ((hc | hc) | hc) | hc
  · rcases hsign with rfl | rfl
    · exact absurd hc List.not_mem_nil
    · rw [List.mem_singleton.mp hc]
      decide
  · exact hint.bare c hc
  · rcases hfraction with rfl | ⟨ds, hds, rfl⟩
    · exact absurd hc List.not_mem_nil
    · rcases List.mem_cons.mp hc with rfl | hc
      · decide
      · exact hds.bare c hc
  · rcases hexponent with rfl | ⟨e, esign, ds, he, hesign, hds, rfl⟩
    · exact absurd hc List.not_mem_nil
    · rcases List.mem_cons.mp hc with rfl | hc
      · rcases he with rfl | rfl <;> decide
      · rcases List.mem_append.mp hc with hc | hc
        · rcases hesign with rfl | rfl | rfl
          · exact absurd hc List.not_mem_nil
          · rw [List.mem_singleton.mp hc]
            decide
          · rw [List.mem_singleton.mp hc]
            decide
        · exact hds.bare c hc

/-- How a value stands in front of the text behind it: a string, a row of bare characters, or a text
in brackets. -/
inductive Shape : Text → Text → Prop where
  | string {t s r} : StringBody t s r → Shape ('"' :: t) r
  | bare {w r} : w ≠ [] → (∀ c ∈ w, isBare c = true) → Shape (w ++ r) r
  | nested {o t c r} : o = '\x7b' ∨ o = '[' → c = '\x7d' ∨ c = ']' → c :: r <:+ t → Shape (o :: t) r

theorem Shape.suffix {t r : Text} (h : Shape t r) : r <:+ t := by
  cases h with
  | string h => exact ((List.suffix_cons _ _).trans h.suffix).trans (List.suffix_cons _ _)
  | bare => exact List.suffix_append _ _
  | nested _ _ h => exact ((List.suffix_cons _ _).trans h).trans (List.suffix_cons _ _)

theorem Shape.body {t r : Text} (h : Shape ('"' :: t) r) : ∃ s, StringBody t s r := by
  generalize hv : '"' :: t = v at h
  cases h with
  | string h =>
    obtain rfl := List.tail_eq_of_cons_eq hv
    exact ⟨_, h⟩
  | @bare w r hw hbare =>
    obtain ⟨c, w, rfl⟩ := List.exists_cons_of_ne_nil hw
    have hc := hbare c List.mem_cons_self
    rw [← List.head_eq_of_cons_eq hv] at hc
    exact absurd hc (by decide)
  | nested ho =>
    have hquote := List.head_eq_of_cons_eq hv
    rcases ho with rfl | rfl <;> exact absurd hquote (by decide)

theorem skipSpace_suffix {t u : Text} (h : skipSpace t = u) : u <:+ t := by
  obtain ⟨b, hb, -⟩ := exists_blanks t
  exact ⟨b, by rw [← h]; exact hb.symm⟩

/-- A member starts the text, and `z` is behind its value. -/
theorem value_suffix {t u name w x z : Text} (ht : skipSpace t = '"' :: u)
    (hname : StringBody u name w) (hw : skipSpace w = ':' :: x) (hvalue : Shape (skipSpace x) z) :
    z <:+ t := by
  have hz : z <:+ w := (hvalue.suffix.trans (skipSpace_suffix rfl)).trans
    ((List.suffix_cons _ _).trans (skipSpace_suffix hw))
  exact hz.trans (((List.suffix_cons _ _).trans hname.suffix).trans
    ((List.suffix_cons _ _).trans (skipSpace_suffix ht)))

mutual

theorem Value.shape {t r : Text} : Value t r → Shape t r
  | .literal h => .bare (literal_bare h).1 (literal_bare h).2
  | .number h => .bare h.bare.1 h.bare.2
  | .string h => .string h
  | .emptyObject h => .nested (.inl rfl) (.inl rfl) (skipSpace_suffix h)
  | .object h => .nested (.inl rfl) (.inl rfl) h.suffix
  | .emptyArray h => .nested (.inr rfl) (.inr rfl) (skipSpace_suffix h)
  | .array h => .nested (.inr rfl) (.inr rfl) h.suffix

theorem Members.suffix {t r : Text} {ms : List Member} : Members t ms r → '\x7d' :: r <:+ t
  | .last ht hname hw hvalue hz =>
    (skipSpace_suffix hz).trans (value_suffix ht hname hw hvalue.shape)
  | .more ht hname hw hvalue hz h =>
    h.suffix.trans (((List.suffix_cons _ _).trans (skipSpace_suffix hz)).trans
      (value_suffix ht hname hw hvalue.shape))

theorem Elements.suffix {t r : Text} : Elements t r → ']' :: r <:+ t
  | .last hvalue hz =>
    (skipSpace_suffix hz).trans (hvalue.shape.suffix.trans (skipSpace_suffix rfl))
  | .more hvalue hz h =>
    h.suffix.trans (((List.suffix_cons _ _).trans (skipSpace_suffix hz)).trans
      (hvalue.shape.suffix.trans (skipSpace_suffix rfl)))

end

/-! ## Members in their text -/

/-- The member stands in the text. -/
structure Member.In (m : Member) (t : Text) : Prop where
  name : '"' :: m.behindName <:+ t
  value : ∃ x, skipSpace m.behindName = ':' :: x ∧ m.value = skipSpace x
  shape : Shape m.value m.behind
  ends : ∃ c r, (c = ',' ∨ c = '\x7d') ∧ skipSpace m.behind = c :: r

theorem Member.In.mono {m : Member} {t t' : Text} (h : m.In t) (ht : t <:+ t') : m.In t' :=
  ⟨h.name.trans ht, h.value, h.shape, h.ends⟩

theorem Members.mem {t r : Text} {ms : List Member} : Members t ms r → ∀ m ∈ ms, m.In t
  | .last ht hname hw hvalue hz => fun m hm => by
    rw [List.mem_singleton.mp hm]
    exact ⟨hname.suffix.trans ((List.suffix_cons _ _).trans (skipSpace_suffix ht)),
      ⟨_, hw, rfl⟩, hvalue.shape, _, _, .inr rfl, hz⟩
  | .more ht hname hw hvalue hz h => fun m hm => by
    rcases List.mem_cons.mp hm with rfl | hm
    · exact ⟨hname.suffix.trans ((List.suffix_cons _ _).trans (skipSpace_suffix ht)),
        ⟨_, hw, rfl⟩, hvalue.shape, _, _, .inl rfl, hz⟩
    · exact (h.mem m hm).mono (((List.suffix_cons _ _).trans (skipSpace_suffix hz)).trans
        (value_suffix ht hname hw hvalue.shape))

/-- **Every member of a document stands in its text.** -/
theorem Document.mem {t : Text} {ms : List Member} (h : Document t ms) : ∀ m ∈ ms, m.In t := by
  cases h with
  | empty => exact fun m hm => absurd hm List.not_mem_nil
  | members ht h =>
    exact fun m hm => (h.mem m hm).mono ((List.suffix_cons _ _).trans (skipSpace_suffix ht))

end Lib.JsonText
