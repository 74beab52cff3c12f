import Orbit.Lib.C.Strings
import Orbit.Build.Literal
import Orbit.Emit.Proof.Forms

/-!
# String literals from the source to C

The C literal of a string is read back as that string exactly when no ESC stands directly before a
hexadecimal digit, since `\x1b` takes the digit too (`bodyChars_escapeString`). An ordinary literal
has the bytes of its spellings (`unescapeStringBody_bytes`), so for a literal of the source the same
is said of the spellings in its text (`literals_iff`).
-/

namespace Emit

open IR
open Lib.C
open Lib.Text (chars)
open Build (Spelling escapeCode hexNibbleValue literalSpellings literalStringValue namedEscape
  rawStringValue spellings unescapeString unescapeStringBody unquote)

abbrev escChar : Char := '\x1b'

/-- No ESC directly before a hexadecimal digit. -/
def EscClear (s : Text) : Prop := s.IsChain fun a b => a = escChar → isHexDigit b = false

/-! ## From a string to its C literal -/

theorem escape_simple {c : Char} (h : c ≠ escChar) (t : Text) :
    bodyChars (escapeString.escape c ++ t) = (bodyChars t).map (c :: ·) := by
  have hcode : c.toNat ≠ 27 := fun hn => h (Char.toNat_inj.mp hn)
  rw [escapeString.escape]
  split_ifs with hb hq hn hr ht
  · subst hb
    exact bodyChars_simple (by decide) (by decide) (by decide) t
  · subst hq
    exact bodyChars_simple (by decide) (by decide) (by decide) t
  · subst hn
    exact bodyChars_simple (by decide) (by decide) (by decide) t
  · subst hr
    exact bodyChars_simple (by decide) (by decide) (by decide) t
  · subst ht
    exact bodyChars_simple (by decide) (by decide) (by decide) t
  · exact bodyChars_plain ⟨hb, hq, hn⟩ t

theorem escape_esc (t : Text) :
    bodyChars (escapeString.escape escChar ++ t) =
      if t.head?.any isHexDigit then none else (bodyChars t).map (escChar :: ·) := by
  have htext : escapeString.escape escChar = ['\\', 'x', '1', 'b'] := by
    have hchars : chars "\\x1b" = ['\\', 'x', '1', 'b'] := by simp [chars]
    rw [escapeString.escape, hchars]
    decide
  have hcode : charOfCode (16 * hexValue '1' + hexValue 'b') = some escChar := by decide
  rw [htext]
  show bodyChars ('\\' :: 'x' :: '1' :: 'b' :: t) = _
  exact bodyChars_hex (by decide) (by decide) (by decide) hcode t

/-- An escaped text starts with a hexadecimal digit exactly when the text does. -/
theorem head_escapeString (s : Text) :
    (escapeString s).head?.any isHexDigit = s.head?.any isHexDigit := by
  cases s with
  | nil => rfl
  | cons c s =>
    have hesc : chars "\\x1b" = ['\\', 'x', '1', 'b'] := by simp [chars]
    rw [escapeString, escapeString.escape, hesc]
    split_ifs with hb hq hn hr ht he
    · subst hb
      rfl
    · subst hq
      rfl
    · subst hn
      rfl
    · subst hr
      rfl
    · subst ht
      rfl
    · obtain rfl : c = escChar := Char.toNat_inj.mp he
      rfl
    · rfl

/-- **A string is read back from its C literal** exactly when no ESC stands before a hexadecimal
digit. -/
theorem bodyChars_escapeString (s : Text) : bodyChars (escapeString s) = some s ↔ EscClear s := by
  induction s with
  | nil => exact ⟨fun _ => .nil, fun _ => rfl⟩
  | cons c s ih =>
    have hmap : (bodyChars (escapeString s)).map (c :: ·) = some (c :: s) ↔
        bodyChars (escapeString s) = some s := by
      cases bodyChars (escapeString s) <;> simp
    rw [EscClear, List.isChain_cons, escapeString]
    by_cases hc : c = escChar
    · subst hc
      rw [escape_esc, head_escapeString]
      cases hhex : s.head?.any isHexDigit with
      | true =>
        obtain ⟨d, hd⟩ : ∃ d, s.head? = some d := by
          cases s with
          | nil => cases hhex
          | cons d s => exact ⟨d, rfl⟩
        have hdigit : isHexDigit d = true := by rwa [hd, Option.any_some] at hhex
        refine iff_of_false (by simp) fun h => ?_
        rw [h.1 d hd rfl] at hdigit
        cases hdigit
      | false =>
        rw [if_neg (by simp), hmap, ih]
        refine ⟨fun h => ⟨fun d hd _ => ?_, h⟩, fun h => h.2⟩
        rw [hd, Option.any_some] at hhex
        exact hhex
    · rw [escape_simple hc, hmap, ih]
      exact ⟨fun h => ⟨fun d _ he => absurd he hc, h⟩, fun h => h.2⟩

theorem literalChars_string (backend : CBackend) (s : String) :
    literalChars (generateValue backend (irString s)) = bodyChars (escapeString s.toList) :=
  literalChars_quote (scan_escapeString s.toList [])

/-! ## From the source to the string -/

/-- An ordinary literal has the bytes of its spellings. -/
theorem unescapeStringBody_bytes (t : Text) :
    (spellings t).map Spelling.byte = (unescapeStringBody t).map some := by
  fun_induction unescapeStringBody t with
  | case1 a b t c hcode ih => simp [spellings, hcode, Spelling.byte, ih]
  | case2 a b t hcode ih => simp [spellings, hcode, Spelling.byte, ih]
  | case3 t hx ih => simp [spellings, namedEscape, Spelling.byte, ih]
  | case4 t hx _ ih => simp [spellings, namedEscape, Spelling.byte, ih]
  | case5 t hx _ _ ih => simp [spellings, namedEscape, Spelling.byte, ih]
  | case6 t hx _ _ _ ih => simp [spellings, namedEscape, Spelling.byte, ih]
  | case7 t hx _ _ _ _ ih => simp [spellings, namedEscape, Spelling.byte, ih]
  | case8 next t hx h1 h2 h3 h4 h5 ih =>
    have hnamed : namedEscape next = none := by
      rw [namedEscape, if_neg h1, if_neg h2, if_neg h3, if_neg h4, if_neg h5]
    rw [spellings, hnamed]
    · simp [Spelling.byte, ih]
    · exact hx
  | case9 c t hx h1 ih =>
    rw [spellings]
    · simp [Spelling.byte, ih]
    · exact hx
    · exact h1
  | case10 => rfl

/-- A literal has the bytes of its spellings. -/
theorem literal_bytes (valType : String) (text : Text) :
    (literalSpellings valType text).map Spelling.byte =
      (literalStringValue valType text).map some := by
  have hself : ∀ t : Text, (t.map Spelling.self).map Spelling.byte = t.map some := fun t => by
    rw [List.map_map]
    rfl
  rw [literalSpellings, literalStringValue]
  split_ifs with hraw hshort
  · rw [hself, rawStringValue]
    split_ifs with hlen
    · have hnil : (text.take (text.length - 3)).drop 3 = [] :=
        List.drop_eq_nil_of_le (by rw [List.length_take]; omega)
      rw [hnil]
    · rfl
  · rw [hself, unescapeString, if_pos hshort]
  · rw [unescapeString, if_neg hshort, unescapeStringBody_bytes]

/-- No spelling of ESC directly before a spelling of a hexadecimal digit. -/
def SpellsEscClear (ps : List Spelling) : Prop :=
  ps.IsChain fun p q => p.byte = some escChar → ∀ c, q.byte = some c → isHexDigit c = false

theorem spellsEscClear_iff {ps : List Spelling} {s : Text}
    (h : ps.map Spelling.byte = s.map some) : SpellsEscClear ps ↔ EscClear s := by
  have hps := List.isChain_map Spelling.byte (l := ps)
    (R := fun p q => p = some escChar → ∀ c, q = some c → isHexDigit c = false)
  have hs := List.isChain_map some (l := s)
    (R := fun p q => p = some escChar → ∀ c, q = some c → isHexDigit c = false)
  rw [h] at hps
  rw [SpellsEscClear, EscClear]
  refine hps.symm.trans (hs.trans ?_)
  simp only [Option.some.injEq, forall_eq']

section
variable (backend : CBackend)

/-- **String literals keep their bytes** exactly when nothing that spells ESC stands directly before
something that spells a hexadecimal digit. The first part is about every string, the second about
every literal of the source. -/
theorem literals_iff :
    (∀ s : Text, literalChars (generateValue backend (irString (String.ofList s))) = some s ↔
      EscClear s) ∧
    (∀ (valType : String) (text : Text),
      literalChars (generateValue backend
          (irString (String.ofList (literalStringValue valType text)))) =
        some (literalStringValue valType text) ↔ SpellsEscClear (literalSpellings valType text)) := by
  have hstring : ∀ s : Text,
      literalChars (generateValue backend (irString (String.ofList s))) = some s ↔ EscClear s := by
    intro s
    rw [literalChars_string, String.toList_ofList]
    exact bodyChars_escapeString s
  refine ⟨hstring, fun valType text => ?_⟩
  rw [hstring, spellsEscClear_iff (literal_bytes valType text)]

end

/-- The literal `"\x1bc"`: its two bytes are written `\x1bc`, one escape of three digits. -/
theorem escThenDigit_lost :
    ¬ ∀ (backend : CBackend) (valType : String) (text : Text),
      literalChars (generateValue backend
          (irString (String.ofList (literalStringValue valType text)))) =
        some (literalStringValue valType text) := by
  intro h
  have hvalue : literalStringValue "string" ['"', '\\', 'x', '1', 'b', 'c', '"'] = ['\x1b', 'c'] := by
    decide
  have hread := h ⟨initIRModule, initIRFunction "", [], [], [], fun _ => [], fun s => s.toList,
    fun s => s.toList⟩ "string" ['"', '\\', 'x', '1', 'b', 'c', '"']
  rw [hvalue, literalChars_string, String.toList_ofList, bodyChars_escapeString] at hread
  have hclear := (List.isChain_cons_cons.mp hread).1 rfl
  exact absurd hclear (by decide)

end Emit
