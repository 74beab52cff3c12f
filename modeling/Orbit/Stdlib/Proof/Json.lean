import Orbit.Runtime.JsonGrammar
import Orbit.Runtime.Proof.JsonWritten
import Orbit.Stdlib.Proof.Strings

/-!
# Quoted strings are read back

A replacement of one byte works byte by byte (`replace_byte_iff`), so the chain of `jsonQuote`
writes a string as the runtime does (`jsonQuote_iff`), and the reader undoes it
(`orbitJsonParse_jsonQuote_iff`), as long as an `int` counts the occurrences of each byte.
-/

namespace Stdlib.Json

open Runtime.Json
open Lib.Pieces (occurrences occurrences_none occurrences_some pieces_induct)
open Stdlib.Strings (Replaced orbitStringReplace replaceLoop)

/-- What a replacement of the byte `c` does to a byte. -/
def replaceByte (c : Char) (new : Text) (d : Char) : Text := if d = c then new else [d]

theorem flatMap_absent {c : Char} {r : Text} (new : Text) (h : c ∉ r) :
    r.flatMap (replaceByte c new) = r := by
  induction r with
  | nil => rfl
  | cons d r ih =>
    have hd : d ≠ c := fun hd => h (hd ▸ List.mem_cons_self)
    rw [List.flatMap_cons, ih fun hr => h (List.mem_cons_of_mem _ hr), replaceByte, if_neg hd]
    rfl

theorem single_starts {c : Char} {r : Text} {k : Nat} : [c] <+: r.drop k ↔ r[k]? = some c := by
  rw [← List.head?_drop]
  cases r.drop k with
  | nil => simp
  | cons d t => simp [List.cons_prefix_cons, eq_comm]

/-- The first occurrence of a byte cuts the text in two. -/
theorem indexOf_byte {c : Char} {r : Text} {p : Nat} (h : Lib.Find.indexOf [c] r = some p) :
    r = r.take p ++ c :: r.drop (p + 1) ∧ c ∉ r.take p := by
  obtain ⟨hhit, hmiss⟩ := Lib.Find.indexOf_some h
  obtain ⟨hp, hget⟩ := List.getElem?_eq_some_iff.mp (single_starts.mp hhit)
  constructor
  · rw [← hget, ← List.drop_eq_getElem_cons hp, List.take_append_drop]
  · intro hmem
    obtain ⟨k, hk⟩ := List.mem_iff_getElem?.mp hmem
    rw [List.getElem?_take] at hk
    split at hk
    · exact hmiss k (by assumption) (single_starts.mpr hk)
    · cases hk

theorem not_mem_of_indexOf {c : Char} {r : Text} (h : Lib.Find.indexOf [c] r = none) : c ∉ r := by
  intro hmem
  obtain ⟨k, hk⟩ := List.mem_iff_getElem?.mp hmem
  have hlt := (List.getElem?_eq_some_iff.mp hk).1
  exact Lib.Find.indexOf_none h k (Nat.le_of_lt hlt) (single_starts.mpr hk)

theorem replaceLoop_byte (c : Char) (new : Text) (n : Nat) (r : Text) (h : r.length ≤ n) :
    replaceLoop [c] new n r = r.flatMap (replaceByte c new) := by
  induction n generalizing r with
  | zero =>
    obtain rfl := List.eq_nil_of_length_eq_zero (Nat.le_zero.mp h)
    rfl
  | succ n ih =>
    rw [replaceLoop]
    cases hfind : Lib.Find.indexOf [c] r with
    | none => exact (flatMap_absent new (not_mem_of_indexOf hfind)).symm
    | some p =>
      obtain ⟨hcut, habsent⟩ := indexOf_byte hfind
      have hlen : (r.drop (p + 1)).length ≤ n := by
        rw [List.length_drop]
        omega
      have hnext := ih (r.drop (p + 1)) hlen
      dsimp only [List.length_singleton]
      conv_rhs => rw [hcut, List.flatMap_append, List.flatMap_cons, flatMap_absent new habsent]
      rw [hnext, replaceByte, if_pos rfl, List.append_assoc]

theorem occurrences_byte (c : Char) (s : Text) : occurrences [c] s = s.count c := by
  induction s using pieces_induct (List.cons_ne_nil c []) with
  | last s h => rw [occurrences_none h, List.count_eq_zero.mpr (not_mem_of_indexOf h)]
  | step s p h ih =>
    obtain ⟨hcut, habsent⟩ := indexOf_byte h
    rw [occurrences_some (List.cons_ne_nil c []) h, ih]
    conv_rhs => rw [hcut, List.count_append, List.count_eq_zero.mpr habsent, List.count_cons_self]
    rw [Nat.zero_add, List.length_singleton]

theorem length_replaceByte (c : Char) (a b : Char) (s : Text) :
    (s.flatMap (replaceByte c [a, b])).length = s.length + s.count c := by
  induction s with
  | nil => rfl
  | cons d s ih =>
    rw [List.flatMap_cons, List.length_append, ih, List.length_cons, replaceByte]
    by_cases hd : d = c
    · rw [if_pos hd, hd, List.count_cons_self, List.length_cons, List.length_singleton]
      omega
    · rw [if_neg hd, List.count_cons_of_ne hd, List.length_singleton]
      omega

theorem count_replaceByte {c d : Char} {new : Text} (hne : d ≠ c) (hnew : d ∉ new) (s : Text) :
    (s.flatMap (replaceByte c new)).count d = s.count d := by
  induction s with
  | nil => rfl
  | cons e s ih =>
    rw [List.flatMap_cons, List.count_append, ih, replaceByte]
    by_cases he : e = c
    · rw [if_pos he, List.count_eq_zero.mpr hnew, he, List.count_cons_of_ne hne.symm, Nat.zero_add]
    · rw [if_neg he, ← List.count_append, List.singleton_append]

/-- `n` occurrences of a byte in `s` can be counted, and the copy with two bytes for each fits its
block. -/
def Replaces (s : Text) (n : Nat) : Prop :=
  n ≤ 2147483647 ∧ (n = 0 ∨ s.length + n + 1 < 2 ^ 64)

/-- One byte is replaced everywhere. -/
theorem replace_byte_iff {s r : Text} {c a b : Char} :
    replace s [c] [a, b] = some r ↔
      Replaces s (s.count c) ∧ s.flatMap (replaceByte c [a, b]) = r := by
  have hlen := length_replaceByte c a b s
  have hblock : UInt64.ofNat s.length + UInt64.ofNat (s.count c) *
      (UInt64.ofNat [a, b].length - UInt64.ofNat [c].length) =
        UInt64.ofNat (s.length + s.count c) :=
    Strings.totalLen_eq (by simp only [List.length_cons, List.length_nil]; omega)
  rw [replace, orbitStringReplace, if_neg (List.cons_ne_nil _ _),
    Strings.countFrom_eq (List.cons_ne_nil _ _) (Nat.zero_le _) (Nat.le_refl _), occurrences_byte,
    Nat.zero_add, Replaces]
  by_cases hfits : s.count c ≤ 2147483647
  · rw [if_pos hfits, and_iff_right hfits]
    dsimp only
    by_cases hzero : s.count c = 0
    · rw [if_pos hzero, flatMap_absent _ (List.count_eq_zero.mp hzero)]
      exact ⟨fun h => ⟨.inl hzero, Option.some.inj h⟩, fun h => congrArg some h.2⟩
    · rw [if_neg hzero, hblock, replaceLoop_byte c _ _ s (Nat.le_refl _), Option.bind_some,
        returned, or_iff_right hzero, hlen]
      have hroom : s.length + s.count c < (UInt64.ofNat (s.length + s.count c) + 1).toNat ↔
          s.length + s.count c + 1 < 2 ^ 64 := by
        rw [UInt64.toNat_add, UInt64.toNat_ofNat', UInt64.toNat_one, Nat.mod_add_mod]
        omega
      rw [Option.ite_none_right_eq_some, hroom, Option.some.injEq]
  · rw [if_neg hfits]
    exact iff_of_false (by simp) fun h => hfits h.1.1

/-- The five replacements of a byte, one on what the other leaves, spell it as the runtime does. -/
theorem replaceByte_chain {c : Char} (h : ¬ isCodeEscaped c) :
    ((((replaceByte '\\' ['\\', '\\'] c).flatMap (replaceByte '"' ['\\', '"'])).flatMap
      (replaceByte '\n' ['\\', 'n'])).flatMap (replaceByte '\r' ['\\', 'r'])).flatMap
      (replaceByte '\t' ['\\', 't']) = jsonPutChar c := by
  by_cases hslash : c = '\\'
  · subst hslash
    decide
  by_cases hquote : c = '"'
  · subst hquote
    decide
  by_cases hnl : c = '\n'
  · subst hnl
    decide
  by_cases hcr : c = '\r'
  · subst hcr
    decide
  by_cases htab : c = '\t'
  · subst htab
    decide
  have hplain : ¬ c.toNat < 0x20 := fun hlow => h ⟨hlow, hnl, hcr, htab⟩
  simp [replaceByte, jsonPutChar, hslash, hquote, hnl, hcr, htab, hplain]

theorem flatMap_chain {s : Text} (h : ∀ c ∈ s, ¬ isCodeEscaped c) :
    ((((s.flatMap (replaceByte '\\' ['\\', '\\'])).flatMap (replaceByte '"' ['\\', '"'])).flatMap
      (replaceByte '\n' ['\\', 'n'])).flatMap (replaceByte '\r' ['\\', 'r'])).flatMap
      (replaceByte '\t' ['\\', 't']) = s.flatMap jsonPutChar := by
  induction s with
  | nil => rfl
  | cons c s ih =>
    simp only [List.flatMap_cons, List.flatMap_append]
    rw [replaceByte_chain (h c List.mem_cons_self), ih fun d hd => h d (List.mem_cons_of_mem _ hd)]

theorem nul_not_mem {s : Text} (h : ∀ c ∈ s, ¬ isCodeEscaped c) : ∀ c ∈ s, c ≠ nul := by
  rintro c hc rfl
  exact h nul hc ⟨by decide, by decide, by decide, by decide⟩

/-- The bytes that are replaced, each by two. -/
def replacedBytes : List Char := ['\\', '"', '\n', '\r', '\t']

/-- An `int` counts the occurrences of each of the bytes, and where there is one, the string with
all of them replaced has less than 2^64 bytes. -/
structure Quotable (s : Text) : Prop where
  counted : ∀ c ∈ replacedBytes, s.count c ≤ 2147483647
  sized : (replacedBytes.map s.count).sum = 0 ∨
    s.length + (replacedBytes.map s.count).sum + 1 < 2 ^ 64

theorem quotable_iff (s : Text) : Quotable s ↔
    (s.count '\\' ≤ 2147483647 ∧ s.count '"' ≤ 2147483647 ∧ s.count '\n' ≤ 2147483647 ∧
      s.count '\r' ≤ 2147483647 ∧ s.count '\t' ≤ 2147483647) ∧
    (s.count '\\' + (s.count '"' + (s.count '\n' + (s.count '\r' + s.count '\t'))) = 0 ∨
      s.length + (s.count '\\' + (s.count '"' + (s.count '\n' + (s.count '\r' + s.count '\t')))) +
        1 < 2 ^ 64) := by
  have hsum : (replacedBytes.map s.count).sum =
      s.count '\\' + (s.count '"' + (s.count '\n' + (s.count '\r' + s.count '\t'))) := by
    simp only [replacedBytes, List.map_cons, List.map_nil, List.sum_cons, List.sum_nil,
      Nat.add_zero]
  have hall : (∀ c ∈ replacedBytes, s.count c ≤ 2147483647) ↔ s.count '\\' ≤ 2147483647 ∧
      s.count '"' ≤ 2147483647 ∧ s.count '\n' ≤ 2147483647 ∧ s.count '\r' ≤ 2147483647 ∧
      s.count '\t' ≤ 2147483647 := by
    simp only [replacedBytes, List.forall_mem_cons, List.not_mem_nil, false_implies, implies_true,
      and_true]
  rw [← hsum, ← hall]
  exact ⟨fun h => ⟨h.counted, h.sized⟩, fun h => ⟨h.1, h.2⟩⟩

/-- The chain gets to its end on the strings whose bytes can be counted. -/
theorem jsonQuote_chain {s q : Text} :
    jsonQuote s = some q ↔ Quotable s ∧
      '"' :: ((((s.flatMap (replaceByte '\\' ['\\', '\\'])).flatMap
        (replaceByte '"' ['\\', '"'])).flatMap (replaceByte '\n' ['\\', 'n'])).flatMap
        (replaceByte '\r' ['\\', 'r'])).flatMap (replaceByte '\t' ['\\', 't']) ++ ['"'] = q := by
  simp only [jsonQuote, Option.bind_eq_bind, Option.bind_eq_some_iff, replace_byte_iff,
    and_assoc, exists_and_left, exists_eq_left', Option.pure_def, Option.some.injEq]
  simp (disch := decide) only [Replaces, length_replaceByte, count_replaceByte]
  rw [quotable_iff]
  constructor
  · rintro ⟨hslash, hquote, hfeed, hret, htab, hq⟩
    exact ⟨by omega, hq⟩
  · rintro ⟨hcounts, hq⟩
    exact ⟨by omega, by omega, by omega, by omega, by omega, hq⟩

/-- **A quoted string is what the runtime writes**, where the bytes can be counted. -/
theorem jsonQuote_iff {s q : Text} (h : ∀ c ∈ s, ¬ isCodeEscaped c) :
    jsonQuote s = some q ↔ Quotable s ∧ jsonPutString s = q := by
  have hnul : nul ∉ s := fun hmem => nul_not_mem h nul hmem rfl
  rw [jsonQuote_chain, flatMap_chain h, jsonPutString, cString_self hnul]
  rfl

/-- The document is what the runtime writes of the object with the one key. -/
theorem document_iff {F : Type} (printFloat : F → Text) {s t : Text}
    (h : ∀ c ∈ s, ¬ isCodeEscaped c) :
    document s = some t ↔
      Quotable s ∧ orbitObjectToJson printFloat (.cons ['k'] (.string s) .nil) = t := by
  have hkey : jsonPutString ['k'] = ['"', 'k', '"'] := by decide
  have hwritten : orbitObjectToJson printFloat (.cons ['k'] (.string s) .nil) =
      ['\x7b', '"', 'k', '"', ':'] ++ jsonPutString s ++ ['\x7d'] := by
    rw [orbitObjectToJson, jsonPutValue, jsonPutMembers, hkey, jsonPutValue]
    simp
  simp only [document, Option.map_eq_some_iff, jsonQuote_iff h, and_assoc, exists_and_left,
    exists_eq_left', hwritten]

/-- The value of `k` is read back. -/
def ReadBack {F : Type} (fl : Floats F) (s : Text) : Prop :=
  ∃ t o, document s = some t ∧ orbitJsonParse fl t = .ok o ∧ orbitObjectGet o ['k'] = .string s

/-- What the runtime writes of a string is read back. -/
theorem orbitJsonParse_written {F : Type} (fl : Floats F) {s : Text}
    (hs : ∀ c ∈ s, ¬ isCodeEscaped c) :
    orbitJsonParse fl (orbitObjectToJson (F := F) (fun _ => []) (.cons ['k'] (.string s) .nil)) =
      .ok (.cons ['k'] (.string s) .nil) := by
  have hnul := nul_not_mem hs
  have hdata : OrbitObject.IsData (F := F) (.cons ['k'] (.string s) .nil) :=
    ⟨List.not_mem_nil, trivial, trivial⟩
  have hstrings : OrbitObject.Strings (F := F) (· ≠ nul) (.cons ['k'] (.string s) .nil) :=
    ⟨by simp [nul], hnul, trivial⟩
  have hplain : OrbitObject.Strings (F := F) (¬ isCodeEscaped ·) (.cons ['k'] (.string s) .nil) :=
    ⟨by simp [isCodeEscaped], hs, trivial⟩
  rw [orbitJsonParse, jsonDocument_iff (followsString forward_jsonStride) (nul_not_mem_cString _),
    cString_written _ hdata hstrings]
  exact written_document fl _ jsonStride hdata hstrings hplain
    (by simp [OrbitObject.depth, OrbitValue.depth, ORBIT_JSON_MAX_DEPTH])

/-- **A quoted string is read back if and only if its bytes can be counted**, for every string
without control bytes other than line feed, carriage return and tab. -/
theorem orbitJsonParse_jsonQuote_iff {F : Type} (fl : Floats F) {s : Text}
    (h : ∀ c ∈ s, c.toNat < 0x20 → c = '\n' ∨ c = '\r' ∨ c = '\t') :
    ReadBack fl s ↔ Quotable s := by
  have hs : ∀ c ∈ s, ¬ isCodeEscaped c := by
    rintro c hc ⟨hlow, hnl, hcr, htab⟩
    rcases h c hc hlow with rfl | rfl | rfl
    · exact hnl rfl
    · exact hcr rfl
    · exact htab rfl
  constructor
  · rintro ⟨t, o, hdoc, -⟩
    exact ((document_iff (F := F) (fun _ => []) hs).mp hdoc).1
  · intro hquote
    exact ⟨_, _, (document_iff (F := F) (fun _ => []) hs).mpr ⟨hquote, rfl⟩,
      orbitJsonParse_written fl hs, rfl⟩

/-- Backslashes, quotes and line ends of every mix. -/
theorem orbitJsonParse_jsonQuote_mixed :
    ReadBack textFloats ['\\', '"', '\n', '\\', 'n', '\t', '\r'] :=
  (orbitJsonParse_jsonQuote_iff textFloats (by simp)).mpr
    ⟨by simp [replacedBytes], .inr (by simp [replacedBytes])⟩

/-- A string of 2147483648 backslashes has more than an `int` counts. -/
theorem orbitJsonParse_jsonQuote_many :
    ¬ ∀ s : Text, (∀ c ∈ s, c.toNat < 0x20 → c = '\n' ∨ c = '\r' ∨ c = '\t') →
      ReadBack textFloats s := by
  intro h
  have hplain : ∀ c ∈ List.replicate 2147483648 '\\', c.toNat < 0x20 →
      c = '\n' ∨ c = '\r' ∨ c = '\t' := by
    intro c hc hlow
    rw [List.eq_of_mem_replicate hc] at hlow
    exact absurd hlow (by decide)
  have hquote := (orbitJsonParse_jsonQuote_iff textFloats hplain).mp (h _ hplain)
  have hcount := hquote.counted '\\' List.mem_cons_self
  rw [List.count_replicate_self] at hcount
  exact absurd hcount (by decide)

end Stdlib.Json
