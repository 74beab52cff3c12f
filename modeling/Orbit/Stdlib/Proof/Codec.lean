import Mathlib.Tactic.IntervalCases
import Orbit.Lib.Bits
import Orbit.Stdlib.Codec

/-!
# The decoders accept what the encoders write

`base64Encode` is base 64 of RFC 4648 with padding, and `base64Decode` accepts the encodings of strings
and nothing else (`base64_codec`); `hexDecode` accepts the two digits of each byte in either case
(`hex_codec`). Both directions go group by group.
-/

namespace Stdlib.Codec

open Lib.Bits
open Runtime.Json (Text)
open Stdlib.Strings

/-! ## The alphabet -/

/-- The character of a sextet. -/
def sextetChar (v : Int) : Char := base64Char '+' '/' v.toNat

theorem alphabet_eq : alphabet = (List.range 64).map (base64Char '+' '/') := rfl

theorem slice_one {s : Text} {i : Int} (h0 : 0 ≤ i) (h : i < s.length) :
    orbitStringSlice s i (i + 1) = [s.getD i.toNat ' '] := by
  have hlt : i.toNat < s.length := by omega
  have hone : (i + 1 - i).toNat = 1 := by omega
  rw [orbitStringSlice]
  simp only [if_neg (show ¬ i < 0 by omega), if_neg (show ¬ i + 1 > s.length by omega),
    if_neg (show ¬ i ≥ i + 1 by omega), hone]
  rw [List.drop_eq_getElem_cons hlt, List.getD_eq_getElem _ _ hlt]
  rfl

theorem b64Char_eq {v : Int} (h0 : 0 ≤ v) (h : v < 64) : b64Char v = [sextetChar v] := by
  have hlen : alphabet.length = 64 := rfl
  have hlt : v.toNat < ((List.range 64).map (base64Char '+' '/')).length := by
    rw [List.length_map, List.length_range]
    omega
  rw [b64Char, slice_one h0 (by omega), alphabet_eq, List.getD_eq_getElem _ _ hlt, List.getElem_map,
    List.getElem_range]
  rfl

theorem b64StdVal_sextet {n : Nat} (h : n < 64) : b64StdVal (base64Char '+' '/' n).toNat = n := by
  have hall : ∀ n < 64, b64StdVal (base64Char '+' '/' n).toNat = n := by decide
  exact hall n h

theorem b64StdVal_sextetChar {v : Int} (h0 : 0 ≤ v) (h : v < 64) :
    b64StdVal (sextetChar v).toNat = v := by
  rw [sextetChar, b64StdVal_sextet (by omega)]
  omega

theorem b64StdVal_lt (c : Int) : -2 ≤ b64StdVal c ∧ b64StdVal c < 64 := by
  rw [b64StdVal]
  split_ifs <;> omega

/-- A character with a value is that of the sextet. -/
theorem sextetChar_b64StdVal {c : Char} (h : 0 ≤ b64StdVal c.toNat) :
    sextetChar (b64StdVal c.toNat) = c := by
  have hall : ∀ n : Nat, n < 128 → 0 ≤ b64StdVal n → sextetChar (b64StdVal n) = Char.ofNat n := by
    decide
  have hlt : c.toNat < 128 := by
    by_contra hge
    rw [b64StdVal] at h
    split_ifs at h <;> omega
  rw [hall _ hlt h, Char.ofNat_toNat]

/-- The padding is the one character with the value -2. -/
theorem b64StdVal_padding {c : Char} : b64StdVal c.toNat = -2 ↔ c = '=' := by
  refine ⟨fun h => ?_, fun h => h ▸ rfl⟩
  have hc : c.toNat = 61 := by
    rw [b64StdVal] at h
    split_ifs at h <;> omega
  rw [← Char.ofNat_toNat c, hc]

/-! ## Bytes -/

theorem fromChar_eq {b : Int} (h0 : 1 ≤ b) (h : b ≤ 255) :
    orbitStringFromChar b = [Char.ofNat b.toNat] := by
  rw [orbitStringFromChar, if_neg (by omega)]

theorem toNat_ofNat {n : Nat} (h : n < 256) : (Char.ofNat n).toNat = n := by
  have hv : n.isValidChar := Or.inl (by omega)
  rw [Char.ofNat, dif_pos hv]
  rfl

theorem toNat_fromChar {b : Int} (h0 : 0 ≤ b) (h : b < 256) :
    ((Char.ofNat b.toNat).toNat : Int) = b := by
  rw [toNat_ofNat (by omega)]
  omega

theorem isBytes_nil : IsBytes [] := fun _ h => absurd h List.not_mem_nil

theorem isBytes_cons {b : Int} (h0 : 1 ≤ b) (h : b ≤ 255) {s : Text} (hs : IsBytes s) :
    IsBytes (Char.ofNat b.toNat :: s) := by
  rintro c hc
  rcases List.mem_cons.mp hc with rfl | hc
  · rw [toNat_ofNat (by omega)]
    omega
  · exact hs c hc

/-! ## Groups of base 64 -/

theorem encodeQuantum_three {b0 b1 b2 : Int} (h0 : 0 ≤ b0 ∧ b0 < 256) (h1 : 0 ≤ b1 ∧ b1 < 256)
    (h2 : 0 ≤ b2 ∧ b2 < 256) : encodeQuantum b0 b1 b2 3 =
      [sextetChar (b0 / 4), sextetChar (b0 % 4 * 16 + b1 / 16), sextetChar (b1 % 16 * 4 + b2 / 64),
        sextetChar (b2 % 64)] := by
  rw [encodeQuantum, if_pos (by omega), if_pos (by omega), b64Char_eq (by omega) (by omega),
    b64Char_eq (by omega) (by omega), b64Char_eq (by omega) (by omega),
    b64Char_eq (by omega) (by omega)]
  rfl

theorem encodeQuantum_two {b0 b1 : Int} (h0 : 0 ≤ b0 ∧ b0 < 256) (h1 : 0 ≤ b1 ∧ b1 < 256) :
    encodeQuantum b0 b1 0 2 =
      [sextetChar (b0 / 4), sextetChar (b0 % 4 * 16 + b1 / 16), sextetChar (b1 % 16 * 4), '='] := by
  rw [encodeQuantum, if_pos (by omega), if_neg (by omega), b64Char_eq (by omega) (by omega),
    b64Char_eq (by omega) (by omega), b64Char_eq (by omega) (by omega)]
  simp only [Int.zero_ediv, Int.add_zero]
  rfl

theorem encodeQuantum_one {b0 : Int} (h0 : 0 ≤ b0 ∧ b0 < 256) :
    encodeQuantum b0 0 0 1 = [sextetChar (b0 / 4), sextetChar (b0 % 4 * 16), '=', '='] := by
  rw [encodeQuantum, if_neg (by omega), if_neg (by omega), b64Char_eq (by omega) (by omega),
    b64Char_eq (by omega) (by omega)]
  simp only [Int.zero_ediv, Int.add_zero]
  rfl

theorem base64EncodeFrom_out : ∀ (rest out : Text),
    base64EncodeFrom out rest = out ++ base64EncodeFrom [] rest
  | [], out => (List.append_nil out).symm
  | [_], _ => rfl
  | [_, _], _ => rfl
  | b0 :: b1 :: b2 :: rest, out => by
    rw [base64EncodeFrom, base64EncodeFrom, base64EncodeFrom_out rest,
      base64EncodeFrom_out rest ([] ++ _), List.append_assoc]
    rfl

theorem base64Encode_cons (b0 b1 b2 : Char) (rest : Text) :
    base64Encode (b0 :: b1 :: b2 :: rest) =
      encodeQuantum b0.toNat b1.toNat b2.toNat 3 ++ base64Encode rest := by
  rw [base64Encode, base64EncodeFrom, base64EncodeFrom_out]
  rfl

/-- A group that is accepted is one of three kinds. -/
theorem quantumBytes_inl {c0 c1 c2 c3 : Int} {n : Nat} (h0 : -2 ≤ c0) (h1 : -2 ≤ c1) (h2 : -2 ≤ c2)
    (h3 : -2 ≤ c3) (h : quantumBytes c0 c1 c2 c3 = .inl n) : 0 ≤ c0 ∧ 0 ≤ c1 ∧
      ((n = 1 ∧ c2 = -2 ∧ c3 = -2 ∧ c1 % 16 = 0) ∨ (n = 2 ∧ 0 ≤ c2 ∧ c3 = -2 ∧ c2 % 4 = 0) ∨
        (n = 3 ∧ 0 ≤ c2 ∧ 0 ≤ c3)) := by
  rw [quantumBytes] at h
  split_ifs at h <;> injection h <;> omega

theorem quantumBytes_inr {c0 c1 c2 c3 : Int} {e : OrbitResult Text} {r : Text}
    (h : quantumBytes c0 c1 c2 c3 = .inr e) : e ≠ .ok r := by
  rw [quantumBytes] at h
  split_ifs at h <;> injection h with h <;> subst h <;> exact nofun

theorem quantumBytes_three {c0 c1 c2 c3 : Int} (h0 : 0 ≤ c0) (h1 : 0 ≤ c1) (h2 : 0 ≤ c2)
    (h3 : 0 ≤ c3) : quantumBytes c0 c1 c2 c3 = .inl 3 := by
  rw [quantumBytes, if_neg (by omega), if_neg (by omega), if_neg (by omega), if_neg (by omega),
    if_neg (by omega)]

theorem quantumBytes_two {c0 c1 c2 : Int} (h0 : 0 ≤ c0) (h1 : 0 ≤ c1)
    (hlow : c2 % 4 = 0) : quantumBytes c0 c1 c2 (-2) = .inl 2 := by
  rw [quantumBytes, if_neg (by omega), if_neg (by omega), if_neg (by omega), if_pos (by omega),
    if_neg (by omega), if_neg (by omega)]

theorem quantumBytes_one {c0 c1 : Int} (h0 : 0 ≤ c0) (hlow : c1 % 16 = 0) :
    quantumBytes c0 c1 (-2) (-2) = .inl 1 := by
  rw [quantumBytes, if_neg (by omega), if_neg (by omega), if_pos (by omega), if_neg (by omega)]

/-- The bytes of a group, none of them NUL. -/
def groupBytes (c0 c1 c2 c3 : Int) (n : Nat) : List Int :=
  [c0 * 4 + c1 / 16, c1 % 16 * 16 + c2 / 4, c2 % 4 * 64 + c3].take n

theorem quantumText_eq {c0 c1 c2 c3 : Int} {n : Nat} (hn : 1 ≤ n ∧ n ≤ 3)
    (hbytes : ∀ b ∈ groupBytes c0 c1 c2 c3 n, 0 ≤ b ∧ b ≤ 255) (out : Text) :
    quantumText c0 c1 c2 c3 n out =
      if 0 ∈ groupBytes c0 c1 c2 c3 n then .inr noNul
      else .inl (out ++ (groupBytes c0 c1 c2 c3 n).map fun b => Char.ofNat b.toNat) := by
  have hchar {b : Int} (hb : 0 ≤ b ∧ b ≤ 255) (hne : b ≠ 0) :
      orbitStringFromChar b = [Char.ofNat b.toNat] := fromChar_eq (by omega) hb.2
  obtain rfl | rfl | rfl : n = 1 ∨ n = 2 ∨ n = 3 := by omega
  all_goals
    simp only [groupBytes, List.take_succ_cons, List.take_zero, List.mem_cons, List.not_mem_nil,
      or_false, forall_eq_or_imp, forall_eq] at hbytes
    simp only [quantumText, groupBytes, List.take_succ_cons, List.take_zero, List.mem_cons,
      List.not_mem_nil, or_false, List.map_cons, List.map_nil, eq_comm (a := (0 : Int)),
      Nat.reduceLeDiff, ge_iff_le, if_true, if_false]
  · by_cases h0 : c0 * 4 + c1 / 16 = 0
    · rw [if_pos h0, if_pos h0]
    · rw [if_neg h0, if_neg h0, hchar hbytes h0]
  · by_cases h0 : c0 * 4 + c1 / 16 = 0
    · rw [if_pos h0, if_pos (.inl h0)]
    · rw [if_neg h0, hchar hbytes.1 h0]
      by_cases h1 : c1 % 16 * 16 + c2 / 4 = 0
      · rw [if_pos h1, if_pos (.inr h1)]
      · rw [if_neg h1, if_neg (by tauto), hchar hbytes.2 h1, List.append_assoc]
        rfl
  · by_cases h0 : c0 * 4 + c1 / 16 = 0
    · rw [if_pos h0, if_pos (.inl h0)]
    · rw [if_neg h0, hchar hbytes.1 h0]
      by_cases h1 : c1 % 16 * 16 + c2 / 4 = 0
      · rw [if_pos h1, if_pos (.inr (.inl h1))]
      · rw [if_neg h1, hchar hbytes.2.1 h1]
        by_cases h2 : c2 % 4 * 64 + c3 = 0
        · rw [if_pos h2, if_pos (.inr (.inr h2))]
        · rw [if_neg h2, if_neg (by tauto), hchar hbytes.2.2 h2, List.append_assoc,
            List.append_assoc]
          rfl

theorem base64DecodeFrom_cons (out rest : Text) (c0 c1 c2 c3 : Char) :
    base64DecodeFrom out (c0 :: c1 :: c2 :: c3 :: rest) =
      match quantumBytes (b64StdVal c0.toNat) (b64StdVal c1.toNat) (b64StdVal c2.toNat)
        (b64StdVal c3.toNat) with
      | .inr e => e
      | .inl n =>
        if n < 3 ∧ rest ≠ [] then dataAfter
        else
          match quantumText (b64StdVal c0.toNat) (b64StdVal c1.toNat) (b64StdVal c2.toNat)
            (b64StdVal c3.toNat) n out with
          | .inr e => e
          | .inl out => base64DecodeFrom out rest := rfl

/-- A round with a group that is accepted. -/
theorem base64DecodeFrom_group {c0 c1 c2 c3 : Char} {v0 v1 v2 v3 : Int} {n : Nat} {bs : List Int}
    (h0 : b64StdVal c0.toNat = v0) (h1 : b64StdVal c1.toNat = v1) (h2 : b64StdVal c2.toNat = v2)
    (h3 : b64StdVal c3.toNat = v3) (hq : quantumBytes v0 v1 v2 v3 = .inl n) (hn : 1 ≤ n ∧ n ≤ 3)
    (hbs : groupBytes v0 v1 v2 v3 n = bs) (hbytes : ∀ b ∈ bs, 0 ≤ b ∧ b ≤ 255) (out rest : Text) :
    base64DecodeFrom out (c0 :: c1 :: c2 :: c3 :: rest) =
      if n < 3 ∧ rest ≠ [] then dataAfter
      else if 0 ∈ bs then noNul
      else base64DecodeFrom (out ++ bs.map fun b => Char.ofNat b.toNat) rest := by
  subst hbs
  rw [base64DecodeFrom_cons, h0, h1, h2, h3, hq]
  dsimp only
  rw [quantumText_eq hn hbytes]
  by_cases hdata : n < 3 ∧ rest ≠ []
  · rw [if_pos hdata, if_pos hdata]
  · rw [if_neg hdata, if_neg hdata]
    by_cases hnul : 0 ∈ groupBytes v0 v1 v2 v3 n
    · rw [if_pos hnul, if_pos hnul]
    · rw [if_neg hnul, if_neg hnul]

/-! ## Base 64 -/

theorem base64Decode_encode : ∀ {s : Text}, IsBytes s → ∀ out : Text,
    base64DecodeFrom out (base64Encode s) = .ok (out ++ s)
  | [], _, out => congrArg _ (List.append_nil out).symm
  | [b0], h, out => by
    obtain ⟨h0, h0', -⟩ := h.cons
    have henc : base64Encode [b0] = encodeQuantum b0.toNat 0 0 1 := rfl
    have hbs : groupBytes (b0.toNat / 4) (b0.toNat % 4 * 16) (-2) (-2) 1 = [(b0.toNat : Int)] := by
      rw [groupBytes, List.take_succ_cons, List.take_zero]
      congr 1
      omega
    rw [henc, encodeQuantum_one (by omega), base64DecodeFrom_group
      (b64StdVal_sextetChar (by omega) (by omega)) (b64StdVal_sextetChar (by omega) (by omega))
      (b64StdVal_padding.mpr rfl) (b64StdVal_padding.mpr rfl)
      (quantumBytes_one (by omega) (by omega)) (by omega) hbs
      (by simp only [List.mem_singleton, forall_eq]; omega), if_neg (fun hd => hd.2 rfl),
      if_neg (by simp only [List.mem_singleton]; omega), List.map_cons, List.map_nil,
      Int.toNat_natCast,
      Char.ofNat_toNat]
    rfl
  | [b0, b1], h, out => by
    obtain ⟨h0, h0', h⟩ := h.cons
    obtain ⟨h1, h1', -⟩ := h.cons
    have henc : base64Encode [b0, b1] = encodeQuantum b0.toNat b1.toNat 0 2 := rfl
    have hbs : groupBytes (b0.toNat / 4) (b0.toNat % 4 * 16 + b1.toNat / 16) (b1.toNat % 16 * 4)
        (-2) 2 = [(b0.toNat : Int), (b1.toNat : Int)] := by
      rw [groupBytes, List.take_succ_cons, List.take_succ_cons, List.take_zero]
      congr 1
      · omega
      · congr 1
        omega
    rw [henc, encodeQuantum_two (by omega) (by omega), base64DecodeFrom_group
      (b64StdVal_sextetChar (by omega) (by omega)) (b64StdVal_sextetChar (by omega) (by omega))
      (b64StdVal_sextetChar (by omega) (by omega)) (b64StdVal_padding.mpr rfl)
      (quantumBytes_two (by omega) (by omega) (by omega)) (by omega) hbs
      (by simp only [List.mem_cons, List.not_mem_nil, or_false, forall_eq_or_imp, forall_eq]; omega),
      if_neg (fun hd => hd.2 rfl),
      if_neg (by simp only [List.mem_cons, List.not_mem_nil, or_false]; omega), List.map_cons,
      List.map_cons, List.map_nil, Int.toNat_natCast, Int.toNat_natCast, Char.ofNat_toNat,
      Char.ofNat_toNat]
    rfl
  | b0 :: b1 :: b2 :: rest, h, out => by
    obtain ⟨h0, h0', h⟩ := h.cons
    obtain ⟨h1, h1', h⟩ := h.cons
    obtain ⟨h2, h2', hrest⟩ := h.cons
    have hbs : groupBytes (b0.toNat / 4) (b0.toNat % 4 * 16 + b1.toNat / 16)
        (b1.toNat % 16 * 4 + b2.toNat / 64) (b2.toNat % 64) 3 =
          [(b0.toNat : Int), (b1.toNat : Int), (b2.toNat : Int)] := by
      rw [groupBytes, List.take_succ_cons, List.take_succ_cons, List.take_succ_cons, List.take_zero]
      congr 1
      · omega
      · congr 1
        · omega
        · congr 1
          omega
    rw [base64Encode_cons, encodeQuantum_three (by omega) (by omega) (by omega)]
    change base64DecodeFrom out (_ :: _ :: _ :: _ :: base64Encode rest) = _
    rw [base64DecodeFrom_group
      (b64StdVal_sextetChar (by omega) (by omega)) (b64StdVal_sextetChar (by omega) (by omega))
      (b64StdVal_sextetChar (by omega) (by omega)) (b64StdVal_sextetChar (by omega) (by omega))
      (quantumBytes_three (by omega) (by omega) (by omega) (by omega)) (by omega) hbs
      (by simp only [List.mem_cons, List.not_mem_nil, or_false, forall_eq_or_imp, forall_eq]; omega),
      if_neg (fun hd => absurd hd.1 (by omega)),
      if_neg (by simp only [List.mem_cons, List.not_mem_nil, or_false]; omega), List.map_cons,
      List.map_cons, List.map_cons, List.map_nil, Int.toNat_natCast, Int.toNat_natCast,
      Int.toNat_natCast, Char.ofNat_toNat, Char.ofNat_toNat, Char.ofNat_toNat,
      base64Decode_encode hrest, List.append_assoc]
    rfl

theorem char_of_val {c : Char} {v : Int} (e : b64StdVal c.toNat = v) (h : 0 ≤ v) :
    sextetChar v = c := by
  subst e
  exact sextetChar_b64StdVal h

/-- What a round that does not stop says of its group. -/
theorem group_of_ok {c0 c1 c2 c3 : Char} {v0 v1 v2 v3 : Int} {n : Nat} {out rest r : Text}
    (h0 : b64StdVal c0.toNat = v0) (h1 : b64StdVal c1.toNat = v1) (h2 : b64StdVal c2.toNat = v2)
    (h3 : b64StdVal c3.toNat = v3) (hq : quantumBytes v0 v1 v2 v3 = .inl n) (hn : 1 ≤ n ∧ n ≤ 3)
    {bs : List Int} (hbs : groupBytes v0 v1 v2 v3 n = bs) (hbytes : ∀ b ∈ bs, 0 ≤ b ∧ b ≤ 255)
    (h : base64DecodeFrom out (c0 :: c1 :: c2 :: c3 :: rest) = .ok r) :
    (n < 3 → rest = []) ∧ (∀ b ∈ bs, 1 ≤ b) ∧
      base64DecodeFrom (out ++ bs.map fun b => Char.ofNat b.toNat) rest = .ok r := by
  rw [base64DecodeFrom_group h0 h1 h2 h3 hq hn hbs hbytes] at h
  by_cases hdata : n < 3 ∧ rest ≠ []
  · rw [if_pos hdata] at h
    exact nomatch h
  · rw [if_neg hdata] at h
    by_cases hnul : 0 ∈ bs
    · rw [if_pos hnul] at h
      exact nomatch h
    · rw [if_neg hnul] at h
      refine ⟨fun hlt => by_contra fun hne => hdata ⟨hlt, hne⟩, fun b hb => ?_, h⟩
      have hb0 : b ≠ 0 := fun hz => hnul (hz ▸ hb)
      have := (hbytes b hb).1
      omega

/-- What is accepted is the encoding of what comes out. -/
theorem encode_of_base64Decode : ∀ {t out r : Text}, base64DecodeFrom out t = .ok r →
    ∃ s, IsBytes s ∧ r = out ++ s ∧ t = base64Encode s
  | [], out, r, h => by
    injection h with h
    exact ⟨[], isBytes_nil, by rw [List.append_nil, h], rfl⟩
  | [_], _, _, h => nomatch h
  | [_, _], _, _, h => nomatch h
  | [_, _, _], _, _, h => nomatch h
  | c0 :: c1 :: c2 :: c3 :: rest, out, r, h => by
    obtain ⟨v0, e0⟩ : ∃ v, b64StdVal c0.toNat = v := ⟨_, rfl⟩
    obtain ⟨v1, e1⟩ : ∃ v, b64StdVal c1.toNat = v := ⟨_, rfl⟩
    obtain ⟨v2, e2⟩ : ∃ v, b64StdVal c2.toNat = v := ⟨_, rfl⟩
    obtain ⟨v3, e3⟩ : ∃ v, b64StdVal c3.toNat = v := ⟨_, rfl⟩
    obtain ⟨hv0, hv0'⟩ := e0 ▸ b64StdVal_lt c0.toNat
    obtain ⟨hv1, hv1'⟩ := e1 ▸ b64StdVal_lt c1.toNat
    obtain ⟨hv2, hv2'⟩ := e2 ▸ b64StdVal_lt c2.toNat
    obtain ⟨hv3, hv3'⟩ := e3 ▸ b64StdVal_lt c3.toNat
    cases hq : quantumBytes v0 v1 v2 v3 with
    | inr e =>
      rw [base64DecodeFrom_cons, e0, e1, e2, e3, hq] at h
      exact absurd h (quantumBytes_inr hq)
    | inl n =>
      obtain ⟨h0, h1, hkind⟩ := quantumBytes_inl hv0 hv1 hv2 hv3 hq
      have hc0 := char_of_val e0 h0
      have hc1 := char_of_val e1 h1
      rcases hkind with ⟨rfl, h2, h3, hlow⟩ | ⟨rfl, h2, h3, hlow⟩ | ⟨rfl, h2, h3⟩
      · have hb : 0 ≤ v0 * 4 + v1 / 16 ∧ v0 * 4 + v1 / 16 ≤ 255 := by omega
        obtain ⟨hrest, hpos, h⟩ := group_of_ok e0 e1 e2 e3 hq (by omega) rfl
          (by simpa only [groupBytes, List.take_succ_cons, List.take_zero, List.mem_singleton,
            forall_eq] using hb) h
        obtain rfl := hrest (by omega)
        have hpos := hpos _ (List.mem_singleton.mpr rfl)
        injection h with h
        refine ⟨_, isBytes_cons hpos hb.2 isBytes_nil, h.symm, ?_⟩
        change _ = encodeQuantum _ 0 0 1
        rw [toNat_fromChar hb.1 (by omega), encodeQuantum_one (by omega),
          show (v0 * 4 + v1 / 16) / 4 = v0 by omega,
          show (v0 * 4 + v1 / 16) % 4 * 16 = v1 by omega, hc0, hc1,
          b64StdVal_padding.mp (e2.trans h2), b64StdVal_padding.mp (e3.trans h3)]
      · have hc2 := char_of_val e2 h2
        have hb : (0 ≤ v0 * 4 + v1 / 16 ∧ v0 * 4 + v1 / 16 ≤ 255) ∧
            (0 ≤ v1 % 16 * 16 + v2 / 4 ∧ v1 % 16 * 16 + v2 / 4 ≤ 255) := by omega
        obtain ⟨hrest, hpos, h⟩ := group_of_ok e0 e1 e2 e3 hq (by omega) rfl
          (by simpa only [groupBytes, List.take_succ_cons, List.take_zero, List.mem_cons,
            List.not_mem_nil, or_false, forall_eq_or_imp, forall_eq] using hb) h
        obtain rfl := hrest (by omega)
        have hpos0 := hpos _ List.mem_cons_self
        have hpos1 := hpos _ (List.mem_cons_of_mem _ List.mem_cons_self)
        injection h with h
        refine ⟨_, isBytes_cons hpos0 hb.1.2 (isBytes_cons hpos1 hb.2.2 isBytes_nil), h.symm, ?_⟩
        change _ = encodeQuantum _ _ 0 2
        rw [toNat_fromChar hb.1.1 (by omega), toNat_fromChar hb.2.1 (by omega),
          encodeQuantum_two (by omega) (by omega), show (v0 * 4 + v1 / 16) / 4 = v0 by omega,
          show (v0 * 4 + v1 / 16) % 4 * 16 + (v1 % 16 * 16 + v2 / 4) / 16 = v1 by omega,
          show (v1 % 16 * 16 + v2 / 4) % 16 * 4 = v2 by omega, hc0, hc1, hc2,
            b64StdVal_padding.mp (e3.trans h3)]
      · have hc2 := char_of_val e2 h2
        have hc3 := char_of_val e3 h3
        have hb : (0 ≤ v0 * 4 + v1 / 16 ∧ v0 * 4 + v1 / 16 ≤ 255) ∧
            (0 ≤ v1 % 16 * 16 + v2 / 4 ∧ v1 % 16 * 16 + v2 / 4 ≤ 255) ∧
            (0 ≤ v2 % 4 * 64 + v3 ∧ v2 % 4 * 64 + v3 ≤ 255) := by omega
        obtain ⟨-, hpos, h⟩ := group_of_ok e0 e1 e2 e3 hq (by omega) rfl
          (by simpa only [groupBytes, List.take_succ_cons, List.take_zero, List.mem_cons,
            List.not_mem_nil, or_false, forall_eq_or_imp, forall_eq] using hb) h
        have hpos0 := hpos _ List.mem_cons_self
        have hpos1 := hpos _ (List.mem_cons_of_mem _ List.mem_cons_self)
        have hpos2 := hpos _ (List.mem_cons_of_mem _ (List.mem_cons_of_mem _ List.mem_cons_self))
        obtain ⟨s, hs, hr, ht⟩ := encode_of_base64Decode h
        refine ⟨_, isBytes_cons hpos0 hb.1.2 (isBytes_cons hpos1 hb.2.1.2
          (isBytes_cons hpos2 hb.2.2.2 hs)), by rw [hr, List.append_assoc]; rfl, ?_⟩
        rw [base64Encode_cons, toNat_fromChar hb.1.1 (by omega), toNat_fromChar hb.2.1.1 (by omega),
          toNat_fromChar hb.2.2.1 (by omega), encodeQuantum_three (by omega) (by omega) (by omega),
          show (v0 * 4 + v1 / 16) / 4 = v0 by omega,
          show (v0 * 4 + v1 / 16) % 4 * 16 + (v1 % 16 * 16 + v2 / 4) / 16 = v1 by omega,
          show (v1 % 16 * 16 + v2 / 4) % 16 * 4 + (v2 % 4 * 64 + v3) / 64 = v2 by omega,
          show (v2 % 4 * 64 + v3) % 64 = v3 by omega, hc0, hc1, hc2, hc3, ← ht]
        rfl

theorem length_base64Encode : ∀ {s : Text}, IsBytes s → (base64Encode s).length % 4 = 0
  | [], _ => rfl
  | [b0], h => by
    obtain ⟨-, h0, -⟩ := h.cons
    change (encodeQuantum b0.toNat 0 0 1).length % 4 = 0
    rw [encodeQuantum_one (by omega)]
    simp only [List.length_cons, List.length_nil]
  | [b0, b1], h => by
    obtain ⟨-, h0, h⟩ := h.cons
    obtain ⟨-, h1, -⟩ := h.cons
    change (encodeQuantum b0.toNat b1.toNat 0 2).length % 4 = 0
    rw [encodeQuantum_two (by omega) (by omega)]
    simp only [List.length_cons, List.length_nil]
  | b0 :: b1 :: b2 :: rest, h => by
    obtain ⟨-, h0, h⟩ := h.cons
    obtain ⟨-, h1, h⟩ := h.cons
    obtain ⟨-, h2, hrest⟩ := h.cons
    have ih := length_base64Encode hrest
    rw [base64Encode_cons, encodeQuantum_three (by omega) (by omega) (by omega), List.length_append]
    simp only [List.length_cons, List.length_nil]
    omega

/-- The encoder is that of RFC 4648, with padding. -/
theorem base64Encode_eq : ∀ {s : Text}, IsBytes s → base64Encode s = base64 (s.map Char.toNat)
  | [], _ => rfl
  | [b0], h => by
    obtain ⟨-, h0, -⟩ := h.cons
    change encodeQuantum b0.toNat 0 0 1 = (sextets [b0.toNat]).map _ ++ _
    rw [encodeQuantum_one (by omega), sextets_one h0]
    rfl
  | [b0, b1], h => by
    obtain ⟨-, h0, h⟩ := h.cons
    obtain ⟨-, h1, -⟩ := h.cons
    change encodeQuantum b0.toNat b1.toNat 0 2 = (sextets [b0.toNat, b1.toNat]).map _ ++ _
    rw [encodeQuantum_two (by omega) (by omega), sextets_two h0 h1]
    rfl
  | b0 :: b1 :: b2 :: rest, h => by
    obtain ⟨-, h0, h⟩ := h.cons
    obtain ⟨-, h1, h⟩ := h.cons
    obtain ⟨-, h2, hrest⟩ := h.cons
    have hlen : (3 - ((b0 :: b1 :: b2 :: rest).map Char.toNat).length % 3) % 3 =
        (3 - (rest.map Char.toNat).length % 3) % 3 := by
      simp only [List.map_cons, List.length_cons]
      omega
    have hmid : b1.toNat % 16 * 4 + b2.toNat / 64 % 4 = b1.toNat % 16 * 4 + b2.toNat / 64 := by omega
    rw [base64Encode_cons, encodeQuantum_three (by omega) (by omega) (by omega),
      base64Encode_eq hrest, base64, base64, hlen, List.map_cons, List.map_cons, List.map_cons,
      sextets_cons h0 h1, hmid]
    rfl

/-- Base 64 accepts the encodings of strings and nothing else. -/
theorem base64Decode_iff (t s : Text) :
    base64Decode t = .ok s ↔ IsBytes s ∧ t = base64 (s.map Char.toNat) := by
  constructor
  · intro h
    rw [base64Decode] at h
    split_ifs at h
    obtain ⟨s', hs', rfl, rfl⟩ := encode_of_base64Decode h
    exact ⟨hs', base64Encode_eq hs'⟩
  · rintro ⟨hs, rfl⟩
    rw [← base64Encode_eq hs, base64Decode, if_neg (not_not.mpr (length_base64Encode hs)),
      base64Decode_encode hs, List.nil_append]

/-! ## Hexadecimal -/

/-- The digit of a nibble. -/
def nibbleChar (v : Nat) : Char := if v < 10 then Char.ofNat (48 + v) else Char.ofNat (97 + (v - 10))

/-- The two digits of each byte. -/
def hexText (s : Text) : Text :=
  s.flatMap fun c => [nibbleChar (c.toNat / 16), nibbleChar (c.toNat % 16)]

theorem hexDigits_eq : hexDigits = (List.range 16).map nibbleChar := rfl

theorem hexDigit_eq {n : Nat} (h : n < 16) :
    orbitStringSlice hexDigits n (n + 1) = [nibbleChar n] := by
  have hlen : hexDigits.length = 16 := rfl
  have hlt : n < ((List.range 16).map nibbleChar).length := by
    rw [List.length_map, List.length_range]
    exact h
  rw [slice_one (by omega) (by omega), hexDigits_eq, Int.toNat_natCast, List.getD_eq_getElem _ _ hlt,
    List.getElem_map, List.getElem_range]

theorem hexEncodeFrom_eq {rest : Text} (h : IsBytes rest) (out : Text) :
    hexEncodeFrom out rest = out ++ hexText rest := by
  induction rest generalizing out with
  | nil => exact (List.append_nil out).symm
  | cons c rest ih =>
    obtain ⟨-, hc, hrest⟩ := h.cons
    have hhigh : ((c.toNat : Int) / 16) = (c.toNat / 16 : Nat) := by omega
    have hlow : ((c.toNat : Int) % 16) = (c.toNat % 16 : Nat) := by omega
    rw [hexEncodeFrom, ih hrest, hhigh, hlow, hexDigit_eq (by omega), hexDigit_eq (by omega),
      List.append_assoc, List.append_assoc]
    rfl

/-- The encoder writes two lower-case digits a byte. -/
theorem hexEncode_eq {s : Text} (h : IsBytes s) : hexEncode s = hexText s := hexEncodeFrom_eq h []

theorem hexVal_lt (c : Int) : hexVal c = -1 ∨ (0 ≤ hexVal c ∧ hexVal c < 16) := by
  rw [hexVal]
  split_ifs <;> omega

theorem toLower_of_ge {c : Char} (h : 128 ≤ c.toNat) : c.toLower = c := by
  have hno : ¬ (c.val ≥ 'A'.val ∧ c.val ≤ 'Z'.val) := by
    rintro ⟨-, hle⟩
    have hle : c.toNat ≤ 90 := hle
    omega
  delta Char.toLower
  exact dif_neg hno

theorem hexVal_toLower (c : Char) : hexVal c.toLower.toNat = hexVal c.toNat := by
  have hall : ∀ n : Nat, n < 128 → hexVal (Char.ofNat n).toLower.toNat = hexVal n := by decide
  by_cases hlt : c.toNat < 128
  · have := hall _ hlt
    rwa [Char.ofNat_toNat] at this
  · rw [toLower_of_ge (by omega)]

theorem nibbleChar_hexVal {c : Char} (h : 0 ≤ hexVal c.toNat) :
    nibbleChar (hexVal c.toNat).toNat = c.toLower := by
  have hall : ∀ n : Nat, n < 128 → 0 ≤ hexVal n →
      nibbleChar (hexVal n).toNat = (Char.ofNat n).toLower := by decide
  have hlt : c.toNat < 128 := by
    by_contra hge
    rw [hexVal] at h
    split_ifs at h <;> omega
  rw [hall _ hlt h, Char.ofNat_toNat]

theorem hexVal_of_nibbleChar {c : Char} {v : Nat} (hv : v < 16) (h : c.toLower = nibbleChar v) :
    hexVal c.toNat = v := by
  have hall : ∀ v : Nat, v < 16 → hexVal (nibbleChar v).toNat = v := by decide
  rw [← hexVal_toLower, h, hall v hv]

theorem hexDecodeFrom_cons (out rest : Text) (c0 c1 : Char) :
    hexDecodeFrom out (c0 :: c1 :: rest) =
      if hexVal c0.toNat = -1 ∨ hexVal c1.toNat = -1 then hexBadCharacter
      else if hexVal c0.toNat * 16 + hexVal c1.toNat = 0 then
        .err "not hex: NUL byte has no spelling" 2
      else hexDecodeFrom (out ++ orbitStringFromChar (hexVal c0.toNat * 16 + hexVal c1.toNat)) rest :=
  rfl

theorem decode_hexText {s : Text} (hs : IsBytes s) {t : Text} (out : Text)
    (h : t.map Char.toLower = hexText s) : hexDecodeFrom out t = .ok (out ++ s) := by
  induction s generalizing t out with
  | nil =>
    obtain rfl := List.map_eq_nil_iff.mp h
    exact congrArg _ (List.append_nil out).symm
  | cons c s ih =>
    obtain ⟨hpos, hlt, hs⟩ := hs.cons
    obtain ⟨c0, t, rfl, h0, h⟩ := List.map_eq_cons_iff.mp h
    obtain ⟨c1, t, rfl, h1, h⟩ := List.map_eq_cons_iff.mp h
    have hv0 := hexVal_of_nibbleChar (by omega) h0
    have hv1 := hexVal_of_nibbleChar (by omega) h1
    have hb : hexVal c0.toNat * 16 + hexVal c1.toNat = (c.toNat : Int) := by omega
    rw [hexDecodeFrom_cons, if_neg (by omega), if_neg (by omega), hb,
      fromChar_eq (by omega) (by omega), Int.toNat_natCast, Char.ofNat_toNat, ih hs _ h,
      List.append_assoc]
    rfl

theorem hexText_of_decode : ∀ {t out r : Text}, hexDecodeFrom out t = .ok r →
    ∃ s, IsBytes s ∧ r = out ++ s ∧ t.map Char.toLower = hexText s
  | [], out, r, h => by
    injection h with h
    exact ⟨[], isBytes_nil, by rw [List.append_nil, h], rfl⟩
  | [_], _, _, h => nomatch h
  | c0 :: c1 :: rest, out, r, h => by
    rw [hexDecodeFrom_cons] at h
    by_cases hbad : hexVal c0.toNat = -1 ∨ hexVal c1.toNat = -1
    · rw [if_pos hbad] at h
      exact nomatch h
    rw [if_neg hbad] at h
    by_cases hnul : hexVal c0.toNat * 16 + hexVal c1.toNat = 0
    · rw [if_pos hnul] at h
      exact nomatch h
    rw [if_neg hnul] at h
    obtain ⟨s, hs, hr, ht⟩ := hexText_of_decode h
    have h0 := hexVal_lt c0.toNat
    have h1 := hexVal_lt c1.toNat
    have hpos : 1 ≤ hexVal c0.toNat * 16 + hexVal c1.toNat := by omega
    have hle : hexVal c0.toNat * 16 + hexVal c1.toNat ≤ 255 := by omega
    have hb := toNat_fromChar (show 0 ≤ hexVal c0.toNat * 16 + hexVal c1.toNat by omega) (by omega)
    have hhigh : (Char.ofNat (hexVal c0.toNat * 16 + hexVal c1.toNat).toNat).toNat / 16 =
        (hexVal c0.toNat).toNat := by omega
    have hlow : (Char.ofNat (hexVal c0.toNat * 16 + hexVal c1.toNat).toNat).toNat % 16 =
        (hexVal c1.toNat).toNat := by omega
    refine ⟨_, isBytes_cons hpos hle hs, by rw [hr, fromChar_eq hpos hle, List.append_assoc]; rfl, ?_⟩
    change _ = nibbleChar _ :: nibbleChar _ :: hexText s
    rw [hhigh, hlow, nibbleChar_hexVal (by omega), nibbleChar_hexVal (by omega), ← ht]
    rfl

theorem length_hexText (s : Text) : (hexText s).length % 2 = 0 := by
  induction s with
  | nil => rfl
  | cons c s ih =>
    change (nibbleChar _ :: nibbleChar _ :: hexText s).length % 2 = 0
    simp only [List.length_cons]
    omega

/-- Hexadecimal is two digits a byte, of either case. -/
theorem hexDecode_iff (t s : Text) :
    hexDecode t = .ok s ↔ IsBytes s ∧ t.map Char.toLower = hexText s := by
  constructor
  · intro h
    rw [hexDecode] at h
    split_ifs at h
    obtain ⟨s', hs', rfl, ht⟩ := hexText_of_decode h
    exact ⟨hs', ht⟩
  · rintro ⟨hs, ht⟩
    have hlen := length_hexText s
    rw [← ht, List.length_map] at hlen
    rw [hexDecode, if_neg (not_not.mpr hlen), decode_hexText hs [] ht, List.nil_append]

/-! ## There and back -/

/-- **Base 64 decodes what it encodes and nothing else**, and encodes as RFC 4648 does. -/
theorem base64_codec (t s : Text) :
    (base64Decode t = .ok s ↔ IsBytes s ∧ t = base64Encode s) ∧
      (IsBytes s → base64Encode s = base64 (s.map Char.toNat)) := by
  refine ⟨(base64Decode_iff t s).trans (and_congr_right fun hs => ?_), base64Encode_eq⟩
  rw [base64Encode_eq hs]

/-- **Hexadecimal decodes what it encodes, in either case, and nothing else.** -/
theorem hex_codec (t s : Text) :
    hexDecode t = .ok s ↔ IsBytes s ∧ t.map Char.toLower = hexEncode s := by
  refine (hexDecode_iff t s).trans (and_congr_right fun hs => ?_)
  rw [hexEncode_eq hs]

end Stdlib.Codec
