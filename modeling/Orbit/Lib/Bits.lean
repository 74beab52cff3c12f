import Mathlib.Data.List.Basic
import Mathlib.Data.Nat.Bitwise
import Mathlib.Tactic.Ring

/-!
# Bit strings

A number as a string of bits of some width (`bits`), the number of such a string (`number`), and the
numbers of the successive fields of a long one (`fields`), the most significant bit first and the
last field filled with zeros. `sextets` and `octets` cut a string of octets into groups of six bits
and back; they are described group by group (`sextets_cons`, `octets_cons`), and `octets` undoes
`sextets`. Base 64 of RFC 4648 spells each sextet by a character.
-/

namespace Lib.Bits

/-! ## Numbers and their bits -/

def bits : (width n : Nat) → List Bool
  | 0, _ => []
  | w + 1, n => n.testBit w :: bits w n

def number (g : List Bool) : Nat := g.foldl (fun n b => 2 * n + b.toNat) 0

theorem bits_succ (w n : Nat) : bits (w + 1) n = n.testBit w :: bits w n := rfl

@[simp] theorem length_bits (w n : Nat) : (bits w n).length = w := by
  induction w with
  | zero => rfl
  | succ w ih => rw [bits_succ, List.length_cons, ih]

/-- The high bits and the low bits. -/
theorem bits_add (v w n : Nat) : bits (v + w) n = bits v (n / 2 ^ w) ++ bits w n := by
  induction v with
  | zero => rw [Nat.zero_add]; rfl
  | succ v ih =>
    rw [Nat.succ_add, bits_succ, bits_succ, ih, Nat.testBit_div_two_pow, List.cons_append]

theorem foldl_bits (n : Nat) (g : List Bool) :
    g.foldl (fun n b => 2 * n + b.toNat) n = n * 2 ^ g.length + number g := by
  induction g generalizing n with
  | nil => exact (Nat.mul_one n).symm
  | cons b g ih =>
    have hcons : number (b :: g) = g.foldl (fun n b => 2 * n + b.toNat) (2 * 0 + b.toNat) := rfl
    rw [List.foldl_cons, ih, hcons, ih, List.length_cons, Nat.pow_succ, Nat.add_mul, Nat.add_mul]
    ring

theorem number_append (g h : List Bool) :
    number (g ++ h) = number g * 2 ^ h.length + number h := by
  rw [number, List.foldl_append]
  exact foldl_bits _ h

theorem number_cons (b : Bool) (g : List Bool) :
    number (b :: g) = b.toNat * 2 ^ g.length + number g := by
  have h := number_append [b] g
  rwa [show number [b] = b.toNat by cases b <;> rfl] at h

theorem number_lt (g : List Bool) : number g < 2 ^ g.length := by
  induction g with
  | nil => exact Nat.one_pos
  | cons b g ih =>
    rw [number_cons, List.length_cons, Nat.pow_succ]
    cases b <;> simp only [Bool.toNat_false, Bool.toNat_true] <;> omega

theorem number_bits (w n : Nat) : number (bits w n) = n % 2 ^ w := by
  induction w with
  | zero => rw [Nat.pow_zero, Nat.mod_one]; rfl
  | succ w ih =>
    rw [bits_succ, number_cons, length_bits, ih, Nat.mod_pow_succ, Nat.toNat_testBit]
    ring

/-- The bits above the width do not count. -/
theorem bits_mod {w v : Nat} (h : w ≤ v) (n : Nat) : bits w (n % 2 ^ v) = bits w n := by
  induction w with
  | zero => rfl
  | succ w ih =>
    rw [bits_succ, bits_succ, ih (by omega), Nat.testBit_mod_two_pow,
      decide_eq_true (show w < v by omega), Bool.true_and]

theorem bits_zero (w : Nat) : bits w 0 = List.replicate w false := by
  induction w with
  | zero => rfl
  | succ w ih => rw [bits_succ, ih, Nat.zero_testBit, List.replicate_succ]

/-! ## Fields -/

/-- The number of a field of `k` bits. -/
def field (k : Nat) (l : List Bool) (i : Nat) : Nat :=
  number ((List.range k).map fun j => l.getD (k * i + j) false)

/-- The numbers of the first fields. -/
def fields (k count : Nat) (l : List Bool) : List Nat := (List.range count).map (field k l)

theorem map_getD_range (g l : List Bool) :
    ((List.range g.length).map fun j => (g ++ l).getD j false) = g := by
  refine List.ext_getElem (by simp) fun i hi hi' => ?_
  rw [List.getElem_map, List.getElem_range, List.getD_append _ _ _ _ hi',
    List.getD_eq_getElem _ _ hi']

theorem field_append_zero {k : Nat} {g : List Bool} (hg : g.length = k) (l : List Bool) :
    field k (g ++ l) 0 = number g := by
  rw [field, Nat.mul_zero, ← hg]
  simp only [Nat.zero_add]
  rw [map_getD_range]

theorem field_append_succ {k : Nat} {g : List Bool} (hg : g.length = k) (l : List Bool) (i : Nat) :
    field k (g ++ l) (i + 1) = field k l i := by
  rw [field, field]
  congr 1
  refine List.map_congr_left fun j _ => ?_
  rw [show k * (i + 1) + j = k + (k * i + j) by ring,
    List.getD_append_right _ _ _ _ (by omega), hg, Nat.add_sub_cancel_left]

theorem fields_append {k : Nat} {g : List Bool} (hg : g.length = k) (count : Nat) (l : List Bool) :
    fields k (count + 1) (g ++ l) = number g :: fields k count l := by
  rw [fields, List.range_succ_eq_map, List.map_cons, field_append_zero hg, List.map_map]
  exact congrArg _ (List.map_congr_left fun i _ => field_append_succ hg l i)

theorem field_drop (k : Nat) (l : List Bool) (i : Nat) : field k l i = field k (l.drop (k * i)) 0 := by
  rw [field, field]
  congr 1
  refine List.map_congr_left fun j _ => ?_
  rw [List.getD_eq_getElem?_getD, List.getD_eq_getElem?_getD, List.getElem?_drop, Nat.mul_zero,
    Nat.zero_add]

/-- Fields are filled with zeros. -/
theorem fields_fill (k count : Nat) (l : List Bool) (n : Nat) :
    fields k count (l ++ List.replicate n false) = fields k count l := by
  refine List.map_congr_left fun i _ => ?_
  rw [field, field]
  congr 1
  refine List.map_congr_left fun j _ => ?_
  by_cases h : k * i + j < l.length
  · rw [List.getD_append _ _ _ _ h]
  · rw [List.getD_append_right _ _ _ _ (by omega), List.getD_eq_default l false (by omega)]
    by_cases h' : k * i + j - l.length < (List.replicate n false).length
    · rw [List.getD_eq_getElem _ _ h', List.getElem_replicate]
    · rw [List.getD_eq_default _ _ (by omega)]

/-! ## Octets and sextets -/

/-- The bits of numbers of `w` bits. -/
def bitString (w : Nat) (xs : List Nat) : List Bool := xs.flatMap (bits w)

def sextets (octets : List Nat) : List Nat :=
  fields 6 ((8 * octets.length + 5) / 6) (bitString 8 octets)

def octets (sextets : List Nat) : List Nat :=
  fields 8 (6 * sextets.length / 8) (bitString 6 sextets)

theorem number_two (v w m n : Nat) :
    number (bits v m ++ bits w n) = m % 2 ^ v * 2 ^ w + n % 2 ^ w := by
  rw [number_append, number_bits, number_bits, length_bits]

theorem bitString_cons (w x : Nat) (xs : List Nat) :
    bitString w (x :: xs) = bits w x ++ bitString w xs := List.flatMap_cons

theorem bitString_append (w : Nat) (xs ys : List Nat) :
    bitString w (xs ++ ys) = bitString w xs ++ bitString w ys := List.flatMap_append

theorem length_bitString (w : Nat) (xs : List Nat) : (bitString w xs).length = w * xs.length := by
  induction xs with
  | nil => rfl
  | cons x xs ih =>
    rw [bitString_cons, List.length_append, length_bits, ih, List.length_cons, Nat.mul_succ,
      Nat.add_comm]

theorem drop_bitString (w : Nat) (xs : List Nat) (n : Nat) :
    (bitString w xs).drop (w * n) = bitString w (xs.drop n) := by
  induction n generalizing xs with
  | zero => rfl
  | succ n ih =>
    cases xs with
    | nil => exact List.drop_nil
    | cons x xs =>
      rw [bitString_cons, List.drop_succ_cons, ← ih, Nat.mul_succ, Nat.add_comm, ← List.drop_drop,
        List.drop_left' (length_bits w x)]

/-- A field of 32 bits is four octets. -/
theorem field_word {a b c d : Nat} (ha : a < 256) (hb : b < 256) (hc : c < 256) (hd : d < 256)
    (r : List Nat) : field 32 (bitString 8 (a :: b :: c :: d :: r)) 0 =
      a * 2 ^ 24 + (b * 2 ^ 16 + (c * 2 ^ 8 + d)) := by
  have hbits : bitString 8 (a :: b :: c :: d :: r) =
      (bits 8 a ++ (bits 8 b ++ (bits 8 c ++ bits 8 d))) ++ bitString 8 r := by
    simp only [bitString_cons, List.append_assoc]
  rw [hbits, field_append_zero (by simp only [List.length_append, length_bits]), number_append,
    number_append, number_append]
  simp only [List.length_append, length_bits, number_bits, Nat.mod_eq_of_lt ha, Nat.mod_eq_of_lt hb,
    Nat.mod_eq_of_lt hc, Nat.mod_eq_of_lt hd, Nat.reducePow, Nat.reduceAdd]

/-- The fields of a string of bits are those it is made of. -/
theorem fields_bitString (w : Nat) {xs : List Nat} (h : ∀ x ∈ xs, x < 2 ^ w) :
    fields w xs.length (bitString w xs) = xs := by
  induction xs with
  | nil => rfl
  | cons x xs ih =>
    rw [bitString_cons, List.length_cons, fields_append (length_bits w x), number_bits,
      Nat.mod_eq_of_lt (h x List.mem_cons_self), ih fun y hy => h y (List.mem_cons_of_mem x hy)]

/-- An octet is two fields of four bits. -/
theorem fields_halves {xs : List Nat} (h : ∀ x ∈ xs, x < 256) :
    fields 4 (2 * xs.length) (bitString 8 xs) = xs.flatMap fun x => [x / 16, x % 16] := by
  induction xs with
  | nil => rfl
  | cons x xs ih =>
    have hx := h x List.mem_cons_self
    rw [bitString_cons, List.length_cons, Nat.mul_succ, bits_add 4 4, List.append_assoc,
      fields_append (length_bits 4 _), fields_append (length_bits 4 x), number_bits, number_bits,
      ih fun y hy => h y (List.mem_cons_of_mem x hy), List.flatMap_cons,
      Nat.mod_eq_of_lt (show x / 2 ^ 4 < 2 ^ 4 by omega)]
    rfl

theorem bitString_zeros (w n : Nat) :
    bitString w (List.replicate n 0) = List.replicate (w * n) false := by
  induction n with
  | zero => rfl
  | succ n ih =>
    rw [List.replicate_succ, bitString_cons, ih, bits_zero, ← List.replicate_add, Nat.mul_succ,
      Nat.add_comm]

/-- Three octets are four sextets. -/
theorem sextets_cons {a b c : Nat} (ha : a < 256) (hb : b < 256) (r : List Nat) :
    sextets (a :: b :: c :: r) =
      a / 4 :: (a % 4 * 16 + b / 16) :: (b % 16 * 4 + c / 64 % 4) :: c % 64 :: sextets r := by
  have hbits : bitString 8 (a :: b :: c :: r) =
      bits 6 (a / 4) ++ ((bits 2 a ++ bits 4 (b / 16)) ++ ((bits 4 b ++ bits 2 (c / 64)) ++
        (bits 6 c ++ bitString 8 r))) := by
    rw [bitString_cons, bitString_cons, bitString_cons, bits_add 6 2 a, bits_add 4 4 b,
      bits_add 2 6 c]
    simp only [List.append_assoc]
    rfl
  have hcount : (8 * (a :: b :: c :: r).length + 5) / 6 = (8 * r.length + 5) / 6 + 4 := by
    simp only [List.length_cons]
    omega
  rw [sextets, hcount, hbits, fields_append (by simp), fields_append (by simp),
    fields_append (by simp), fields_append (by simp), number_bits, number_two, number_two,
    number_bits, Nat.mod_eq_of_lt (show a / 4 < 2 ^ 6 by omega),
    Nat.mod_eq_of_lt (show b / 16 < 2 ^ 4 by omega)]
  rfl

theorem sextets_two {a b : Nat} (ha : a < 256) (hb : b < 256) :
    sextets [a, b] = [a / 4, a % 4 * 16 + b / 16, b % 16 * 4] := by
  have hbits : bitString 8 [a, b] ++ List.replicate 2 false =
      bits 6 (a / 4) ++ ((bits 2 a ++ bits 4 (b / 16)) ++ ((bits 4 b ++ bits 2 0) ++ [])) := by
    rw [bitString_cons, bitString_cons, bits_add 6 2 a, bits_add 4 4 b]
    simp only [List.append_assoc]
    rfl
  rw [sextets, ← fields_fill 6 _ _ 2, hbits, show (8 * [a, b].length + 5) / 6 = 2 + 1 by simp,
    fields_append (by simp), fields_append (by simp), fields_append (by simp), number_bits,
    number_two, number_two, Nat.mod_eq_of_lt (show a / 4 < 2 ^ 6 by omega),
    Nat.mod_eq_of_lt (show b / 16 < 2 ^ 4 by omega)]
  rfl

theorem sextets_one {a : Nat} (ha : a < 256) : sextets [a] = [a / 4, a % 4 * 16] := by
  have hbits : bitString 8 [a] ++ List.replicate 4 false =
      bits 6 (a / 4) ++ ((bits 2 a ++ bits 4 0) ++ []) := by
    rw [bitString_cons, bits_add 6 2 a]
    simp only [List.append_assoc]
    rfl
  rw [sextets, ← fields_fill 6 _ _ 4, hbits, show (8 * [a].length + 5) / 6 = 1 + 1 by simp,
    fields_append (by simp), fields_append (by simp), number_bits, number_two,
    Nat.mod_eq_of_lt (show a / 4 < 2 ^ 6 by omega)]
  rfl

/-- Four sextets are three octets. -/
theorem octets_cons {a b c d : Nat} (ha : a < 64) (hb : b < 64) (hc : c < 64) (hd : d < 64)
    (r : List Nat) : octets (a :: b :: c :: d :: r) =
      (a * 4 + b / 16) :: (b % 16 * 16 + c / 4) :: (c % 4 * 64 + d) :: octets r := by
  have hbits : bitString 6 (a :: b :: c :: d :: r) =
      (bits 6 a ++ bits 2 (b / 16)) ++ ((bits 4 b ++ bits 4 (c / 4)) ++ ((bits 2 c ++ bits 6 d) ++
        bitString 6 r)) := by
    rw [bitString_cons, bitString_cons, bitString_cons, bitString_cons, bits_add 2 4 b,
      bits_add 4 2 c]
    simp only [List.append_assoc]
    rfl
  have hcount : 6 * (a :: b :: c :: d :: r).length / 8 = 6 * r.length / 8 + 3 := by
    simp only [List.length_cons]
    omega
  rw [octets, hcount, hbits, fields_append (by simp), fields_append (by simp),
    fields_append (by simp), number_two, number_two, number_two,
    Nat.mod_eq_of_lt (show a < 2 ^ 6 from ha), Nat.mod_eq_of_lt (show b / 16 < 2 ^ 2 by omega),
    Nat.mod_eq_of_lt (show c / 4 < 2 ^ 4 by omega), Nat.mod_eq_of_lt (show d < 2 ^ 6 from hd)]
  rfl

theorem octets_three {a b c : Nat} (ha : a < 64) (hb : b < 64) (hc : c < 64) :
    octets [a, b, c] = [a * 4 + b / 16, b % 16 * 16 + c / 4] := by
  have hbits : bitString 6 [a, b, c] =
      (bits 6 a ++ bits 2 (b / 16)) ++ ((bits 4 b ++ bits 4 (c / 4)) ++ bits 2 c) := by
    rw [bitString_cons, bitString_cons, bitString_cons, bits_add 2 4 b, bits_add 4 2 c]
    simp only [List.append_assoc]
    exact congrArg _ (congrArg _ (congrArg _ (congrArg _ (List.append_nil _))))
  rw [octets, hbits, show 6 * [a, b, c].length / 8 = 1 + 1 by simp, fields_append (by simp),
    fields_append (by simp), number_two, number_two, Nat.mod_eq_of_lt (show a < 2 ^ 6 from ha),
    Nat.mod_eq_of_lt (show b / 16 < 2 ^ 2 by omega), Nat.mod_eq_of_lt (show c / 4 < 2 ^ 4 by omega)]
  rfl

theorem octets_two {a b : Nat} (ha : a < 64) (hb : b < 64) : octets [a, b] = [a * 4 + b / 16] := by
  have hbits : bitString 6 [a, b] = (bits 6 a ++ bits 2 (b / 16)) ++ bits 4 b := by
    rw [bitString_cons, bitString_cons, bits_add 2 4 b, List.append_assoc]
    exact congrArg _ (congrArg _ (List.append_nil _))
  rw [octets, hbits, show 6 * [a, b].length / 8 = 0 + 1 by simp, fields_append (by simp),
    number_two, Nat.mod_eq_of_lt (show a < 2 ^ 6 from ha),
    Nat.mod_eq_of_lt (show b / 16 < 2 ^ 2 by omega)]
  rfl

/-- **The octets come back.** -/
theorem octets_sextets : ∀ {xs : List Nat}, (∀ x ∈ xs, x < 256) → octets (sextets xs) = xs
  | [], _ => rfl
  | [a], h => by
    have ha := h a List.mem_cons_self
    rw [sextets_one ha, octets_two (by omega) (by omega)]
    congr 1
    omega
  | [a, b], h => by
    have ha := h a List.mem_cons_self
    have hb := h b (by simp)
    rw [sextets_two ha hb, octets_three (by omega) (by omega) (by omega)]
    congr 1
    · omega
    · congr 1
      omega
  | a :: b :: c :: r, h => by
    have ha := h a List.mem_cons_self
    have hb := h b (by simp)
    have hc := h c (by simp)
    have hr : octets (sextets r) = r := octets_sextets fun x hx => h x (by simp [hx])
    rw [sextets_cons ha hb, octets_cons (by omega) (by omega) (by omega) (by omega), hr]
    congr 1
    · omega
    · congr 1
      · omega
      · congr 1
        omega

theorem sextets_lt {xs : List Nat} {y : Nat} (h : y ∈ sextets xs) : y < 64 := by
  obtain ⟨i, -, rfl⟩ := List.mem_map.mp h
  refine lt_of_lt_of_eq (number_lt _) ?_
  rw [List.length_map, List.length_range]
  rfl

/-! ## Base 64 -/

/-- The alphabets of RFC 4648, which differ in the last two characters. -/
def base64Char (c62 c63 : Char) (v : Nat) : Char :=
  if v < 26 then Char.ofNat (65 + v)
  else if v < 52 then Char.ofNat (97 + (v - 26))
  else if v < 62 then Char.ofNat (48 + (v - 52))
  else if v = 62 then c62
  else c63

/-- Base 64 of section 4, with padding. -/
def base64 (octets : List Nat) : List Char :=
  (sextets octets).map (base64Char '+' '/') ++ List.replicate ((3 - octets.length % 3) % 3) '='

/-- Base 64 of section 5 with the URL and filename safe alphabet, without padding. -/
def base64url (octets : List Nat) : List Char := (sextets octets).map (base64Char '-' '_')

end Lib.Bits
