import Mathlib.Tactic.IntervalCases
import Orbit.Runtime.Crypto

/-!
# Hashes and base64url as their standards define them

`orbit_sha256` is SHA-256 (`orbitSha256_eq`, `orbitSha256Hex_eq`): its padded message, words, rounds
and digest are those of the standard as strings of bits, and its constants are the fractions of roots.
`orbit_hmac_sha256` is HMAC over it, and `orbit_base64url_encode` the encoding of RFC 4648
(`orbitHmacSha256Base64url_eq`); `orbit_ct_equal` is equality (`orbitCtEqual_iff`).
-/

namespace Runtime.Crypto

open Lib.Bits
open Lib.Sha256 (Word Octet Words)
open Json (Text)

/-! ## Base64url -/

theorem base64urlChars_eq : BASE64URL_CHARS = (List.range 64).map (base64Char '-' '_') := rfl

theorem base64urlChars_getD {v : Nat} (h : v < 64) :
    BASE64URL_CHARS.getD v ' ' = base64Char '-' '_' v := by
  rw [base64urlChars_eq, List.getD_eq_getElem _ _ (by simpa using h), List.getElem_map,
    List.getElem_range]

theorem toNat_triple (a b c : Octet) :
    ((a.setWidth 32 <<< 16) + (b.setWidth 32 <<< 8) + c.setWidth 32 : Word).toNat =
      a.toNat * 65536 + b.toNat * 256 + c.toNat := by
  have ha := a.isLt
  have hb := b.isLt
  have hc := c.isLt
  simp only [BitVec.toNat_add, BitVec.toNat_shiftLeft, BitVec.toNat_setWidth, Nat.shiftLeft_eq]
  omega

theorem toNat_and_sextet (x : Word) (n : Nat) :
    ((x >>> n) &&& 0x3f).toNat = x.toNat / 2 ^ n % 64 := by
  rw [BitVec.toNat_and, BitVec.toNat_ushiftRight, Nat.shiftRight_eq_div_pow]
  exact Nat.and_two_pow_sub_one_eq_mod _ 6

theorem encodeTriple_eq (a b c : Octet) :
    encodeTriple a b c = [a.toNat / 4, a.toNat % 4 * 16 + b.toNat / 16,
      b.toNat % 16 * 4 + c.toNat / 64 % 4, c.toNat % 64].map (base64Char '-' '_') := by
  have ha := a.isLt
  have hb := b.isLt
  have hc := c.isLt
  have hlast (x : Word) : (x &&& 0x3f).toNat = x.toNat / 2 ^ 0 % 64 := toNat_and_sextet x 0
  have h0 : (a.toNat * 65536 + b.toNat * 256 + c.toNat) / 2 ^ 18 % 64 = a.toNat / 4 := by omega
  have h1 : (a.toNat * 65536 + b.toNat * 256 + c.toNat) / 2 ^ 12 % 64 =
      a.toNat % 4 * 16 + b.toNat / 16 := by omega
  have h2 : (a.toNat * 65536 + b.toNat * 256 + c.toNat) / 2 ^ 6 % 64 =
      b.toNat % 16 * 4 + c.toNat / 64 % 4 := by omega
  have h3 : (a.toNat * 65536 + b.toNat * 256 + c.toNat) / 2 ^ 0 % 64 = c.toNat % 64 := by omega
  unfold encodeTriple
  dsimp only
  rw [toNat_and_sextet, toNat_and_sextet, toNat_and_sextet, hlast, toNat_triple, h0, h1, h2, h3,
    base64urlChars_getD (by omega), base64urlChars_getD (by omega), base64urlChars_getD (by omega),
    base64urlChars_getD (by omega)]
  rfl

/-- The loop writes the sextets, of which the last two or the last one may be filled up. -/
theorem encodeLoop_eq : ∀ data : List Octet,
    encodeLoop data = base64url (data.map BitVec.toNat) ++
      List.replicate ((3 - data.length % 3) % 3) 'A'
  | [] => rfl
  | [a] => by
    rw [encodeLoop, encodeTriple_eq]
    change _ = (sextets [a.toNat]).map _ ++ _
    rw [sextets_one a.isLt]
    rfl
  | [a, b] => by
    rw [encodeLoop, encodeTriple_eq]
    change _ = (sextets [a.toNat, b.toNat]).map _ ++ _
    rw [sextets_two a.isLt b.isLt]
    rfl
  | a :: b :: c :: rest => by
    have hlen : (a :: b :: c :: rest).length % 3 = rest.length % 3 := by
      simp only [List.length_cons]
      omega
    rw [encodeLoop, encodeTriple_eq, encodeLoop_eq rest, hlen]
    change _ = (sextets (a.toNat :: b.toNat :: c.toNat :: rest.map BitVec.toNat)).map _ ++ _
    rw [sextets_cons a.isLt b.isLt]
    rfl

/-- **The base64url encoder is that of RFC 4648, without padding.** -/
theorem orbitBase64urlEncode_eq (data : List Octet) :
    orbitBase64urlEncode data = base64url (data.map BitVec.toNat) := by
  have hloop := encodeLoop_eq data
  have hlen : (encodeLoop data).length =
      (base64url (data.map BitVec.toNat)).length + (3 - data.length % 3) % 3 := by
    rw [hloop, List.length_append, List.length_replicate]
  have hcut : (if data.length % 3 = 1 then (encodeLoop data).length - 2
      else if data.length % 3 = 2 then (encodeLoop data).length - 1
      else (encodeLoop data).length) = (base64url (data.map BitVec.toNat)).length := by
    split_ifs <;> omega
  rw [orbitBase64urlEncode, hcut, hloop, List.take_left]

/-! ## Constants and functions -/

theorem SIG0_eq (x : Word) : SIG0 x = Lib.Sha256.bigSigma0 x := rfl
theorem SIG1_eq (x : Word) : SIG1 x = Lib.Sha256.bigSigma1 x := rfl
theorem sig0_eq (x : Word) : sig0 x = Lib.Sha256.sigma0 x := rfl
theorem sig1_eq (x : Word) : sig1 x = Lib.Sha256.sigma1 x := rfl

/-- The integer parts of the cube roots are at most 6. -/
theorem cubeRoots : ∀ t < 64, ∃ q < 7,
    (q * 2 ^ 32 + (K256.getD t 0).toNat) ^ 3 ≤ Lib.Sha256.primes.getD t 0 * 2 ^ (32 * 3) ∧
      Lib.Sha256.primes.getD t 0 * 2 ^ (32 * 3) < (q * 2 ^ 32 + (K256.getD t 0).toNat + 1) ^ 3 := by
  decide

theorem roundConstant_eq {t : Nat} (h : t < 64) :
    Lib.Sha256.roundConstant t = K256.getD t 0 := by
  obtain ⟨q, -, hle, hlt⟩ := cubeRoots t h
  exact Lib.Sha256.rootFraction_eq hle hlt

theorem initial_eq : Lib.Sha256.initial = initialHash := by
  have hroot {p q : Nat} {w : Word} (hle : (q * 2 ^ 32 + w.toNat) ^ 2 ≤ p * 2 ^ (32 * 2))
      (hlt : p * 2 ^ (32 * 2) < (q * 2 ^ 32 + w.toNat + 1) ^ 2) :
      Lib.Sha256.rootFraction 2 p = w := Lib.Sha256.rootFraction_eq hle hlt
  have h0 : Lib.Sha256.rootFraction 2 2 = 0x6a09e667 := hroot (q := 1) (by decide) (by decide)
  have h1 : Lib.Sha256.rootFraction 2 3 = 0xbb67ae85 := hroot (q := 1) (by decide) (by decide)
  have h2 : Lib.Sha256.rootFraction 2 5 = 0x3c6ef372 := hroot (q := 2) (by decide) (by decide)
  have h3 : Lib.Sha256.rootFraction 2 7 = 0xa54ff53a := hroot (q := 2) (by decide) (by decide)
  have h4 : Lib.Sha256.rootFraction 2 11 = 0x510e527f := hroot (q := 3) (by decide) (by decide)
  have h5 : Lib.Sha256.rootFraction 2 13 = 0x9b05688c := hroot (q := 3) (by decide) (by decide)
  have h6 : Lib.Sha256.rootFraction 2 17 = 0x1f83d9ab := hroot (q := 4) (by decide) (by decide)
  have h7 : Lib.Sha256.rootFraction 2 19 = 0x5be0cd19 := hroot (q := 4) (by decide) (by decide)
  change Words.mk (Lib.Sha256.rootFraction 2 2) (Lib.Sha256.rootFraction 2 3)
    (Lib.Sha256.rootFraction 2 5) (Lib.Sha256.rootFraction 2 7) (Lib.Sha256.rootFraction 2 11)
    (Lib.Sha256.rootFraction 2 13) (Lib.Sha256.rootFraction 2 17)
    (Lib.Sha256.rootFraction 2 19) = _
  rw [h0, h1, h2, h3, h4, h5, h6, h7]
  rfl

/-! ## Padding -/

theorem padLoop_eq {fuel n : Nat} (h : (64 - n % 64) % 64 ≤ fuel) :
    padLoop fuel n = n + (64 - n % 64) % 64 := by
  induction fuel generalizing n with
  | zero =>
    rw [padLoop]
    omega
  | succ fuel ih =>
    rw [padLoop]
    split_ifs with hn
    · rw [ih (by omega)]
      omega
    · omega

theorem paddedLen_eq (len : Nat) : paddedLen len = len + 9 + (64 - (len + 9) % 64) % 64 :=
  padLoop_eq (by omega)

/-- The zeros between the bit behind the message and its length. -/
def zeroOctets (len : Nat) : Nat := paddedLen len - len - 9

theorem paddedLen_zeroOctets (len : Nat) :
    paddedLen len = len + zeroOctets len + 9 ∧ zeroOctets len < 64 ∧ paddedLen len % 64 = 0 := by
  have h := paddedLen_eq len
  unfold zeroOctets
  omega

theorem foldl_set_append {α : Type} (f : Nat → α) (pre : List α) (size : Nat) {count : Nat}
    (h : count ≤ size) (l : List α) :
    (List.range count).foldl (fun l i => l.set (pre.length + size - 1 - i) (f i)) (pre ++ l) =
      pre ++ (List.range count).foldl (fun l i => l.set (size - 1 - i) (f i)) l := by
  induction count with
  | zero => rfl
  | succ count ih =>
    rw [List.range_succ, List.foldl_append, List.foldl_append, ih (by omega)]
    change List.set _ _ _ = pre ++ List.set _ _ _
    rw [List.set_append_right _ _ (by omega)]
    congr 2
    omega

/-- The octets of the length. -/
def lengthOctets (bits : BitVec 64) : List Octet :=
  [(bits >>> 56).setWidth 8, (bits >>> 48).setWidth 8, (bits >>> 40).setWidth 8,
    (bits >>> 32).setWidth 8, (bits >>> 24).setWidth 8, (bits >>> 16).setWidth 8,
    (bits >>> 8).setWidth 8, (bits >>> 0).setWidth 8]

theorem paddedMsg_eq (data : List Octet) : paddedMsg data =
    (data ++ 0x80 :: List.replicate (zeroOctets data.length) 0) ++
      lengthOctets (BitVec.ofNat 64 data.length * 8) := by
  obtain ⟨hlen, -, -⟩ := paddedLen_zeroOctets data.length
  have hpre : (data ++ (0x80 : Octet) :: List.replicate (zeroOctets data.length) 0).length + 8 =
      paddedLen data.length := by
    rw [List.length_append, List.length_cons, List.length_replicate, hlen]
    omega
  have hmsg : (data ++ List.replicate (paddedLen data.length - data.length) (0 : Octet)).set
      data.length 0x80 = (data ++ 0x80 :: List.replicate (zeroOctets data.length) 0) ++
        List.replicate 8 0 := by
    rw [show paddedLen data.length - data.length = zeroOctets data.length + 8 + 1 by omega,
      List.replicate_succ, List.set_append_right _ _ (Nat.le_refl _), Nat.sub_self,
      List.replicate_add, List.append_assoc]
    rfl
  unfold paddedMsg
  dsimp only
  rw [hmsg, ← hpre, foldl_set_append _ _ 8 (Nat.le_refl 8)]
  rfl

theorem bits_lengthOctets (b : BitVec 64) :
    bitString 8 ((lengthOctets b).map BitVec.toNat) = bits 64 b.toNat := by
  have hoctet (n : Nat) : bits 8 ((b >>> n).setWidth 8 : Octet).toNat = bits 8 (b.toNat / 2 ^ n) := by
    rw [BitVec.toNat_setWidth, bits_mod (Nat.le_refl 8), BitVec.toNat_ushiftRight,
      Nat.shiftRight_eq_div_pow]
  have hsplit (n : Nat) : bits 64 n = bits 8 (n / 2 ^ 56) ++ (bits 8 (n / 2 ^ 48) ++
      (bits 8 (n / 2 ^ 40) ++ (bits 8 (n / 2 ^ 32) ++ (bits 8 (n / 2 ^ 24) ++
        (bits 8 (n / 2 ^ 16) ++ (bits 8 (n / 2 ^ 8) ++ (bits 8 (n / 2 ^ 0) ++ []))))))) := by
    rw [bits_add 8 56, bits_add 8 48, bits_add 8 40, bits_add 8 32, bits_add 8 24, bits_add 8 16,
      bits_add 8 8, Nat.pow_zero, Nat.div_one, List.append_nil]
  rw [hsplit]
  simp only [lengthOctets, List.map_cons, List.map_nil, bitString_cons, hoctet]
  rfl

/-- **The padded message is that of the standard.** -/
theorem bits_paddedMsg (data : List Octet) :
    bitString 8 ((paddedMsg data).map BitVec.toNat) =
      Lib.Sha256.pad (bitString 8 (data.map BitVec.toNat)) := by
  obtain ⟨hlen, hlt, hmod⟩ := paddedLen_zeroOctets data.length
  have hzeros : Lib.Sha256.zeros (8 * data.length) = 7 + 8 * zeroOctets data.length :=
    Lib.Sha256.zeros_eq (by omega) (by omega)
  have hlength : bits 64 (BitVec.ofNat 64 data.length * 8).toNat = bits 64 (8 * data.length) := by
    rw [BitVec.toNat_mul, BitVec.toNat_ofNat, bits_mod (Nat.le_refl 64), ← bits_mod (Nat.le_refl 64),
      Nat.mod_mul_mod, bits_mod (Nat.le_refl 64), Nat.mul_comm]
    rfl
  rw [paddedMsg_eq, List.map_append, List.map_append, List.map_cons, List.map_replicate,
    bitString_append, bitString_append, bitString_cons, bits_lengthOctets, hlength,
    show (0 : Octet).toNat = 0 from rfl, bitString_zeros, Lib.Sha256.pad, length_bitString,
    List.length_map, hzeros, List.replicate_add]
  simp only [List.append_assoc]
  rfl

/-! ## Blocks -/

theorem toNat_word (a b c d : Octet) :
    ((a.setWidth 32 <<< 24) ||| (b.setWidth 32 <<< 16) ||| (c.setWidth 32 <<< 8) |||
      d.setWidth 32 : Word).toNat =
      a.toNat * 2 ^ 24 + (b.toNat * 2 ^ 16 + (c.toNat * 2 ^ 8 + d.toNat)) := by
  have ha := a.isLt
  have hb := b.isLt
  have hc := c.isLt
  have hd := d.isLt
  have hshift {x : Octet} {n : Nat} (hn : n ≤ 24) :
      (x.setWidth 32 <<< n : Word).toNat = x.toNat <<< n := by
    have hx := x.isLt
    have hpow : 2 ^ n ≤ 2 ^ 24 := Nat.pow_le_pow_right (by omega) hn
    rw [BitVec.toNat_shiftLeft, BitVec.toNat_setWidth,
      Nat.mod_eq_of_lt (show x.toNat < 2 ^ 32 by omega), Nat.shiftLeft_eq]
    refine Nat.mod_eq_of_lt ?_
    calc x.toNat * 2 ^ n ≤ 255 * 2 ^ 24 := Nat.mul_le_mul (by omega) hpow
      _ < 2 ^ 32 := by omega
  have hlow : (d.setWidth 32 : Word).toNat = d.toNat := by
    rw [BitVec.toNat_setWidth, Nat.mod_eq_of_lt (by omega)]
  rw [BitVec.toNat_or, BitVec.toNat_or, BitVec.toNat_or, hshift (by omega), hshift (by omega),
    hshift (by omega), hlow, Nat.or_assoc, Nat.or_assoc,
    ← Nat.shiftLeft_add_eq_or_of_lt (show d.toNat < 2 ^ 8 from hd),
    Nat.shiftLeft_eq c.toNat,
    ← Nat.shiftLeft_add_eq_or_of_lt (show c.toNat * 2 ^ 8 + d.toNat < 2 ^ 16 by omega),
    Nat.shiftLeft_eq b.toNat, ← Nat.shiftLeft_add_eq_or_of_lt
      (show b.toNat * 2 ^ 16 + (c.toNat * 2 ^ 8 + d.toNat) < 2 ^ 24 by omega), Nat.shiftLeft_eq]

theorem drop_four {α : Type} {l : List α} {n : Nat} (h : n + 3 < l.length) (x : α) :
    l.drop n = l.getD n x :: l.getD (n + 1) x :: l.getD (n + 2) x :: l.getD (n + 3) x ::
      l.drop (n + 4) := by
  rw [List.drop_eq_getElem_cons (show n < l.length by omega),
    List.drop_eq_getElem_cons (show n + 1 < l.length by omega),
    List.drop_eq_getElem_cons (show n + 1 + 1 < l.length by omega),
    List.drop_eq_getElem_cons (show n + 1 + 1 + 1 < l.length by omega),
    List.getD_eq_getElem l x (by omega), List.getD_eq_getElem l x (by omega),
    List.getD_eq_getElem l x (by omega), List.getD_eq_getElem l x h]

theorem loadWord_eq {msg : List Octet} {i j : Nat} (h : 64 * i + j * 4 + 3 < msg.length) :
    loadWord msg (64 * i) j = Lib.Sha256.blockWord (bitString 8 (msg.map BitVec.toNat)) i j := by
  apply BitVec.eq_of_toNat_eq
  rw [Lib.Sha256.blockWord, field_drop, show 32 * (16 * i + j) = 8 * (64 * i + j * 4) by omega,
    drop_bitString, ← List.map_drop, drop_four h 0, List.map_cons, List.map_cons, List.map_cons,
    List.map_cons, field_word (BitVec.isLt _) (BitVec.isLt _) (BitVec.isLt _) (BitVec.isLt _),
    ← toNat_word, BitVec.toNat_ofNat, Nat.mod_eq_of_lt (BitVec.isLt _)]
  rfl

theorem extend_eq (m : Nat → Word) {n : Nat} (hn : 16 ≤ n) (left : Nat) :
    extend left ((List.range n).map (Lib.Sha256.schedule m)) =
      (List.range (n + left)).map (Lib.Sha256.schedule m) := by
  have hget {i k : Nat} (h : i < k) :
      ((List.range k).map (Lib.Sha256.schedule m)).getD i 0 = Lib.Sha256.schedule m i := by
    rw [List.getD_eq_getElem _ _ (by simpa using h), List.getElem_map, List.getElem_range]
  induction left generalizing n with
  | zero => rfl
  | succ left ih =>
    have hlen : ((List.range n).map (Lib.Sha256.schedule m)).length = n := by
      rw [List.length_map, List.length_range]
    rw [extend, hlen, hget (show n - 2 < n by omega), hget (show n - 7 < n by omega),
      hget (show n - 15 < n by omega), hget (show n - 16 < n by omega), sig0_eq, sig1_eq,
      ← Lib.Sha256.schedule_high (show ¬ n < 16 by omega)]
    have hnext : (List.range n).map (Lib.Sha256.schedule m) ++ [Lib.Sha256.schedule m n] =
        (List.range (n + 1)).map (Lib.Sha256.schedule m) := by
      rw [List.range_succ, List.map_append]
      rfl
    rw [hnext, ih (by omega), Nat.add_right_comm, Nat.add_assoc]

theorem schedule_eq {msg : List Octet} {i : Nat} (h : 64 * (i + 1) ≤ msg.length) :
    schedule msg (64 * i) = (List.range 64).map
      (Lib.Sha256.schedule (Lib.Sha256.blockWord (bitString 8 (msg.map BitVec.toNat)) i)) := by
  have hload : (List.range 16).map (loadWord msg (64 * i)) = (List.range 16).map
      (Lib.Sha256.schedule (Lib.Sha256.blockWord (bitString 8 (msg.map BitVec.toNat)) i)) := by
    refine List.map_congr_left fun j hj => ?_
    have hj' := List.mem_range.mp hj
    rw [loadWord_eq (by omega), Lib.Sha256.schedule_low hj']
  rw [schedule, hload, extend_eq _ (Nat.le_refl 16)]

theorem round_eq {w : List Word} {t : Nat} (ht : t < 64) (v : Words) :
    round w v t = Lib.Sha256.round (Lib.Sha256.roundConstant t) (w.getD t 0) v := by
  rw [roundConstant_eq ht]
  rfl

theorem rounds_eq (s : Nat → Word) (h : Words) {t : Nat} (ht : t ≤ 64) :
    (List.range t).foldl (round ((List.range 64).map s)) h = Lib.Sha256.rounds s h t := by
  induction t with
  | zero => rfl
  | succ t ih =>
    have hlt : t < ((List.range 64).map s).length := ht
    have hw : ((List.range 64).map s).getD t 0 = s t := by
      rw [List.getD_eq_getElem _ _ hlt, List.getElem_map, List.getElem_range]
    rw [List.range_succ (n := t), List.foldl_append, ih (by omega), List.foldl_cons, List.foldl_nil,
      round_eq ht, hw, Lib.Sha256.rounds]

/-- A block is the computation of the standard. -/
theorem processChunk_eq {msg : List Octet} {i : Nat} (hi : 64 * (i + 1) ≤ msg.length) (h : Words) :
    processChunk msg h (64 * i) =
      Lib.Sha256.compress (Lib.Sha256.blockWord (bitString 8 (msg.map BitVec.toNat)) i) h := by
  rw [processChunk, schedule_eq hi, rounds_eq _ _ (Nat.le_refl 64), Lib.Sha256.compress,
    Lib.Sha256.Words.add]
  simp only [BitVec.add_comm]

theorem hashValue_eq (msg : List Octet) {n : Nat} (hn : 64 * n ≤ msg.length) :
    (List.range n).foldl (fun h i => processChunk msg h (64 * i)) initialHash =
      Lib.Sha256.hashValue (bitString 8 (msg.map BitVec.toNat)) n := by
  induction n with
  | zero => exact initial_eq.symm
  | succ n ih =>
    rw [List.range_succ, List.foldl_append, ih (by omega), List.foldl_cons, List.foldl_nil,
      processChunk_eq hn, Lib.Sha256.hashValue]

/-! ## The digest -/

theorem bits_storeWord (w : Word) :
    bitString 8 ((storeWord w).map BitVec.toNat) = bits 32 w.toNat := by
  have hoctet (x : Word) : bits 8 (x.setWidth 8 : Octet).toNat = bits 8 x.toNat := by
    rw [BitVec.toNat_setWidth, bits_mod (Nat.le_refl 8)]
  have hsplit (n : Nat) : bits 32 n = bits 8 (n / 2 ^ 24) ++ (bits 8 (n / 2 ^ 16) ++
      (bits 8 (n / 2 ^ 8) ++ (bits 8 n ++ []))) := by
    rw [bits_add 8 24, bits_add 8 16, bits_add 8 8, List.append_nil]
  rw [hsplit]
  simp only [storeWord, List.map_cons, List.map_nil, bitString_cons, hoctet,
    BitVec.toNat_ushiftRight, Nat.shiftRight_eq_div_pow]
  rfl

theorem bits_digest (ws : List Word) :
    bitString 8 ((ws.flatMap storeWord).map BitVec.toNat) = ws.flatMap fun w => bits 32 w.toNat := by
  induction ws with
  | nil => rfl
  | cons w ws ih =>
    rw [List.flatMap_cons, List.map_append, bitString_append, bits_storeWord, ih, List.flatMap_cons]

theorem length_paddedMsg (data : List Octet) : (paddedMsg data).length = paddedLen data.length := by
  rw [paddedMsg_eq, List.length_append, List.length_append, List.length_cons, List.length_replicate,
    (paddedLen_zeroOctets data.length).1]
  simp only [lengthOctets, List.length_cons, List.length_nil]
  omega

/-- The digest is that of SHA-256. -/
theorem bits_orbitSha256 (data : List Octet) :
    Lib.Sha256.sha256 (bitString 8 (data.map BitVec.toNat)) =
      bitString 8 ((orbitSha256 data).map BitVec.toNat) := by
  have hlen := length_paddedMsg data
  obtain ⟨-, -, hmod⟩ := paddedLen_zeroOctets data.length
  have hblocks : (Lib.Sha256.pad (bitString 8 (data.map BitVec.toNat))).length / 512 =
      paddedLen data.length / 64 := by
    rw [← bits_paddedMsg, length_bitString, List.length_map, hlen]
    omega
  have hvalue := hashValue_eq (paddedMsg data) (n := paddedLen data.length / 64) (by omega)
  rw [bits_paddedMsg] at hvalue
  rw [Lib.Sha256.sha256, hblocks, ← hvalue, orbitSha256, bits_digest]

theorem octets_orbitSha256 (data : List Octet) :
    ∀ x ∈ (orbitSha256 data).map BitVec.toNat, x < 256 := by
  rintro _ hx
  obtain ⟨x, -, rfl⟩ := List.mem_map.mp hx
  exact x.isLt

theorem length_orbitSha256 (data : List Octet) : (orbitSha256 data).length = 32 := rfl

theorem orbitSha256_eq (data : List Octet) : orbitSha256 data = Lib.Sha256.sha256Octets data := by
  have hfields := fields_bitString 8 (octets_orbitSha256 data)
  rw [List.length_map, length_orbitSha256] at hfields
  rw [Lib.Sha256.sha256Octets, bits_orbitSha256, hfields, List.map_map]
  exact (List.map_id'' (fun x => BitVec.eq_of_toNat_eq (by simp)) _).symm

/-- **The hash of a text is the digest of SHA-256**, a digit for four bits. -/
theorem orbitSha256Hex_eq (str : Text) : orbitSha256Hex str =
    (fields 4 64 (Lib.Sha256.sha256 (bitString 8 ((bytes str).map BitVec.toNat)))).map
      Nat.digitChar := by
  have hfields := fields_halves (octets_orbitSha256 (bytes str))
  rw [List.length_map, length_orbitSha256] at hfields
  rw [bits_orbitSha256, hfields, List.flatMap_map, List.map_flatMap]
  rfl

/-- The keyed hash is HMAC over SHA-256. -/
theorem orbitHmacSha256_eq (key data : List Octet) :
    orbitHmacSha256 key data = Lib.Sha256.hmac Lib.Sha256.sha256Octets 64 key data := by
  have hkey : (if key.length > 64 then orbitSha256 key ++ List.replicate 32 0
      else key ++ List.replicate (64 - key.length) 0) =
      Lib.Sha256.hmacKey Lib.Sha256.sha256Octets 64 key := by
    rw [Lib.Sha256.hmacKey]
    split_ifs
    · rw [← orbitSha256_eq]
      rfl
    · rfl
  rw [orbitHmacSha256, hkey, orbitSha256_eq, orbitSha256_eq]
  rfl

/-- **The signature of a text is HMAC over SHA-256**, in base64url. -/
theorem orbitHmacSha256Base64url_eq (key data : Text) : orbitHmacSha256Base64url key data =
    base64url ((Lib.Sha256.hmac Lib.Sha256.sha256Octets 64 (bytes key) (bytes data)).map
      BitVec.toNat) := by
  rw [orbitHmacSha256Base64url, orbitBase64urlEncode_eq, orbitHmacSha256_eq]

/-! ## Comparing secrets -/

/-- The accumulator stays zero as long as the octets agree. -/
theorem ctLoop_eq_zero {a b : List Octet} {n : Nat} (ha : n ≤ a.length) (hb : n ≤ b.length)
    (diff : Octet) : (List.range n).foldl (ctStep a b) diff = 0 ↔
      diff = 0 ∧ ∀ i < n, a.getD i 0 = b.getD i 0 := by
  induction n with
  | zero => exact ⟨fun h => ⟨h, fun i hi => absurd hi (Nat.not_lt_zero i)⟩, fun h => h.1⟩
  | succ n ih =>
    rw [List.range_succ, List.foldl_append, List.foldl_cons, List.foldl_nil, ctStep,
      if_pos (show n < a.length by omega), if_pos (show n < b.length by omega)]
    refine BitVec.or_eq_zero_iff.trans ?_
    rw [show (0#8 : Octet) = 0 from rfl, ih (by omega) (by omega), and_assoc]
    refine and_congr_right fun _ => ⟨fun ⟨hlt, hn⟩ i hi => ?_, fun h => ⟨fun i hi => h i (by omega), ?_⟩⟩
    · rcases Nat.lt_succ_iff_lt_or_eq.mp hi with hi | rfl
      · exact hlt i hi
      · exact BitVec.xor_eq_zero_iff.mp hn
    · exact BitVec.xor_eq_zero_iff.mpr (h n (Nat.lt_succ_self n))

theorem foldl_ctStep_ne_zero (a b : List Octet) {n : Nat} {diff : Octet} (h : diff ≠ 0) :
    (List.range n).foldl (ctStep a b) diff ≠ 0 := by
  induction n with
  | zero => exact h
  | succ n ih =>
    rw [List.range_succ, List.foldl_append, List.foldl_cons, List.foldl_nil, ctStep]
    exact fun hz => ih (BitVec.or_eq_zero_iff.mp hz).1

/-- **The comparison is equality**, whatever the lengths. -/
theorem orbitCtEqual_iff (a b : Text) : orbitCtEqual a b = true ↔ bytes a = bytes b := by
  rw [orbitCtEqual, decide_eq_true_eq]
  by_cases hlen : (bytes a).length = (bytes b).length
  · rw [if_neg (not_not.mpr hlen), if_neg (show ¬ (bytes a).length > (bytes b).length by omega),
      ctLoop_eq_zero (by omega) (by omega)]
    refine ⟨fun ⟨_, h⟩ => List.ext_getElem hlen fun i hi hi' => ?_, fun h => ⟨rfl, fun i _ => by rw [h]⟩⟩
    have := h i hi'
    rwa [List.getD_eq_getElem _ _ hi, List.getD_eq_getElem _ _ hi'] at this
  · rw [if_pos hlen]
    exact ⟨fun h => absurd h (foldl_ctStep_ne_zero _ _ (by decide)), fun h => absurd (congrArg _ h) hlen⟩

end Runtime.Crypto
