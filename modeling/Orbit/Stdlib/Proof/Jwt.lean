import Orbit.Runtime.Proof.Crypto
import Orbit.Stdlib.Jwt
import Orbit.Stdlib.Proof.Codec
import Orbit.Stdlib.Proof.Strings

/-!
# What a token is accepted for

`b64Decode` makes of a text the octets its sextets spell (`b64Decode_eq`) and undoes the encoder of
the runtime (`b64_codec`). A claim is the number behind the first occurrence of its quoted name
(`scanJsonInt_eq`, `scanJsonInt_written`). A token is accepted if its third segment is the keyed
hash of the first two and its claims admit the bearer (`verifyHs256_iff`); a signed payload comes
back from its token, which is accepted when the payload admits the bearer (`signToken_verified`).
-/

namespace Stdlib.Jwt

open Lib.Bits
open Runtime.Crypto (bytes orbitBase64urlEncodeStr orbitHmacSha256Base64url orbitCtEqual)
open Runtime.Json (Text)
open Lib.Decimal (isDigit digitsValue)
open Stdlib.Codec (fromChar_eq toNat_ofNat)
open Stdlib.Strings

/-! ## Base64url -/

/-- The value of a character. -/
def sextet (c : Char) : Nat := (b64Val c.toNat).toNat

/-- The bytes as text. A NUL leaves no trace. -/
def decodedText (ns : List Nat) : Text := (ns.filter (· ≠ 0)).map Char.ofNat

theorem decodedText_append (ms ns : List Nat) :
    decodedText (ms ++ ns) = decodedText ms ++ decodedText ns := by
  rw [decodedText, List.filter_append, List.map_append]
  rfl

theorem fromChar_decoded {n : Nat} (h : n < 256) : orbitStringFromChar n = decodedText [n] := by
  by_cases hn : n = 0
  · subst hn
    rfl
  · rw [fromChar_eq (by omega) (by omega), decodedText, List.filter_cons_of_pos (by simpa using hn)]
    rfl

theorem decodedText_bytes {s : Text} (h : IsBytes s) : decodedText (s.map Char.toNat) = s := by
  have hfilter : (s.map Char.toNat).filter (· ≠ 0) = s.map Char.toNat := by
    refine List.filter_eq_self.mpr fun n hn => ?_
    obtain ⟨c, hc, rfl⟩ := List.mem_map.mp hn
    have := (h c hc).1
    exact decide_eq_true (by omega)
  rw [decodedText, hfilter, List.map_map]
  exact List.map_id'' (fun c => Char.ofNat_toNat c) s

theorem b64Val_sextet {c : Char} (h : b64Val c.toNat ≠ -1) :
    b64Val c.toNat = sextet c ∧ sextet c < 64 := by
  have hrange : b64Val c.toNat = -1 ∨ (0 ≤ b64Val c.toNat ∧ b64Val c.toNat < 64) := by
    rw [b64Val]
    split_ifs <;> omega
  rw [sextet]
  omega

theorem b64Val_base64Char {v : Nat} (h : v < 64) : b64Val (base64Char '-' '_' v).toNat = v := by
  have hall : ∀ v : Nat, v < 64 → b64Val (base64Char '-' '_' v).toNat = v := by decide
  exact hall v h

theorem decodeQuantum_four (out : Text) {a b c d : Nat} (ha : a < 64) (hb : b < 64) (hc : c < 64)
    (hd : d < 64) : decodeQuantum out a b c d 4 =
      out ++ decodedText [a * 4 + b / 16, b % 16 * 16 + c / 4, c % 4 * 64 + d] := by
  have h0 : ((a : Int) * 4 + b / 16) = (a * 4 + b / 16 : Nat) := by omega
  have h1 : ((b : Int) % 16 * 16 + c / 4) = (b % 16 * 16 + c / 4 : Nat) := by omega
  have h2 : ((c : Int) % 4 * 64 + d) = (c % 4 * 64 + d : Nat) := by omega
  rw [decodeQuantum, h0, h1, h2, fromChar_decoded (by omega), fromChar_decoded (by omega),
    fromChar_decoded (by omega), if_pos (by omega), if_pos (by omega), List.append_assoc,
    List.append_assoc, ← decodedText_append, ← decodedText_append]
  rfl

theorem decodeQuantum_three (out : Text) {a b c : Nat} (ha : a < 64) (hb : b < 64) (hc : c < 64) :
    decodeQuantum out a b c 0 3 = out ++ decodedText [a * 4 + b / 16, b % 16 * 16 + c / 4] := by
  have h0 : ((a : Int) * 4 + b / 16) = (a * 4 + b / 16 : Nat) := by omega
  have h1 : ((b : Int) % 16 * 16 + c / 4) = (b % 16 * 16 + c / 4 : Nat) := by omega
  rw [decodeQuantum, h0, h1, fromChar_decoded (by omega), fromChar_decoded (by omega),
    if_neg (by omega), if_pos (by omega), List.append_assoc, ← decodedText_append]
  rfl

theorem decodeQuantum_two (out : Text) {a b : Nat} (ha : a < 64) (hb : b < 64) :
    decodeQuantum out a b 0 0 2 = out ++ decodedText [a * 4 + b / 16] := by
  have h0 : ((a : Int) * 4 + b / 16) = (a * 4 + b / 16 : Nat) := by omega
  rw [decodeQuantum, h0, fromChar_decoded (by omega), if_neg (by omega), if_neg (by omega)]

/-- What can be decoded: characters of the alphabet, and no group of one. -/
def Decodable (t : Text) : Prop := (∀ c ∈ t, b64Val c.toNat ≠ -1) ∧ t.length % 4 ≠ 1

instance (t : Text) : Decidable (Decodable t) :=
  inferInstanceAs (Decidable ((∀ c ∈ t, b64Val c.toNat ≠ -1) ∧ t.length % 4 ≠ 1))

theorem b64DecodeFrom_cons (out rest : Text) (c0 c1 c2 c3 : Char) :
    b64DecodeFrom out (c0 :: c1 :: c2 :: c3 :: rest) =
      if b64Val c0.toNat = -1 then []
      else if b64Val c1.toNat = -1 then []
      else if b64Val c2.toNat = -1 then []
      else if b64Val c3.toNat = -1 then []
      else b64DecodeFrom (decodeQuantum out (b64Val c0.toNat) (b64Val c1.toNat) (b64Val c2.toNat)
        (b64Val c3.toNat) 4) rest := rfl

theorem b64DecodeFrom_three (out : Text) (c0 c1 c2 : Char) : b64DecodeFrom out [c0, c1, c2] =
      if b64Val c0.toNat = -1 then []
      else if b64Val c1.toNat = -1 then []
      else if b64Val c2.toNat = -1 then []
      else decodeQuantum out (b64Val c0.toNat) (b64Val c1.toNat) (b64Val c2.toNat) 0 3 := rfl

theorem b64DecodeFrom_two (out : Text) (c0 c1 : Char) : b64DecodeFrom out [c0, c1] =
      if b64Val c0.toNat = -1 then []
      else if b64Val c1.toNat = -1 then []
      else decodeQuantum out (b64Val c0.toNat) (b64Val c1.toNat) 0 0 2 := rfl

theorem length_cons_four (c0 c1 c2 c3 : Char) (rest : Text) :
    (c0 :: c1 :: c2 :: c3 :: rest).length % 4 = rest.length % 4 := by
  simp only [List.length_cons]
  omega

theorem b64DecodeFrom_good : ∀ {t : Text}, Decodable t → ∀ out : Text,
    b64DecodeFrom out t = out ++ decodedText (octets (t.map sextet))
  | [], _, out => (List.append_nil out).symm
  | [_], h, _ => absurd rfl h.2
  | [c0, c1], h, out => by
    have h0 := h.1 c0 (by simp)
    have h1 := h.1 c1 (by simp)
    obtain ⟨e0, l0⟩ := b64Val_sextet h0
    obtain ⟨e1, l1⟩ := b64Val_sextet h1
    rw [b64DecodeFrom_two, if_neg h0, if_neg h1, e0, e1, decodeQuantum_two out l0 l1, List.map_cons,
      List.map_cons, List.map_nil, octets_two l0 l1]
  | [c0, c1, c2], h, out => by
    have h0 := h.1 c0 (by simp)
    have h1 := h.1 c1 (by simp)
    have h2 := h.1 c2 (by simp)
    obtain ⟨e0, l0⟩ := b64Val_sextet h0
    obtain ⟨e1, l1⟩ := b64Val_sextet h1
    obtain ⟨e2, l2⟩ := b64Val_sextet h2
    rw [b64DecodeFrom_three, if_neg h0, if_neg h1, if_neg h2, e0, e1, e2,
      decodeQuantum_three out l0 l1 l2, List.map_cons, List.map_cons, List.map_cons, List.map_nil,
      octets_three l0 l1 l2]
  | c0 :: c1 :: c2 :: c3 :: rest, h, out => by
    have h0 := h.1 c0 (by simp)
    have h1 := h.1 c1 (by simp)
    have h2 := h.1 c2 (by simp)
    have h3 := h.1 c3 (by simp)
    obtain ⟨e0, l0⟩ := b64Val_sextet h0
    obtain ⟨e1, l1⟩ := b64Val_sextet h1
    obtain ⟨e2, l2⟩ := b64Val_sextet h2
    obtain ⟨e3, l3⟩ := b64Val_sextet h3
    have hrest : Decodable rest :=
      ⟨fun c hc => h.1 c (by simp [hc]), length_cons_four c0 c1 c2 c3 rest ▸ h.2⟩
    rw [b64DecodeFrom_cons, if_neg h0, if_neg h1, if_neg h2, if_neg h3, b64DecodeFrom_good hrest, e0,
      e1, e2, e3, decodeQuantum_four out l0 l1 l2 l3, List.append_assoc, ← decodedText_append,
      List.map_cons, List.map_cons, List.map_cons, List.map_cons, octets_cons l0 l1 l2 l3]
    rfl

theorem b64DecodeFrom_bad : ∀ {t : Text}, ¬ Decodable t → ∀ out : Text, b64DecodeFrom out t = []
  | [], h, _ => absurd ⟨fun _ hc => absurd hc List.not_mem_nil, by decide⟩ h
  | [_], _, _ => rfl
  | [c0, c1], h, out => by
    rw [b64DecodeFrom_two]
    split_ifs with h0 h1
    · rfl
    · rfl
    · exact absurd ⟨by simp [h0, h1], by simp⟩ h
  | [c0, c1, c2], h, out => by
    rw [b64DecodeFrom_three]
    split_ifs with h0 h1 h2
    · rfl
    · rfl
    · rfl
    · exact absurd ⟨by simp [h0, h1, h2], by simp⟩ h
  | c0 :: c1 :: c2 :: c3 :: rest, h, out => by
    rw [b64DecodeFrom_cons]
    split_ifs with h0 h1 h2 h3
    · rfl
    · rfl
    · rfl
    · rfl
    · refine b64DecodeFrom_bad (fun hrest => h ⟨?_, ?_⟩) _
      · intro c hc
        simp only [List.mem_cons] at hc
        rcases hc with rfl | rfl | rfl | rfl | hc
        · exact h0
        · exact h1
        · exact h2
        · exact h3
        · exact hrest.1 c hc
      · rw [length_cons_four]
        exact hrest.2

/-- **What the decoder makes of any text**: the octets its sextets spell without the NULs among them,
and nothing if it is not base64url. -/
theorem b64Decode_eq (t : Text) :
    b64Decode t = if Decodable t then decodedText (octets (t.map sextet)) else [] := by
  rw [b64Decode]
  split_ifs with h
  · rw [b64DecodeFrom_good h, List.nil_append]
  · exact b64DecodeFrom_bad h []

theorem bytes_toNat {s : Text} (h : IsBytes s) : (bytes s).map BitVec.toNat = s.map Char.toNat := by
  rw [bytes, List.map_map]
  refine List.map_congr_left fun c hc => ?_
  exact (BitVec.toNat_ofNat _ _).trans (Nat.mod_eq_of_lt (h c hc).2)

theorem orbitBase64urlEncodeStr_eq {s : Text} (h : IsBytes s) :
    orbitBase64urlEncodeStr s = (sextets (s.map Char.toNat)).map (base64Char '-' '_') := by
  rw [orbitBase64urlEncodeStr, Runtime.Crypto.orbitBase64urlEncode_eq, bytes_toNat h, base64url]

/-- The decoder undoes the encoder of the runtime. -/
theorem b64Decode_encode {s : Text} (h : IsBytes s) : b64Decode (orbitBase64urlEncodeStr s) = s := by
  have hlt {v : Nat} (hv : v ∈ sextets (s.map Char.toNat)) : v < 64 := sextets_lt hv
  have hmap : (orbitBase64urlEncodeStr s).map sextet = sextets (s.map Char.toNat) := by
    rw [orbitBase64urlEncodeStr_eq h, List.map_map]
    refine (List.map_congr_left fun v hv => ?_).trans (List.map_id _)
    rw [Function.comp_apply, sextet, b64Val_base64Char (hlt hv), Int.toNat_natCast]
    rfl
  have hgood : Decodable (orbitBase64urlEncodeStr s) := by
    rw [orbitBase64urlEncodeStr_eq h]
    refine ⟨fun c hc => ?_, ?_⟩
    · obtain ⟨v, hv, rfl⟩ := List.mem_map.mp hc
      rw [b64Val_base64Char (hlt hv)]
      omega
    · rw [List.length_map, sextets, fields, List.length_map, List.length_range, List.length_map]
      omega
  rw [b64Decode_eq, if_pos hgood, hmap, octets_sextets, decodedText_bytes h]
  intro n hn
  obtain ⟨c, hc, rfl⟩ := List.mem_map.mp hn
  exact (h c hc).2

/-! ## Segments -/

theorem dot_cases (t : Text) : '.' ∉ t ∨ ∃ u r, '.' ∉ u ∧ t = u ++ '.' :: r := by
  by_cases h : '.' ∈ t
  · obtain ⟨u, r, rfl, hu⟩ := List.eq_append_cons_of_mem h
    exact .inr ⟨u, r, hu, rfl⟩
  · exact .inl h

theorem indexOf_dot_none {t : Text} (h : '.' ∉ t) : orbitStringIndexOf t ['.'] = -1 := by
  rw [orbitStringIndexOf_eq (List.cons_ne_nil _ _)]
  cases hidx : Lib.Find.indexOf ['.'] t with
  | none => rfl
  | some p =>
    obtain ⟨r, hr⟩ := (Lib.Find.indexOf_some hidx).1
    have hmem : '.' ∈ t.drop p := hr ▸ List.mem_append_left r (List.mem_singleton.mpr rfl)
    exact absurd (List.mem_of_mem_drop hmem) h

theorem indexOf_dot {u : Text} (h : '.' ∉ u) (r : Text) :
    orbitStringIndexOf (u ++ '.' :: r) ['.'] = u.length := by
  rw [orbitStringIndexOf_eq (List.cons_ne_nil _ _), Lib.Find.indexOf_hit h List.nil_prefix]

theorem bytes_inj {a b : Text} (ha : ∀ c ∈ a, c.toNat < 256) (hb : ∀ c ∈ b, c.toNat < 256)
    (h : bytes a = bytes b) : a = b := by
  have hback {t : Text} (ht : ∀ c ∈ t, c.toNat < 256) :
      (bytes t).map (fun b => Char.ofNat b.toNat) = t := by
    rw [bytes, List.map_map]
    refine (List.map_congr_left fun c hc => ?_).trans (List.map_id _)
    rw [Function.comp_apply, BitVec.toNat_ofNat, Nat.mod_eq_of_lt (ht c hc), Char.ofNat_toNat]
    rfl
  rw [← hback ha, h, hback hb]

theorem hmac_toNat_lt {secret data : Text} {c : Char}
    (h : c ∈ orbitHmacSha256Base64url secret data) : c.toNat < 256 := by
  have hall : ∀ v : Nat, v < 64 → (base64Char '-' '_' v).toNat < 256 := by decide
  rw [orbitHmacSha256Base64url, Runtime.Crypto.orbitBase64urlEncode_eq] at h
  obtain ⟨v, hv, rfl⟩ := List.mem_map.mp h
  exact hall v (sextets_lt hv)

/-- A header, a payload and the keyed hash of both. -/
def Signed (secret h p t : Text) : Prop := '.' ∉ h ∧ '.' ∉ p ∧
  t = h ++ '.' :: (p ++ '.' :: orbitHmacSha256Base64url secret (h ++ '.' :: p))

/-- What the two searches for a dot and the three slices find. -/
theorem token_parts {h p : Text} (hh : '.' ∉ h) (hp : '.' ∉ p) (sig : Text) :
    let t := h ++ '.' :: (p ++ '.' :: sig)
    orbitStringIndexOf t ['.'] = h.length ∧
      orbitStringSlice t (h.length + 1) t.length = p ++ '.' :: sig ∧
      orbitStringIndexOf (p ++ '.' :: sig) ['.'] = p.length ∧
      orbitStringSlice t 0 (h.length + 1 + p.length) = h ++ '.' :: p ∧
      orbitStringSlice t (h.length + 1 + p.length + 1) t.length = sig := by
  have ht : h ++ '.' :: (p ++ '.' :: sig) = (h ++ '.' :: p) ++ '.' :: sig := by
    rw [List.append_assoc]
    rfl
  have hlen : ((h ++ '.' :: p).length : Int) = h.length + 1 + p.length := by
    rw [List.length_append, List.length_cons]
    omega
  refine ⟨indexOf_dot hh _, slice_behind h '.' _, indexOf_dot hp sig, ?_, ?_⟩
  · rw [ht, ← hlen, slice_front]
  · rw [ht, ← hlen, slice_behind]

theorem parts_cases (t : Text) :
    ('.' ∉ t ∨ ∃ h r, '.' ∉ h ∧ '.' ∉ r ∧ t = h ++ '.' :: r) ∨
      ∃ h p sig, '.' ∉ h ∧ '.' ∉ p ∧ t = h ++ '.' :: (p ++ '.' :: sig) := by
  rcases dot_cases t with hno | ⟨h, r, hh, rfl⟩
  · exact .inl (.inl hno)
  · rcases dot_cases r with hno | ⟨p, sig, hp, rfl⟩
    · exact .inl (.inr ⟨h, r, hh, hno, rfl⟩)
    · exact .inr ⟨h, p, sig, hh, hp, rfl⟩

theorem not_signed {secret h p t : Text}
    (hno : '.' ∉ t ∨ ∃ u r, '.' ∉ u ∧ '.' ∉ r ∧ t = u ++ '.' :: r) : ¬ Signed secret h p t := by
  rintro ⟨hh, hp, ht⟩
  obtain ⟨hidx, hslice, -⟩ := token_parts hh hp (orbitHmacSha256Base64url secret (h ++ '.' :: p))
  rw [← ht] at hidx hslice
  rcases hno with hno | ⟨u, r, hu, hr, rfl⟩
  · rw [indexOf_dot_none hno] at hidx
    omega
  · rw [indexOf_dot hu] at hidx
    rw [← hidx, slice_behind] at hslice
    exact hr (hslice ▸ List.mem_append_right p List.mem_cons_self)

theorem verifyToken_parts {h p : Text} (hh : '.' ∉ h) (hp : '.' ∉ p) (sig secret : Text) :
    verifyToken (h ++ '.' :: (p ++ '.' :: sig)) secret =
      orbitCtEqual sig (orbitHmacSha256Base64url secret (h ++ '.' :: p)) := by
  obtain ⟨h1, h2, h3, h4, h5⟩ := token_parts hh hp sig
  rw [verifyToken]
  dsimp only
  rw [h1, h2, h3, h4, h5, if_neg (by omega), if_neg (by omega)]

/-- A comparison with the keyed hash is equality with it. -/
theorem ctEqual_hmac {sig : Text} (hsig : ∀ c ∈ sig, c.toNat < 256) (secret data : Text) :
    orbitCtEqual sig (orbitHmacSha256Base64url secret data) = true ↔
      sig = orbitHmacSha256Base64url secret data :=
  (Runtime.Crypto.orbitCtEqual_iff _ _).trans
    ⟨bytes_inj hsig fun _ hc => hmac_toNat_lt hc, fun h => h ▸ rfl⟩

/-! ## Numbers of the payload -/

/-- What may stand between a name and its number. -/
def isFiller (c : Char) : Bool := c = ':' || c = ' ' || c = '"'

/-- The number at the start of a text: digits, in 64 bits, with a minus sign before them or not. -/
def numberAt : Text → Option Int
  | '-' :: ds =>
    if ds.takeWhile isDigit = [] then none else some (toInt64 (-digitsValue (ds.takeWhile isDigit)))
  | ds =>
    if ds.takeWhile isDigit = [] then none
    else some (toInt64 (digitsValue (ds.takeWhile isDigit)))

/-- The number behind the first occurrence of the quoted name, wherever that is. -/
def claimOf (name payload : Text) : Option Int :=
  match Lib.Find.indexOf name payload with
  | none => none
  | some p => numberAt ((payload.drop (p + name.length)).dropWhile isFiller)

theorem digitLoop_eq (u r : Text) {fuel : Nat} (hfuel : r.length ≤ fuel) (n : Int) (digits : Nat) :
    digitLoop (u ++ r) fuel u.length (toInt64 n) digits =
      (toInt64 ((r.takeWhile isDigit).foldl (fun n c => n * 10 + (c.toNat - 48 : Nat)) n),
        digits + (r.takeWhile isDigit).length) := by
  induction r generalizing u fuel n digits with
  | nil =>
    cases fuel with
    | zero => rfl
    | succ fuel =>
      rw [digitLoop, if_neg (by simp)]
      rfl
  | cons c r ih =>
    obtain ⟨fuel, rfl⟩ : ∃ f, fuel = f + 1 := ⟨fuel - 1, by rw [List.length_cons] at hfuel; omega⟩
    have hfuel : r.length ≤ fuel := by
      rw [List.length_cons] at hfuel
      omega
    rw [digitLoop, if_pos (by simp), orbitStringAt_append]
    dsimp only
    by_cases hd : isDigit c = true
    · have hrange := (isDigit_iff c).mp hd
      have hnext := ih (u ++ [c]) hfuel (n * 10 + (c.toNat - 48 : Nat)) (digits + 1)
      rw [List.append_assoc, List.singleton_append, List.length_append, List.length_singleton] at hnext
      rw [if_neg hrange, toInt64_step, List.takeWhile_cons_of_pos hd, List.foldl_cons,
        List.length_cons, show ((c.toNat : Int) - 48) = (c.toNat - 48 : Nat) by omega,
        show (u.length : Int) + 1 = (u.length + 1 : Nat) from rfl, hnext, Nat.add_assoc,
        Nat.add_comm 1]
    · rw [if_pos (not_not.mp fun h => hd ((isDigit_iff c).mpr h)), List.takeWhile_cons_of_neg hd]
      rfl

theorem isFiller_iff (c : Char) : isFiller c = true ↔
    (c.toNat : Int) = 58 ∨ (c.toNat : Int) = 32 ∨ (c.toNat : Int) = 34 := by
  have hcolon : (c.toNat : Int) = 58 ↔ c = ':' := toNat_eq_iff c ':'
  have hspace : (c.toNat : Int) = 32 ↔ c = ' ' := toNat_eq_iff c ' '
  have hquote : (c.toNat : Int) = 34 ↔ c = '"' := toNat_eq_iff c '"'
  rw [hcolon, hspace, hquote, isFiller, Bool.or_eq_true, Bool.or_eq_true, decide_eq_true_eq,
    decide_eq_true_eq, decide_eq_true_eq, or_assoc]

/-- What follows the loop up to the number. -/
def scanTail (payloadJson : Text) : (stop : Option Int) → Int
  | none => -1
  | some i =>
    let (num, digits) := digitLoop payloadJson payloadJson.length i 0 0
    if digits = 0 then -1
    else if orbitStringAt payloadJson (i - 1) = 45 then toInt64 (0 - num)
    else num

/-- The digits at `r`, with a sign before them or not. -/
theorem scanTail_some (u : Text) (q : Char) (r : Text) :
    scanTail (u ++ q :: r) (some ((u.length : Int) + 1)) =
      if r.takeWhile isDigit = [] then -1
      else if q = '-' then toInt64 (-digitsValue (r.takeWhile isDigit))
      else toInt64 (digitsValue (r.takeWhile isDigit)) := by
  have hfuel : r.length ≤ (u ++ q :: r).length := by
    rw [List.length_append, List.length_cons]
    omega
  have hloop := digitLoop_eq (u ++ [q]) r hfuel 0 0
  rw [List.append_assoc, List.singleton_append, show toInt64 0 = 0 from rfl, Nat.zero_add,
    @List.length_append _ u [q]] at hloop
  have hminus : (q.toNat : Int) = 45 ↔ q = '-' := toNat_eq_iff q '-'
  have hback : (u.length : Int) + 1 - 1 = u.length := by omega
  rw [scanTail, show (u.length : Int) + 1 = (u.length + [q].length : Nat) from rfl, hloop]
  dsimp only
  rw [show ((u.length + [q].length : Nat) : Int) - 1 = u.length from hback, orbitStringAt_append]
  simp only [hminus, List.length_eq_zero_iff]
  rw [toInt64_neg]
  rfl

theorem numberAt_minus (ds : Text) : numberAt ('-' :: ds) =
    if ds.takeWhile isDigit = [] then none
    else some (toInt64 (-digitsValue (ds.takeWhile isDigit))) := rfl

theorem numberAt_cons {c : Char} (h : c ≠ '-') (ds : Text) : numberAt (c :: ds) =
    if (c :: ds).takeWhile isDigit = [] then none
    else some (toInt64 (digitsValue ((c :: ds).takeWhile isDigit))) := by
  rw [numberAt]
  rintro _ heq
  exact h (List.cons.inj heq).1

/-- The two loops read the number behind what may stand before it. -/
theorem scanTail_skip (u : Text) {q : Char} (hq : q ≠ '-') (r : Text) {fuel : Nat}
    (hfuel : r.length ≤ fuel) :
    scanTail (u ++ q :: r) (skipLoop (u ++ q :: r) fuel (u.length + 1)) =
      (numberAt (r.dropWhile isFiller)).getD (-1) := by
  induction r generalizing u q fuel with
  | nil =>
    have hskip : skipLoop (u ++ [q]) fuel (u.length + 1) = some ((u.length : Int) + 1) := by
      cases fuel with
      | zero => rfl
      | succ fuel => rw [skipLoop, if_neg (by simp)]
    rw [hskip, scanTail_some]
    rfl
  | cons c r ih =>
    obtain ⟨fuel, rfl⟩ : ∃ f, fuel = f + 1 := ⟨fuel - 1, by rw [List.length_cons] at hfuel; omega⟩
    have hfuel : r.length ≤ fuel := by
      rw [List.length_cons] at hfuel
      omega
    have happ : u ++ q :: c :: r = (u ++ [q]) ++ c :: r := by
      rw [List.append_assoc]
      rfl
    have hlen : ((u.length : Int) + 1) = (u ++ [q]).length := by
      rw [List.length_append]
      rfl
    have hat : orbitStringAt (u ++ q :: c :: r) (u.length + 1) = c.toNat := by
      rw [happ, hlen, orbitStringAt_append]
    rw [skipLoop, if_pos (by simp), hat]
    dsimp only
    have h45 : (c.toNat : Int) = 45 ↔ c = '-' := toNat_eq_iff c '-'
    by_cases hminus : c = '-'
    · rw [if_pos (h45.mpr hminus), happ, hlen, scanTail_some, if_pos hminus, hminus,
        List.dropWhile_cons_of_neg (by decide), numberAt_minus]
      split_ifs <;> rfl
    rw [if_neg (mt h45.mp hminus)]
    have hrange := isDigit_iff c
    by_cases hd : isDigit c = true
    · have hno : ¬ isFiller c = true := fun h => by
        have := (isFiller_iff c).mp h
        have := hrange.mp hd
        omega
      rw [if_pos (by have := hrange.mp hd; omega), scanTail_some, if_neg hq,
        List.dropWhile_cons_of_neg hno, numberAt_cons hminus]
      split_ifs <;> rfl
    by_cases hfill : isFiller c = true
    · rw [if_neg (fun h => hd (hrange.mpr (by omega))), if_pos ((isFiller_iff c).mp hfill), happ, hlen,
        ih (u ++ [q]) hminus hfuel, List.dropWhile_cons_of_pos hfill]
    · rw [if_neg (fun h => hd (hrange.mpr (by omega))), if_neg (mt (isFiller_iff c).mpr hfill),
        List.dropWhile_cons_of_neg hfill, numberAt_cons hminus, List.takeWhile_cons_of_neg hd]
      rfl

theorem scanJsonInt_tail (payload key : Text) : scanJsonInt payload key =
    if orbitStringIndexOf payload key = -1 then -1
    else scanTail payload
      (skipLoop payload payload.length (orbitStringIndexOf payload key + key.length)) := by
  rw [scanJsonInt]
  dsimp only
  cases skipLoop payload payload.length (orbitStringIndexOf payload key + key.length) <;> rfl

/-- What is read for a name: the number behind its first occurrence, or -1. -/
theorem scanJsonInt_eq (payload name : Text) {q : Char} (hq : q ≠ '-') :
    scanJsonInt payload (name ++ [q]) = (claimOf (name ++ [q]) payload).getD (-1) := by
  have hne : name ++ [q] ≠ [] := List.append_ne_nil_of_right_ne_nil _ (List.cons_ne_nil _ _)
  rw [scanJsonInt_tail, orbitStringIndexOf_eq hne, claimOf]
  cases hidx : Lib.Find.indexOf (name ++ [q]) payload with
  | none => rfl
  | some p =>
    obtain ⟨r, hr⟩ := (Lib.Find.indexOf_some hidx).1
    obtain ⟨u, hu⟩ : ∃ u, u = payload.take p := ⟨_, rfl⟩
    have hp : p ≤ payload.length := by
      by_contra hlt
      rw [List.drop_eq_nil_of_le (by omega)] at hr
      exact hne (List.append_eq_nil_iff.mp hr).1
    have hulen : u.length = p := by rw [hu, List.length_take_of_le hp]
    have hpay : payload = (u ++ name) ++ q :: r := by
      rw [← List.take_append_drop p payload, ← hr, hu]
      simp only [List.append_assoc, List.singleton_append]
    have hdrop : payload.drop (p + (name ++ [q]).length) = r := by
      rw [← List.drop_drop, ← hr, List.drop_left]
    have hstart : (p : Int) + (name ++ [q]).length = (u ++ name).length + 1 := by
      rw [← hulen, List.length_append, List.length_append]
      rw [Nat.cast_add, Nat.cast_add, List.length_singleton]
      omega
    have hlen : r.length ≤ payload.length := by
      rw [hpay, List.length_append, List.length_cons]
      omega
    dsimp only
    rw [if_neg (by omega), hdrop, hstart, hpay, scanTail_skip _ hq r (by rw [← hpay]; exact hlen)]

/-- When a payload admits its bearer: it is not empty, it has an end later than now, and no start later
than now. A number -1 counts as none. -/
def Admits (payload : Text) (now : Int) : Prop := payload ≠ [] ∧
  (∃ e, claimOf expKey payload = some e ∧ e ≠ -1 ∧ now < e) ∧
  ∀ b, claimOf nbfKey payload = some b → b = -1 ∨ b ≤ now

theorem getExp_eq (payload : Text) : getExp payload = (claimOf expKey payload).getD (-1) :=
  scanJsonInt_eq payload "\"exp".toList (by decide)

theorem scan_nbf (payload : Text) :
    scanJsonInt payload nbfKey = (claimOf nbfKey payload).getD (-1) :=
  scanJsonInt_eq payload "\"nbf".toList (by decide)

/-! ## Verifying -/

theorem decodePayload_parts {h p : Text} (hh : '.' ∉ h) (hp : '.' ∉ p) (sig : Text) :
    decodePayload (h ++ '.' :: (p ++ '.' :: sig)) =
      if h = [] then [] else if p = [] then [] else b64Decode p := by
  obtain ⟨h1, h2, h3, -, -⟩ := token_parts hh hp sig
  have hfirst : splitSegment (h ++ '.' :: (p ++ '.' :: sig)) 0 = h := by
    rw [splitSegment]
    dsimp only
    rw [if_pos rfl, h1, if_neg (by omega), slice_front]
  have hsecond : splitSegment (h ++ '.' :: (p ++ '.' :: sig)) 1 = p := by
    rw [splitSegment]
    dsimp only
    rw [if_neg (by omega), h1, if_neg (by omega), if_pos rfl, h2, h3, if_neg (by omega), slice_front]
  rw [decodePayload, hfirst, hsecond]

/-- The checks of the payload. -/
def admitted (payload : Text) (nowUnix : Int) : Bool :=
  if payload = [] then false
  else if getExp payload = -1 then false
  else if getExp payload ≤ nowUnix then false
  else if scanJsonInt payload nbfKey ≠ -1 ∧ scanJsonInt payload nbfKey > nowUnix then false
  else true

theorem admitted_iff (payload : Text) (now : Int) :
    admitted payload now = true ↔ Admits payload now := by
  have hexp : getExp payload ≠ -1 ∧ now < getExp payload ↔
      ∃ e, claimOf expKey payload = some e ∧ e ≠ -1 ∧ now < e := by
    rw [getExp_eq]
    cases claimOf expKey payload with
    | none => simp
    | some e => simp
  have hnbf : (scanJsonInt payload nbfKey ≠ -1 ∧ scanJsonInt payload nbfKey > now) ↔
      ¬ ∀ b, claimOf nbfKey payload = some b → b = -1 ∨ b ≤ now := by
    rw [scan_nbf]
    cases claimOf nbfKey payload with
    | none => simp
    | some b => simp
  rw [Admits, ← hexp, admitted]
  split_ifs with hempty h1 h2 h3
  · exact ⟨False.elim, fun h => absurd hempty h.1⟩
  · exact ⟨False.elim, fun h => absurd h1 h.2.1.1⟩
  · exact ⟨False.elim, fun h => absurd h2 (Int.not_le.mpr h.2.1.2)⟩
  · exact ⟨False.elim, fun h => absurd h.2.2 (hnbf.mp h3)⟩
  · exact ⟨fun _ => ⟨hempty, ⟨h1, Int.not_le.mp h2⟩, not_not.mp (mt hnbf.mpr h3)⟩, fun _ => rfl⟩

theorem verifyHs256_parts {h p : Text} (hh : '.' ∉ h) (hp : '.' ∉ p) (sig secret : Text)
    (now : Int) : verifyHs256 (h ++ '.' :: (p ++ '.' :: sig)) secret now =
      if orbitCtEqual sig (orbitHmacSha256Base64url secret (h ++ '.' :: p)) = false then false
      else admitted (if h = [] then [] else if p = [] then [] else b64Decode p) now := by
  obtain ⟨h1, h2, h3, h4, h5⟩ := token_parts hh hp sig
  rw [verifyHs256]
  dsimp only
  rw [h1, h2, h3, h4, h5, if_neg (by omega), if_neg (by omega), decodePayload_parts hh hp]
  rfl

theorem verifyHs256_none {t : Text} (hno : '.' ∉ t ∨ ∃ u r, '.' ∉ u ∧ '.' ∉ r ∧ t = u ++ '.' :: r)
    (secret : Text) (now : Int) : verifyHs256 t secret now = false := by
  rcases hno with hno | ⟨u, r, hu, hr, rfl⟩
  · rw [verifyHs256, indexOf_dot_none hno, if_pos rfl]
  · rw [verifyHs256]
    dsimp only
    rw [indexOf_dot hu, slice_behind, indexOf_dot_none hr, if_neg (by omega), if_pos rfl]

/-- **A token is accepted** if its third segment is the keyed hash of the first two under the secret,
and the payload in the second admits its bearer. -/
theorem verifyHs256_iff (t : OrbitString) (secret : Text) (now : Int) :
    verifyHs256 t.text secret now = true ↔
      ∃ h p, h ≠ [] ∧ Signed secret h p t.text ∧ Admits (b64Decode p) now := by
  obtain ⟨t, ht⟩ := t
  rcases parts_cases t with hno | ⟨h, p, sig, hh, hp, rfl⟩
  · rw [verifyHs256_none hno]
    exact ⟨fun h => absurd h Bool.false_ne_true, fun ⟨_, _, _, hs, _⟩ => absurd hs (not_signed hno)⟩
  · have hsig : ∀ c ∈ sig, c.toNat < 256 := fun c hc => (ht c (by simp [hc])).2
    have hempty : ¬ Admits [] now := fun ha => ha.1 rfl
    rw [verifyHs256_parts hh hp]
    constructor
    · intro hv
      by_cases heq : orbitCtEqual sig (orbitHmacSha256Base64url secret (h ++ '.' :: p)) = true
      · rw [heq, if_neg (by decide), admitted_iff] at hv
        split_ifs at hv with hnil pnil
        · exact absurd hv hempty
        · exact absurd hv hempty
        · exact ⟨h, p, hnil, ⟨hh, hp, by rw [← (ctEqual_hmac hsig _ _).mp heq]⟩, hv⟩
      · rw [if_pos (Bool.eq_false_iff.mpr heq)] at hv
        exact absurd hv Bool.false_ne_true
    · rintro ⟨h', p', hnil, ⟨hh', hp', heq⟩, ha⟩
      obtain ⟨rfl, heq⟩ := Lib.Find.append_sep hh hh' heq
      obtain ⟨rfl, heq⟩ := Lib.Find.append_sep hp hp' heq
      have hpnil : p ≠ [] := fun hz => hempty (by rw [hz] at ha; exact ha)
      rw [(ctEqual_hmac hsig _ _).mpr heq, if_neg (by decide), if_neg hnil, if_neg hpnil, admitted_iff]
      exact ha

/-! ## Signing -/

theorem encodeStr_dot {s : Text} (h : IsBytes s) : '.' ∉ orbitBase64urlEncodeStr s := by
  have hall : ((List.range 64).all fun v => base64Char '-' '_' v ≠ '.') = true := rfl
  rw [orbitBase64urlEncodeStr_eq h]
  intro hmem
  obtain ⟨v, hv, heq⟩ := List.mem_map.mp hmem
  exact of_decide_eq_true (List.all_eq_true.mp hall v (List.mem_range.mpr (sextets_lt hv))) heq

/-- **What the runtime encodes, the decoder reads back**; it is encoded as RFC 4648 does, without
padding. -/
theorem b64_codec (s : OrbitString) :
    b64Decode (orbitBase64urlEncodeStr s.text) = s.text ∧
      orbitBase64urlEncodeStr s.text = base64url (s.text.map Char.toNat) :=
  ⟨b64Decode_encode s.isBytes, orbitBase64urlEncodeStr_eq s.isBytes⟩

theorem headerJson_bytes : IsBytes headerJson := by
  have hall : (headerJson.all fun c => decide (0 < c.toNat ∧ c.toNat < 256)) = true := rfl
  exact fun c hc => of_decide_eq_true (List.all_eq_true.mp hall c hc)

theorem signToken_eq (payload secret : Text) : signToken payload secret =
    orbitBase64urlEncodeStr headerJson ++ '.' :: (orbitBase64urlEncodeStr payload ++
      '.' :: orbitHmacSha256Base64url secret
        (orbitBase64urlEncodeStr headerJson ++ '.' :: orbitBase64urlEncodeStr payload)) := by
  rw [signToken]
  simp only [List.append_assoc, List.cons_append, List.nil_append]

/-- **What is signed is verified and read back**, and admits the bearer its payload admits. -/
theorem signToken_verified (payload : OrbitString) (secret : Text) :
    verifyToken (signToken payload.text secret) secret = true ∧
      decodePayload (signToken payload.text secret) = payload.text ∧
      ∀ now, verifyHs256 (signHs256 payload.text secret) secret now = true ↔
        Admits payload.text now := by
  obtain ⟨s, hs⟩ := payload
  have hh := encodeStr_dot headerJson_bytes
  have hp := encodeStr_dot hs
  have hdec := b64Decode_encode hs
  have hhead : orbitBase64urlEncodeStr headerJson ≠ [] := by
    intro hnil
    have := b64Decode_encode headerJson_bytes
    rw [hnil] at this
    exact absurd this (by decide)
  have hpay : (if orbitBase64urlEncodeStr headerJson = [] then []
      else if orbitBase64urlEncodeStr s = [] then []
      else b64Decode (orbitBase64urlEncodeStr s)) = s := by
    rw [if_neg hhead, hdec]
    split_ifs with hnil
    · rw [← hdec, hnil]
      rfl
    · rfl
  have heq (data : Text) : orbitCtEqual (orbitHmacSha256Base64url secret data)
      (orbitHmacSha256Base64url secret data) = true :=
    (ctEqual_hmac (fun _ hc => hmac_toNat_lt hc) secret data).mpr rfl
  refine ⟨?_, ?_, fun now => ?_⟩
  · rw [signToken_eq, verifyToken_parts hh hp, heq]
  · rw [signToken_eq, decodePayload_parts hh hp, hpay]
  · rw [signHs256, signToken_eq, verifyHs256_parts hh hp, heq, if_neg (by decide), hpay,
      admitted_iff]

theorem numberAt_written {n : Int} (hn : -2 ^ 63 ≤ n ∧ n < 2 ^ 63) {r : Text}
    (hr : ∀ c ∈ r.head?, isDigit c = false) : numberAt (Lib.Text.intToString n ++ r) = some n := by
  obtain ⟨d, ds, hds⟩ := List.exists_cons_of_ne_nil (Nat.toDigits_ne_nil (b := 10) (n := n.natAbs))
  have htake := takeWhile_digits n.natAbs hr
  rw [Lib.Text.intToString]
  split_ifs with hneg
  · rw [List.cons_append, numberAt_minus, htake, if_neg (by rw [hds]; exact List.cons_ne_nil d ds),
      Lib.Decimal.digitsValue_digits, toInt64_of_range (by omega)]
    congr 1
    omega
  · have hd : d ≠ '-' := fun h =>
      Lib.Decimal.head_digits_ne_minus n.natAbs (by rw [hds, h]; rfl)
    rw [hds] at htake ⊢
    rw [List.cons_append] at htake ⊢
    rw [numberAt_cons hd, htake, if_neg (List.cons_ne_nil d ds), ← hds,
      Lib.Decimal.digitsValue_digits, toInt64_of_range (by omega)]
    congr 1
    omega

theorem head_intToString (n : Int) : ∃ c r, Lib.Text.intToString n = c :: r ∧ isFiller c = false := by
  obtain ⟨d, ds, hds⟩ := List.exists_cons_of_ne_nil (Nat.toDigits_ne_nil (b := 10) (n := n.natAbs))
  rw [Lib.Text.intToString]
  split_ifs
  · exact ⟨'-', _, rfl, rfl⟩
  · have hmem : d ∈ Nat.toDigits 10 n.natAbs := hds ▸ List.mem_cons_self
    have hd := Lib.Decimal.isDigit_of_mem_digits hmem
    have hcode := (isDigit_iff d).mp hd
    refine ⟨d, ds, hds, Bool.eq_false_iff.mpr fun hf => ?_⟩
    have := (isFiller_iff d).mp hf
    omega

/-- A number written behind the first occurrence of its name is the claim. -/
theorem claimOf_written {name u r : Text} {n : Int} (hn : -2 ^ 63 ≤ n ∧ n < 2 ^ 63)
    (hfirst : ∀ k < u.length, ¬ name <+: (u ++ (name ++ ':' :: (Lib.Text.intToString n ++ r))).drop k)
    (hr : ∀ c ∈ r.head?, isDigit c = false) :
    claimOf name (u ++ (name ++ ':' :: (Lib.Text.intToString n ++ r))) = some n := by
  obtain ⟨c, t, ht, hc⟩ := head_intToString n
  have hidx : Lib.Find.indexOf name (u ++ (name ++ ':' :: (Lib.Text.intToString n ++ r))) =
      some u.length :=
    (Lib.Find.indexOf_eq_some (by simp)).mpr ⟨by rw [List.drop_left]; exact ⟨_, rfl⟩, hfirst⟩
  rw [claimOf, hidx]
  dsimp only
  rw [← List.drop_drop, List.drop_left, List.drop_left, List.dropWhile_cons_of_pos (by decide), ht,
    List.cons_append, List.dropWhile_cons_of_neg (by rw [hc]; exact Bool.false_ne_true),
    ← List.cons_append, ← ht, numberAt_written hn hr]

/-- **The first occurrence of a name decides**, whatever stands before and behind it. -/
theorem scanJsonInt_written {name u r : Text} {q : Char} {n : Int} (hq : q ≠ '-')
    (hn : -2 ^ 63 ≤ n ∧ n < 2 ^ 63)
    (hfirst : ∀ k < u.length, ¬ name ++ [q] <+:
      (u ++ (name ++ [q] ++ ':' :: (Lib.Text.intToString n ++ r))).drop k)
    (hr : ∀ c ∈ r.head?, isDigit c = false) :
    scanJsonInt (u ++ (name ++ [q] ++ ':' :: (Lib.Text.intToString n ++ r))) (name ++ [q]) = n := by
  rw [scanJsonInt_eq _ _ hq, claimOf_written hn hfirst hr]
  rfl

/-- A member of a member counts. -/
theorem scanJsonInt_written_member :
    scanJsonInt "\x7b\"a\":\x7b\"exp\":1\x7d,\"exp\":9\x7d".toList expKey = 1 :=
  @scanJsonInt_written "\"exp".toList "\x7b\"a\":\x7b".toList "\x7d,\"exp\":9\x7d".toList '"' 1
    (by decide) (by decide) (by decide) (fun c hc => Option.mem_some_iff.mp hc ▸ rfl)

end Stdlib.Jwt
