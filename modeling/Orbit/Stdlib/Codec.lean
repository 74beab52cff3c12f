import Orbit.Stdlib.Strings

/-!
# Base 64 and hexadecimal

`std/convert/codec.orb`. Both loops of a decoder stop with a message at the first group that is not
one of the encoder, or that spells a NUL. A loop takes the bytes that are left (`rest`) where the
source counts them with `i`; the length was checked before, so a group is never cut short, and there
`at` would answer 0, which is no character of either alphabet.
-/

namespace Stdlib.Codec

open Runtime.Json (Text)
open Stdlib.Strings

/-! ## Base 64 -/

def alphabet : Text := "ABCDEFGHIJKLMNOPQRSTUVWXYZabcdefghijklmnopqrstuvwxyz0123456789+/".toList

def b64Char (i : Int) : Text := orbitStringSlice alphabet i (i + 1)

/-- What a round of `base64Encode` writes for `n` bytes. -/
def encodeQuantum (b0 b1 b2 : Int) (n : Nat) : Text :=
  b64Char (b0 / 4) ++ b64Char (b0 % 4 * 16 + b1 / 16) ++
    (if n ≥ 2 then b64Char (b1 % 16 * 4 + b2 / 64) else ['=']) ++
    (if n ≥ 3 then b64Char (b2 % 64) else ['='])

def base64EncodeFrom (out : Text) : (rest : Text) → Text
  | [] => out
  | [b0] => out ++ encodeQuantum b0.toNat 0 0 1
  | [b0, b1] => out ++ encodeQuantum b0.toNat b1.toNat 0 2
  | b0 :: b1 :: b2 :: rest =>
    base64EncodeFrom (out ++ encodeQuantum b0.toNat b1.toNat b2.toNat 3) rest

def base64Encode (s : Text) : Text := base64EncodeFrom [] s

def b64StdVal (c : Int) : Int :=
  if c ≥ 65 ∧ c ≤ 90 then c - 65
  else if c ≥ 97 ∧ c ≤ 122 then c - 97 + 26
  else if c ≥ 48 ∧ c ≤ 57 then c - 48 + 52
  else if c = 43 then 62
  else if c = 47 then 63
  else if c = 61 then -2
  else -1

def badCharacter : OrbitResult Text := .err "not base64: bad character" 1
def paddingFirst : OrbitResult Text := .err "not base64: padding in the first half" 1
def nonCanonical : OrbitResult Text := .err "not base64: non-canonical padding" 1
def paddingBefore : OrbitResult Text := .err "not base64: padding before data" 1
def dataAfter : OrbitResult Text := .err "not base64: data after padding" 1
def noNul : OrbitResult Text := .err "not base64: NUL byte has no spelling" 2

/-- The checks of a round up to `n`, the number of bytes of the group, or the error. -/
def quantumBytes (c0 c1 c2 c3 : Int) : Nat ⊕ OrbitResult Text :=
  if c0 = -1 ∨ c0 = -2 ∨ c1 = -1 ∨ c1 = -2 ∨ c2 = -1 ∨ c3 = -1 then .inr badCharacter
  else if c0 = -2 ∨ c1 = -2 then .inr paddingFirst
  else if c2 = -2 ∧ c3 = -2 then if c1 % 16 ≠ 0 then .inr nonCanonical else .inl 1
  else if c3 = -2 then
    if c2 = -2 then .inr paddingBefore
    else if c2 % 4 ≠ 0 then .inr nonCanonical
    else .inl 2
  else if c2 = -2 then .inr paddingBefore
  else .inl 3

/-- The `n` bytes of a group, or the error when one of them is a NUL. -/
def quantumText (c0 c1 c2 c3 : Int) (n : Nat) (out : Text) : Text ⊕ OrbitResult Text :=
  let b0 := c0 * 4 + c1 / 16
  if b0 = 0 then .inr noNul
  else
    let out := out ++ orbitStringFromChar b0
    if n ≥ 2 then
      let b1 := c1 % 16 * 16 + c2 / 4
      if b1 = 0 then .inr noNul
      else
        let out := out ++ orbitStringFromChar b1
        if n ≥ 3 then
          let b2 := c2 % 4 * 64 + c3
          if b2 = 0 then .inr noNul else .inl (out ++ orbitStringFromChar b2)
        else .inl out
    else .inl out

def base64DecodeFrom (out : Text) : (rest : Text) → OrbitResult Text
  | [] => .ok out
  | c0 :: c1 :: c2 :: c3 :: rest =>
    let v0 := b64StdVal c0.toNat
    let v1 := b64StdVal c1.toNat
    let v2 := b64StdVal c2.toNat
    let v3 := b64StdVal c3.toNat
    match quantumBytes v0 v1 v2 v3 with
    | .inr e => e
    | .inl n =>
      if n < 3 ∧ rest ≠ [] then dataAfter
      else
        match quantumText v0 v1 v2 v3 n out with
        | .inr e => e
        | .inl out => base64DecodeFrom out rest
  | _ => badCharacter

def base64Decode (s : Text) : OrbitResult Text :=
  if s.length % 4 ≠ 0 then .err "not base64: length must be a multiple of 4" 1
  else base64DecodeFrom [] s

/-! ## Hexadecimal -/

def hexDigits : Text := "0123456789abcdef".toList

def hexEncodeFrom (out : Text) : (rest : Text) → Text
  | [] => out
  | c :: rest =>
    let b : Int := c.toNat
    hexEncodeFrom (out ++ orbitStringSlice hexDigits (b / 16) (b / 16 + 1) ++
      orbitStringSlice hexDigits (b % 16) (b % 16 + 1)) rest

def hexEncode (s : Text) : Text := hexEncodeFrom [] s

def hexVal (c : Int) : Int :=
  if c ≥ 48 ∧ c ≤ 57 then c - 48
  else if c ≥ 97 ∧ c ≤ 102 then c - 97 + 10
  else if c ≥ 65 ∧ c ≤ 70 then c - 65 + 10
  else -1

def hexBadCharacter : OrbitResult Text := .err "not hex: bad character" 1

def hexDecodeFrom (out : Text) : (rest : Text) → OrbitResult Text
  | [] => .ok out
  | [_] => hexBadCharacter
  | c0 :: c1 :: rest =>
    let hi := hexVal c0.toNat
    let lo := hexVal c1.toNat
    if hi = -1 ∨ lo = -1 then hexBadCharacter
    else
      let b := hi * 16 + lo
      if b = 0 then .err "not hex: NUL byte has no spelling" 2
      else hexDecodeFrom (out ++ orbitStringFromChar b) rest

def hexDecode (s : Text) : OrbitResult Text :=
  if s.length % 2 ≠ 0 then .err "not hex: odd length" 1 else hexDecodeFrom [] s

end Stdlib.Codec
