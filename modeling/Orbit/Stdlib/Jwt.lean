import Orbit.Runtime.Crypto
import Orbit.Stdlib.Strings

/-!
# Tokens

`std/sys/crypto/jwt.orb`: tokens signed with HMAC-SHA256 and read back. `b64Decode` takes the bytes
that are left where the source counts them with `i`. The two loops of `scanJsonInt` count with `i`, as
many rounds of them as the text has bytes.
-/

namespace Stdlib.Jwt

open Runtime.Crypto (orbitBase64urlEncodeStr orbitHmacSha256Base64url orbitCtEqual)
open Runtime.Json (Text)
open Stdlib.Strings

/-! ## Signing and verifying -/

def headerJson : Text := "\x7b\"alg\":\"HS256\",\"typ\":\"JWT\"\x7d".toList

def signToken (payloadJson secret : Text) : Text :=
  let headerB64 := orbitBase64urlEncodeStr headerJson
  let payloadB64 := orbitBase64urlEncodeStr payloadJson
  let unsignedToken := headerB64 ++ ['.'] ++ payloadB64
  let signatureB64 := orbitHmacSha256Base64url secret unsignedToken
  unsignedToken ++ ['.'] ++ signatureB64

def verifyToken (tokenStr secret : Text) : Bool :=
  let dot1 := orbitStringIndexOf tokenStr ['.']
  if dot1 = -1 then false
  else
    let totalLen : Int := tokenStr.length
    let sub := orbitStringSlice tokenStr (dot1 + 1) totalLen
    let dot2 := orbitStringIndexOf sub ['.']
    if dot2 = -1 then false
    else
      let actualDot2 := dot1 + 1 + dot2
      let unsignedToken := orbitStringSlice tokenStr 0 actualDot2
      let signature := orbitStringSlice tokenStr (actualDot2 + 1) totalLen
      let expectedSig := orbitHmacSha256Base64url secret unsignedToken
      orbitCtEqual signature expectedSig

def signHs256 (payloadJson secret : Text) : Text := signToken payloadJson secret

/-! ## Base64url -/

def b64Val (c : Int) : Int :=
  if c ≥ 48 ∧ c ≤ 57 then c - 48 + 52
  else if c ≥ 65 ∧ c ≤ 90 then c - 65
  else if c ≥ 97 ∧ c ≤ 122 then c - 97 + 26
  else if c = 45 then 62
  else if c = 95 then 63
  else -1

def decodeQuantum (out : Text) (c0 c1 c2 c3 : Int) (n : Nat) : Text :=
  let r := out ++ orbitStringFromChar (c0 * 4 + c1 / 16)
  let r := if n ≥ 3 then r ++ orbitStringFromChar (c1 % 16 * 16 + c2 / 4) else r
  if n ≥ 4 then r ++ orbitStringFromChar (c2 % 4 * 64 + c3) else r

def b64DecodeFrom (out : Text) : (rest : Text) → Text
  | [] => out
  | [_] => []
  | [c0, c1] =>
    let v0 := b64Val c0.toNat
    let v1 := b64Val c1.toNat
    if v0 = -1 then []
    else if v1 = -1 then []
    else decodeQuantum out v0 v1 0 0 2
  | [c0, c1, c2] =>
    let v0 := b64Val c0.toNat
    let v1 := b64Val c1.toNat
    if v0 = -1 then []
    else if v1 = -1 then []
    else
      let v2 := b64Val c2.toNat
      if v2 = -1 then [] else decodeQuantum out v0 v1 v2 0 3
  | c0 :: c1 :: c2 :: c3 :: rest =>
    let v0 := b64Val c0.toNat
    let v1 := b64Val c1.toNat
    let v2 := b64Val c2.toNat
    let v3 := b64Val c3.toNat
    if v0 = -1 then []
    else if v1 = -1 then []
    else if v2 = -1 then []
    else if v3 = -1 then []
    else b64DecodeFrom (decodeQuantum out v0 v1 v2 v3 4) rest

def b64Decode (s : Text) : Text := b64DecodeFrom [] s

/-! ## The payload -/

def splitSegment (tokenStr : Text) (want : Int) : Text :=
  let totalLen : Int := tokenStr.length
  if want = 0 then
    let dot := orbitStringIndexOf tokenStr ['.']
    if dot = -1 then [] else orbitStringSlice tokenStr 0 dot
  else
    let dot1 := orbitStringIndexOf tokenStr ['.']
    if dot1 = -1 then []
    else
      let tail := orbitStringSlice tokenStr (dot1 + 1) totalLen
      if want = 1 then
        let dot2 := orbitStringIndexOf tail ['.']
        if dot2 = -1 then tail else orbitStringSlice tail 0 dot2
      else
        let dot2b := orbitStringIndexOf tail ['.']
        if dot2b = -1 then [] else orbitStringSlice tail (dot2b + 1) tail.length

def decodePayload (tokenStr : Text) : Text :=
  let first := splitSegment tokenStr 0
  let second := splitSegment tokenStr 1
  if first = [] then []
  else if second = [] then []
  else b64Decode second

/-- The loop up to the number: where it stops, or none when it returns -1. -/
def skipLoop (payloadJson : Text) : (fuel : Nat) → (i : Int) → Option Int
  | 0, i => some i
  | n + 1, i =>
    if i < payloadJson.length then
      let c := orbitStringAt payloadJson i
      if c = 45 then some (i + 1)
      else if c ≥ 48 ∧ c ≤ 57 then some i
      else if c = 58 ∨ c = 32 ∨ c = 34 then skipLoop payloadJson n (i + 1)
      else none
    else some i

/-- The loop over the digits: the number and how many they are. -/
def digitLoop (payloadJson : Text) : (fuel : Nat) → (i num : Int) → (digits : Nat) → Int × Nat
  | 0, _, num, digits => (num, digits)
  | n + 1, i, num, digits =>
    if i < payloadJson.length then
      let c := orbitStringAt payloadJson i
      if c < 48 ∨ c > 57 then (num, digits)
      else digitLoop payloadJson n (i + 1) (toInt64 (num * 10 + (c - 48))) (digits + 1)
    else (num, digits)

def scanJsonInt (payloadJson key : Text) : Int :=
  let start := orbitStringIndexOf payloadJson key
  if start = -1 then -1
  else
    match skipLoop payloadJson payloadJson.length (start + key.length) with
    | none => -1
    | some i =>
      let isNeg := orbitStringAt payloadJson (i - 1) = 45
      let (num, digits) := digitLoop payloadJson payloadJson.length i 0 0
      if digits = 0 then -1
      else if isNeg then toInt64 (0 - num)
      else num

def expKey : Text := "\"exp\"".toList
def nbfKey : Text := "\"nbf\"".toList

def getExp (payloadJson : Text) : Int := scanJsonInt payloadJson expKey

def verifyHs256 (tokenStr secret : Text) (nowUnix : Int) : Bool :=
  let dot1 := orbitStringIndexOf tokenStr ['.']
  if dot1 = -1 then false
  else
    let totalLen : Int := tokenStr.length
    let tail := orbitStringSlice tokenStr (dot1 + 1) totalLen
    let dot2 := orbitStringIndexOf tail ['.']
    if dot2 = -1 then false
    else
      let actualDot2 := dot1 + 1 + dot2
      let unsignedToken := orbitStringSlice tokenStr 0 actualDot2
      let signature := orbitStringSlice tokenStr (actualDot2 + 1) totalLen
      let expectedSig := orbitHmacSha256Base64url secret unsignedToken
      if orbitCtEqual signature expectedSig = false then false
      else
        let payload := decodePayload tokenStr
        if payload = [] then false
        else
          let exp := getExp payload
          if exp = -1 then false
          else if exp ≤ nowUnix then false
          else
            let nbf := scanJsonInt payload nbfKey
            if nbf ≠ -1 ∧ nbf > nowUnix then false else true

end Stdlib.Jwt
