import Orbit.Lib.Sha256
import Orbit.Runtime.Json

/-!
# Hashes and base64url

`runtime/crypto.c` and the macros of `runtime/crypto.h`: SHA-256, HMAC-SHA256, and base64url without
padding. A word is an `uint32_t`. A length is that of an object in memory, so `size_t` holds the
sums of it with a block; the number of bits is an `uint64_t`. No allocation fails.
-/

namespace Runtime.Crypto

open Json (Text)
open Lib.Sha256 (Word Octet Words)

/-! ## Base64url -/

def BASE64URL_CHARS : List Char :=
  "ABCDEFGHIJKLMNOPQRSTUVWXYZabcdefghijklmnopqrstuvwxyz0123456789-_".toList

/-- The four characters of a group. -/
def encodeTriple (octetA octetB octetC : Octet) : Text :=
  let triple : Word := (octetA.setWidth 32 <<< 16) + (octetB.setWidth 32 <<< 8) + octetC.setWidth 32
  [BASE64URL_CHARS.getD ((triple >>> 18) &&& 0x3f).toNat ' ',
    BASE64URL_CHARS.getD ((triple >>> 12) &&& 0x3f).toNat ' ',
    BASE64URL_CHARS.getD ((triple >>> 6) &&& 0x3f).toNat ' ',
    BASE64URL_CHARS.getD (triple &&& 0x3f).toNat ' ']

/-- The loop of `orbit_base64url_encode`: an octet behind the end is 0. -/
def encodeLoop : List Octet → Text
  | [] => []
  | [a] => encodeTriple a 0 0
  | [a, b] => encodeTriple a b 0
  | a :: b :: c :: rest => encodeTriple a b c ++ encodeLoop rest

def orbitBase64urlEncode (data : List Octet) : Text :=
  let encoded := encodeLoop data
  let mod := data.length % 3
  encoded.take (if mod = 1 then encoded.length - 2
    else if mod = 2 then encoded.length - 1 else encoded.length)

/-- The bytes of a string. -/
def bytes (s : Text) : List Octet := s.map fun c => BitVec.ofNat 8 c.toNat

def orbitBase64urlEncodeStr (str : Text) : Text := orbitBase64urlEncode (bytes str)

/-! ## SHA-256 -/

def ROTR (x : Word) (n : Nat) : Word := (x >>> n) ||| (x <<< (32 - n))
def CH (x y z : Word) : Word := (x &&& y) ^^^ (~~~x &&& z)
def MAJ (x y z : Word) : Word := (x &&& y) ^^^ (x &&& z) ^^^ (y &&& z)
def SIG0 (x : Word) : Word := ROTR x 2 ^^^ ROTR x 13 ^^^ ROTR x 22
def SIG1 (x : Word) : Word := ROTR x 6 ^^^ ROTR x 11 ^^^ ROTR x 25
def sig0 (x : Word) : Word := ROTR x 7 ^^^ ROTR x 18 ^^^ (x >>> 3)
def sig1 (x : Word) : Word := ROTR x 17 ^^^ ROTR x 19 ^^^ (x >>> 10)

def K256 : List Word :=
  [0x428a2f98, 0x71374491, 0xb5c0fbcf, 0xe9b5dba5, 0x3956c25b, 0x59f111f1, 0x923f82a4, 0xab1c5ed5,
    0xd807aa98, 0x12835b01, 0x243185be, 0x550c7dc3, 0x72be5d74, 0x80deb1fe, 0x9bdc06a7, 0xc19bf174,
    0xe49b69c1, 0xefbe4786, 0x0fc19dc6, 0x240ca1cc, 0x2de92c6f, 0x4a7484aa, 0x5cb0a9dc, 0x76f988da,
    0x983e5152, 0xa831c66d, 0xb00327c8, 0xbf597fc7, 0xc6e00bf3, 0xd5a79147, 0x06ca6351, 0x14292967,
    0x27b70a85, 0x2e1b2138, 0x4d2c6dfc, 0x53380d13, 0x650a7354, 0x766a0abb, 0x81c2c92e, 0x92722c85,
    0xa2bfe8a1, 0xa81a664b, 0xc24b8b70, 0xc76c51a3, 0xd192e819, 0xd6990624, 0xf40e3585, 0x106aa070,
    0x19a4c116, 0x1e376c08, 0x2748774c, 0x34b0bcb5, 0x391c0cb3, 0x4ed8aa4a, 0x5b9cca4f, 0x682e6ff3,
    0x748f82ee, 0x78a5636f, 0x84c87814, 0x8cc70208, 0x90befffa, 0xa4506ceb, 0xbef9a3f7, 0xc67178f2]

def initialHash : Words :=
  ⟨0x6a09e667, 0xbb67ae85, 0x3c6ef372, 0xa54ff53a, 0x510e527f, 0x9b05688c, 0x1f83d9ab, 0x5be0cd19⟩

/-- `while (padded_len % 64 != 0) padded_len++`. -/
def padLoop : (fuel : Nat) → (paddedLen : Nat) → Nat
  | 0, n => n
  | fuel + 1, n => if n % 64 ≠ 0 then padLoop fuel (n + 1) else n

def paddedLen (len : Nat) : Nat := padLoop 64 (len + 1 + 8)

/-- The padded message. -/
def paddedMsg (data : List Octet) : List Octet :=
  let len := data.length
  let msg := (data ++ List.replicate (paddedLen len - len) 0).set len 0x80
  let bits : BitVec 64 := BitVec.ofNat 64 len * 8
  (List.range 8).foldl
    (fun msg i => msg.set (paddedLen len - 1 - i) ((bits >>> (i * 8)).setWidth 8)) msg

def loadWord (msg : List Octet) (chunk i : Nat) : Word :=
  ((msg.getD (chunk + i * 4) 0).setWidth 32 <<< 24) |||
    ((msg.getD (chunk + i * 4 + 1) 0).setWidth 32 <<< 16) |||
    ((msg.getD (chunk + i * 4 + 2) 0).setWidth 32 <<< 8) |||
    (msg.getD (chunk + i * 4 + 3) 0).setWidth 32

/-- The second loop over `w`, as many rounds of it as are left. -/
def extend : (left : Nat) → (w : List Word) → List Word
  | 0, w => w
  | left + 1, w =>
    let i := w.length
    extend left (w ++ [sig1 (w.getD (i - 2) 0) + w.getD (i - 7) 0 + sig0 (w.getD (i - 15) 0) +
      w.getD (i - 16) 0])

def schedule (msg : List Octet) (chunk : Nat) : List Word :=
  extend 48 ((List.range 16).map (loadWord msg chunk))

def round (w : List Word) (v : Words) (i : Nat) : Words :=
  let temp1 := v.h + SIG1 v.e + CH v.e v.f v.g + K256.getD i 0 + w.getD i 0
  let temp2 := SIG0 v.a + MAJ v.a v.b v.c
  { h := v.g, g := v.f, f := v.e, e := v.d + temp1, d := v.c, c := v.b, b := v.a, a := temp1 + temp2 }

def processChunk (msg : List Octet) (h : Words) (chunk : Nat) : Words :=
  let v := (List.range 64).foldl (round (schedule msg chunk)) h
  { a := h.a + v.a, b := h.b + v.b, c := h.c + v.c, d := h.d + v.d,
    e := h.e + v.e, f := h.f + v.f, g := h.g + v.g, h := h.h + v.h }

def storeWord (h : Word) : List Octet :=
  [(h >>> 24).setWidth 8, (h >>> 16).setWidth 8, (h >>> 8).setWidth 8, h.setWidth 8]

def orbitSha256 (data : List Octet) : List Octet :=
  let msg := paddedMsg data
  let h := (List.range (paddedLen data.length / 64)).foldl
    (fun h i => processChunk msg h (64 * i)) initialHash
  h.toList.flatMap storeWord

/-- `"%02x"` of an octet. -/
def hexOctet (x : Octet) : Text := [Nat.digitChar (x.toNat / 16), Nat.digitChar (x.toNat % 16)]

def orbitSha256Hex (str : Text) : Text := (orbitSha256 (bytes str)).flatMap hexOctet

/-! ## HMAC-SHA256 -/

def orbitHmacSha256 (key data : List Octet) : List Octet :=
  let k0 := if key.length > 64 then orbitSha256 key ++ List.replicate 32 0
    else key ++ List.replicate (64 - key.length) 0
  let iKeyPad := k0.map (· ^^^ 0x36)
  let oKeyPad := k0.map (· ^^^ 0x5c)
  orbitSha256 (oKeyPad ++ orbitSha256 (iKeyPad ++ data))

def orbitHmacSha256Base64url (key data : Text) : Text :=
  orbitBase64urlEncode (orbitHmacSha256 (bytes key) (bytes data))

/-! ## Comparing secrets -/

/-- A round of `orbit_ct_equal`. -/
def ctStep (a b : List Octet) (diff : Octet) (i : Nat) : Octet :=
  let ca := if i < a.length then a.getD i 0 else 0
  let cb := if i < b.length then b.getD i 0 else 0
  diff ||| (ca ^^^ cb)

def orbitCtEqual (a b : Text) : Bool :=
  let la := (bytes a).length
  let lb := (bytes b).length
  let n := if la > lb then la else lb
  (List.range n).foldl (ctStep (bytes a) (bytes b)) (if la ≠ lb then 1 else 0) = 0

end Runtime.Crypto
