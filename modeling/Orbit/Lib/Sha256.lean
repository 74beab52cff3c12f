import Mathlib.Analysis.SpecialFunctions.Pow.NthRootLemmas
import Mathlib.Tactic.NormNum.Prime
import Orbit.Lib.Bits

/-!
# SHA-256 and HMAC

The secure hash algorithm on strings of bits (FIPS 180-4, with its paragraphs as section titles): the
padding, the message schedule, the rounds and the digest. The constants are what the standard says
they represent, the first 32 bits of the fractional parts of roots of the first primes
(`rootFraction`). The standard defines the hash of fewer than 2^64 bits. `hmac` is the keyed hash of
RFC 2104 over any hash of octets.
-/

namespace Lib.Sha256

open Lib.Bits

abbrev Word := BitVec 32
abbrev Octet := BitVec 8

/-! ## 4.1.2 Functions -/

def ch (x y z : Word) : Word := (x &&& y) ^^^ (~~~x &&& z)
def maj (x y z : Word) : Word := (x &&& y) ^^^ (x &&& z) ^^^ (y &&& z)
def bigSigma0 (x : Word) : Word := x.rotateRight 2 ^^^ x.rotateRight 13 ^^^ x.rotateRight 22
def bigSigma1 (x : Word) : Word := x.rotateRight 6 ^^^ x.rotateRight 11 ^^^ x.rotateRight 25
def sigma0 (x : Word) : Word := x.rotateRight 7 ^^^ x.rotateRight 18 ^^^ (x >>> 3)
def sigma1 (x : Word) : Word := x.rotateRight 17 ^^^ x.rotateRight 19 ^^^ (x >>> 10)

/-! ## 4.2.2 Constants -/

/-- The first 64 primes. -/
def primes : List Nat :=
  [2, 3, 5, 7, 11, 13, 17, 19, 23, 29, 31, 37, 41, 43, 47, 53, 59, 61, 67, 71, 73, 79, 83, 89, 97,
    101, 103, 107, 109, 113, 127, 131, 137, 139, 149, 151, 157, 163, 167, 173, 179, 181, 191, 193,
    197, 199, 211, 223, 227, 229, 233, 239, 241, 251, 257, 263, 269, 271, 277, 281, 283, 293, 307,
    311]

/-- The first 32 bits of the fractional part of the root. -/
def rootFraction (k p : Nat) : Word := BitVec.ofNat 32 (Nat.nthRoot k (p * 2 ^ (32 * k)))

def roundConstant (t : Nat) : Word := rootFraction 3 (primes.getD t 0)

/-! ## 5.1.1 Padding -/

theorem exists_zeros (l : Nat) : ∃ k, (l + 1 + k) % 512 = 448 :=
  ⟨(959 - l % 512) % 512, by omega⟩

/-- The smallest number of zeros that leaves room for the length. -/
def zeros (l : Nat) : Nat := Nat.find (exists_zeros l)

def pad (m : List Bool) : List Bool :=
  m ++ true :: (List.replicate (zeros m.length) false ++ bits 64 m.length)

/-! ## 5.2.1 Parsing -/

/-- A word of a block of the padded message. -/
def blockWord (padded : List Bool) (block j : Nat) : Word :=
  BitVec.ofNat 32 (field 32 padded (16 * block + j))

/-! ## 5.3.3 The initial hash value -/

/-- A hash value, and the working variables of a block. -/
structure Words where
  a : Word
  b : Word
  c : Word
  d : Word
  e : Word
  f : Word
  g : Word
  h : Word
  deriving DecidableEq, Repr

namespace Words

def ofFn (w : Nat → Word) : Words := ⟨w 0, w 1, w 2, w 3, w 4, w 5, w 6, w 7⟩

def toList (s : Words) : List Word := [s.a, s.b, s.c, s.d, s.e, s.f, s.g, s.h]

def add (s t : Words) : Words :=
  ⟨s.a + t.a, s.b + t.b, s.c + t.c, s.d + t.d, s.e + t.e, s.f + t.f, s.g + t.g, s.h + t.h⟩

end Words

def initial : Words := .ofFn fun i => rootFraction 2 (primes.getD i 0)

/-! ## 6.2.2 The computation -/

def schedule (m : Nat → Word) (t : Nat) : Word :=
  if t < 16 then m t
  else sigma1 (schedule m (t - 2)) + schedule m (t - 7) + sigma0 (schedule m (t - 15)) +
    schedule m (t - 16)

def round (k w : Word) (s : Words) : Words :=
  let t1 := s.h + bigSigma1 s.e + ch s.e s.f s.g + k + w
  let t2 := bigSigma0 s.a + maj s.a s.b s.c
  ⟨t1 + t2, s.a, s.b, s.c, s.d + t1, s.e, s.f, s.g⟩

/-- The working variables before round `t`. -/
def rounds (w : Nat → Word) (s : Words) : (t : Nat) → Words
  | 0 => s
  | t + 1 => round (roundConstant t) (w t) (rounds w s t)

def compress (m : Nat → Word) (h : Words) : Words := (rounds (schedule m) h 64).add h

/-- The hash value before a block. -/
def hashValue (padded : List Bool) : (block : Nat) → Words
  | 0 => initial
  | i + 1 => compress (blockWord padded i) (hashValue padded i)

def sha256 (m : List Bool) : List Bool :=
  (hashValue (pad m) ((pad m).length / 512)).toList.flatMap fun w => bits 32 w.toNat

/-- The hash of a message of octets. -/
def sha256Octets (m : List Octet) : List Octet :=
  (fields 8 32 (sha256 (bitString 8 (m.map BitVec.toNat)))).map (BitVec.ofNat 8)

/-! ## HMAC -/

section
variable (hash : List Octet → List Octet) (blockSize : Nat)

/-- The key as a block. -/
def hmacKey (key : List Octet) : List Octet :=
  let k := if key.length > blockSize then hash key else key
  k ++ List.replicate (blockSize - k.length) 0

def hmac (key text : List Octet) : List Octet :=
  hash ((hmacKey hash blockSize key).map (· ^^^ 0x5c) ++
    hash ((hmacKey hash blockSize key).map (· ^^^ 0x36) ++ text))

end

/-! ## Lemmas -/

theorem prime_of_mem {p : Nat} (h : p ∈ primes) : p.Prime := by
  simp only [primes, List.mem_cons, List.not_mem_nil, or_false] at h
  rcases h with rfl | rfl | rfl | rfl | rfl | rfl | rfl | rfl | rfl | rfl | rfl | rfl | rfl | rfl |
    rfl | rfl | rfl | rfl | rfl | rfl | rfl | rfl | rfl | rfl | rfl | rfl | rfl | rfl | rfl | rfl |
    rfl | rfl | rfl | rfl | rfl | rfl | rfl | rfl | rfl | rfl | rfl | rfl | rfl | rfl | rfl | rfl |
    rfl | rfl | rfl | rfl | rfl | rfl | rfl | rfl | rfl | rfl | rfl | rfl | rfl | rfl | rfl | rfl |
    rfl | rfl <;> norm_num

set_option maxRecDepth 4000 in
theorem composite_of_not_mem : ∀ n < 312, n ∉ primes →
    n < 2 ∨ ∃ d ∈ [2, 3, 5, 7, 11, 13, 17], n % d = 0 ∧ d < n := by
  decide

/-- They are the primes up to the last one. -/
theorem mem_primes {p : Nat} (h : p < 312) : p ∈ primes ↔ p.Prime := by
  refine ⟨prime_of_mem, fun hp => ?_⟩
  by_contra hno
  rcases composite_of_not_mem p h hno with hlt | ⟨d, hd, hmod, hlt⟩
  · exact absurd hp.two_le (by omega)
  · have hdvd := (Nat.dvd_prime hp).mp (Nat.dvd_of_mod_eq_zero hmod)
    rcases hdvd with rfl | rfl
    · simp at hd
    · exact absurd hlt (Nat.lt_irrefl _)

/-- A word is the fraction of a root when it and the integer part bound the root. -/
theorem rootFraction_eq {k p q : Nat} {w : Word} (hle : (q * 2 ^ 32 + w.toNat) ^ k ≤ p * 2 ^ (32 * k))
    (hlt : p * 2 ^ (32 * k) < (q * 2 ^ 32 + w.toNat + 1) ^ k) : rootFraction k p = w := by
  rw [rootFraction, Nat.nthRoot_eq_of_le_of_lt hle hlt]
  apply BitVec.eq_of_toNat_eq
  rw [BitVec.toNat_ofNat, Nat.mul_comm, Nat.mul_add_mod, Nat.mod_eq_of_lt w.isLt]

theorem schedule_low {m : Nat → Word} {t : Nat} (h : t < 16) : schedule m t = m t := by
  rw [schedule, if_pos h]

theorem schedule_high {m : Nat → Word} {t : Nat} (h : ¬ t < 16) :
    schedule m t = sigma1 (schedule m (t - 2)) + schedule m (t - 7) +
      sigma0 (schedule m (t - 15)) + schedule m (t - 16) := by
  rw [schedule, if_neg h]

theorem zeros_eq {l k : Nat} (h : (l + 1 + k) % 512 = 448) (hk : k < 512) : zeros l = k :=
  (Nat.find_eq_iff _).mpr ⟨h, fun j hj hj' => by omega⟩

end Lib.Sha256
