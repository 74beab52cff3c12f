import Orbit.Lib.Decimal
import Orbit.Lib.Find
import Orbit.Lib.Text
import Orbit.Runtime.Json

/-!
# Strings

`split`, `join` and `parseIntChecked` of `std/string/string.orb`, with `orbit_string_indexOf`
(`runtime/orb/strings.orb`), `orbit_string_slice`, the chunk buffer and the conversions behind them, and
`orbit_string_split` and `orbit_string_replace` (`runtime/collections.c`). `jsonQuote` of
`std/json/json.orb` is a chain of replacements. A byte is the character of its code, and a string is
its bytes up to the NUL. A request for memory that fails does not return (`runtime/arena_oom.c`).
-/

namespace Stdlib.Strings

open Runtime.Json (Text)
open Lib.Decimal (isDigit digitsValue)
open Lib.Find (indexOf)

/-! ## Searching and slicing -/

/-- Whether `sub` is at the start of what is left; the NUL is no byte of `sub`. -/
def rtMatchesAt : (rest sub : Text) → Bool
  | _, [] => true
  | [], _ :: _ => false
  | c :: rest, k :: sub => c = k && rtMatchesAt rest sub

/-- The loop of `rtFind` from the offset `i` on. -/
def rtFindFrom (sub : Text) (first : Char) : (i : Nat) → (rest : Text) → Int
  | _, [] => -1
  | i, c :: rest =>
    if c = first && rtMatchesAt (c :: rest) sub then i else rtFindFrom sub first (i + 1) rest

def rtFind (s : Text) : (sub : Text) → Int
  | [] => 0
  | first :: sub => rtFindFrom (first :: sub) first 0 s

def orbitStringIndexOf (s sub : Text) : Int := rtFind s sub

def orbitStringSlice (s : Text) (start stop : Int) : Text :=
  let start := if start < 0 then 0 else start
  let stop := if stop > s.length then (s.length : Int) else stop
  if start ≥ stop then [] else (s.drop start.toNat).take (stop - start).toNat

/-! ## The chunk buffer -/

/-- The doubling of a capacity until it is above `need`. -/
def growCap (need : Nat) : (fuel : Nat) → (ncap : Nat) → Nat
  | 0, ncap => ncap
  | n + 1, ncap => if ncap ≤ need then growCap need n (ncap * 2) else ncap

theorem lt_growCap {need fuel ncap : Nat} (hpos : 0 < ncap) (h : need < ncap + fuel) :
    need < growCap need fuel ncap := by
  induction fuel generalizing ncap with
  | zero => exact h
  | succ fuel ih =>
    rw [growCap]
    split_ifs with hle
    · exact ih (by omega) (by omega)
    · exact Nat.not_le.mp hle

/-- A buffer has room for the NUL. -/
structure OrbitCBuf where
  data : Text
  cap : Nat
  fits : data.length < cap

def orbitCbufCreate : OrbitCBuf := ⟨[], 65536, by decide⟩

def orbitCbufAppend (buf : OrbitCBuf) (s : Text) : OrbitCBuf :=
  if s.length = 0 then buf
  else
    let need := buf.data.length + s.length
    if hfull : need ≥ buf.cap then
      ⟨buf.data ++ s, growCap need (need + 1) buf.cap, by
        rw [List.length_append]
        exact lt_growCap (Nat.zero_lt_of_lt buf.fits) (by omega)⟩
    else
      ⟨buf.data ++ s, buf.cap, by
        rw [List.length_append]
        exact Nat.not_le.mp hfull⟩

def orbitCbufBuild (buf : OrbitCBuf) : Text := buf.data

/-! ## `std/string/string.orb` -/

/-- The loop of `join` from the part `i` on. -/
def joinFrom (sep : Text) : (i : Nat) → (parts : List Text) → OrbitCBuf → OrbitCBuf
  | _, [], buf => buf
  | i, part :: parts, buf =>
    joinFrom sep (i + 1) parts
      (orbitCbufAppend (if i ≠ 0 then orbitCbufAppend buf sep else buf) part)

def join (parts : List Text) (sep : Text) : Text :=
  orbitCbufBuild (joinFrom sep 0 parts orbitCbufCreate)

/-- The loop of `split`. Every round takes a byte of the text. -/
def splitFrom (sep : Text) : (fuel : Nat) → (parts : List Text) → (rest : Text) → List Text
  | 0, parts, rest => parts ++ [rest]
  | n + 1, parts, rest =>
    let idx := orbitStringIndexOf rest sep
    if idx = -1 then parts ++ [rest]
    else
      splitFrom sep n (parts ++ [orbitStringSlice rest 0 idx])
        (orbitStringSlice rest (idx + sep.length) rest.length)

def split (s sep : Text) : List Text :=
  if sep = [] then [s] else splitFrom sep s.length [] s

/-! ## `runtime/collections.c` -/

/-- The loop of `orbit_string_split`. -/
def orbitStringSplitFrom (delim : Text) : (fuel : Nat) → (p : Text) → List Text
  | 0, p => [p]
  | n + 1, p =>
    match indexOf delim p with
    | none => [p]
    | some d => p.take d :: orbitStringSplitFrom delim n (p.drop (d + delim.length))

def orbitStringSplit (s delim : Text) : List Text :=
  if delim = [] then [s] else orbitStringSplitFrom delim s.length s

/-- The first pass of `orbit_string_replace`. The count is an `int`: one more than 2147483647 has no
meaning in C (`none`). -/
def countFrom (old : Text) : (fuel : Nat) → (count : Nat) → (p : Text) → Option Nat
  | 0, count, _ => some count
  | n + 1, count, p =>
    match indexOf old p with
    | none => some count
    | some d =>
      if count = 2147483647 then none else countFrom old n (count + 1) (p.drop (d + old.length))

/-- The second pass, for an `old` that is not empty: up to each occurrence, the replacement, and on
behind it. Every round takes a byte of the text. -/
def replaceLoop (old new : Text) : Nat → Text → Text
  | 0, r => r
  | n + 1, r =>
    match indexOf old r with
    | none => r
    | some p => r.take p ++ new ++ replaceLoop old new n (r.drop (p + old.length))

/-- The string itself, or a block for a number of bytes and the bytes that are written to it, both
without the NUL. -/
inductive Replaced where
  | same
  | copied (totalLen : UInt64) (written : Text)
  deriving DecidableEq, Repr

def orbitStringReplace (s old new : Text) : Option Replaced :=
  if old = [] then some .same
  else
    match countFrom old s.length 0 s with
    | none => none
    | some count =>
      if count = 0 then some .same
      else
        let totalLen := UInt64.ofNat s.length +
          UInt64.ofNat count * (UInt64.ofNat new.length - UInt64.ofNat old.length)
        some (.copied totalLen (replaceLoop old new s.length s))

/-! ## Bytes of a string -/

/-- Text that a string can hold: bytes, and no NUL. -/
def IsBytes (s : Text) : Prop := ∀ c ∈ s, 0 < c.toNat ∧ c.toNat < 256

instance (s : Text) : Decidable (IsBytes s) :=
  inferInstanceAs (Decidable (∀ c ∈ s, 0 < c.toNat ∧ c.toNat < 256))

theorem IsBytes.cons {c : Char} {s : Text} (h : IsBytes (c :: s)) :
    0 < c.toNat ∧ c.toNat < 256 ∧ IsBytes s :=
  ⟨(h c List.mem_cons_self).1, (h c List.mem_cons_self).2, fun d hd => h d (List.mem_cons_of_mem c hd)⟩

structure OrbitString where
  text : Text
  isBytes : IsBytes text

/-- A `result`: a value, or a message and its code. -/
inductive OrbitResult (α : Type) where
  | ok (value : α)
  | err (message : String) (code : Int)
  deriving DecidableEq, Repr

/-- An `int` wraps. -/
def toInt64 (n : Int) : Int := n.bmod (2 ^ 64)

def orbitStringAt (s : Text) (index : Int) : Int :=
  if index < 0 ∨ index ≥ s.length then 0 else (s.getD index.toNat ' ').toNat

def orbitStringFromChar (code : Int) : Text :=
  if code < 1 ∨ code > 255 then [] else [Char.ofNat code.toNat]

/-! ## Numbers -/

/-- The space of `strtoll`. -/
def isSpace (c : Char) : Bool := c = ' ' || ('\t' ≤ c && c ≤ '\r')

/-- `strtoll` in base 10, which goes no further than the limits of a `long long`. -/
def strtoll (s : Text) : Int :=
  match s.dropWhile isSpace with
  | '-' :: ds => max (-2 ^ 63) (-digitsValue (ds.takeWhile isDigit))
  | '+' :: ds => min (2 ^ 63 - 1) (digitsValue (ds.takeWhile isDigit))
  | ds => min (2 ^ 63 - 1) (digitsValue (ds.takeWhile isDigit))

def orbitStringToInt (s : Text) : Int := if s = [] then 0 else strtoll s

def orbitIntToString (value : Int) : Text := Lib.Text.intToString value

def isSpaceCode (c : Int) : Bool :=
  if c = 32 then true
  else if c = 9 then true
  else if c = 10 then true
  else if c = 13 then true
  else false

/-- The first loop of `trim`. -/
def trimStart (s : Text) : (fuel : Nat) → (start : Int) → Int
  | 0, start => start
  | n + 1, start =>
    if start < s.length then
      if isSpaceCode (orbitStringAt s start) = false then start else trimStart s n (start + 1)
    else start

/-- The second loop of `trim`. -/
def trimEnd (s : Text) (start : Int) : (fuel : Nat) → (stop : Int) → Int
  | 0, stop => stop
  | n + 1, stop =>
    if stop > start then
      if isSpaceCode (orbitStringAt s (stop - 1)) = false then stop
      else trimEnd s start n (stop - 1)
    else stop

def trim (s : Text) : Text :=
  let start := trimStart s s.length 0
  let stop := trimEnd s start s.length s.length
  orbitStringSlice s start stop

/-- Whether the loop of `parseIntChecked` gets to the end. -/
def digitsOnly : (rest : Text) → Bool
  | [] => true
  | c :: rest => if (c.toNat : Int) < 48 ∨ (c.toNat : Int) > 57 then false else digitsOnly rest

def parseIntChecked (s : Text) : OrbitResult Int :=
  let t := trim s
  if t = [] then .err "empty input" 1
  else
    let i := if orbitStringAt t 0 = 45 then 1 else 0
    if i ≥ t.length then .err "not an integer" 2
    else if digitsOnly (t.drop i) = false then .err "not an integer" 2
    else
      let n := orbitStringToInt t
      let back := orbitIntToString n
      if back ≠ t then .err "not an integer" 2 else .ok n

end Stdlib.Strings

namespace Stdlib.Json

open Runtime.Json (Text)
open Stdlib.Strings (Replaced orbitStringReplace)

/-- The string that a replacement returns. Bytes that are written past the block, the NUL with them,
have no meaning (`none`). -/
def returned (s : Text) : Replaced → Option Text
  | .same => some s
  | .copied totalLen written =>
    if written.length < (totalLen + 1).toNat then some written else none

def replace (s old new : Text) : Option Text := (orbitStringReplace s old new).bind (returned s)

/-- `s` as a string of a document, quotes included. -/
def jsonQuote (s : Text) : Option Text := do
  let e1 ← replace s ['\\'] ['\\', '\\']
  let e2 ← replace e1 ['"'] ['\\', '"']
  let e3 ← replace e2 ['\n'] ['\\', 'n']
  let e4 ← replace e3 ['\r'] ['\\', 'r']
  let e5 ← replace e4 ['\t'] ['\\', 't']
  return ['"'] ++ e5 ++ ['"']

/-- `{"k":` and the quoted string and `}`. -/
def document (s : Text) : Option Text :=
  (jsonQuote s).map fun quoted => ['\x7b', '"', 'k', '"', ':'] ++ quoted ++ ['\x7d']

end Stdlib.Json
