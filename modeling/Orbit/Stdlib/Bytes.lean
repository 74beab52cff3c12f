import Orbit.Lib.Text
import Orbit.Stdlib.Strings

/-!
# Buffers and frames

`std/bytes/bytes.orb`. A string in memory has fewer than 2^63 bytes, so that `len` is its length; an
append for which there is no memory does not return (`none`). `int`s wrap: the cursor of `consume` and
`readFrame`, and the length a frame claims.
-/

namespace Stdlib.Bytes

open Runtime.Json (Text)
open Stdlib.Strings

structure Buffer where
  data : Text
  pos : Int
  fits : data.length < 2 ^ 63

def newBuffer : Buffer := ⟨[], 0, by decide⟩

def appendSlice (buf : Buffer) (s : Text) : Option Buffer :=
  if h : (buf.data ++ s).length < 2 ^ 63 then some ⟨buf.data ++ s, buf.pos, h⟩ else none

def appendByte (buf : Buffer) (code : Int) : Option Buffer :=
  appendSlice buf (orbitStringFromChar code)

def writeFrame (buf : Buffer) (s : Text) : Option Buffer := do
  let buf ← appendSlice buf (Lib.Text.intToString s.length)
  let buf ← appendSlice buf [':']
  appendSlice buf s

/-- The loop of `parseFrameLen` over the digits that are left. -/
def parseDigits : (num : Int) → (digits : Text) → Int
  | num, [] => num
  | num, c :: digits =>
    if (c.toNat : Int) < 48 ∨ (c.toNat : Int) > 57 then -1
    else parseDigits (toInt64 (num * 10 + (c.toNat - 48))) digits

def parseFrameLen (digits : Text) : Int := if digits = [] then -1 else parseDigits 0 digits

/-- The loop of `readFrame`: the first colon at or behind `stop`, or the end of the data. -/
def colonFrom (data : Text) : (fuel : Nat) → (stop : Int) → Int
  | 0, stop => stop
  | n + 1, stop =>
    if stop < data.length then
      if orbitStringAt data stop = 58 then stop else colonFrom data n (stop + 1)
    else stop

def readFrame (buf : Buffer) : Text × Buffer :=
  let stop := colonFrom buf.data (buf.data.length - buf.pos).toNat buf.pos
  if stop ≥ buf.data.length then ([], buf)
  else
    let count := parseFrameLen (orbitStringSlice buf.data buf.pos stop)
    if count < 0 then ([], buf)
    else
      let start := stop + 1
      if toInt64 (start + count) > buf.data.length then ([], buf)
      else
        (orbitStringSlice buf.data start (toInt64 (start + count)),
          { buf with pos := toInt64 (start + count) })

def availableRead (buf : Buffer) : Int := toInt64 (buf.data.length - buf.pos)

def consume (buf : Buffer) (n : Int) : Text × Buffer :=
  (orbitStringSlice buf.data buf.pos (toInt64 (buf.pos + n)),
    { buf with pos := toInt64 (buf.pos + n) })

def clear (_ : Buffer) : Buffer := newBuffer

/-! ## Runs -/

/-- What a program does with a buffer. -/
inductive Op where
  | appendByte (code : Int)
  | appendSlice (s : Text)
  | writeFrame (s : Text)
  | readFrame
  | consume (n : Int64)
  | clear

/-- An operation, with what it returns. -/
def step (buf : Buffer) : Op → Option (Option Text × Buffer)
  | .appendByte code => (appendByte buf code).map (none, ·)
  | .appendSlice s => (appendSlice buf s).map (none, ·)
  | .writeFrame s => (writeFrame buf s).map (none, ·)
  | .readFrame => some (some (readFrame buf).1, (readFrame buf).2)
  | .consume n => some (some (consume buf n.toInt).1, (consume buf n.toInt).2)
  | .clear => some (none, clear buf)

/-- What is read on a run, and the buffer behind it. -/
def run (buf : Buffer) : List Op → Option (List Text × Buffer)
  | [] => some ([], buf)
  | op :: ops =>
    (step buf op).bind fun r => (run r.2 ops).map fun t => (r.1.toList ++ t.1, t.2)

/-- The buffers of a run, as far as there is memory for it. -/
def buffers (buf : Buffer) : List Op → List Buffer
  | [] => [buf]
  | op :: ops => buf :: match step buf op with
    | none => []
    | some r => buffers r.2 ops

/-- Its operations, each with the buffer it starts from. -/
def steps (buf : Buffer) : List Op → List (Buffer × Op)
  | [] => []
  | op :: ops => (buf, op) :: match step buf op with
    | none => []
    | some r => steps r.2 ops

end Stdlib.Bytes
