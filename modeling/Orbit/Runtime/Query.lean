import Orbit.Lib.Percent
import Orbit.Runtime.Http

/-!
# The query of a request

`orbit_http_query_get` and `orbit_http_query_get_all` of `runtime/builtins.c`, and the decoders that
they share. A text is read by its indices; `none` stands for a read behind its last byte.
Allocations succeed.
-/

namespace Runtime.Query

open Http (Text nul cString)
open Lib.Json (hexValue)
open Lib.Percent (plusToSpace)

/-- The loop over `i`. -/
def decodeFrom (s : Text) : (fuel i : Nat) → Option Text
  | 0, _ => some []
  | fuel + 1, i =>
    if i < s.length then do
      let c ← s[i]?
      if c = '%' ∧ i + 2 < s.length then
        let hi ← s[i + 1]?
        let lo ← s[i + 2]?
        match hexValue hi, hexValue lo with
        | some hh, some ll => (decodeFrom s fuel (i + 3)).map (Char.ofNat (16 * hh + ll) :: ·)
        | _, _ => (decodeFrom s fuel (i + 1)).map (c :: ·)
      else (decodeFrom s fuel (i + 1)).map (c :: ·)
    else some []

/-- The result is read up to its first NUL, as every text is. -/
def orbitUrlDecode (s : Text) : Option Text :=
  (decodeFrom (cString s) ((cString s).length + 1) 0).map cString

/-- The first `n` bytes of `s`, decoded. -/
def orbitUrlDecodeQueryN (s : Text) (n : Nat) : Option Text := do
  let tmp ← (List.range n).mapM fun i => s[i]?.map plusToSpace
  orbitUrlDecode tmp

/-- How far a byte is, the length of the text when it is not there. -/
def offsetOf (c : Char) (q : Text) : Nat := (q.takeWhile (· ≠ c)).length

/-- The loop over the pairs, from `q` on. A pair without `=` never matches. -/
def queryGetFrom (key : Text) : (fuel : Nat) → (q : Text) → Option Text
  | 0, _ => some []
  | fuel + 1, q =>
    let stop := offsetOf '&' q
    let eq := offsetOf '=' q
    let next := match q.drop stop with
      | [] => some []
      | _ :: rest => queryGetFrom key fuel rest
    if q = [] then some []
    else if eq < stop then do
      let k ← orbitUrlDecodeQueryN q eq
      if k = key then orbitUrlDecodeQueryN (q.drop (eq + 1)) (stop - (eq + 1)) else next
    else next

def orbitHttpQueryGet (query key : Text) : Option Text := queryGetFrom key (query.length + 1) query

def queryGetAllFrom (key : Text) : (fuel : Nat) → (q : Text) → Option (List Text)
  | 0, _ => some []
  | fuel + 1, q =>
    let stop := offsetOf '&' q
    let eq := offsetOf '=' q
    let next := match q.drop stop with
      | [] => some []
      | _ :: rest => queryGetAllFrom key fuel rest
    if q = [] then some []
    else if eq < stop then do
      let k ← orbitUrlDecodeQueryN q eq
      if k = key then
        let v ← orbitUrlDecodeQueryN (q.drop (eq + 1)) (stop - (eq + 1))
        next.map (v :: ·)
      else next
    else next

def orbitHttpQueryGetAll (query key : Text) : Option (List Text) :=
  queryGetAllFrom key (query.length + 1) query

/-! ## Queries of pairs -/

/-- The bytes that a key does not spell as themselves; a value may spell `=` so. -/
def keyReserved : List Char := ['&', '=', '%', '+', nul]

def valueReserved : List Char := ['&', '%', '+', nul]

/-- `SpellsPair p t`: `t` spells the key of `p`, an equals sign and its value. -/
def SpellsPair (p : Text × Text) (t : Text) : Prop :=
  ∃ k v, Lib.Percent.Spells keyReserved p.1 k ∧ Lib.Percent.Spells valueReserved p.2 v ∧
    t = k ++ '=' :: v

/-- `SpellsQuery pairs query`: `query` spells the pairs, with ampersands between them. -/
inductive SpellsQuery : List (Text × Text) → Text → Prop
  | nil : SpellsQuery [] []
  | one {p : Text × Text} {t : Text} : SpellsPair p t → SpellsQuery [p] t
  | cons {p : Text × Text} {t : Text} {ps : List (Text × Text)} {query : Text} :
    SpellsPair p t → ps ≠ [] → SpellsQuery ps query → SpellsQuery (p :: ps) (t ++ '&' :: query)

def NulFree (pairs : List (Text × Text)) : Prop := ∀ p ∈ pairs, nul ∉ p.1 ∧ nul ∉ p.2

/-- The values of a key, in order. -/
def valuesOf (pairs : List (Text × Text)) (key : Text) : List Text :=
  (pairs.filter (·.1 = key)).map (·.2)

end Runtime.Query
