import Orbit.Lib.Find
import Orbit.Lib.Text

/-!
# The cluster's state file

`compiler/host/cluster.orb`: `.orbit/cluster.json` is written as one text (`clusterBuildState`) and
from then on read and edited in place by searching it for keys. A text is a list of characters.
-/

namespace Cluster

open Lib.Find (indexOf)
open Lib.Text (chars intToString)

abbrev Text := List Char

def slice (s : Text) (i j : Nat) : Text := (s.take j).drop i

def isDigit (c : Char) : Bool := '0' ≤ c && c ≤ '9'

def digitValue (c : Char) : Nat := c.toNat - 48

/-- 64-bit arithmetic, modulo 2^64. -/
def wrap (n : Int) : Int := n.bmod 18446744073709551616

def clusterParseInt (s : Text) : Int :=
  s.foldl (fun result c => if isDigit c then wrap (result * 10 + digitValue c) else result) 0

def clusterIsDigits (s : Text) : Bool := !s.isEmpty && s.all isDigit

def clusterIndexOfFrom (hay needle : Text) (start : Nat) : Option Nat :=
  if hay.length ≤ start then none
  else (indexOf needle (hay.drop start)).map (start + ·)

/-- `"key":`. -/
def keyNeedle (key : Text) : Text := '"' :: (key ++ chars "\":")

/-- `"key": `. -/
def intNeedle (key : Text) : Text := '"' :: (key ++ chars "\": ")

/-- `"id": n,`. -/
def idNeedle (id : Int) : Text := intNeedle (chars "id") ++ (intToString id ++ [','])

/-- The text between the two quotes after a key. -/
def clusterFieldStr (content key : Text) : Text :=
  match indexOf (keyNeedle key) content with
  | none => []
  | some pos =>
    let rest := (content.drop (pos + (keyNeedle key).length)).dropWhile (· ≠ '"')
    (rest.drop 1).takeWhile (· ≠ '"')

/-- How many of the ids 0, 1, … stand in the file, at most 1024. -/
def clusterNodeCount (content : Text) : Nat := go 1024 0
where
  go : Nat → Nat → Nat
    | 0, n => n
    | fuel + 1, n => if (indexOf (idNeedle n) content).isNone then n else go fuel (n + 1)

/-- The first number at or after the start of the text. The numbers of the file are written from
64-bit integers, so reading one back does not wrap. -/
def firstNumber (s : Text) : Int :=
  let digits := (s.dropWhile fun c => !isDigit c).takeWhile isDigit
  if digits.isEmpty then -1
  else digits.foldl (fun num c => num * 10 + digitValue c) 0

/-- The number under `key` in the entry of node `id`, or `-1`. -/
def clusterNodeInt (content : Text) (id : Int) (key : Text) : Int :=
  match indexOf (idNeedle id) content with
  | none => -1
  | some idPos =>
    match clusterIndexOfFrom content (intNeedle key) idPos with
    | none => -1
    | some keyPos =>
      let read := firstNumber (content.drop (keyPos + (intNeedle key).length))
      match clusterIndexOfFrom content (intNeedle (chars "id")) (idPos + 1) with
      | some nextId => if nextId < keyPos then -1 else read
      | none => read

/-- The file with the pid of node `id` replaced. -/
def clusterSetNodePid (content : Text) (id pid : Int) : Text :=
  match indexOf (idNeedle id) content with
  | none => content
  | some idPos =>
    match clusterIndexOfFrom content (intNeedle (chars "pid")) idPos with
    | none => content
    | some keyPos =>
      let start := keyPos + (intNeedle (chars "pid")).length
      content.take start ++ intToString pid ++ (content.drop start).dropWhile isDigit

def drainingNeedle : Text := chars "\"draining\": ["

/-- The text between the brackets of the draining list. -/
def clusterDrainingSub (content : Text) : Text :=
  match indexOf drainingNeedle content with
  | none => []
  | some pos =>
    let tail := content.drop (pos + drainingNeedle.length)
    match indexOf [']'] tail with
    | none => []
    | some endRel => tail.take endRel

def isBefore (c : Char) : Bool := c == ' ' || c == ',' || c == '['
def isAfter (c : Char) : Bool := c == ' ' || c == ',' || c == ']'

/-- Whether `want` stands in `sub` as a whole number. The position moves on by at least one in each
round, so the length of `sub` bounds the rounds. -/
def listsNumber (sub want : Text) : Bool := go sub.length 0
where
  go : Nat → Nat → Bool
    | 0, _ => false
    | fuel + 1, start =>
      match clusterIndexOfFrom sub want start with
      | none => false
      | some p =>
        let beforeOk := p == 0 || isBefore (sub.getD (p - 1) ' ')
        let afterPos := p + want.length
        let afterOk := decide (sub.length ≤ afterPos) || isAfter (sub.getD afterPos ' ')
        if beforeOk && afterOk then true else go fuel (p + 1)

def clusterDrainingContains (content : Text) (id : Int) : Bool :=
  listsNumber (clusterDrainingSub content) (intToString id)

def clusterAddDraining (content : Text) (id : Int) : Text :=
  if clusterDrainingContains content id then content
  else match indexOf drainingNeedle content with
    | none => content
    | some pos =>
      let start := pos + drainingNeedle.length
      if clusterDrainingSub content = [] then
        content.take start ++ intToString id ++ content.drop start
      else match indexOf [']'] (content.drop start) with
        | none => content
        | some endRel =>
          let at_ := start + endRel
          content.take at_ ++ chars ", " ++ intToString id ++ content.drop at_

/-- The elements of a list written with `, ` between them. -/
def commaList : List Text → Text
  | [] => []
  | [t] => t
  | t :: ts => t ++ chars ", " ++ commaList ts

/-- `{"id": i, "port": p, "pid": q}`. -/
def nodeText (i : Nat) (port pid : Int) : Text :=
  chars "\x7b\"id\": " ++ intToString i ++ chars ", \"port\": " ++ intToString port ++
    chars ", \"pid\": " ++ intToString pid ++ chars "\x7d"

def clusterBuildState (service : Text) (portBase : Int) (logDir : Text) (nodes : List (Int × Int))
    (draining : List Int) : Text :=
  chars "\x7b\"version\": 1, \"service\": \"" ++ service ++ chars "\", \"port_base\": " ++
    intToString portBase ++ chars ", \"log_dir\": \"" ++ logDir ++ chars "\", \"nodes\": [" ++
    commaList (nodes.mapIdx fun i n => nodeText i n.1 n.2) ++ chars "], \"draining\": [" ++
    commaList (draining.map intToString) ++ chars "]\x7d"

example : clusterNodeInt (clusterBuildState (chars "s") 80 (chars "l") [(80, 7), (81, 9)] []) 1
    (chars "pid") = 9 := by decide +kernel

end Cluster
