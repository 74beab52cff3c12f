import Orbit.Lib.Backtrack

/-!
# Regular expressions

`std/string/regex.orb`: the validator and the matcher, over the text of the pattern. A byte is the
character of its code. A position in a pattern is kept as the text from it on, and the positions
returned are counted from there; -1 is `none`.
-/

namespace Regex

open Lib.Backtrack (Rep chain)

abbrev Text := List Char

/-- What `at` returns past the end. -/
abbrev nul : Char := '\x00'

def isDigit (t : Char) : Bool := '0' ≤ t && t ≤ '9'
def isWord (t : Char) : Bool :=
  isDigit t || ('A' ≤ t && t ≤ 'Z') || ('a' ≤ t && t ≤ 'z') || t = '_'
def isSpace (t : Char) : Bool := t = ' ' || t = '\t' || t = '\n' || t = '\x0d'

/-! ## The text of a pattern -/

/-- What a class may escape. -/
def isClassEscape (e : Char) : Bool := e = ']' || e = '\\' || e = 'd' || e = 'w' || e = 's'

/-- The rest of a class. `plain` is the character before, if it may begin a range; `skip` characters
belong to an escape or a range. -/
def classEnd : (skip items : Nat) → (plain : Option Char) → (i : Nat) → Text → Option Nat
  | _, _, _, _, [] => none
  | skip + 1, items, plain, i, _ :: t => classEnd skip items plain (i + 1) t
  | 0, items, plain, i, c :: t =>
    if c = ']' then if items > 0 then some (i + 1) else none
    else if c = '\\' then
      if isClassEscape (t.headD nul) then classEnd 1 (items + 1) none (i + 1) t else none
    else if c = '-' ∧ plain ≠ none ∧ t ≠ [] ∧ t.headD nul ≠ ']' ∧ t.headD nul ≠ '\\' then
      if t.headD nul < plain.getD nul then none else classEnd 1 (items + 1) none (i + 1) t
    else classEnd 0 (items + 1) (if c = '-' then none else some c) (i + 1) t

theorem classEnd_cons (items : Nat) (plain : Option Char) (i : Nat) (c : Char) (t : Text) :
    classEnd 0 items plain i (c :: t) =
      if c = ']' then if items > 0 then some (i + 1) else none
      else if c = '\\' then
        if isClassEscape (t.headD nul) then classEnd 1 (items + 1) none (i + 1) t else none
      else if c = '-' ∧ plain ≠ none ∧ t ≠ [] ∧ t.headD nul ≠ ']' ∧ t.headD nul ≠ '\\' then
        if t.headD nul < plain.getD nul then none else classEnd 1 (items + 1) none (i + 1) t
      else classEnd 0 (items + 1) (if c = '-' then none else some c) (i + 1) t := rfl

/-- The position behind the class that starts here. -/
def parseClassEnd (pat : Text) : Option Nat :=
  if pat.tail.headD nul = '^' then classEnd 0 0 none 2 (pat.drop 2)
  else classEnd 0 0 none 1 (pat.drop 1)

/-- `skip` characters belong to an escape or a class. -/
def findCloseFrom : (skip : Nat) → (depth : Int) → (i : Nat) → Text → Option Nat
  | _, _, _, [] => none
  | skip + 1, depth, i, _ :: t => findCloseFrom skip depth (i + 1) t
  | 0, depth, i, c :: t =>
    if c = '\\' then findCloseFrom 1 depth (i + 1) t
    else if c = '[' then
      match parseClassEnd (c :: t) with
      | none => none
      | some n => findCloseFrom (n - 1) depth (i + 1) t
    else if c = '(' then findCloseFrom 0 (depth + 1) (i + 1) t
    else if c = ')' then
      if depth - 1 = 0 then some i else findCloseFrom 0 (depth - 1) (i + 1) t
    else findCloseFrom 0 depth (i + 1) t

theorem findCloseFrom_cons (depth : Int) (i : Nat) (c : Char) (t : Text) :
    findCloseFrom 0 depth i (c :: t) =
      if c = '\\' then findCloseFrom 1 depth (i + 1) t
      else if c = '[' then
        match parseClassEnd (c :: t) with
        | none => none
        | some n => findCloseFrom (n - 1) depth (i + 1) t
      else if c = '(' then findCloseFrom 0 (depth + 1) (i + 1) t
      else if c = ')' then
        if depth - 1 = 0 then some i else findCloseFrom 0 (depth - 1) (i + 1) t
      else findCloseFrom 0 depth (i + 1) t := rfl

theorem findCloseFrom_skip (skip : Nat) (depth : Int) (i : Nat) (c : Char) (t : Text) :
    findCloseFrom (skip + 1) depth i (c :: t) = findCloseFrom skip depth (i + 1) t := rfl

/-- The position of the parenthesis that closes the group that starts here. -/
def findClose (pat : Text) : Option Nat := findCloseFrom 0 0 0 pat

/-- `cur` is what is read of the branch. -/
def splitTopFrom : (skip : Nat) → (depth : Int) → (cur : Text) → Text → List Text
  | _, _, cur, [] => [cur]
  | skip + 1, depth, cur, c :: t => splitTopFrom skip depth (cur ++ [c]) t
  | 0, depth, cur, c :: t =>
    if c = '\\' then splitTopFrom 1 depth (cur ++ [c]) t
    else if c = '[' then
      match parseClassEnd (c :: t) with
      | none => [cur ++ c :: t]
      | some n => splitTopFrom (n - 1) depth (cur ++ [c]) t
    else if c = '(' then splitTopFrom 0 (depth + 1) (cur ++ [c]) t
    else if c = ')' then splitTopFrom 0 (depth - 1) (cur ++ [c]) t
    else if c = '|' ∧ depth = 0 then cur :: splitTopFrom 0 depth [] t
    else splitTopFrom 0 depth (cur ++ [c]) t

theorem splitTopFrom_cons (depth : Int) (cur : Text) (c : Char) (t : Text) :
    splitTopFrom 0 depth cur (c :: t) =
      if c = '\\' then splitTopFrom 1 depth (cur ++ [c]) t
      else if c = '[' then
        match parseClassEnd (c :: t) with
        | none => [cur ++ c :: t]
        | some n => splitTopFrom (n - 1) depth (cur ++ [c]) t
      else if c = '(' then splitTopFrom 0 (depth + 1) (cur ++ [c]) t
      else if c = ')' then splitTopFrom 0 (depth - 1) (cur ++ [c]) t
      else if c = '|' ∧ depth = 0 then cur :: splitTopFrom 0 depth [] t
      else splitTopFrom 0 depth (cur ++ [c]) t := rfl

theorem splitTopFrom_skip (skip : Nat) (depth : Int) (cur : Text) (c : Char) (t : Text) :
    splitTopFrom (skip + 1) depth cur (c :: t) = splitTopFrom skip depth (cur ++ [c]) t := rfl

def splitTop (pat : Text) : List Text := splitTopFrom 0 0 [] pat

/-- What a pattern may escape. -/
def isEscape (e : Char) : Bool :=
  e = '.' || e = '*' || e = '+' || e = '?' || e = '|' || e = '(' || e = ')' || e = '[' || e = ']' ||
    e = '^' || e = '$' || e = '\\' || e = 'd' || e = 'w' || e = 's'

/-- The position behind the atom that starts here. -/
def parseAtomEnd (pat : Text) : Option Nat :=
  match pat with
  | [] => none
  | c :: t =>
    if c = '\\' then
      match t with
      | [] => none
      | e :: _ => if isEscape e then some 2 else none
    else if c = '.' ∨ c = '^' ∨ c = '$' then some 1
    else if c = '*' ∨ c = '+' ∨ c = '?' ∨ c = '|' ∨ c = ')' then none
    else if c = '[' then parseClassEnd pat
    else if c = '(' then (findClose pat).map (· + 1)
    else some 1

/-- The quantifier that a character is. -/
def repOf (c : Char) : Rep :=
  if c = '*' then .star else if c = '+' then .plus else if c = '?' then .opt else .one

/-- The text behind an atom that is `n` long and its quantifier. -/
def behind (n : Nat) (br : Text) : Text :=
  br.drop (if repOf ((br.drop n).headD nul) = .one then n else n + 1)

/-! ## The validator -/

mutual

def validSeq : (fuel : Nat) → Text → Bool
  | 0, _ => false
  | fuel + 1, br => if br = [] then false else validFrom fuel br

/-- The loop of `validSeq`. -/
def validFrom : (fuel : Nat) → Text → Bool
  | 0, _ => false
  | fuel + 1, br =>
    if br = [] then true
    else
      match parseAtomEnd br with
      | none => false
      | some n =>
        (if br.headD nul = '(' then
          (splitTop ((br.take (n - 1)).drop 1)).all fun b => validSeq fuel b
        else true) && validFrom fuel (behind n br)

end

def regexValid (pat : Text) : Bool := (splitTop pat).all fun br => validSeq (pat.length + 2) br

/-! ## The matcher -/

def escapeHit (e t : Char) : Bool :=
  if e = 'd' then isDigit t else if e = 'w' then isWord t else if e = 's' then isSpace t else t = e

/-- Whether the class has the character; `prev` is the character before. -/
def classHit (t : Char) : (skip : Nat) → (prev : Option Char) → Text → Bool
  | _, _, [] => false
  | skip + 1, _, c :: u => classHit t skip (some c) u
  | 0, prev, c :: u =>
    if c = '\\' then escapeHit (u.headD nul) t || classHit t 1 (some c) u
    else if c = '-' ∧ prev ≠ none ∧ u ≠ [] ∧ prev.getD nul ≠ '\\' ∧ u.headD nul ≠ '\\' ∧
        u.headD nul ≠ ']' then
      (prev.getD nul ≤ t && t ≤ u.headD nul) || classHit t 0 (some c) u
    else t = c || classHit t 0 (some c) u

theorem classHit_cons (t : Char) (prev : Option Char) (c : Char) (u : Text) :
    classHit t 0 prev (c :: u) =
      if c = '\\' then escapeHit (u.headD nul) t || classHit t 1 (some c) u
      else if c = '-' ∧ prev ≠ none ∧ u ≠ [] ∧ prev.getD nul ≠ '\\' ∧ u.headD nul ≠ '\\' ∧
          u.headD nul ≠ ']' then
        (prev.getD nul ≤ t && t ≤ u.headD nul) || classHit t 0 (some c) u
      else t = c || classHit t 0 (some c) u := rfl

theorem classHit_skip (t : Char) (skip : Nat) (prev : Option Char) (c : Char) (u : Text) :
    classHit t (skip + 1) prev (c :: u) = classHit t skip (some c) u := rfl

def matchClass (atom text : Text) (ti : Nat) : Option Nat :=
  let inner := (atom.take (atom.length - 1)).drop 1
  let neg : Bool := inner.headD nul = '^'
  let inner := if neg then inner.tail else inner
  if classHit (text.getD ti nul) 0 none inner = neg then none else some (ti + 1)

mutual

def matchSeq : (fuel : Nat) → (br text : Text) → (ti : Nat) → Option Nat
  | 0, _, _, _ => none
  | fuel + 1, br, text, ti =>
    if br = [] then some ti
    else
      match parseAtomEnd br with
      | none => none
      | some qi =>
        let atom := br.take qi
        let rest := behind qi br
        match repOf ((br.drop qi).headD nul) with
        | .star => matchStar fuel atom rest text ti
        | .plus => (matchAtomOnce fuel atom text ti).bind fun m => matchStar fuel atom rest text m
        | .opt => ((matchAtomOnce fuel atom text ti).bind fun m => matchSeq fuel rest text m).or
            (matchSeq fuel rest text ti)
        | .one => (matchAtomOnce fuel atom text ti).bind fun m => matchSeq fuel rest text m

def matchStar : (fuel : Nat) → (atom rest text : Text) → (ti : Nat) → Option Nat
  | 0, _, _, _, _ => none
  | fuel + 1, atom, rest, text, ti =>
    let positions := chain (fun cur => matchAtomOnce fuel atom text cur) (text.length + 1) ti
    positions.reverse.findSome? fun m => matchSeq fuel rest text m

def matchAtomOnce : (fuel : Nat) → (atom text : Text) → (ti : Nat) → Option Nat
  | 0, _, _, _ => none
  | fuel + 1, atom, text, ti =>
    let c := atom.headD nul
    let t := text.getD ti nul
    if c = '^' then if ti = 0 then some ti else none
    else if c = '$' then if ti = text.length then some ti else none
    else if ti ≥ text.length then none
    else if c = '.' then if t = '\n' then none else some (ti + 1)
    else if c = '\\' then if escapeHit (atom.getD 1 nul) t then some (ti + 1) else none
    else if c = '[' then matchClass atom text ti
    else if c = '(' then
      match findClose atom with
      | none => none
      | some close =>
        (splitTop ((atom.take close).drop 1)).findSome? fun b => matchSeq fuel b text ti
    else if t = c then some (ti + 1) else none

end

def regexMatch (pat text : Text) : Bool :=
  if regexValid pat = false then false
  else (splitTop pat).any fun br => matchSeq (pat.length + 1) br text 0 = some text.length

end Regex
