import Orbit.Stdlib.Regex

/-!
# The language of a pattern

The grammar of the patterns that `std/string/regex.orb` documents, as trees and their texts, and the
language that a tree denotes. A pattern text denotes what a tree with that text does (`Denotes`).
-/

namespace Regex

open Lib.Backtrack (Rep Atom Seq Alts)

/-! ## Trees -/

/-- An item of a class. A range is written after its lower end, which is an item of its own. -/
inductive ClassItem where
  | char (c : Char)
  | upTo (lo hi : Char)
  | esc (e : Char)
  deriving DecidableEq, Repr

inductive Leaf where
  | char (c : Char)
  | esc (e : Char)
  | any | bol | eol
  | cls (neg : Bool) (items : List ClassItem)
  deriving DecidableEq, Repr

/-- The alternatives of a pattern or a group. -/
abbrev Pattern := Alts Leaf

/-! ## Their texts -/

def ClassItem.render : ClassItem → Text
  | .char c => [c]
  | .upTo _ hi => ['-', hi]
  | .esc e => ['\\', e]

def renderItems (items : List ClassItem) : Text := items.flatMap ClassItem.render

def Leaf.render : Leaf → Text
  | .char c => [c]
  | .esc e => ['\\', e]
  | .any => ['.']
  | .bol => ['^']
  | .eol => ['$']
  | .cls neg items => '[' :: ((if neg then ['^'] else []) ++ renderItems items ++ [']'])

def renderRep : Rep → Text
  | .one => []
  | .star => ['*']
  | .plus => ['+']
  | .opt => ['?']

mutual

def renderAtom : Atom Leaf → Text
  | .leaf l => l.render
  | .group alts => '(' :: (renderAlts alts ++ [')'])

def renderSeq : Seq Leaf → Text
  | .nil => []
  | .cons a r s => renderAtom a ++ (renderRep r ++ renderSeq s)

def renderAlts : Pattern → Text
  | .last s => renderSeq s
  | .or s alts => renderSeq s ++ '|' :: renderAlts alts

end

/-! ## Which trees are written -/

/-- The characters that do not stand for themselves. -/
def isSpecial (c : Char) : Bool :=
  c = '\\' || c = '.' || c = '^' || c = '$' || c = '*' || c = '+' || c = '?' || c = '|' || c = ')' ||
    c = '[' || c = '('

/-- A hyphen behind `plain` stands for itself only before an escape and at the end. -/
def hyphenEnds : List ClassItem → Prop
  | [] => True
  | .esc _ :: _ => True
  | _ => False

/-- Items behind the character `plain`, if that may begin a range. -/
def Items : (plain : Option Char) → List ClassItem → Prop
  | _, [] => True
  | plain, .char c :: items => c ≠ ']' ∧ c ≠ '\\' ∧ (c = '-' → plain ≠ none → hyphenEnds items) ∧
      Items (if c = '-' then none else some c) items
  | plain, .upTo lo hi :: items => plain = some lo ∧ hi ≠ ']' ∧ hi ≠ '\\' ∧ lo ≤ hi ∧
      Items none items
  | _, .esc e :: items => isClassEscape e = true ∧ Items none items

def Leaf.WF : Leaf → Prop
  | .char c => isSpecial c = false
  | .esc e => isEscape e = true
  | .cls neg items => items ≠ [] ∧ (neg = false → items.head? ≠ some (.char '^')) ∧ Items none items
  | _ => True

mutual

def AtomWF : Atom Leaf → Prop
  | .leaf l => l.WF
  | .group alts => AltsWF alts

def SeqWF : Seq Leaf → Prop
  | .nil => True
  | .cons a _ s => AtomWF a ∧ SeqWF s

def AltsWF : Pattern → Prop
  | .last s => s ≠ .nil ∧ SeqWF s
  | .or s alts => s ≠ .nil ∧ SeqWF s ∧ AltsWF alts

end

/-! ## Their meaning -/

def ClassItem.has (t : Char) : ClassItem → Bool
  | .char c => t = c
  | .upTo lo hi => lo ≤ t && t ≤ hi
  | .esc e => escapeHit e t

/-- Whether a leaf reads a character. -/
def Leaf.reads (t : Char) : Leaf → Bool
  | .char c => t = c
  | .esc e => escapeHit e t
  | .any => t ≠ '\n'
  | .bol | .eol => false
  | .cls neg items => items.any (·.has t) != neg

/-- From where to where a leaf reads: anchors read nothing, the others one character. -/
def Leaf.step (text : Text) (l : Leaf) (i : Nat) : Option Nat :=
  match l with
  | .bol => if i = 0 then some i else none
  | .eol => if i = text.length then some i else none
  | l =>
    match text[i]? with
    | some t => if l.reads t then some (i + 1) else none
    | none => none

/-- The text is in the language of the pattern. -/
def Language (r : Pattern) (text : Text) : Prop := r.Ends (Leaf.step text) 0 text.length

/-- The pattern text is that of the tree. -/
def Denotes (pat : Text) (r : Pattern) : Prop := AltsWF r ∧ renderAlts r = pat

/-- **The text is in the language that the pattern text denotes.** -/
def InLanguage (pat text : Text) : Prop := ∃ r, Denotes pat r ∧ Language r text

/-! ## Where the matcher loses nothing -/

/-- The items behind `prev`: each hyphen that stands for itself or ends a range is the first or the
last item, or has a backslash beside it. -/
def Clear : (prev : Option Char) → List ClassItem → Prop
  | _, [] => True
  | prev, .char c :: items =>
      (c = '-' → prev = none ∨ prev = some '\\' ∨ hyphenEnds items) ∧ Clear (some c) items
  | _, .upTo _ hi :: items => (hi = '-' → hyphenEnds items) ∧ Clear (some hi) items
  | _, .esc e :: items => Clear (some e) items

def Leaf.Clear : Leaf → Prop
  | .cls _ items => Regex.Clear none items
  | _ => True

/-- The matcher reads the leaf as it is written: a class is clear, or there is no character left. -/
def Leaf.ClearAt (text : Text) (l : Leaf) (i : Nat) : Prop := i < text.length → l.Clear

def Branches : Pattern → List (Seq Leaf)
  | .last s => [s]
  | .or s alts => s :: Branches alts

/-- A text of the language is one of a branch on which the matcher is direct, and the classes that
it tries there are clear. Of any other text, the classes that a branch can reach are clear. -/
def Direct (pat text : Text) : Prop :=
  ∀ r, Denotes pat r →
    (Language r text → ∃ s ∈ Branches r, s.Ends (Leaf.step text) 0 text.length ∧
      s.Direct (Leaf.step text) text.length (· = 0) ∧
      s.Tries (Leaf.step text) text.length (Leaf.ClearAt text) (· = 0)) ∧
    (¬ Language r text → ∀ s ∈ Branches r,
      s.Visits (Leaf.step text) (Leaf.ClearAt text) (· = 0))

end Regex
