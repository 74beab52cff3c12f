import Orbit.Lib.Text

/-!
# The fix engine of doctor

`compiler/tools/doctor.orb`: edits of a source by line ranges, their order, their conflicts and how
they are spliced into the text. A byte is the character of its code. Lines count from 1.
-/

namespace Tools.Doctor

abbrev Text := List Char

/-- Lines `startLine` to `endLine` are replaced; with `endLine = startLine - 1` the text is inserted
in front of `startLine`. -/
structure DoctorEdit where
  startLine : Nat
  endLine : Nat
  text : Text
  kind : String
  deriving DecidableEq, Repr

/-! ## Order and conflicts -/

/-- The first place whose edit starts later, or the end. -/
def sortSlot (out : List DoctorEdit) (e : DoctorEdit) : Nat :=
  out.findIdx fun o => decide (e.startLine < o.startLine)

/-- The next edit goes to the end, and the one at its slot is left out. -/
def sortStep (out : List DoctorEdit) (e : DoctorEdit) : List DoctorEdit :=
  out.eraseIdx (sortSlot out e) ++ [e]

def doctorSortEdits (edits : List DoctorEdit) : List DoctorEdit := edits.foldl sortStep []

/-- The first of two edits of which the second starts in the range of the first. -/
def firstConflict : List DoctorEdit → Option DoctorEdit
  | [] => none
  | a :: rest =>
    if rest.any fun b => b.startLine ≤ a.endLine then some a else firstConflict rest

/-- Why the edits cannot be applied; empty when they can. -/
def doctorEditsConflict (edits : List DoctorEdit) : String :=
  match firstConflict (doctorSortEdits edits) with
  | some a => "two fixes both rewrite line " ++ toString a.startLine
  | none => ""

/-! ## Splicing -/

/-- Where the lines behind an LF start; `i` is the offset of the text. -/
def lineStartsFrom (i : Nat) : Text → List Nat
  | [] => []
  | c :: t => if c = '\n' then (i + 1) :: lineStartsFrom (i + 1) t else lineStartsFrom (i + 1) t

def doctorLineStarts (source : Text) : List Nat := 0 :: lineStartsFrom 0 source

def doctorStartOffset (starts : List Nat) (line total : Nat) : Nat :=
  if line < 1 then 0
  else if line > starts.length then total
  else starts.getD (line - 1) 0

def slice (t : Text) (i j : Nat) : Text := (t.take j).drop i

def doctorEndsWithNewline (s : Text) : Bool := s = [] || s.getLast? = some '\n'

/-- The line end of the text that is replaced. -/
def endingOf (replaced : Text) : Text :=
  if replaced.getLast? = some '\n' then
    if replaced.length > 1 ∧ replaced.getD (replaced.length - 2) '\x00' = '\r' then ['\r', '\n']
    else ['\n']
  else if replaced.getLast? = some '\r' then ['\r']
  else []

def doctorEditText (source : Text) (start stop : Nat) (text : Text) : Text :=
  if start ≥ stop then text
  else
    let ending := endingOf (slice source start stop)
    if ending = [] then text
    else if doctorEndsWithNewline text then text
    else text ++ ending

/-- The loop over the edits, behind `cursor`. -/
def applyFrom (source : Text) (cursor : Nat) : List DoctorEdit → Text
  | [] => slice source cursor source.length
  | e :: rest =>
    let starts := doctorLineStarts source
    let total := source.length
    let start := doctorStartOffset starts e.startLine total
    let stop :=
      if e.endLine ≥ e.startLine then
        if e.endLine + 1 ≤ starts.length then starts.getD e.endLine 0 else total
      else start
    let start := if start < cursor then cursor else start
    let stop := if stop < start then start else stop
    let start := if start > total then total else start
    let stop := if stop > total then total else stop
    slice source cursor start ++ doctorEditText source start stop e.text ++
      applyFrom source stop rest

def doctorApplyEdits (source : Text) (edits : List DoctorEdit) : Text :=
  if doctorEditsConflict edits ≠ "" then []
  else applyFrom source 0 (doctorSortEdits edits)

/-! ## What a fix is to do -/

/-- The lines of a text, each with its LF; the last one has none. -/
def linesOf : Text → List Text
  | [] => [[]]
  | c :: t =>
    if c = '\n' then [c] :: linesOf t
    else
      match linesOf t with
      | line :: lines => (c :: line) :: lines
      | [] => [[c]]

namespace DoctorEdit

/-- A replacement of lines, or an insertion. -/
def Valid (e : DoctorEdit) : Prop := 1 ≤ e.startLine ∧ e.startLine ≤ e.endLine + 1

instance (e : DoctorEdit) : Decidable e.Valid := inferInstanceAs (Decidable (_ ∧ _))

def isInsertion (e : DoctorEdit) : Bool := e.endLine < e.startLine

/-- The replacement has the line in its range. -/
def covers (e : DoctorEdit) (line : Nat) : Bool := e.startLine ≤ line && line ≤ e.endLine

end DoctorEdit

/-- The edits cannot both be applied: two replacements share a line, or an insertion stands inside
a replaced range. -/
def clashes (a b : DoctorEdit) : Bool :=
  (!a.isInsertion && !b.isInsertion && a.startLine ≤ b.endLine && b.startLine ≤ a.endLine) ||
    (b.isInsertion && a.startLine < b.startLine && b.startLine ≤ a.endLine) ||
    (a.isInsertion && b.startLine < a.startLine && a.startLine ≤ b.endLine)

/-- Two of the edits clash, in whatever order they stand. -/
def Clash (edits : List DoctorEdit) : Prop := ¬ edits.Pairwise fun a b => clashes a b = false

instance (edits : List DoctorEdit) : Decidable (Clash edits) := inferInstanceAs (Decidable (¬ _))

/-- A text without the line end that it has. -/
def content (text : Text) : Text :=
  if text.getLast? = some '\n' then text.take (text.length - (endingOf text).length) else text

/-- A text with the line end of the range that it replaces, if the range has one. -/
def withEnding (replaced text : Text) : Text :=
  if endingOf replaced = [] then text else content text ++ endingOf replaced

section
variable (lines : List Text)

/-- The lines of a range. -/
def range (start stop : Nat) : Text := ((lines.take stop).drop (start - 1)).flatten

/-- What stands at a line of the edited text: what is inserted in front of it, and the line, or what
the range that starts there is replaced by, or nothing inside such a range. -/
def editedLine (replacement : Text → Text → Text) (edits : List DoctorEdit) (line : Nat) : Text :=
  ((edits.filter fun e => e.isInsertion && e.startLine = line).flatMap DoctorEdit.text) ++
    match edits.find? fun e => e.covers line with
    | none => lines.getD (line - 1) []
    | some e => if e.startLine = line then replacement (range lines line e.endLine) e.text else []

/-- The last line at which something stands. -/
def lastLine (edits : List DoctorEdit) : Nat :=
  (edits.map DoctorEdit.startLine).foldl max lines.length

end

/-- The edited source, line by line; each range keeps its line end. -/
def edited (source : Text) (edits : List DoctorEdit) : Text :=
  let lines := linesOf source
  (List.range' 1 (lastLine lines edits)).flatMap (editedLine lines withEnding edits)

def Sorted (edits : List DoctorEdit) : Prop :=
  edits.Pairwise fun a b => a.startLine ≤ b.startLine

instance (edits : List DoctorEdit) : Decidable (Sorted edits) :=
  inferInstanceAs (Decidable (edits.Pairwise _))

/-- What the fix engine is to do with the edits. -/
structure Fixes (source : Text) (edits : List DoctorEdit) : Prop where
  perm : (doctorSortEdits edits).Perm edits
  sorted : Sorted (doctorSortEdits edits)
  verdict : doctorEditsConflict edits ≠ "" ↔ Clash edits
  applied : ¬ Clash edits → doctorApplyEdits source edits = edited source edits

/-- A replacement stands in the list before an insertion at its first line. -/
def InsertionBehind (edits : List DoctorEdit) : Prop :=
  ¬ edits.Pairwise fun a b =>
    ¬ (a.isInsertion = false ∧ b.isInsertion = true ∧ a.startLine = b.startLine)

instance (edits : List DoctorEdit) : Decidable (InsertionBehind edits) :=
  inferInstanceAs (Decidable (¬ _))

/-- A range with a line end is replaced by a text that is not empty and has no other line end. -/
def KeepsEnding (source : Text) (edits : List DoctorEdit) : Prop :=
  ∀ e ∈ edits, e.isInsertion = false →
    endingOf (range (linesOf source) e.startLine e.endLine) ≠ [] →
      e.text ≠ [] ∧ (e.text.getLast? = some '\n' →
        endingOf e.text = endingOf (range (linesOf source) e.startLine e.endLine))

instance (source : Text) (edits : List DoctorEdit) : Decidable (KeepsEnding source edits) :=
  inferInstanceAs (Decidable (∀ _ ∈ _, _))

end Tools.Doctor
