import Orbit.Lib.Find
import Orbit.Runtime.HttpFields

/-!
# Uploads

`orbit_file_upload_save` of `runtime/builtins.c`: the part of a `multipart/form-data` body that is
saved for a field, and what such a body says. Allocations succeed, and a file that opens takes what
is written to it.
-/

namespace Runtime.Upload

open Http (Text isCaseless trim)
open Lib.Find (indexOf)

def crlf : Text := ['\r', '\n']

/-- The first place of `needle` in any letter case. -/
def orbitCiStrstr (hay needle : Text) : Option Nat :=
  if needle = [] then none else indexOf (needle.map Char.toLower) (hay.map Char.toLower)

/-- A text that is cut to fit a buffer of `cap` bytes. -/
def snprintf (cap : Nat) (text : Text) : Text := text.take (cap - 1)

/-- The parts of a request that are read. -/
structure Request where
  headers : Option Text
  body : Option Text

/-- The boundary that the header lines announce. -/
def boundaryOf (headers : Text) : Option Text := do
  let ct ← orbitCiStrstr headers "content-type:".toList
  let headers := headers.drop (ct + 13)
  let bpos ← orbitCiStrstr headers "boundary=".toList
  let boundary := (headers.drop (bpos + 9)).takeWhile fun c =>
    c ≠ ';' && c ≠ '\r' && c ≠ '\n' && c ≠ ' '
  if boundary = [] ∨ boundary.length > 200 then none else some boundary

def dashes (boundary : Text) : Text := '-' :: '-' :: boundary

/-- The header lines of a part are taken for the ones of the field. -/
def looksNamed (field headers : Text) : Bool :=
  field = [] ||
    (orbitCiStrstr headers (snprintf 520 ("name=\"".toList ++ field ++ ['"']))).isSome

/-- The sanitized base of the `filename`, empty when there is none that fits. -/
def fileName (headers : Text) : Text :=
  match orbitCiStrstr headers "filename=\"".toList with
  | none => []
  | some fp =>
    let name := (headers.drop (fp + 10)).takeWhile (· ≠ '"')
    if name.length > 0 ∧ name.length < 256 then
      let base := (name.reverse.takeWhile fun c => c ≠ '/' && c ≠ '\\').reverse
      (base.take 255).map fun c =>
        if ('a' ≤ c ∧ c ≤ 'z') ∨ ('A' ≤ c ∧ c ≤ 'Z') ∨ ('0' ≤ c ∧ c ≤ '9') ∨ c = '.' ∨ c = '_' ∨
          c = '-' then c else '_'
    else []

/-- The path of a part, at the time `now`. -/
def savedPath (now : Nat) (dest headers : Text) : Text :=
  let name := fileName headers
  let name := if name = [] then "upload_".toList ++ Nat.toDigits 10 now ++ ".bin".toList else name
  let dir := if dest = [] then "./uploads".toList else dest
  snprintf 512 (dir ++ ['/'] ++ name)

section
variable (opens : Text → Bool) (now : Nat) (boundary field dest : Text)

/-- The loop over the parts, from `cur` on: the path that is written and what is written to it. -/
def walk : (fuel : Nat) → (cur : Text) → Option (Text × Text)
  | 0, _ => none
  | fuel + 1, cur => do
    let m ← indexOf (dashes boundary) cur
    let cur := cur.drop (m + (dashes boundary).length)
    if ['-', '-'] <+: cur then none
    else if crlf <+: cur then
      let cur := cur.drop 2
      let hend ← indexOf (crlf ++ crlf) cur
      let headers := cur.take hend
      let content := cur.drop (hend + 4)
      let cend ← indexOf (crlf ++ dashes boundary) content
      if looksNamed field headers then
        let path := savedPath now dest headers
        if opens path then some (path, content.take cend) else none
      else walk fuel (content.drop (cend + (crlf ++ dashes boundary).length))
    else none

end

/-- The file that is saved, `none` for the empty path. `opens` says which files can be opened. -/
def orbitFileUploadSave (opens : Text → Bool) (now : Nat) (req : Request) (field dest : Text) :
    Option (Text × Text) := do
  let headers ← req.headers
  let body ← req.body
  let boundary ← boundaryOf headers
  walk opens now boundary field dest (body.length + 1) body

/-! ## Bodies -/

structure Part where
  lines : List Text
  content : Text
deriving DecidableEq

/-- Header lines without the last line end. -/
def joinLines : List Text → Text
  | [] => []
  | [line] => line
  | line :: lines => line ++ crlf ++ joinLines lines

/-- A part from its line end to the one after its content. -/
def Part.text (p : Part) : Text := crlf ++ joinLines p.lines ++ crlf ++ crlf ++ p.content ++ crlf

/-- What follows a delimiter: parts, each with the delimiter behind it, and the end. -/
def formTail (boundary epilogue : Text) : List Part → Text
  | [] => '-' :: '-' :: epilogue
  | p :: parts => p.text ++ dashes boundary ++ formTail boundary epilogue parts

def formBody (boundary preamble epilogue : Text) (parts : List Part) : Text :=
  preamble ++ dashes boundary ++ formTail boundary epilogue parts

/-- A part has header lines, and no delimiter in its content. -/
structure Part.WellFormed (boundary : Text) (p : Part) : Prop where
  some_line : p.lines ≠ []
  lines : ∀ line ∈ p.lines, line ≠ [] ∧ '\r' ∉ line ∧ '\n' ∉ line
  content : ¬ crlf ++ dashes boundary <:+: p.content

/-- The first delimiter starts a line. -/
def StartsLine (preamble : Text) : Prop := preamble = [] ∨ crlf <:+ preamble

/-- The pieces between semicolons that are not quoted; `piece` is what was read of one, backwards. -/
def pieces : (quoted : Bool) → (piece : Text) → Text → List Text
  | _, piece, [] => [piece.reverse]
  | quoted, piece, c :: t =>
    if c = '"' then pieces (!quoted) (c :: piece) t
    else if c = ';' ∧ quoted = false then piece.reverse :: pieces false [] t
    else pieces quoted (c :: piece) t

def unquote (v : Text) : Text :=
  if v.length ≥ 2 ∧ v.head? = some '"' ∧ v.getLast? = some '"' then (v.drop 1).dropLast else v

/-- The value of a piece that is the parameter `key`. -/
def parameter (key : String) (piece : Text) : Option Text :=
  if isCaseless key (trim (piece.takeWhile (· ≠ '='))) then
    some (unquote (trim ((piece.dropWhile (· ≠ '=')).drop 1)))
  else none

/-- The `name` of the `Content-Disposition` of a part. -/
def Part.name (p : Part) : Option Text :=
  p.lines.findSome? fun line =>
    match Http.fieldOf line with
    | some (key, value) =>
      if isCaseless "content-disposition" key then
        ((pieces false [] value).drop 1).findSome? (parameter "name")
      else none
    | none => none

/-- Each other part. -/
def everyOther : List Part → List Part
  | [] => []
  | [p] => [p]
  | p :: _ :: parts => p :: everyOther parts

section
variable (opens : Text → Bool) (now : Nat) (boundary epilogue field dest : Text)

/-- No delimiter is taken out of the middle of a line: the parts between each other part have none,
nor has the end, up to the first part that is taken for the field. -/
def NoStray : List Part → Prop
  | [] => True
  | [p] => looksNamed field (joinLines p.lines) = true ∨
      ¬ dashes boundary <:+: '-' :: '-' :: epilogue
  | p :: q :: parts => looksNamed field (joinLines p.lines) = true ∨
      ¬ dashes boundary <:+: q.text ∧ NoStray parts

/-- The content of the first part of a name. -/
def contentOf (parts : List Part) : Option Text :=
  (parts.find? fun p => p.name = some field).map Part.content

/-- The content of the named part is what is saved. -/
def StoresNamed (req : Request) (parts : List Part) : Prop :=
  (orbitFileUploadSave opens now req field dest).map Prod.snd = contentOf field parts

/-- The first of each other part whose header lines hold `name="field"` in any case opens its file
and has the content of the first part that has the name, or there is neither. -/
def FindsNamed (parts : List Part) : Prop :=
  match (everyOther parts).find? fun p => looksNamed field (joinLines p.lines),
    parts.find? fun p => p.name = some field with
  | none, none => True
  | none, some _ => False
  | some p, none => opens (savedPath now dest (joinLines p.lines)) = false
  | some p, some q => opens (savedPath now dest (joinLines p.lines)) = true ∧ p.content = q.content

end

/-- A request carries a form, under the boundary as it is read and without stray delimiters. -/
structure Carries (req : Request) (field boundary preamble epilogue : Text) (parts : List Part) :
    Prop where
  headers : req.headers.bind boundaryOf = some boundary
  body : req.body = some (formBody boundary preamble epilogue parts)
  wellFormed : ∀ p ∈ parts, p.WellFormed boundary
  starts : StartsLine preamble
  plain : ¬ dashes boundary <:+: preamble
  noStray : NoStray boundary epilogue field parts

end Runtime.Upload
