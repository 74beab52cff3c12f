import Orbit.Front.Declarations
import Orbit.Lib.Find

/-!
# The modules of a program

`compiler/front/resolver.orb`: the imports of a program are replaced by the declarations of the files
that they name. A file is known by its normalised path; the first import that comes to it reads it, the
others find it among the visited ones.
-/

namespace Front

open Front.Lex (Text)

/-- What the resolver asks of the system: its own name, and the files. -/
structure Host where
  argv0 : Text
  files : List (Text × Text)

/-- `orbit_file_read_selfhost`: empty for a file that cannot be read. -/
def Host.read (host : Host) (path : Text) : Text := (host.files.lookup path).getD []

structure ModuleResolver where
  visited : List Text
  errors : List Text

def initModuleResolver : ModuleResolver := ⟨[], []⟩

def isVisited (resolver : ModuleResolver) (path : Text) : Bool := resolver.visited.contains path

/-! ## Paths -/

def stripQuotes (s : Text) : Text :=
  if 2 ≤ s.length ∧ s[0]? = some '"' ∧ s[s.length - 1]? = some '"' then
    Lex.sliceAt s 1 (s.length - 1)
  else s

/-- The loop of `lastIndexOfSlash` from index `i`. -/
def lastSlashFrom : (i : Nat) → (last : Option Nat) → Text → Option Nat
  | _, last, [] => last
  | i, last, c :: t => lastSlashFrom (i + 1) (if c = '/' ∨ c = '\\' then some i else last) t

def lastIndexOfSlash (filePath : Text) : Option Nat := lastSlashFrom 0 none filePath

def getDir (filePath : Text) : Text :=
  match lastIndexOfSlash filePath with
  | none => []
  | some lastSlash => filePath.take lastSlash

def isStdPath (relPath : Text) : Bool := decide (Lex.sliceAt relPath 0 4 = "std/".toList)

def resolveStdPath (host : Host) (cleanRel : Text) : Text :=
  let selfDir := getDir host.argv0
  let parent := getDir selfDir
  let roots :=
    (if selfDir = [] then [] else if parent = [] then [selfDir] else [selfDir, parent]) ++ [['.']]
  let candidates := roots.map fun r => if r = ['.'] then cleanRel else r ++ '/' :: cleanRel
  (candidates.find? fun candidate => host.read candidate ≠ []).getD cleanRel

/-- The loop over the leading `../` and `./` of a path. -/
def climb : (cleanRel base : Text) → Text × Text
  | '.' :: '.' :: '/' :: rest, base => climb rest (getDir base)
  | '.' :: '/' :: rest, base => climb rest base
  | cleanRel, base => (cleanRel, base)

def resolveFilePath (host : Host) (baseDir relPath : Text) : Text :=
  let (cleanRel, base) := climb (stripQuotes relPath) baseDir
  if isStdPath cleanRel then resolveStdPath host cleanRel
  else if base ≠ [] ∧ host.read (base ++ '/' :: cleanRel) ≠ [] then base ++ '/' :: cleanRel
  else cleanRel

/-- The loop that takes out `/./`. -/
def dropDots : (fuel : Nat) → Text → Text
  | 0, s => s
  | fuel + 1, s =>
    match Lib.Find.indexOf ['/', '.', '/'] s with
    | none => s
    | some dot => dropDots fuel (s.take dot ++ s.drop (dot + 2))

def dropLead : Text → Text
  | '.' :: '/' :: rest => dropLead rest
  | s => s

/-- The loop that takes out `/../` with the segment before it. -/
def dropParents : (fuel : Nat) → Text → Text
  | 0, s => s
  | fuel + 1, s =>
    match Lib.Find.indexOf ['/', '.', '.', '/'] s with
    | none => s
    | some pos =>
      match lastIndexOfSlash (s.take pos) with
      | none => dropParents fuel (s.drop (pos + 4))
      | some lastSlash => dropParents fuel ((s.take pos).take (lastSlash + 1) ++ s.drop (pos + 4))

def normalizePath (p : Text) : Text :=
  let s := p.map fun c => if c = '\\' then '/' else c
  let s := dropDots s.length s
  let s := dropLead s
  let s := dropParents s.length s
  if s = ['.'] then [] else s

/-! ## The resolver -/

def importPath? : ASTNode → Option Text
  | .importStmt path => some path.toList
  | _ => none

/-- The file that an import names. -/
def importedFile (host : Host) (baseDir path : Text) : Text :=
  normalizePath (resolveFilePath host baseDir (stripQuotes path))

def diagnosticLine (fullPath : Text) (dd : ParserDiagnostic) : Text :=
  fullPath ++ ':' :: (Nat.toDigits 10 dd.line ++ ": ".toList ++ dd.message.toList)

section
variable (host : Host) (calls : Nat)

/-- A declaration of a program is added to those resolved, an import by what `inside` makes of its
file. -/
def resolveDecl (inside : ModuleResolver → ASTNode → Text → Option (ASTNode × ModuleResolver))
    (baseDir : Text) (out : List ASTNode × ModuleResolver) (decl : ASTNode) :
    Option (List ASTNode × ModuleResolver) :=
  let (resolvedDecls, resolver) := out
  match importPath? decl with
  | none => some (resolvedDecls ++ [decl], resolver)
  | some path =>
    let relPath := stripQuotes path
    let fullPath := importedFile host baseDir path
    if isVisited resolver fullPath then some (resolvedDecls, resolver)
    else
      let resolver := { resolver with visited := resolver.visited ++ [fullPath] }
      let subSource := host.read fullPath
      if subSource = [] then
        some (resolvedDecls, { resolver with
          errors := resolver.errors ++ ["Could not read imported module: ".toList ++ relPath] })
      else do
        let (subAST, subParser) ← parseSource calls subSource
        let resolver := { resolver with
          errors := resolver.errors ++ subParser.diagnostics.map (diagnosticLine fullPath) }
        let (subResolved, resolver) ← inside resolver subAST fullPath
        match subResolved with
        | .program decls => return (resolvedDecls ++ decls, resolver)
        | _ => return (resolvedDecls, resolver)

/-- With at most so many files inside each other, each parsed with so many calls of the parser inside
each other. -/
def resolveModuleAST : (depth : Nat) → ModuleResolver → ASTNode → Text →
    Option (ASTNode × ModuleResolver)
  | 0, _, _, _ => none
  | depth + 1, resolver, .program decls, basePath => do
    let (resolvedDecls, resolver) ←
      decls.foldlM (resolveDecl host calls (resolveModuleAST depth) (getDir basePath)) ([], resolver)
    return (.program resolvedDecls, resolver)
  | _ + 1, resolver, ast, _ => some (ast, resolver)

end

end Front
