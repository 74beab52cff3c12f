import Orbit.Build.Builder
import Orbit.Front.Lexer
import Orbit.Lib.Polish

/-!
# Instances of generic models and functions

`compiler/ir/builder.orb`: a call of a generic function is a call of the instance its arguments
select. `ensureFnInstance` names the instance, declares its signature and queues its body, which is
built at the end of the module.
-/

namespace Build

open Front IR Lib

/-! ## Instances of models -/

def ensureModelDecl (b : IRBuilder) (gm : IRModelDecl) (instance_ : String) (args : List String) :
    IRBuilder :=
  if modelDeclared b instance_ then b
  else
    let fields := gm.fields.map fun f =>
      { f with typeName := substituteTypeParams f.typeName gm.typeParams args }
    { b with module := { b.module with
        models := b.module.models ++ [{ name := instance_, fields, typeParams := [] }] } }

/-- A model of the plain name, when there is one, stands for the instance. -/
def ensureModelInstanceFromArgs (modelName : String) (args : List String) : BuildM String := fun b =>
  match genericModelByName b modelName with
  | some gm =>
    if args.length ≠ gm.typeParams.length then ("", b)
    else if modelDeclared b modelName then (modelName, b)
    else
      let name := args.foldl (fun out a => out ++ "_" ++ mangleTypeArg a) modelName
      (name, ensureModelDecl b gm name args)
  | none => ("", b)

/-- The instance a written type `M<args>` names, declared on the way; else the empty text. -/
def declaredTypeInstanceName (declared : String) : BuildM String := do
  let b ← get
  match Text.indexOf declared "<" with
  | some lt =>
    let bare := Text.slice declared 0 lt
    if lt = 0 ∨ (genericModelByName b bare).isNone ∨ !Text.endsWith declared ">" then return ""
    let args := splitTypeArgs (Text.slice declared (lt + 1) (Text.len declared - 1))
    if args.isEmpty then return ""
    ensureModelInstanceFromArgs bare args
  | none => return ""

def genericFnParamNames (genericParams : List ASTNode) : List String :=
  genericParams.filterMap fun
    | .genericParam name _ => some name
    | _ => none

/-! ## Instances of functions -/

def fnInstanceName (name : String) (bindings : List String) : String :=
  bindings.foldl (fun out t => out ++ "_" ++ mangleTypeArg t) name

def genericFnByName (b : IRBuilder) (name : String) : ASTNode :=
  match b.genericFns.find? fun p => p.1 == name with
  | some p => p.2
  | none => .empty

/-- The instance a declared type names, else the type as written. -/
def signatureType (declared : String) : BuildM String := do
  let inst ← declaredTypeInstanceName declared
  return if inst ≠ "" then inst else declared

def registerFunctionReturnType (name typeVal : String) : BuildM Unit := modify fun b =>
  { b with returnTypes := { name, cname := name, typeVal } :: b.returnTypes }

def unquoteString (s : String) : String :=
  if 2 ≤ Text.len s ∧ Text.startsWith s "\"" ∧ Text.endsWith s "\"" then
    Text.slice s 1 (Text.len s - 1)
  else s

/-- The function of a route, with its rate limit. -/
def routeFunction (method path : String) (hasLimit : Bool) (rate windowMs burst : Int) :
    IRFunction :=
  let f := initRouteFunction ("route_" ++ method ++ "_" ++ path) method path
  if hasLimit then
    { f with routeHasLimit := true, routeLimitRate := rate, routeLimitWindowMs := windowMs,
             routeLimitBurst := if burst ≤ 0 then rate else burst }
  else f

def pushFunction (f : IRFunction) : BuildM Unit := modify fun b =>
  { b with module := { b.module with functions := b.module.functions ++ [f] } }

def registerFunctionSignature (node : ASTNode) : BuildM Unit := do
  match node with
  | .functionDecl name params paramTypes returnType _ _ _ isExtern _ isExport =>
    let returnType ← signatureType returnType
    registerFunctionReturnType name returnType
    let paramTypes ← (paramTypes.take params.length).mapM signatureType
    pushFunction { initIRFunction name with params, paramTypes, returnType, isExtern, isExport }
  | .routeDecl httpMethod path _ _ hasLimit rate windowMs burst =>
    let f :=
      routeFunction (unquoteString httpMethod) (unquoteString path) hasLimit rate windowMs burst
    registerFunctionReturnType f.name "response"
    pushFunction f
  | _ => return ()

def FnWork.name (w : FnWork) : String :=
  match w.decl with
  | .functionDecl name .. => name
  | _ => ""

/-- The name of the instance of `name` at `bindings`, its signature registered and its body queued
unless a function of that name exists already. -/
def ensureFnInstance (name : String) (bindings : List String) : BuildM String := do
  let inst := fnInstanceName name bindings
  let b ← get
  if (findFunction b.module inst).isSome then return inst
  match genericFnByName b name with
  | .functionDecl _ params paramTypes returnType body isAsync isPrivate isExtern generics isExport =>
    let typeParams := genericFnParamNames generics
    let clone := ASTNode.functionDecl inst params
      (paramTypes.map fun t => substituteTypeParams t typeParams bindings)
      (substituteTypeParams returnType typeParams bindings) body isAsync isPrivate isExtern []
      isExport
    registerFunctionSignature clone
    modify fun b =>
      if b.fnWork.any fun w => w.name == inst then b
      else { b with fnWork := b.fnWork ++
        [{ decl := clone, params := joinTypeNames typeParams, args := joinTypeNames bindings }] }
    return inst
  | _ => return name

/-! ## Frames -/

def pushFnGenericFrameJoined (names args : String) : BuildM Unit := modify fun b =>
  { b with fnGeneric := (names, args) :: b.fnGeneric }

/-- The builder on which the body of the instance is built. -/
def IRBuilder.under (b : IRBuilder) (w : FnWork) : IRBuilder :=
  (pushFnGenericFrameJoined w.params w.args b).2

/-- The type parameters of a function, in order. -/
def typeParamsOf : ASTNode → List String
  | .functionDecl _ _ _ _ _ _ _ _ generics _ => genericFnParamNames generics
  | _ => []

/-- `w` is the work that `ensureFnInstance` queues for the function `name` at the bindings. -/
def Queued (b : IRBuilder) (name : String) (bindings : List String) (w : FnWork) : Prop :=
  w ∈ (ensureFnInstance name bindings b).2.fnWork ∧ w ∉ b.fnWork

end Build

/-!
# Names of instances

The types that a program can write, as `parseTypeName` spells them (`spelling`), and what their
mangled names are to do: `Distinct`. Whether they do is decided by the type names alone: `Readable`.
-/

namespace Build.Mangling

open Lib Front

abbrev Text := List Char

/-! ## Types and their spelling -/

/-- A type name with its arguments. -/
abbrev TypeText := RoseTree Text

mutual

/-- `list<string>`, `map<string, list<int>>`. -/
def spelling : TypeText → Text
  | .node name [] => name
  | .node name (t :: ts) => name ++ '<' :: (spelling t ++ spellingRest ts)

/-- The arguments behind the first one. -/
def spellingRest : List TypeText → Text
  | [] => ['>']
  | t :: ts => ',' :: ' ' :: (spelling t ++ spellingRest ts)

end

/-- What the lexer reads as an identifier. -/
def isIdentifier : Text → Bool
  | [] => false
  | c :: t => Lex.isAlpha c && t.all Lex.isAlphaNumeric

/-- The type names of a program, each with a number of arguments it is written with. A name can be
written with different ones, as `list` and `list<int>`. -/
structure TypeNames where
  names : List (Text × Nat)
  identifiers : ∀ s ∈ names, isIdentifier s.1 = true
  int_mem : (['i', 'n', 't'], 0) ∈ names
  map_mem : (['m', 'a', 'p'], 2) ∈ names

namespace TypeNames

/-- The program can write the type. -/
def Writes (names : TypeNames) (t : TypeText) : Prop := ∀ s ∈ t.word, s ∈ names.names

instance (names : TypeNames) (t : TypeText) : Decidable (names.Writes t) :=
  inferInstanceAs (Decidable (∀ s ∈ t.word, s ∈ names.names))

/-- Different types have different mangled names, and so have the instances of a generic. -/
structure Distinct (names : TypeNames) : Prop where
  args : ∀ t t', names.Writes t → names.Writes t' →
    mangleTypeArg (String.ofList (spelling t)) = mangleTypeArg (String.ofList (spelling t')) →
    spelling t = spelling t'
  instances : ∀ (generic : String) (ts ts' : List TypeText),
    (∀ t ∈ ts, names.Writes t) → (∀ t ∈ ts', names.Writes t) →
    fnInstanceName generic (ts.map fun t => String.ofList (spelling t)) =
      fnInstanceName generic (ts'.map fun t => String.ofList (spelling t)) →
    ts.map spelling = ts'.map spelling

end TypeNames

/-- A name with one `_` behind it, unless it ends with one. -/
def closed (name : Text) : Text := if name.getLast? = some '_' then name else name ++ ['_']

/-- Names, each with an underscore behind it. -/
def joined (names : List (Text × Nat)) : Text := names.flatMap fun s => closed s.1

/-- The type names can be told apart when they stand one behind the other. -/
def TypeNames.Readable (names : TypeNames) : Prop :=
  ∀ w w', (∀ s ∈ w, s ∈ names.names) → (∀ s ∈ w', s ∈ names.names) → joined w = joined w' → w = w'

end Build.Mangling
