import Orbit.Front.Ast
import Orbit.Front.Literal
import Orbit.IR.Syntax

/-!
# The state of the IR builder

`compiler/ir/builder.orb`: the builder record, what emits an instruction and the lookups in the
module it builds. The source mutates one builder; here `BuildM` passes it. `currentFunction` is in
the source a reference into `module.functions`; here it is the function under construction. Of the
tables only those stand here that an instance or a constant goes through; the ones that are searched
from the latest entry backwards grow at their head.
-/

namespace Build

open Front IR Lib

structure Variable where
  name : String
  cname : String
  typeVal : String
  deriving DecidableEq, Repr

/-- An instance to build: the clone of its declaration and the type frame it is built under. -/
structure FnWork where
  decl : ASTNode
  params : String
  args : String

structure IRBuilder where
  module : IRModule
  currentFunction : IRFunction
  genericFns : List (String × ASTNode)
  /-- The frames of type parameters and their arguments, innermost first. -/
  fnGeneric : List (String × String)
  /-- In the order in which they were queued. -/
  fnWork : List FnWork
  /-- Latest first. -/
  returnTypes : List Variable
  genericModels : List IRModelDecl

def initIRBuilder : IRBuilder :=
  { module := initIRModule, currentFunction := initIRFunction "orbit_main", genericFns := [],
    fnGeneric := [], fnWork := [], returnTypes := [], genericModels := [] }

/-- Code that runs on the builder. -/
abbrev BuildM := StateM IRBuilder

/-! ## Registers and instructions -/

def IRFunction.allocRegister (f : IRFunction) (typeName : String) : IRFunction :=
  { f with registerCount := f.registerCount + 1, registerTypes := f.registerTypes ++ [typeName] }

def irAllocRegister (typeName : String) : BuildM Int := fun b =>
  (b.currentFunction.registerCount,
    { b with currentFunction := IRFunction.allocRegister b.currentFunction typeName })

def IRFunction.emit (f : IRFunction) (i : IRInstruction) : IRFunction :=
  { f with instructions := f.instructions ++ [i] }

def irEmit (i : IRInstruction) : BuildM Unit :=
  modify fun b => { b with currentFunction := IRFunction.emit b.currentFunction i }

def retInstr (v : IRValue) : IRInstruction := { irInitInstr .ret with operand1 := v }

/-- Allocate a register and emit the instruction that writes it. -/
def emitTo (typeName : String) (i : IRInstruction) : BuildM Int := do
  let reg ← irAllocRegister typeName
  irEmit { i with dest := reg }
  return reg

/-! ## Tables of the module -/

def findFunction (m : IRModule) (name : String) : Option IRFunction :=
  m.functions.find? fun f => f.name == name

def modelDeclared (b : IRBuilder) (name : String) : Bool :=
  b.module.models.any fun m => m.name == name

def genericModelByName (b : IRBuilder) (name : String) : Option IRModelDecl :=
  b.genericModels.find? fun m => m.name == name

def isModelDeclName (b : IRBuilder) (name : String) : Bool :=
  modelDeclared b name || (genericModelByName b name).isSome

/-- Type parameters of the frames around the current instance, replaced by their arguments. -/
def resolveFnType (b : IRBuilder) (spelling : String) : String :=
  b.fnGeneric.foldl (fun out frame =>
    substituteTypeParams out (splitTypeArgs frame.1) (splitPayloadTypes frame.2)) spelling

end Build
