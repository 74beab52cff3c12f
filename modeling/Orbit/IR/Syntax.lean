import Mathlib.Data.List.Basic

/-!
# The intermediate representation

`compiler/ir/ir.orb`. An `int` of the compiler is a 64-bit word (`orbit_int`), so a constant
operand carries a `Word`; register numbers, label numbers, destinations and lines are counters
that never wrap and are plain integers. A float constant is its IEEE-754 bit pattern.
-/

namespace IR

/-- `orbit_int`: 64 bits, two's complement. -/
abbrev Word := BitVec 64

inductive IROpcode where
  | nop | loadConst | loadVar | storeVar | declVar
  | add | sub | mul | div | mod
  | eq | ne | lt | le | gt | ge
  | andOp | orOp | notOp | neg
  | beginBlock | endBlock
  | call | ret | jump | jumpIfFalse
  | alloc | free | dbGet | dbSet | dbAll | dbWhere | httpResponse
  | label | copy | arg | loadField | storeField | switchOp | typeInfo
  -- collections
  | listCreate | listPush | listGet | listSet | listLen | listPop
  | mapCreate | mapSet | mapGet | mapHas | mapDelete | mapKeys
  -- results
  | resultOk | resultErr | resultUnwrap | resultIsOk | resultUnwrapErr
  -- unions
  | unionCreate | unionGetTag | unionGetData
  -- bitwise and shift
  | bitAnd | bitOr | bitXor | shl | shr | bitNot
  -- runtime modules only
  | strLen | byteLoad | bytesAlloc | byteStore | strOffset | bytesCopy
  | reinterpret | memLoad | memStore | floatBits | bitsFloat
  deriving DecidableEq, Repr

inductive IRValue where
  | int (value : Word)
  | float (bits : BitVec 64)
  | string (value : String)
  | sym (value : String)
  | bool (value : Bool)
  | register (value : Int)
  | label (value : Int)
  | none
  deriving DecidableEq, Repr

structure IRInstruction where
  opcode : IROpcode
  /-- `-1` when the instruction has no destination. -/
  dest : Int
  operand1 : IRValue
  operand2 : IRValue
  operand3 : IRValue
  /-- The element kind of the list the instruction touches, or the width of a memory access. -/
  elemKind : Int
  /-- The kind of the object field a `loadField` reads. -/
  fieldKind : Int
  /-- The source line of a `div` or `mod`, `0` when unknown. -/
  line : Int
  deriving DecidableEq, Repr

def irInt (v : Word) : IRValue := .int v
def irString (v : String) : IRValue := .string v
def irSymbol (v : String) : IRValue := .sym v
def irBool (v : Bool) : IRValue := .bool v
def irRegister (v : Int) : IRValue := .register v
def irLabel (v : Int) : IRValue := .label v
def irNone : IRValue := .none

def irInitInstr (opcode : IROpcode) : IRInstruction :=
  { opcode, dest := -1, operand1 := irNone, operand2 := irNone, operand3 := irNone, elemKind := 0,
    fieldKind := 0, line := 0 }

structure IRFunction where
  name : String
  params : List String
  paramTypes : List String
  instructions : List IRInstruction
  registerCount : Int
  registerTypes : List String
  returnType : String
  isExtern : Bool
  routeMethod : String
  routePath : String
  routeHasLimit : Bool
  routeLimitRate : Int
  routeLimitWindowMs : Int
  routeLimitBurst : Int
  isExport : Bool
  deriving DecidableEq, Repr

def initIRFunction (name : String) : IRFunction :=
  { name, params := [], paramTypes := [], instructions := [], registerCount := 0,
    registerTypes := [], returnType := "void", isExtern := false, routeMethod := "",
    routePath := "", routeHasLimit := false, routeLimitRate := 0, routeLimitWindowMs := 0,
    routeLimitBurst := 0, isExport := false }

def initRouteFunction (name method path : String) : IRFunction :=
  { initIRFunction name with returnType := "OrbitResponse*", routeMethod := method,
                             routePath := path }

structure IRModelField where
  name : String
  typeName : String
  deriving DecidableEq, Repr

structure IRModelDecl where
  name : String
  fields : List IRModelField
  typeParams : List String
  deriving DecidableEq, Repr

structure IRTypeDecl where
  name : String
  /-- `enumeration`, `union_type`, `alias` or `trait`. -/
  kind : String
  variants : List String
  richVariants : List String
  methods : List String
  deriving DecidableEq, Repr

structure IRGlobal where
  name : String
  value : IRValue
  typeName : String
  deriving DecidableEq, Repr

structure IRModule where
  functions : List IRFunction
  globals : List IRGlobal
  models : List IRModelDecl
  types : List IRTypeDecl
  migrations : List String
  configPort : Int
  sourceName : String
  runtimeModule : Bool
  deriving DecidableEq, Repr

def initIRModule : IRModule :=
  { functions := [], globals := [], models := [], types := [], migrations := [], configPort := 0,
    sourceName := "", runtimeModule := false }

/-- The operands of an instruction, in order. -/
def IRInstruction.operands (i : IRInstruction) : List IRValue := [i.operand1, i.operand2, i.operand3]

/-- The name an operand carries: the text of a string or a symbol. -/
def IRValue.nameText : IRValue → String
  | .string s => s
  | .sym s => s
  | _ => ""

end IR
