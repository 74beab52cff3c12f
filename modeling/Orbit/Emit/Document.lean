import Orbit.IR.Syntax
import Orbit.Lib.Json
import Orbit.Lib.Text

/-!
# The IR document

`compiler/emit/ir_emit.orb`: the JSON text of a module (`emitIRv1`), and the reader that the grammar
of `docs/IR_SPEC.md` §5.2 and §7 gives (`readDocument`). A string of the compiler is a sequence of
bytes, here the character of each byte's code; appending to the buffer is concatenation. How a
float constant is written (`orbit_float_to_string_selfhost`) is given.
-/

namespace Emit.Document

open IR
open Lib.Json (Value Elems Fields)
open Lib.Text (chars intToString)

abbrev Text := List Char

/-! ## Writing -/

def hexDigits : Text :=
  ['0', '1', '2', '3', '4', '5', '6', '7', '8', '9', 'a', 'b', 'c', 'd', 'e', 'f']

def irJsonHex2 (code : Nat) : Text :=
  [hexDigits.getD (code / 16) '0', hexDigits.getD (code - code / 16 * 16) '0']

def irJsonEscape : Text → Text
  | [] => []
  | c :: s => escape c ++ irJsonEscape s
where
  escape (c : Char) : Text :=
    if c = '\\' then ['\\', '\\']
    else if c = '"' then ['\\', '"']
    else if c = '\n' then ['\\', 'n']
    else if c = '\r' then ['\\', 'r']
    else if c = '\t' then ['\\', 't']
    else if c.toNat < 32 ∨ c.toNat = 127 then ['\\', 'u', '0', '0'] ++ irJsonHex2 c.toNat
    else [c]

def irJsonBool (v : Bool) : Text := if v then chars "true" else chars "false"

/-- The items with a comma between them. -/
def commaList {α : Type} (text : α → Text) : List α → Text
  | [] => []
  | [x] => text x
  | x :: y :: xs => text x ++ ',' :: commaList text (y :: xs)

def quoted (s : String) : Text := '"' :: (irJsonEscape s.toList ++ ['"'])

def irAppendStringList (items : List String) : Text := '[' :: (commaList quoted items ++ [']'])

/-- The C backend declares a register of unknown type as `void*`. -/
def irTypeName (t : String) : String := if t = "unknown" then "void*" else t

def irAppendTypeList (items : List String) : Text :=
  '[' :: (commaList (fun s => quoted (irTypeName s)) items ++ [']'])

def irOpcodeName : IROpcode → String
  | .nop => "nop"
  | .loadConst => "load_const"
  | .loadVar => "load_var"
  | .storeVar => "store_var"
  | .declVar => "decl_var"
  | .add => "add"
  | .sub => "sub"
  | .mul => "mul"
  | .div => "div"
  | .mod => "mod"
  | .eq => "eq"
  | .ne => "ne"
  | .lt => "lt"
  | .le => "le"
  | .gt => "gt"
  | .ge => "ge"
  | .andOp => "and_op"
  | .orOp => "or_op"
  | .notOp => "not_op"
  | .neg => "neg"
  | .beginBlock => "begin_block"
  | .endBlock => "end_block"
  | .call => "call"
  | .ret => "ret"
  | .jump => "jump"
  | .jumpIfFalse => "jump_if_false"
  | .alloc => "alloc"
  | .free => "free"
  | .dbGet => "db_get"
  | .dbSet => "db_set"
  | .dbAll => "db_all"
  | .dbWhere => "db_where"
  | .httpResponse => "http_response"
  | .label => "label"
  | .copy => "copy"
  | .arg => "arg"
  | .loadField => "load_field"
  | .storeField => "store_field"
  | .switchOp => "switch_op"
  | .typeInfo => "type_info"
  | .listCreate => "list_create"
  | .listPush => "list_push"
  | .listGet => "list_get"
  | .listSet => "list_set"
  | .listLen => "list_len"
  | .listPop => "list_pop"
  | .mapCreate => "map_create"
  | .mapSet => "map_set"
  | .mapGet => "map_get"
  | .mapHas => "map_has"
  | .mapDelete => "map_delete"
  | .mapKeys => "map_keys"
  | .resultOk => "result_ok"
  | .resultErr => "result_err"
  | .resultUnwrap => "result_unwrap"
  | .resultIsOk => "result_is_ok"
  | .resultUnwrapErr => "result_unwrap_err"
  | .unionCreate => "union_create"
  | .unionGetTag => "union_get_tag"
  | .unionGetData => "union_get_data"
  | .bitAnd => "bit_and"
  | .bitOr => "bit_or"
  | .bitXor => "bit_xor"
  | .shl => "shl"
  | .shr => "shr"
  | .bitNot => "bit_not"
  | .strLen => "str_len"
  | .byteLoad => "byte_load"
  | .bytesAlloc => "bytes_alloc"
  | .byteStore => "byte_store"
  | .strOffset => "str_offset"
  | .bytesCopy => "bytes_copy"
  | .reinterpret => "reinterpret"
  | .memLoad => "mem_load"
  | .memStore => "mem_store"
  | .floatBits => "float_bits"
  | .bitsFloat => "bits_float"

section
variable (floatText : BitVec 64 → Text)

def irValueText : IRValue → Text
  | .int v => chars "\x7b\"kind\":\"Int\",\"value\":" ++ intToString v.toInt ++ ['\x7d']
  | .float v => chars "\x7b\"kind\":\"Float\",\"value\":" ++ floatText v ++ ['\x7d']
  | .string v =>
    chars "\x7b\"kind\":\"String\",\"value\":\"" ++ irJsonEscape v.toList ++ chars "\"\x7d"
  | .sym v => chars "\x7b\"kind\":\"Sym\",\"value\":\"" ++ irJsonEscape v.toList ++ chars "\"\x7d"
  | .bool v => chars "\x7b\"kind\":\"Bool\",\"value\":" ++ irJsonBool v ++ ['\x7d']
  | .register v => chars "\x7b\"kind\":\"Register\",\"value\":" ++ intToString v ++ ['\x7d']
  | .label v => chars "\x7b\"kind\":\"Label\",\"value\":" ++ intToString v ++ ['\x7d']
  | .none => chars "\x7b\"kind\":\"None\"\x7d"

def irInstructionText (instr : IRInstruction) : Text :=
  chars "\x7b\"opcode\":\"" ++ (irOpcodeName instr.opcode).toList ++ chars "\"," ++
    chars "\"dest\":" ++ intToString instr.dest ++ chars "," ++
    chars "\"operand1\":" ++ irValueText floatText instr.operand1 ++ chars "," ++
    chars "\"operand2\":" ++ irValueText floatText instr.operand2 ++ chars "," ++
    chars "\"operand3\":" ++ irValueText floatText instr.operand3 ++ chars "," ++
    chars "\"elemKind\":" ++ intToString instr.elemKind ++
    (if 0 < instr.line then chars ",\"line\":" ++ intToString instr.line else []) ++ ['\x7d']

def irAppendFunctionText (f : IRFunction) : Text :=
  chars "\x7b\"name\":\"" ++ irJsonEscape f.name.toList ++ chars "\"," ++
    chars "\"params\":" ++ irAppendStringList f.params ++
    chars ",\"paramTypes\":" ++ irAppendTypeList f.paramTypes ++
    chars ",\"instructions\":[" ++ commaList (irInstructionText floatText) f.instructions ++
    chars "]," ++ chars "\"registerCount\":" ++ intToString f.registerCount ++ chars "," ++
    chars "\"registerTypes\":" ++ irAppendTypeList f.registerTypes ++
    chars ",\"returnType\":\"" ++ irJsonEscape (irTypeName f.returnType).toList ++ chars "\"," ++
    chars "\"isExtern\":" ++ irJsonBool f.isExtern ++ chars "," ++
    (if f.isExport then chars "\"export\":true," else []) ++
    chars "\"routeMethod\":\"" ++ irJsonEscape f.routeMethod.toList ++ chars "\"," ++
    chars "\"routePath\":\"" ++ irJsonEscape f.routePath.toList ++ chars "\"," ++
    chars "\"routeHasLimit\":" ++ irJsonBool f.routeHasLimit ++ chars "," ++
    chars "\"routeLimitRate\":" ++ intToString f.routeLimitRate ++ chars "," ++
    chars "\"routeLimitWindowMs\":" ++ intToString f.routeLimitWindowMs ++ chars "," ++
    chars "\"routeLimitBurst\":" ++ intToString f.routeLimitBurst ++ ['\x7d']

def irFieldText (f : IRModelField) : Text :=
  chars "\x7b\"name\":\"" ++ irJsonEscape f.name.toList ++ chars "\",\"typeName\":\"" ++
    irJsonEscape f.typeName.toList ++ chars "\"\x7d"

def irAppendModelText (m : IRModelDecl) : Text :=
  chars "\x7b\"name\":\"" ++ irJsonEscape m.name.toList ++ chars "\",\"fields\":[" ++
    commaList irFieldText m.fields ++ chars "]," ++ chars "\"typeParams\":" ++
    irAppendStringList m.typeParams ++ ['\x7d']

def irAppendTypeText (t : IRTypeDecl) : Text :=
  chars "\x7b\"name\":\"" ++ irJsonEscape t.name.toList ++ chars "\",\"kind\":\"" ++
    irJsonEscape t.kind.toList ++ chars "\"," ++
    chars "\"variants\":" ++ irAppendStringList t.variants ++
    chars ",\"richVariants\":" ++ irAppendStringList t.richVariants ++
    chars ",\"methods\":" ++ irAppendStringList t.methods ++ ['\x7d']

def irGlobalText (g : IRGlobal) : Text :=
  chars "\x7b\"name\":\"" ++ irJsonEscape g.name.toList ++ chars "\",\"value\":" ++
    irValueText floatText g.value ++ chars ",\"typeName\":\"" ++ irJsonEscape g.typeName.toList ++
    chars "\"\x7d"

end

/-! ## Externs -/

def irExternDecl (name : String) (params types : List String) (ret : String) : IRFunction :=
  { initIRFunction name with params, paramTypes := types, returnType := ret, isExtern := true }

/-- The runtime symbols: parameters, their types and the result. -/
def runtimeSymbols : List (String × List String × List String × String) :=
  [("orbit_string_len", ["s"], ["string"], "int"),
    ("orbit_string_at", ["s", "index"], ["string", "int"], "int"),
    ("orbit_string_slice", ["s", "start", "end"], ["string", "int", "int"], "string"),
    ("orbit_string_slice_known_len", ["s", "start", "end", "totalLen"],
      ["string", "int", "int", "int"], "string"),
    ("orbit_string_indexOf", ["s", "substr"], ["string", "string"], "int"),
    ("orbit_object_create", [], [], "object"),
    ("orbit_object_set_int", ["o", "key", "v"], ["object", "string", "int"], "void"),
    ("orbit_object_set_float", ["o", "key", "v"], ["object", "string", "float"], "void"),
    ("orbit_object_set_bool", ["o", "key", "v"], ["object", "string", "bool"], "void"),
    ("orbit_object_set_string", ["o", "key", "v"], ["object", "string", "string"], "void"),
    ("orbit_object_set_object", ["o", "key", "v"], ["object", "string", "object"], "void"),
    ("orbit_object_set_list", ["o", "key", "v"], ["object", "string", "list"], "void"),
    ("orbit_db_query_all", ["table"], ["string"], "string"),
    ("orbit_db_query_first", ["table"], ["string"], "string"),
    ("orbit_db_query_where", ["table", "condition"], ["string", "string"], "string"),
    ("orbit_db_query_where_p", ["table", "condition", "param"], ["string", "string", "string"],
      "string"),
    ("orbit_db_query_get", ["table", "id"], ["string", "string"], "string"),
    ("orbit_db_query_order", ["table", "column"], ["string", "string"], "string"),
    ("orbit_db_query_order_desc", ["table", "column"], ["string", "string"], "string"),
    ("orbit_db_count_all", ["table"], ["string"], "int"),
    ("orbit_db_insert", ["table", "json"], ["string", "string"], "bool"),
    ("orbit_db_update", ["table", "id", "json"], ["string", "string", "string"], "bool"),
    ("orbit_db_delete", ["table", "id"], ["string", "string"], "bool"),
    ("system_uptime", [], [], "int"),
    ("system_pid", [], [], "int"),
    ("system_active_workers", [], [], "int"),
    ("system_http_requests_total", [], [], "int"),
    ("system_latency_avg_us", [], [], "int"),
    ("system_latency_p50_us", [], [], "int"),
    ("system_latency_p95_us", [], [], "int"),
    ("system_latency_p99_us", [], [], "int")]

/-- The declaration of a runtime symbol; its name is empty for any other name. -/
def irRuntimeExtern (name : String) : IRFunction :=
  match runtimeSymbols.find? (·.1 == name) with
  | some (_, params, types, ret) => irExternDecl name params types ret
  | none => initIRFunction ""

def irHasFunctionNamed (m : IRModule) (name : String) : Bool := m.functions.any (·.name == name)

/-- The name a call names, empty for a call through a register. -/
def calleeText (instr : IRInstruction) : String :=
  match instr.operand1 with
  | .string s => s
  | .sym s => s
  | _ => ""

/-- One instruction of the scan: the externs found and their names. -/
def externStep (m : IRModule) (acc : List IRFunction × List String) (instr : IRInstruction) :
    List IRFunction × List String :=
  if instr.opcode = .call then
    let callee := calleeText instr
    if callee ≠ "" then
      let ext := irRuntimeExtern callee
      if ext.name ≠ "" && irHasFunctionNamed m callee == false then
        if acc.2.contains callee then acc else (acc.1 ++ [ext], acc.2 ++ [callee])
      else acc
    else acc
  else acc

/-- The extern entries the document adds, in order of first call. -/
def irRuntimeExterns (m : IRModule) : List IRFunction :=
  ((m.functions.flatMap (·.instructions)).foldl (externStep m) ([], [])).1

/-- A comma stands before an extern unless it is the first entry of all. -/
def externsText (floatText : BitVec 64 → Text) (functions : Nat) :
    Nat → List IRFunction → Text
  | _, [] => []
  | ei, ext :: externs =>
    (if functions > 0 || ei > 0 then chars "," else []) ++ irAppendFunctionText floatText ext ++
      externsText floatText functions (ei + 1) externs

def emitIRv1 (floatText : BitVec 64 → Text) (m : IRModule) : Text :=
  chars "\x7b\"irVersion\":\"1\",\"module\":\x7b" ++
    (if m.runtimeModule then chars "\"runtimeModule\":true," else []) ++
    chars "\"functions\":[" ++ commaList (irAppendFunctionText floatText) m.functions ++
    externsText floatText m.functions.length 0 (irRuntimeExterns m) ++
    chars "],\"globals\":[" ++ commaList (irGlobalText floatText) m.globals ++
    chars "],\"models\":[" ++ commaList irAppendModelText m.models ++
    chars "],\"types\":[" ++ commaList irAppendTypeText m.types ++
    chars "],\"migrations\":" ++ irAppendStringList m.migrations ++
    chars ",\"sourceName\":\"" ++ irJsonEscape m.sourceName.toList ++ chars "\"\x7d\x7d\n"

/-! ## Reading -/

def asObject : Value → Option Fields
  | .obj fs => some fs
  | _ => none

def asString : Value → Option String
  | .str s => some (String.ofList s)
  | _ => none

def asInt : Value → Option Int
  | .num n => some n
  | _ => none

def asUInt : Value → Option Int
  | .num n => if 0 ≤ n then some n else none
  | _ => none

def asBool : Value → Option Bool
  | .bool b => some b
  | _ => none

/-- A signed 64-bit number. -/
def asWord : Value → Option Word
  | .num n =>
    if -9223372036854775808 ≤ n ∧ n ≤ 9223372036854775807 then some (BitVec.ofInt 64 n) else none
  | _ => none

section
variable {α : Type} (item : Value → Option α)

def readElems : Elems → Option (List α)
  | .nil => some []
  | .cons x xs =>
    match item x, readElems xs with
    | some a, some as => some (a :: as)
    | _, _ => none

def asList : Value → Option (List α)
  | .arr xs => readElems item xs
  | _ => none

end

section
variable {α β : Type}

/-- The next member is `key`; go on with its value. -/
def member (key : String) (get : Value → Option α) (next : α → Fields → Option β) :
    Fields → Option β
  | .cons k x fs => if k = chars key then (get x).bind fun a => next a fs else none
  | .nil => none

/-- The next member can be `key`, with the value `true`. -/
def flag (key : String) (next : Bool → Fields → Option β) : Fields → Option β
  | .cons k x fs =>
    if k = chars key then
      match x with
      | .bool true => next true fs
      | _ => none
    else next false (.cons k x fs)
  | .nil => next false .nil

/-- No member is left. -/
def done (result : Option β) : Fields → Option β
  | .nil => result
  | _ => none

end

/-- The value of an operand of the kind `kind`. -/
def readPayload (kind : String) (x : Value) : Option IRValue :=
  if kind = "Int" then (asWord x).map .int
  else if kind = "String" then (asString x).map .string
  else if kind = "Sym" then (asString x).map .sym
  else if kind = "Bool" then (asBool x).map .bool
  else if kind = "Register" then (asUInt x).map .register
  else if kind = "Label" then (asUInt x).map .label
  else none

/-- `value` of the grammar. A float constant is a number with a fraction, which this reader does
not read. -/
def readOperand (v : Value) : Option IRValue :=
  (asObject v).bind <|
    member "kind" asString fun kind =>
      if kind = "None" then done (some .none)
      else member "value" (readPayload kind) fun value => done (some value)

def opcodes : List IROpcode :=
  [.nop, .loadConst, .loadVar, .storeVar, .declVar, .add, .sub, .mul, .div, .mod, .eq, .ne, .lt,
    .le, .gt, .ge, .andOp, .orOp, .notOp, .neg, .beginBlock, .endBlock, .call, .ret, .jump,
    .jumpIfFalse, .alloc, .free, .dbGet, .dbSet, .dbAll, .dbWhere, .httpResponse, .label, .copy,
    .arg, .loadField, .storeField, .switchOp, .typeInfo, .listCreate, .listPush, .listGet,
    .listSet, .listLen, .listPop, .mapCreate, .mapSet, .mapGet, .mapHas, .mapDelete, .mapKeys,
    .resultOk, .resultErr, .resultUnwrap, .resultIsOk, .resultUnwrapErr, .unionCreate,
    .unionGetTag, .unionGetData, .bitAnd, .bitOr, .bitXor, .shl, .shr, .bitNot]

/-- The opcodes of a runtime module (§7). -/
def runtimeOpcodes : List IROpcode :=
  [.strLen, .byteLoad, .bytesAlloc, .byteStore, .strOffset, .bytesCopy, .reinterpret, .memLoad,
    .memStore, .floatBits, .bitsFloat]

section
variable (runtime : Bool)

def readOpcode (name : String) : Option IROpcode :=
  (if runtime then opcodes ++ runtimeOpcodes else opcodes).find? (irOpcodeName · == name)

/-- The element kinds, and the 8 bytes a word access of a runtime module has. -/
def elemKindOk (op : IROpcode) (k : Int) : Bool :=
  (0 ≤ k && k ≤ 5) || (runtime && (op == .memLoad || op == .memStore) && k == 8)

/-- A positive line, on a `div` or a `mod`. -/
def asLine (op : IROpcode) : Value → Option Int
  | .num n => if 0 < n ∧ (op = .div ∨ op = .mod) then some n else none
  | _ => none

/-- `line` is the last member, when there is one. -/
def readLine (op : IROpcode) : Fields → Option Int
  | .nil => some 0
  | fs => member "line" (asLine op) (fun n => done (some n)) fs

def asDest : Value → Option Int
  | .num n => if -1 ≤ n then some n else none
  | _ => none

def asElemKind (op : IROpcode) : Value → Option Int
  | .num n => if elemKindOk runtime op n then some n else none
  | _ => none

def readInstruction (v : Value) : Option IRInstruction :=
  (asObject v).bind <|
    member "opcode" (fun x => (asString x).bind (readOpcode runtime)) fun opcode =>
    member "dest" asDest fun dest =>
    member "operand1" readOperand fun operand1 =>
    member "operand2" readOperand fun operand2 =>
    member "operand3" readOperand fun operand3 =>
    member "elemKind" (asElemKind runtime opcode) fun elemKind fs =>
      (readLine opcode fs).map fun line =>
        { opcode, dest, operand1, operand2, operand3, elemKind, fieldKind := 0, line }

/-- `export` is a member in a runtime module only. -/
def exportOk (isExport : Bool) : Bool := !isExport || runtime

def readFunction (v : Value) : Option IRFunction :=
  (asObject v).bind <|
    member "name" asString fun name =>
    member "params" (asList asString) fun params =>
    member "paramTypes" (asList asString) fun paramTypes =>
    member "instructions" (asList (readInstruction runtime)) fun instructions =>
    member "registerCount" asInt fun registerCount =>
    member "registerTypes" (asList asString) fun registerTypes =>
    member "returnType" asString fun returnType =>
    member "isExtern" asBool fun isExtern =>
    flag "export" fun isExport =>
    member "routeMethod" asString fun routeMethod =>
    member "routePath" asString fun routePath =>
    member "routeHasLimit" asBool fun routeHasLimit =>
    member "routeLimitRate" asInt fun routeLimitRate =>
    member "routeLimitWindowMs" asInt fun routeLimitWindowMs =>
    member "routeLimitBurst" asInt fun routeLimitBurst =>
    done <|
      if exportOk runtime isExport then
        some
          { name, params, paramTypes, instructions, registerCount, registerTypes, returnType,
            isExtern, routeMethod, routePath, routeHasLimit, routeLimitRate, routeLimitWindowMs,
            routeLimitBurst, isExport }
      else none

end

def readField (v : Value) : Option IRModelField :=
  (asObject v).bind <|
    member "name" asString fun name =>
    member "typeName" asString fun typeName => done (some { name, typeName })

def readModel (v : Value) : Option IRModelDecl :=
  (asObject v).bind <|
    member "name" asString fun name =>
    member "fields" (asList readField) fun fields =>
    member "typeParams" (asList asString) fun typeParams =>
    done (some { name, fields, typeParams })

def readType (v : Value) : Option IRTypeDecl :=
  (asObject v).bind <|
    member "name" asString fun name =>
    member "kind" asString fun kind =>
    member "variants" (asList asString) fun variants =>
    member "richVariants" (asList asString) fun richVariants =>
    member "methods" (asList asString) fun methods =>
    done (some { name, kind, variants, richVariants, methods })

def readGlobal (v : Value) : Option IRGlobal :=
  (asObject v).bind <|
    member "name" asString fun name =>
    member "value" readOperand fun value =>
    member "typeName" asString fun typeName => done (some { name, value, typeName })

def readModule (v : Value) : Option IRModule :=
  (asObject v).bind <|
    flag "runtimeModule" fun runtimeModule =>
    member "functions" (asList (readFunction runtimeModule)) fun functions =>
    member "globals" (asList readGlobal) fun globals =>
    member "models" (asList readModel) fun models =>
    member "types" (asList readType) fun types =>
    member "migrations" (asList asString) fun migrations =>
    member "sourceName" asString fun sourceName =>
    done (some { functions, globals, models, types, migrations, configPort := 0, sourceName,
                 runtimeModule })

/-- `document` of the grammar. -/
def readRoot (v : Value) : Option IRModule :=
  (asObject v).bind <|
    member "irVersion" asString fun version =>
    member "module" readModule fun m => done (if version = "1" then some m else none)

/-- The module of a document: UTF-8, one JSON value, one LF at the end (§5.1). -/
def readDocument (t : Text) : Option IRModule :=
  if Lib.Utf8.Valid t ∧ t.getLast? = some '\n' then (Lib.Json.read t).bind readRoot else none

end Emit.Document
