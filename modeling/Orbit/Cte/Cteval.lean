import Orbit.IR.Sem

/-!
# The compile-time evaluator

`compiler/ir/cteval.orb`. `evalFunction` interprets a function on known integers; `tryFoldCall`
replaces a call by the value the interpreter gives; `cteFoldFunction` does so until nothing changes;
`dceFunction` removes the instructions whose destination is not read; `cteOptimize` runs the two
over a module.

The loop of `evalFunction` takes fuel here, one unit an instruction; its own limit of 10000000
steps stops it long before `evalFuel` runs out.
-/

namespace Cte

open IR

structure CTEState where
  result : Word
  success : Bool
  folded : Int
  steps : Int
  depth : Int
  deriving DecidableEq, Repr

def cteInit : CTEState := { result := 0, success := true, folded := 0, steps := 0, depth := 0 }

/-! ## Which functions are pure -/

def runtimeFunctions : List String :=
  ["print", "println", "eprint", "eprintln",
   "orbit_print", "orbit_println", "orbit_string_concat", "orbit_string_split",
   "orbit_file_read", "orbit_file_write", "orbit_file_list_dir_selfhost", "orbit_os_exec",
   "orbit_os_spawn_selfhost", "orbit_os_run_timeout_selfhost", "orbit_os_spawn_bg_selfhost",
   "orbit_os_kill_selfhost", "orbit_os_env", "system_uptime", "system_pid",
   "system_active_workers", "system_http_requests_total", "system_latency_avg_us",
   "system_latency_p50_us", "system_latency_p95_us", "system_latency_p99_us",
   "orbit_list_create", "orbit_map_create", "orbit_response_create", "orbit_response_json",
   "orbit_response_html",
   "orbit_int_to_string", "orbit_float_to_string", "orbit_http_query_get", "rand",
   "orbit_db_query_where", "orbit_db_query_where_p", "orbit_db_query_where_v",
   "orbit_db_query_all", "orbit_db_query_get", "orbit_db_query_first", "orbit_db_query_order",
   "orbit_db_query_order_desc", "orbit_db_count_all", "orbit_db_count_v", "orbit_db_update",
   "random", "srand", "time", "malloc",
   "free", "realloc"]

def isRuntimeFunction (name : String) : Bool := runtimeFunctions.contains name

def isImpureOp : IROpcode → Bool
  | .storeVar | .storeField | .dbGet | .dbSet | .dbAll | .dbWhere | .httpResponse
  | .listPush | .listPop | .listSet | .mapSet | .mapDelete | .alloc | .free
  | .byteStore | .bytesAlloc | .byteLoad | .strOffset | .bytesCopy | .reinterpret
  | .memLoad | .memStore | .floatBits | .bitsFloat => true
  | _ => false

def isPure (f : IRFunction) : Bool :=
  !f.isExtern && !f.instructions.isEmpty &&
    f.instructions.all fun i =>
      !isImpureOp i.opcode && !(i.opcode == .call && isRuntimeFunction i.operand1.nameText)

def hasSideEffects : IROpcode → Bool
  | .ret | .call | .storeVar | .storeField | .free
  | .dbSet | .dbGet | .dbAll | .dbWhere | .httpResponse | .alloc | .loadField | .switchOp
  | .listPush | .listPop | .listSet | .mapSet | .mapDelete
  | .resultOk | .resultErr | .resultUnwrap | .resultIsOk | .resultUnwrapErr
  | .unionCreate | .unionGetTag | .unionGetData
  | .strLen | .byteLoad | .bytesAlloc | .byteStore | .strOffset | .bytesCopy | .reinterpret
  | .memLoad | .memStore | .floatBits | .bitsFloat => true
  | _ => false

def cteFindFunction (m : IRModule) (name : String) : Option IRFunction :=
  m.functions.find? fun f => f.name == name

def isNopOrControl : IROpcode → Bool
  | .nop | .label | .beginBlock | .endBlock => true
  | _ => false

/-! ## The interpreter -/

/-- The registers of the interpreter: values, and which of them are known. -/
structure Regs where
  vals : List Word
  known : List Bool
  deriving DecidableEq, Repr

/-- Pad a table up to slot `idx` and write it; a negative slot is outside the table. -/
def padSet {α : Type} (l : List α) (pad : α) (idx : Int) (v : α) : List α :=
  if idx < 0 then l else (l ++ List.replicate (idx.toNat + 1 - l.length) pad).set idx.toNat v

def regSet (r : Regs) (idx : Int) (v : Word) : Regs :=
  { vals := padSet r.vals 0 idx v, known := padSet r.known false idx true }

def regIsKnown (r : Regs) (idx : Int) : Bool :=
  if idx < 0 then false else r.known.getD idx.toNat false

def regGet (r : Regs) (idx : Int) : Word :=
  if idx < 0 then 0 else r.vals.getD idx.toNat 0

/-- The value of an operand, when it is known. -/
def resolveValue (r : Regs) : IRValue → Option Word
  | .int m => some m
  | .bool b => some (if b then 1 else 0)
  | .register n => if regIsKnown r n then some (regGet r n) else none
  | _ => none

def findLabelIndex (is : List IRInstruction) (target : Int) : Option Nat :=
  is.findIdx? fun i => i.opcode = .label &&
    (match i.operand1 with
      | .label n => n
      | .int v => v.toInt
      | _ => -1) == target

/-- The guard of division and remainder: a zero divisor, or the minimum by `-1`. -/
def divisionStops (a b : Word) : Bool := b == 0 || (b == -1 && a != 0 && 0 - a == a)

def boolWord (b : Bool) : Word := if b then 1 else 0

/-- The two-operand opcodes; `some none` where the interpreter gives up. -/
def evalBinary (op : IROpcode) (a b : Word) : Option (Option Word) :=
  match op with
  | .add => some (some (a + b))
  | .sub => some (some (a - b))
  | .mul => some (some (a * b))
  | .div => some (if divisionStops a b then none else some (a.sdiv b))
  | .mod => some (if divisionStops a b then none else some (a.srem b))
  | .andOp => some (some (boolWord (a != 0 && b != 0)))
  | .orOp => some (some (boolWord (a != 0 || b != 0)))
  | .eq => some (some (boolWord (a == b)))
  | .ne => some (some (boolWord (a != b)))
  | .lt => some (some (boolWord (a.slt b)))
  | .le => some (some (boolWord (a.sle b)))
  | .gt => some (some (boolWord (b.slt a)))
  | .ge => some (some (boolWord (b.sle a)))
  | _ => none

/-- The one-operand opcodes. -/
def evalUnary (op : IROpcode) (a : Word) : Option Word :=
  match op with
  | .copy => some a
  | .neg => some (-a)
  | .notOp => some (boolWord (a == 0))
  | _ => none

structure EvalLocals where
  regs : Regs
  pending : List Word
  ip : Nat
  deriving DecidableEq, Repr

/-- Registers `0, 1, …` hold the arguments. -/
def EvalLocals.init (args : List Word) : EvalLocals :=
  { regs := { vals := args, known := List.replicate args.length true }, pending := [], ip := 0 }

def EvalLocals.set (l : EvalLocals) (dest : Int) (v : Word) : EvalLocals :=
  { l with regs := regSet l.regs dest v, ip := l.ip + 1 }

/-- What one instruction makes the interpreter do. -/
inductive EvalAct where
  | next (l : EvalLocals)
  | stop
  | call (callee : IRFunction)
  | ret (v : Word)

/-- The value of the parameter `name`; the source's loop keeps the last one of that name. -/
def paramValue (params : List String) (args : List Word) (name : String) : Option Word :=
  ((params.zip args).reverse.find? fun p => p.1 == name).map (·.2)

def jumpTo (is : List IRInstruction) (l : EvalLocals) (o : IRValue) : EvalAct :=
  match o with
  | .label n =>
    match findLabelIndex is n with
    | some k => .next { l with ip := k }
    | none => .stop
  | .int v =>
    match findLabelIndex is v.toInt with
    | some k => .next { l with ip := k }
    | none => .stop
  | _ => .stop

/-- One instruction of the interpreter; `ok` is `st.success`, which every operand check reads. -/
def evalInstr (m : IRModule) (f : IRFunction) (args : List Word) (ok : Bool) (l : EvalLocals)
    (i : IRInstruction) : EvalAct :=
  let resolve := fun o => if ok then resolveValue l.regs o else none
  if isNopOrControl i.opcode then .next { l with ip := l.ip + 1 }
  else match i.opcode with
  | .loadVar =>
    match paramValue f.params args i.operand1.nameText with
    | some v => .next (l.set i.dest v)
    | none => .stop
  | .declVar => .next { l with ip := l.ip + 1 }
  | .loadConst =>
    match i.operand1 with
    | .int v => .next (l.set i.dest v)
    | .bool b => .next (l.set i.dest (boolWord b))
    | .float _ => .stop
    | _ => .next { l with ip := l.ip + 1 }
  | .jump => jumpTo f.instructions l i.operand1
  | .jumpIfFalse =>
    match resolve i.operand1 with
    | some c =>
      if c = 0 then jumpTo f.instructions l i.operand2 else .next { l with ip := l.ip + 1 }
    | none => .stop
  | .arg =>
    match resolve i.operand1 with
    | some v => .next { l with pending := l.pending ++ [v], ip := l.ip + 1 }
    | none => .stop
  | .call =>
    let cn := i.operand1.nameText
    if isRuntimeFunction cn then .stop
    else match cteFindFunction m cn with
      | some callee => if isPure callee then .call callee else .stop
      | none => .stop
  | .ret =>
    match i.operand1 with
    | .none => .ret 0
    | o =>
      match resolve o with
      | some v => .ret v
      | none => .stop
  | op =>
    match resolve i.operand1 with
    | none => .stop
    | some a =>
      match evalUnary op a with
      | some v => .next (l.set i.dest v)
      | none =>
        match resolve i.operand2 with
        | none => .stop
        | some b =>
          match evalBinary op a b with
          | some (some v) => .next (l.set i.dest v)
          | _ => .stop

def maxSteps : Int := 10000000
def maxDepth : Int := 4096

/-- The checks on entry to `evalFunction`. -/
def CTEState.enter (st : CTEState) : Option CTEState :=
  if st.depth > maxDepth ∨ st.steps > maxSteps then none
  else some { st with depth := st.depth + 1 }

def CTEState.fail (st : CTEState) : CTEState :=
  { st with success := false, depth := st.depth - 1 }

def CTEState.leave (st : CTEState) (v : Word) : CTEState :=
  { st with result := v, depth := st.depth - 1 }

/-- The loop of `evalFunction`: whether it returned, and the state it leaves. -/
def evalLoop (m : IRModule) : Nat → IRFunction → List Word → CTEState → EvalLocals →
    Option (Bool × CTEState)
  | 0, _, _, _, _ => none
  | fuel + 1, f, args, st, l =>
    match f.instructions[l.ip]? with
    | none => some (true, st.leave 0)
    | some i =>
      if st.steps > maxSteps then some (false, st.fail)
      else
        let st := { st with steps := st.steps + 1 }
        match evalInstr m f args st.success l i with
        | .next l' => evalLoop m fuel f args st l'
        | .stop => some (false, st.fail)
        | .ret v => some (true, st.leave v)
        | .call callee =>
          match st.enter with
          | none => some (false, st.fail)
          | some st1 =>
            match evalLoop m fuel callee l.pending st1 (.init l.pending) with
            | none => none
            | some (false, st2) => some (false, { st2 with depth := st2.depth - 1 })
            | some (true, st2) =>
              evalLoop m fuel f args st2 { l.set i.dest st2.result with pending := [] }

def evalFunction (m : IRModule) (fuel : Nat) (f : IRFunction) (args : List Word) (st : CTEState) :
    Option (Bool × CTEState) :=
  match st.enter with
  | none => some (false, { st with success := false })
  | some st1 => evalLoop m fuel f args st1 (.init args)

/-- More units than `evalFunction` can take. -/
def evalFuel : Nat := 10000003

/-! ## Folding calls -/

def isFoldableBody (f : IRFunction) : Bool :=
  f.instructions.all fun i =>
    match i.opcode with
    | .label | .jump | .jumpIfFalse | .call | .loadField | .storeField => false
    | _ => true

/-- `knownRegs` and `knownVals`, slot by slot. -/
abbrev Known := List (Int × Word)

/-- The first slot of a register, as `indexOfReg` finds it. -/
def Known.lookup (known : Known) (r : Int) : Option Word :=
  (known.find? fun p => p.1 == r).map (·.2)

def Known.scan (known : Known) (prev : IRInstruction) : Known :=
  match prev.opcode with
  | .loadConst =>
    match prev.operand1 with
    | .int v => known ++ [(prev.dest, v)]
    | .bool b => known ++ [(prev.dest, boolWord b)]
    | _ => known
  | .copy =>
    match prev.operand1 with
    | .register r =>
      match known.lookup r with
      | some v => known ++ [(prev.dest, v)]
      | none => known
    | .int v => known ++ [(prev.dest, v)]
    | _ => known
  | _ => known

def knownBefore (is : List IRInstruction) (callIdx : Nat) : Known :=
  (is.take callIdx).foldl Known.scan []

/-- The first of the `arg` instructions that stand directly before the call. -/
def argStart (is : List IRInstruction) : Nat → Nat
  | 0 => 0
  | scan + 1 => if is[scan]?.any fun i => i.opcode == .arg then argStart is scan else scan + 1

def argValue (known : Known) (o : IRValue) : Option Word :=
  match o with
  | .int v => some v
  | .bool b => some (boolWord b)
  | .register r => known.lookup r
  | _ => none

def argValues (is : List IRInstruction) (callIdx : Nat) : Option (List Word) :=
  ((is.take callIdx).drop (argStart is callIdx)).mapM fun i =>
    argValue (knownBefore is callIdx) i.operand1

def isControlOp : IROpcode → Bool
  | .label | .jump | .jumpIfFalse => true
  | _ => false

def substValue (destReg : Int) (v : Word) (o : IRValue) : IRValue :=
  if o = .register destReg then irInt v else o

def substInstr (destReg : Int) (v : Word) (u : IRInstruction) : IRInstruction :=
  { u with
    operand1 := substValue destReg v u.operand1
    operand2 := substValue destReg v u.operand2
    operand3 := substValue destReg v u.operand3 }

/-- Replace the uses of the register, up to its next definition. -/
def substUses (destReg : Int) (v : Word) : List IRInstruction → List IRInstruction
  | [] => []
  | u :: us => if u.dest = destReg then u :: us else substInstr destReg v u :: substUses destReg v us

def toNop (i : IRInstruction) : IRInstruction := { i with opcode := .nop, dest := -1 }

/-- The instructions once the call at `callIdx` is replaced by `v`. -/
def foldedInstructions (is : List IRInstruction) (callIdx : Nat) (destReg : Int) (v : Word) :
    List IRInstruction :=
  is.take (argStart is callIdx) ++
    ((is.take (callIdx + 1)).drop (argStart is callIdx)).map toNop ++
    substUses destReg v (is.drop (callIdx + 1))

/-- The function a call names, when the call may be folded. -/
def foldableCallee (m : IRModule) (callInstr : IRInstruction) : Option IRFunction :=
  let calleeName := callInstr.operand1.nameText
  if calleeName = "" then none
  else if isRuntimeFunction calleeName then none
  else match cteFindFunction m calleeName with
    | none => none
    | some callee =>
      if isPure callee && isFoldableBody callee &&
        (callee.returnType == "int" || callee.returnType == "bool") && !(callInstr.dest < 0)
      then some callee else none

/-- The function with its call at `callIdx` folded, when it is, and the state. -/
def tryFoldCall (m : IRModule) (f : IRFunction) (callIdx : Nat) (st : CTEState) :
    Option IRFunction × CTEState :=
  match f.instructions[callIdx]? with
  | none => (none, st)
  | some callInstr =>
    match foldableCallee m callInstr with
    | none => (none, st)
    | some callee =>
      match argValues f.instructions callIdx with
      | none => (none, st)
      | some args =>
        let st := { st with depth := 0, steps := 0, success := true }
        match evalFunction m evalFuel callee args st with
        | some (true, st') =>
          if (f.instructions.drop (callIdx + 1)).any fun s => isControlOp s.opcode then (none, st')
          else
            (some { f with
              instructions := foldedInstructions f.instructions callIdx callInstr.dest st'.result },
             { st' with folded := st'.folded + 1 })
        | some (false, st') => (none, st')
        | none => (none, st)

/-- The module and the state while functions are folded, and whether this pass changed any. -/
structure FoldState where
  module : IRModule
  st : CTEState
  changed : Bool

/-- The inner loop at position `i` of function `fi`. -/
def foldPosition (fi i : Nat) (s : FoldState) : FoldState :=
  match s.module.functions[fi]? with
  | none => s
  | some f =>
    match f.instructions[i]? with
    | none => s
    | some instr =>
      if instr.opcode = .call then
        match tryFoldCall s.module f i s.st with
        | (some f', st) =>
          { module := { s.module with functions := s.module.functions.set fi f' }, st,
            changed := true }
        | (none, st) => { s with st }
      else s

/-- One pass over the first `n` positions of function `fi`. -/
def foldPass (fi : Nat) (s : FoldState) : Nat → FoldState
  | 0 => { s with changed := false }
  | n + 1 => foldPosition fi n (foldPass fi s n)

/-- Passes until one changes nothing. Each pass but the last folds a call, so one more than there
are instructions is enough. -/
def foldPasses (fi len : Nat) : Nat → FoldState → FoldState
  | 0, s => s
  | n + 1, s =>
    let s' := foldPass fi s len
    if s'.changed then foldPasses fi len n s' else s'

def cteFoldFunction (fi : Nat) (s : FoldState) : FoldState :=
  match s.module.functions[fi]? with
  | none => s
  | some f => foldPasses fi f.instructions.length (f.instructions.length + 1) s

/-! ## Dead code -/

def markRegUsed (used : List Int) : IRValue → List Int
  | .register r => if used.contains r then used else used ++ [r]
  | _ => used

def markUses (used : List Int) (i : IRInstruction) : List Int :=
  if isNopOrControl i.opcode then used
  else markRegUsed (markRegUsed (markRegUsed used i.operand1) i.operand2) i.operand3

/-- The registers some instruction reads. -/
def usedRegs (is : List IRInstruction) : List Int := is.foldl markUses []

def isDead (used : List Int) (i : IRInstruction) : Bool :=
  !isNopOrControl i.opcode && 0 ≤ i.dest && !used.contains i.dest && !hasSideEffects i.opcode

def dceFunction (f : IRFunction) : IRFunction :=
  let used := usedRegs f.instructions
  { f with instructions := f.instructions.map fun i => if isDead used i then toNop i else i }

/-! ## A module -/

/-- Fold the calls of function `fi`, if it has a body. -/
def foldNext (s : FoldState) (fi : Nat) : FoldState :=
  match s.module.functions[fi]? with
  | some f => if f.instructions.isEmpty then s else cteFoldFunction fi s
  | none => s

def foldModule (m : IRModule) : FoldState :=
  (List.range m.functions.length).foldl foldNext { module := m, st := cteInit, changed := false }

/-- The optimized module and the number of calls folded. -/
def cteOptimize (m : IRModule) : IRModule × Int :=
  let s := foldModule m
  ({ s.module with functions := s.module.functions.map dceFunction }, s.st.folded)

end Cte
