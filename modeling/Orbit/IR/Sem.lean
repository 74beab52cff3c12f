import Orbit.IR.Syntax
import Orbit.Lib.Sim

/-!
# Run-time semantics of the IR

The meaning `docs/IR_SPEC.md` gives the instructions (§1.2, §1.3, §1.5, §3.1), as the C backend
lowers them. A frame executes one function; `lstep` is one instruction of one frame. What an
instruction does is computed by `act` from the values of its operands alone, never from the
register file, so two frames that agree on the operands act alike by construction.

What the IR leaves to the runtime is the parameter `Runtime`: float arithmetic, the text of a
value in a concatenation, the collections, the fields, results and unions, and every call that
leaves the module. It is split by what each part may do: a `query` cannot fail and changes
nothing, a `read` can fail and changes nothing, `fresh` gives a new object and changes nothing
that was there, a `prim` and a `call` can do anything. A new object is named by where and when it
was made (`Site`), so that making one more object does not rename the others.

Two machines run frames. `fstep` runs a single function and hands every call to the runtime.
`mstep` runs a module: a call of a function of the module pushes a frame.
-/

namespace IR

/-- A value at run time. Integers, booleans and `NULL` are words; `ref` is any handle of the
runtime (a list, a map, a struct, a result, a function). -/
inductive Val where
  | word (w : Word)
  | float (bits : BitVec 64)
  | str (s : String)
  | ref (id : Nat)
  deriving DecidableEq, Repr

/-- The calls that lead to a frame, innermost first: position of the call and how often it ran. -/
abbrev Path := List (Nat × Nat)

/-- Where an object was made: the frame, the destination register, how often it was made there. -/
structure Site where
  path : Path
  dest : Int
  count : Nat
  deriving DecidableEq, Repr

/-- What a call names: a function, or a value that holds one. -/
inductive Callee where
  | name (s : String)
  | value (v : Val)
  deriving DecidableEq, Repr

/-- Why a program stopped before it returned. -/
inductive Trap where
  | divZero (line : Int)
  | divOverflow (line : Int)
  | runtime (msg : String)
  deriving DecidableEq, Repr

/-- How a call that leaves the module ends. -/
inductive CallRes (W : Type) where
  | ret (v : Val) (w : W)
  | fail (msg : String)
  | hang

/-- The runtime, over a world `W` (the heap, the files, the database). -/
structure Runtime (W : Type) where
  sym : String → Val
  addr : Val → Word
  stringify : Val → String
  fadd : BitVec 64 → BitVec 64 → BitVec 64
  fsub : BitVec 64 → BitVec 64 → BitVec 64
  fmul : BitVec 64 → BitVec 64 → BitVec 64
  fdiv : BitVec 64 → BitVec 64 → BitVec 64
  fneg : BitVec 64 → BitVec 64
  feq : BitVec 64 → BitVec 64 → Bool
  flt : BitVec 64 → BitVec 64 → Bool
  fle : BitVec 64 → BitVec 64 → Bool
  ofInt : Word → BitVec 64
  toInt : BitVec 64 → Word
  query : IROpcode → Int → List Val → W → Val
  read : IROpcode → Int → List Val → W → Except String Val
  fresh : Site → IROpcode → Int → List Val → W → Val
  prim : IROpcode → Int → Int → List Val → W → Except String (Val × W)
  call : Callee → List Val → W → CallRes W
  /-- The 500 response of a route that runs off its end. -/
  routeFallback : Val

/-- What an observer sees of a run besides its outcome. -/
inductive Event where
  | call (callee : Callee) (args : List Val)
  | prim (op : IROpcode) (args : List Val)
  deriving DecidableEq, Repr

/-! ## Values -/

def isFloatType (t : String) : Bool := t == "float" || t == "orbit_float"
def isIntType (t : String) : Bool := t == "int" || t == "bool" || t == "orbit_int" || t == "orbit_bool"

def Val.isStr : Val → Bool
  | .str _ => true
  | _ => false

def Val.isFloat : Val → Bool
  | .float _ => true
  | _ => false

def ofBool (b : Bool) : Val := .word (if b then 1 else 0)

/-- The value of a decimal or octal numeral, as C reads it: a leading zero makes it octal. -/
def numeralValue (base : Word) (ds : List Char) : Word :=
  ds.foldl (fun n c => n * base + BitVec.ofNat 64 (c.toNat - 48)) 0

def isDigit (c : Char) : Bool := 48 ≤ c.toNat && c.toNat ≤ 57

/-- The integer constant C reads in `text`, if it is one. -/
def cIntLiteral (text : String) : Option Word :=
  match text.toList with
  | '-' :: ds => if !ds.isEmpty && ds.all isDigit then some (0 - magnitude ds) else none
  | ds => if !ds.isEmpty && ds.all isDigit then some (magnitude ds) else none
where
  magnitude (ds : List Char) : Word :=
    match ds with
    | '0' :: _ :: _ => numeralValue 8 ds
    | _ => numeralValue 10 ds

section
variable {W : Type} (rt : Runtime W)

/-- A symbol operand is C text: an integer or boolean literal, or a constant of the program. -/
def symValue (text : String) : Val :=
  match cIntLiteral text with
  | some w => .word w
  | none => if text = "true" then ofBool true else if text = "false" then ofBool false else rt.sym text

def toWord : Val → Word
  | .word w => w
  | v => rt.addr v

def toFloat : Val → BitVec 64
  | .float b => b
  | v => rt.ofInt (toWord rt v)

def truthy : Val → Bool
  | .word w => w != 0
  | .float b => !rt.feq b (rt.ofInt 0)
  | _ => true

/-- Assignment to a register or a return value of declared type `t` converts as C does. -/
def convTo (t : String) (v : Val) : Val :=
  if isFloatType t then .float (toFloat rt v)
  else if isIntType t then
    match v with
    | .float b => .word (rt.toInt b)
    | v => v
  else v

/-! ## Operators -/

/-- Integer division and remainder: a zero divisor and the minimum by `-1` stop the program. -/
def checkedDiv (op : Word → Word → Word) (line : Int) (a b : Word) : Except Trap Val :=
  if b = 0 then .error (.divZero line)
  else if a = BitVec.intMin 64 ∧ b = -1 then .error (.divOverflow line)
  else .ok (.word (op a b))

def arith (fop : BitVec 64 → BitVec 64 → BitVec 64) (op : Word → Word → Word) (a b : Val) : Val :=
  if a.isFloat || b.isFloat then .float (fop (toFloat rt a) (toFloat rt b))
  else .word (op (toWord rt a) (toWord rt b))

def compare (fop : BitVec 64 → BitVec 64 → Bool) (op : Word → Word → Bool) (a b : Val) : Val :=
  if a.isFloat || b.isFloat then ofBool (fop (toFloat rt a) (toFloat rt b))
  else ofBool (op (toWord rt a) (toWord rt b))

def valEq (a b : Val) : Val :=
  match a, b with
  | .str s, .str t => ofBool (s == t)
  | a, b => compare rt rt.feq (fun x y => x == y) a b

def valNe (a b : Val) : Val :=
  match a, b with
  | .str s, .str t => ofBool (s != t)
  | a, b => compare rt (fun x y => !rt.feq x y) (fun x y => x != y) a b

/-- The operators: every opcode that computes its destination from `O1` and `O2` alone. -/
def operator (op : IROpcode) (line : Int) (a b : Val) : Option (Except Trap Val) :=
  match op with
  | .add =>
    if a.isStr || b.isStr then some (.ok (.str (rt.stringify a ++ rt.stringify b)))
    else some (.ok (arith rt rt.fadd (· + ·) a b))
  | .sub => some (.ok (arith rt rt.fsub (· - ·) a b))
  | .mul => some (.ok (arith rt rt.fmul (· * ·) a b))
  | .div =>
    if a.isFloat || b.isFloat then some (.ok (.float (rt.fdiv (toFloat rt a) (toFloat rt b))))
    else some (checkedDiv BitVec.sdiv line (toWord rt a) (toWord rt b))
  | .mod => some (checkedDiv BitVec.srem line (toWord rt a) (toWord rt b))
  | .eq => some (.ok (valEq rt a b))
  | .ne => some (.ok (valNe rt a b))
  | .lt => some (.ok (compare rt rt.flt (fun x y => x.slt y) a b))
  | .le => some (.ok (compare rt rt.fle (fun x y => x.sle y) a b))
  | .gt => some (.ok (compare rt (fun x y => rt.flt y x) (fun x y => y.slt x) a b))
  | .ge => some (.ok (compare rt (fun x y => rt.fle y x) (fun x y => y.sle x) a b))
  | .andOp => some (.ok (ofBool (truthy rt a && truthy rt b)))
  | .orOp => some (.ok (ofBool (truthy rt a || truthy rt b)))
  | .notOp => some (.ok (ofBool (!truthy rt a)))
  | .neg =>
    match a with
    | .float x => some (.ok (.float (rt.fneg x)))
    | a => some (.ok (.word (0 - toWord rt a)))
  | .bitAnd => some (.ok (.word (toWord rt a &&& toWord rt b)))
  | .bitOr => some (.ok (.word (toWord rt a ||| toWord rt b)))
  | .bitXor => some (.ok (.word (toWord rt a ^^^ toWord rt b)))
  | .shl => some (.ok (.word (toWord rt a <<< (toWord rt b &&& 63))))
  | .shr => some (.ok (.word ((toWord rt a).sshiftRight' (toWord rt b &&& 63))))
  | .bitNot => some (.ok (.word (~~~ toWord rt a)))
  | .copy => some (.ok a)
  | .loadConst => some (.ok a)
  | _ => none

end

/-! ## Frames -/

/-- The part of a frame an instruction can read or write besides registers. -/
structure Locals where
  vars : String → Val
  /-- Arguments pushed by `arg` and not yet taken by a call. -/
  pending : List Val
  /-- How many objects each destination register has made. -/
  allocs : Int → Nat
  path : Path

structure Frame where
  ip : Nat
  regs : Int → Val
  locals : Locals
  /-- How often the call at each position has run. -/
  calls : Nat → Nat

def update {α β : Type} [DecidableEq α] (g : α → β) (a : α) (b : β) : α → β :=
  fun x => if x = a then b else g x

/-- A negative register reads as zero. -/
def readReg (regs : Int → Val) (n : Int) : Val := if n < 0 then .word 0 else regs n

section
variable {W : Type} (rt : Runtime W)

def evalOperand (regs : Int → Val) : IRValue → Val
  | .int w => .word w
  | .float b => .float b
  | .string s => .str s
  | .sym s => symValue rt s
  | .bool b => ofBool b
  | .register n => readReg regs n
  | .label n => .word (BitVec.ofInt 64 n)
  | .none => .word 0

def registerType (f : IRFunction) (d : Int) : String := f.registerTypes.getD d.toNat ""

/-- Write a destination; `-1` is no destination. -/
def writeReg (f : IRFunction) (d : Int) (v : Option Val) (regs : Int → Val) : Int → Val :=
  match v with
  | some v => if d < 0 then regs else update regs d (convTo rt (registerType f d) v)
  | none => regs

/-- What one instruction does, from the values of its operands. -/
inductive Act (W : Type) where
  /-- Go on with the next instruction, the destination written when there is a value for it. -/
  | step (v : Option Val) (l : Locals) (w : W) (evs : List Event)
  | goto (label : Int)
  | call (callee : Callee) (args : List Val) (l : Locals)
  | ret (v : Option Val)
  | trap (t : Trap)

/-- The number of pending values a call takes. -/
def callArity : IRValue → Nat
  | .int n => n.toNat
  | _ => 0

/-- The label a jump operand names: `goto label_N` with the operand's decimal text. -/
def labelNumber : IRValue → Option Int
  | .label n => some n
  | .int w => some w.toInt
  | _ => none

def calleeOf (o : IRValue) (v : Val) : Callee :=
  match o with
  | .string s => .name s
  | .sym s => .name s
  | _ => .value v

/-- The destination of a `prim` opcode is written, except by the pure stores. -/
def primWrites : IROpcode → Bool
  | .storeField | .listPush | .listSet | .byteStore | .bytesCopy | .memStore => false
  | _ => true

/-- Which of the three unfailing or unchanging parts of the runtime an opcode uses. -/
inductive Access where
  | query | read | fresh | prim
  deriving DecidableEq, Repr

def accessOf : IROpcode → Access
  | .listLen | .mapHas | .mapGet => .query
  | .listGet => .read
  | .listCreate | .mapCreate | .mapKeys => .fresh
  | _ => .prim

def accessAct (i : IRInstruction) (args : List Val) (l : Locals) (w : W) : Act W :=
  match accessOf i.opcode with
  | .query => .step (some (rt.query i.opcode i.elemKind args w)) l w []
  | .read =>
    match rt.read i.opcode i.elemKind args w with
    | .ok v => .step (some v) l w []
    | .error e => .trap (.runtime e)
  | .fresh =>
    let n := l.allocs i.dest
    .step (some (rt.fresh ⟨l.path, i.dest, n⟩ i.opcode i.elemKind args w))
      { l with allocs := update l.allocs i.dest (n + 1) } w []
  | .prim =>
    match rt.prim i.opcode i.elemKind i.fieldKind args w with
    | .ok (v, w') =>
      .step (if primWrites i.opcode then some v else none) l w' [.prim i.opcode args]
    | .error e => .trap (.runtime e)

/-- `arg` with a destination reads a parameter, `arg` without one pushes a pending value. -/
def argAct (f : IRFunction) (i : IRInstruction) (a : Val) (l : Locals) (w : W) : Act W :=
  if i.dest = -1 then .step none { l with pending := l.pending ++ [a] } w []
  else
    let n := match i.operand1 with
      | .int n => n.toNat
      | _ => 0
    match f.params[n]? with
    | some p => .step (some (l.vars p)) l w []
    | none => .step none l w []

/-- A call takes exactly the last `O2` pending values. -/
def callAct (i : IRInstruction) (a : Val) (l : Locals) : Act W :=
  let n := l.pending.length - callArity i.operand2
  .call (calleeOf i.operand1 a) (l.pending.drop n) { l with pending := l.pending.take n }

def act (f : IRFunction) (i : IRInstruction) (a b c : Val) (l : Locals) (w : W) : Act W :=
  match i.opcode with
  | .nop | .label | .beginBlock | .endBlock | .typeInfo | .free => .step none l w []
  | .loadVar =>
    match i.operand1 with
    | .string s => .step (some (l.vars s)) l w []
    | .sym s => .step (some (l.vars s)) l w []
    | _ => .step (some a) l w []
  | .storeVar | .declVar =>
    .step none { l with vars := update l.vars i.operand1.nameText b } w []
  | .arg => argAct f i a l w
  | .call => callAct i a l
  | .ret => .ret (if i.operand1 = .none then none else some a)
  | .jump => match labelNumber i.operand1 with
    | some n => .goto n
    | none => .step none l w []
  | .jumpIfFalse =>
    if truthy rt a then .step none l w []
    else match labelNumber i.operand2 with
      | some n => .goto n
      | none => .step none l w []
  | op =>
    match operator rt op i.line a b with
    | some (.ok v) => .step (some v) l w []
    | some (.error t) => .trap t
    | none => accessAct rt i [a, b, c] l w

/-! ## One step of a frame -/

/-- The position of the `label` instruction numbered `n`. -/
def findLabel (is : List IRInstruction) (n : Int) : Option Nat :=
  is.findIdx? fun i => i.opcode = .label && labelNumber i.operand1 == some n

inductive LRes (W : Type) where
  | next (fr : Frame) (w : W) (evs : List Event)
  /-- The frame waits at its call instruction. -/
  | call (callee : Callee) (args : List Val) (fr : Frame)
  | ret (v : Val)
  | trap (t : Trap)
  /-- A jump to a label the function does not place. -/
  | stuck

/-- The value of a `ret` with no operand. -/
def retDefault (f : IRFunction) : Val := if isFloatType f.returnType then .float 0 else .word 0

/-- The value returned when control runs off the end of the function. -/
def endDefault (f : IRFunction) : Val :=
  if f.routeMethod ≠ "" then rt.routeFallback
  else if isFloatType f.returnType then .float 0
  else if f.returnType = "string" then .str "" else .word 0

def Frame.operandValues (fr : Frame) (i : IRInstruction) : Val × Val × Val :=
  (evalOperand rt fr.regs i.operand1, evalOperand rt fr.regs i.operand2,
    evalOperand rt fr.regs i.operand3)

/-- Apply what an instruction does to the frame that executes it. -/
def Frame.apply (f : IRFunction) (i : IRInstruction) (fr : Frame) (w : W) : Act W → LRes W
  | .step v l w' evs =>
    .next { fr with ip := fr.ip + 1, regs := writeReg rt f i.dest v fr.regs, locals := l } w' evs
  | .goto n =>
    match findLabel f.instructions n with
    | some k => .next { fr with ip := k } w []
    | none => .stuck
  | .call callee args l => .call callee args { fr with locals := l }
  | .ret none => .ret (retDefault f)
  | .ret (some v) => .ret (convTo rt f.returnType v)
  | .trap t => .trap t

def lstep (f : IRFunction) (fr : Frame) (w : W) : LRes W :=
  match f.instructions[fr.ip]? with
  | none => .ret (endDefault rt f)
  | some i =>
    let (a, b, c) := fr.operandValues rt i
    fr.apply rt f i w (act rt f i a b c fr.locals w)

/-- A call has returned `v` to the frame that waits for it. -/
def Frame.resume (f : IRFunction) (fr : Frame) (v : Val) : Frame :=
  { fr with
    ip := fr.ip + 1
    regs := match f.instructions[fr.ip]? with
      | some i => writeReg rt f i.dest (some v) fr.regs
      | none => fr.regs
    calls := update fr.calls fr.ip (fr.calls fr.ip + 1) }

/-- The frame a call of `f` starts with: parameters hold the arguments, converted to their
types. -/
def Frame.enter (f : IRFunction) (vars : String → Val) (path : Path) (args : List Val) : Frame :=
  { ip := 0
    regs := fun _ => .word 0
    locals := { vars := bindParams f.params f.paramTypes args vars, pending := [],
                allocs := fun _ => 0, path }
    calls := fun _ => 0 }
where
  bindParams : List String → List String → List Val → (String → Val) → String → Val
    | p :: ps, t :: ts, a :: as, vars => bindParams ps ts as (update vars p (convTo rt t a))
    | p :: ps, [], a :: as, vars => bindParams ps [] as (update vars p a)
    | _, _, _, vars => vars

end

/-! ## Running one function -/

inductive Outcome (W : Type) where
  | returned (v : Val) (w : W) (trace : List Event)
  | trapped (t : Trap) (w : W) (trace : List Event)
  | stuck
  deriving DecidableEq

/-- The state of a single function's run. -/
inductive FState (W : Type) where
  | run (fr : Frame) (w : W) (trace : List Event)
  /-- A call that never returns. -/
  | hung (trace : List Event)

def FState.trace {W : Type} : FState W → List Event
  | .run _ _ tr => tr
  | .hung tr => tr

section
variable {W : Type} (rt : Runtime W)

open Lib (Step)

def fstep (f : IRFunction) : FState W → Step (FState W) (Outcome W)
  | .hung tr => .next (.hung tr)
  | .run fr w tr =>
    match lstep rt f fr w with
    | .next fr' w' evs => .next (.run fr' w' (tr ++ evs))
    | .ret v => .halt (.returned v w tr)
    | .trap t => .halt (.trapped t w tr)
    | .stuck => .halt .stuck
    | .call callee args fr' =>
      match rt.call callee args w with
      | .ret v w' => .next (.run (fr'.resume rt f v) w' (tr ++ [.call callee args]))
      | .fail e => .halt (.trapped (.runtime e) w (tr ++ [.call callee args]))
      | .hang => .next (.hung (tr ++ [.call callee args]))

/-- `f` and `g` behave alike: from every frame at their entry, in every world. -/
def SameBehaviour (f g : IRFunction) : Prop :=
  ∀ (fr : Frame) (w : W), fr.ip = 0 →
    Lib.ObsEq (fstep rt f) FState.trace (fstep rt g) FState.trace (.run fr w []) (.run fr w [])

/-! ## Running a module -/

/-- A function and its frame. -/
structure Activation where
  func : IRFunction
  frame : Frame

inductive MState (W : Type) where
  /-- The innermost activation, and those that wait for it. -/
  | run (top : Activation) (rest : List Activation) (w : W) (trace : List Event)
  | hung (trace : List Event)

def MState.trace {W : Type} : MState W → List Event
  | .run _ _ _ tr => tr
  | .hung tr => tr

/-- The function of the module a name calls. -/
def findFunction (m : IRModule) (name : String) : Option IRFunction :=
  m.functions.find? fun f => f.name == name && !f.isExtern

def resolveCallee (m : IRModule) : Callee → Option IRFunction
  | .name s => findFunction m s
  | .value _ => none

/-- Return `v` to the activation that waits, or from the run. -/
def mreturn (v : Val) (w : W) (tr : List Event) :
    List Activation → Step (MState W) (Outcome W)
  | [] => .halt (.returned v w tr)
  | a :: rest => .next (.run { a with frame := a.frame.resume rt a.func v } rest w tr)

/-- A module runs with the values `vars` of the names no function of it declares. -/
def mstep (m : IRModule) (vars : String → Val) : MState W → Step (MState W) (Outcome W)
  | .hung tr => .next (.hung tr)
  | .run top rest w tr =>
    match lstep rt top.func top.frame w with
    | .next fr' w' evs => .next (.run { top with frame := fr' } rest w' (tr ++ evs))
    | .ret v => mreturn rt v w tr rest
    | .trap t => .halt (.trapped t w tr)
    | .stuck => .halt .stuck
    | .call callee args fr' =>
      match resolveCallee m callee with
      | some g =>
        let path := (fr'.ip, fr'.calls fr'.ip) :: fr'.locals.path
        .next (.run ⟨g, Frame.enter rt g vars path args⟩ ({ top with frame := fr' } :: rest) w tr)
      | none =>
        match rt.call callee args w with
        | .ret v w' =>
          .next (.run { top with frame := fr'.resume rt top.func v } rest w'
            (tr ++ [.call callee args]))
        | .fail e => .halt (.trapped (.runtime e) w (tr ++ [.call callee args]))
        | .hang => .next (.hung (tr ++ [.call callee args]))

/-- The state in which a run of `f` on `args` starts. -/
def MState.start (f : IRFunction) (vars : String → Val) (args : List Val) (w : W) : MState W :=
  .run ⟨f, Frame.enter rt f vars [] args⟩ [] w []

end

/-- The runtime of programs that use none of it: everything it is asked for is zero. -/
def inertRuntime : Runtime Unit where
  sym _ := .word 0
  addr _ := 0
  stringify _ := ""
  fadd _ _ := 0
  fsub _ _ := 0
  fmul _ _ := 0
  fdiv _ _ := 0
  fneg _ := 0
  feq _ _ := true
  flt _ _ := false
  fle _ _ := true
  ofInt _ := 0
  toInt _ := 0
  query _ _ _ _ := .word 0
  read _ _ _ _ := .ok (.word 0)
  fresh _ _ _ _ _ := .word 0
  prim _ _ _ _ _ := .ok (.word 0, ())
  call _ _ _ := .ret (.word 0) ()
  routeFallback := .word 0

/-- A frame in which everything is zero, for runs of closed functions. -/
def entryFrame : Frame :=
  { ip := 0, regs := fun _ => .word 0,
    locals := { vars := fun _ => .word 0, pending := [], allocs := fun _ => 0, path := [] },
    calls := fun _ => 0 }

end IR

/-!
# Well-formed functions

The validation rules of `docs/IR_SPEC.md` §5.4 that speak of one function, each under its number.
V-01, V-02 and V-05 are about the JSON text, V-03 and V-06 hold by the types of the model, and
V-15 and V-17 are about the declarations of a module. Every rule is decidable.
-/

namespace IR

/-- The opcodes whose lowering is `D ← …` (V-10). -/
def IROpcode.producesValue : IROpcode → Bool
  | .loadConst | .loadVar | .copy
  | .add | .sub | .mul | .div | .mod
  | .eq | .ne | .lt | .le | .gt | .ge
  | .andOp | .orOp | .notOp | .neg
  | .bitAnd | .bitOr | .bitXor | .shl | .shr | .bitNot
  | .alloc | .loadField
  | .listCreate | .listGet | .listLen | .listPop
  | .mapCreate | .mapSet | .mapGet | .mapHas | .mapDelete | .mapKeys
  | .resultOk | .resultErr | .resultUnwrap | .resultIsOk | .resultUnwrapErr
  | .unionCreate | .unionGetTag | .unionGetData => true
  | _ => false

/-- The opcodes that carry an element kind (V-04). -/
def IROpcode.isCollection : IROpcode → Bool
  | .listCreate | .listPush | .listGet | .listSet | .listLen | .listPop
  | .mapCreate | .mapSet | .mapGet | .mapHas | .mapDelete | .mapKeys => true
  | _ => false

/-- The opcodes excluded with the database (V-19). -/
def IROpcode.isDb : IROpcode → Bool
  | .dbGet | .dbSet | .dbAll | .dbWhere => true
  | _ => false

/-- A finite IEEE-754 double: the exponent is not all ones (V-08). -/
def finiteBits (b : BitVec 64) : Bool := (b >>> 52) &&& 0x7FF#64 != 0x7FF#64

/-- V-07, V-08, V-09 and the register bound of V-11. -/
def IRValue.wellFormed (f : IRFunction) : IRValue → Bool
  | .float b => finiteBits b
  | .register n => 0 ≤ n && n < f.registerCount
  | .label n => 0 ≤ n
  | _ => true

/-- V-12: the index of an `arg` with a destination is a parameter's. -/
def argIndexOk (f : IRFunction) (i : IRInstruction) : Bool :=
  match i.opcode, i.operand1 with
  | .arg, .int n => i.dest == -1 || n.toNat < f.params.length
  | .arg, _ => i.dest == -1
  | _, _ => true

def targetPlaced (f : IRFunction) (o : IRValue) : Bool :=
  match labelNumber o with
  | some n => (findLabel f.instructions n).isSome
  | none => false

/-- V-14: a jump names a label of the function. -/
def jumpOk (f : IRFunction) (i : IRInstruction) : Bool :=
  match i.opcode with
  | .jump => targetPlaced f i.operand1
  | .jumpIfFalse => targetPlaced f i.operand2
  | _ => true

/-- The rules that speak of one instruction of `f`. -/
structure InstrWellFormed (f : IRFunction) (i : IRInstruction) : Prop where
  v04 : 0 ≤ i.elemKind ∧ i.elemKind ≤ 5 ∧ (i.opcode.isCollection = false → i.elemKind = 0)
  v07 : -1 ≤ i.dest
  v09 : ∀ o ∈ i.operands, o.wellFormed f = true
  v10 : i.opcode.producesValue = true → 0 ≤ i.dest
  v11 : i.dest < f.registerCount
  v12 : argIndexOk f i = true
  v14 : jumpOk f i = true
  v19 : i.opcode.isDb = false
  v20 : 0 ≤ i.line ∧ (i.opcode ≠ .div → i.opcode ≠ .mod → i.line = 0)

/-- V-13: every call finds its arguments among the pending ones. -/
def pendingOk : Nat → List IRInstruction → Bool
  | _, [] => true
  | n, i :: is =>
    match i.opcode with
    | .arg => pendingOk (if i.dest = -1 then n + 1 else n) is
    | .call =>
      match i.operand2 with
      | .int k => decide (k.toNat ≤ n) && pendingOk (n - k.toNat) is
      | _ => false
    | _ => pendingOk n is

/-- The rules of §5.4 for a function. -/
structure WellFormed (f : IRFunction) : Prop where
  instr : ∀ i ∈ f.instructions, InstrWellFormed f i
  v11 : f.registerCount = f.registerTypes.length
  v12 : f.params.length = f.paramTypes.length
  v13 : pendingOk 0 f.instructions = true
  v16 : f.routeMethod = "" → f.routePath = "" ∧ f.routeHasLimit = false ∧ f.routeLimitRate = 0 ∧
    f.routeLimitWindowMs = 0 ∧ f.routeLimitBurst = 0

instance (f : IRFunction) (i : IRInstruction) : Decidable (InstrWellFormed f i) :=
  decidable_of_iff
    ((0 ≤ i.elemKind ∧ i.elemKind ≤ 5 ∧ (i.opcode.isCollection = false → i.elemKind = 0)) ∧
      (-1 ≤ i.dest) ∧ (∀ o ∈ i.operands, o.wellFormed f = true) ∧
      (i.opcode.producesValue = true → 0 ≤ i.dest) ∧ (i.dest < f.registerCount) ∧
      (argIndexOk f i = true) ∧ (jumpOk f i = true) ∧ (i.opcode.isDb = false) ∧
      (0 ≤ i.line ∧ (i.opcode ≠ .div → i.opcode ≠ .mod → i.line = 0)))
    ⟨fun ⟨a, b, c, d, e, g, h, j, k⟩ => ⟨a, b, c, d, e, g, h, j, k⟩,
      fun ⟨a, b, c, d, e, g, h, j, k⟩ => ⟨a, b, c, d, e, g, h, j, k⟩⟩

instance (f : IRFunction) : Decidable (WellFormed f) :=
  decidable_of_iff
    ((∀ i ∈ f.instructions, InstrWellFormed f i) ∧ (f.registerCount = f.registerTypes.length) ∧
      (f.params.length = f.paramTypes.length) ∧ (pendingOk 0 f.instructions = true) ∧
      (f.routeMethod = "" → f.routePath = "" ∧ f.routeHasLimit = false ∧ f.routeLimitRate = 0 ∧
        f.routeLimitWindowMs = 0 ∧ f.routeLimitBurst = 0))
    ⟨fun ⟨a, b, c, d, e⟩ => ⟨a, b, c, d, e⟩, fun ⟨a, b, c, d, e⟩ => ⟨a, b, c, d, e⟩⟩

end IR
