import Orbit.IR.Sem

/-!
# The optimizer

`compiler/ir/optimizer.orb`. `optimizeFunction` folds arithmetic on resolved constants, one
instruction at a time from the first to the last, and then sinks single-use constants towards
their use, one motion a round. The source changes the instruction list in place; here every
change gives a new function. Reading outside a list stops the compiler (`none`), writing outside
one does nothing.

The compiler is itself an Orbit program, so an `int` it computes from a literal's text is a
`Word`; its indices and counters are not near 64 bits.
-/

namespace Opt

open IR

structure OptStats where
  patternsApplied : Int
  constantFolds : Int
  spanSaved : Int
  deriving DecidableEq, Repr

/-! ## Literals -/

def isZero : IRValue → Bool
  | .int m => m == 0
  | .sym s => s == "0"
  | _ => false

def isOne : IRValue → Bool
  | .int m => m == 1
  | .sym s => s == "1"
  | _ => false

/-- Strict decimal text: an optional `-` and at least one digit. -/
def isDecLit (text : String) : Bool :=
  match text.toList with
  | '-' :: ds => !ds.isEmpty && ds.all isDigit
  | ds => !ds.isEmpty && ds.all isDigit

/-- The value of decimal text, in the compiler's own 64-bit `int`. -/
def parseDecLit (text : String) : Word :=
  match text.toList with
  | '-' :: ds => 0 - numeralValue 10 ds
  | ds => numeralValue 10 ds

def isIntLit : IRValue → Bool
  | .int _ => true
  | .sym s => isDecLit s
  | _ => false

def isBoolLit : IRValue → Bool
  | .bool _ => true
  | .sym s => s == "true" || s == "false"
  | _ => false

def intLitValue : IRValue → Word
  | .int m => m
  | .sym s => parseDecLit s
  | _ => 0

def boolLitValue : IRValue → Bool
  | .bool b => b
  | .sym s => s == "true"
  | _ => false

/-! ## Resolving an operand -/

def isBarrierOp : IROpcode → Bool
  | .label | .jump | .jumpIfFalse => true
  | _ => false

/-- No label and no jump at a position of `[fromIdx, toIdx)`. -/
def regionClear (f : IRFunction) (fromIdx toIdx : Nat) : Bool :=
  ((f.instructions.take toIdx).drop fromIdx).all fun i => !isBarrierOp i.opcode

/-- The positions of the instructions that satisfy `p`. -/
def positions (p : IRInstruction → Bool) (is : List IRInstruction) : List Nat :=
  (List.range is.length).filter fun k => is[k]?.any p

def storesTo (name : String) (i : IRInstruction) : Bool :=
  i.opcode == .storeVar && i.operand1.nameText == name

/-- Resolve a register to the constant it holds at `useIdx`, through its only definition: a
`loadConst`, a `copy`, or a `loadVar` fed by the only store of the variable. The first argument is
the depth left; the source starts at depth `0` and gives up past depth `4`. -/
def resolveConstInt (f : IRFunction) : Nat → IRValue → Nat → IRValue
  | 0, operand, _ => operand
  | depth + 1, .register r, useIdx =>
    match positions (fun i => i.dest == r) f.instructions with
    | [defIdx] =>
      if useIdx ≤ defIdx then .register r
      else match f.instructions[defIdx]? with
        | some d =>
          match d.opcode with
          | .loadConst => if regionClear f defIdx useIdx then d.operand1 else .register r
          | .copy =>
            match resolveConstInt f depth d.operand1 defIdx with
            | .int m => if regionClear f defIdx useIdx then .int m else .register r
            | _ => .register r
          | .loadVar =>
            if d.operand1.nameText = "" then .register r
            else match positions (storesTo d.operand1.nameText) f.instructions with
              | [storeIdx] =>
                if useIdx ≤ storeIdx then .register r
                else match f.instructions[storeIdx]? with
                  | some s =>
                    match resolveConstInt f depth s.operand2 storeIdx with
                    | .int m => if regionClear f storeIdx useIdx then .int m else .register r
                    | _ => .register r
                  | none => .register r
              | _ => .register r
          | _ => .register r
        | none => .register r
    | _ => .register r
  | _ + 1, operand, _ => operand

/-- The depth `resolveConstInt` is called with: depths `0` to `4`. -/
def resolveDepth : Nat := 5

/-! ## Folding -/

/-- A folded instruction: its opcode and first operand change, the others stay. -/
def foldTo (instr : IRInstruction) (v : IRValue) : IRInstruction :=
  { instr with opcode := .loadConst, operand1 := v }

/-- What the instruction at position `i` is rewritten to, if it is. -/
def foldInstr (f : IRFunction) (i : Nat) (instr : IRInstruction) : Option IRInstruction :=
  let r1 := resolveConstInt f resolveDepth instr.operand1 i
  let r2 := resolveConstInt f resolveDepth instr.operand2 i
  match instr.opcode with
  | .add =>
    if isZero r2 && isIntLit r1 then some (foldTo instr (irInt (intLitValue r1)))
    else if isZero r1 && isIntLit r2 then some (foldTo instr (irInt (intLitValue r2)))
    else none
  | .sub =>
    if isZero r2 && isIntLit r1 then some (foldTo instr (irInt (intLitValue r1))) else none
  | .mul =>
    if isOne r2 && isIntLit r1 then some (foldTo instr (irInt (intLitValue r1)))
    else if isOne r1 && isIntLit r2 then some (foldTo instr (irInt (intLitValue r2)))
    else none
  | .div =>
    if isOne r2 && isIntLit r1 then some (foldTo instr (irInt (intLitValue r1))) else none
  | .neg =>
    if isIntLit r1 then some (foldTo instr (irInt (0 - intLitValue r1))) else none
  | .notOp =>
    if isBoolLit r1 then
      if boolLitValue r1 then some (foldTo instr (irBool false))
      else some (foldTo instr (irBool true))
    else none
  | _ => none

/-- The body of the folding loop at position `i`. -/
def foldAt (f : IRFunction) (i : Nat) : IRFunction × Int :=
  match f.instructions[i]? with
  | some instr =>
    match foldInstr f i instr with
    | some instr' => ({ f with instructions := f.instructions.set i instr' }, 1)
    | none => (f, 0)
  | none => (f, 0)

/-- The folding loop before position `n`: the function so far, and the patterns applied. -/
def foldLoop (f : IRFunction) : Nat → IRFunction × Int
  | 0 => (f, 0)
  | n + 1 =>
    let (g, p) := foldLoop f n
    let (g', p') := foldAt g n
    (g', p + p')

/-! ## Sinking -/

def isMovableConst : IRValue → Bool
  | .int _ | .bool _ | .string _ | .sym _ => true
  | _ => false

def sinkRegSlot : IRValue → Int
  | .register r => r
  | _ => -1

def sinkSlotCount (f : IRFunction) : Int :=
  f.instructions.foldl (fun m i =>
    max (max (max (max m i.dest) (sinkRegSlot i.operand1)) (sinkRegSlot i.operand2))
      (sinkRegSlot i.operand3)) (-1) + 1

/-- A slot of an integer table; the guards of the source keep every access inside it. -/
def sinkGetInt (l : List Int) (k : Int) : Int := if k < 0 then 0 else l.getD k.toNat 0

/-- `l[k] = v`, when `k` is a slot of the table. -/
def setSlot (l : List Int) (k v : Int) : List Int :=
  if 0 ≤ k ∧ k < l.length then l.set k.toNat v else l

def bump (l : List Int) (k : Int) : List Int := setSlot l k (sinkGetInt l k + 1)

structure SinkTables where
  defCount : List Int
  useCount : List Int
  movable : List Int

/-- The tables after one more instruction. -/
def SinkTables.tally (t : SinkTables) (ins : IRInstruction) : SinkTables :=
  { defCount := bump t.defCount ins.dest
    useCount := bump (bump (bump t.useCount (sinkRegSlot ins.operand1)) (sinkRegSlot ins.operand2))
      (sinkRegSlot ins.operand3)
    movable :=
      if ins.opcode = .loadConst ∧ isMovableConst ins.operand1 then setSlot t.movable ins.dest 1
      else t.movable }

def SinkTables.init (slots : Int) : SinkTables :=
  let zeros := List.replicate slots.toNat 0
  { defCount := zeros, useCount := zeros, movable := zeros }

/-- The registers that qualify: one definition, one use, and the definition a movable constant. -/
def sinkBuildQual (f : IRFunction) (slots : Int) : List Int :=
  let t := f.instructions.foldl SinkTables.tally (.init slots)
  (List.range slots.toNat).map fun (k : Nat) =>
    if sinkGetInt t.defCount k = 1 ∧ sinkGetInt t.useCount k = 1 ∧ sinkGetInt t.movable k = 1 then 1
    else 0

/-- The motion one operand proves, coded as `useIdx * 65536 + defIdx`, or `-1`. -/
def sinkTryOperand (useIdx : Int) (op : IRValue) (qual lastDef : List Int) (lastBar : Int) : Int :=
  let reg := sinkRegSlot op
  if reg < 0 then -1
  else if qual.length ≤ reg then -1
  else if sinkGetInt qual reg ≠ 1 then -1
  else
    let defIdx := sinkGetInt lastDef reg
    if defIdx < 0 then -1
    else if useIdx ≤ defIdx then -1
    else if useIdx - defIdx ≤ 1 then -1
    else if defIdx ≤ lastBar then -1
    else useIdx * 65536 + defIdx

/-- The sweep of `sinkOne` from position `ui`, over the instructions that are left. -/
def sinkSweep (qual : List Int) : List IRInstruction → Int → List Int → Int → Int
  | [], _, _, _ => -1
  | ins :: rest, ui, lastDef, lastBar =>
    let lastDef := setSlot lastDef ins.dest ui
    let m1 := sinkTryOperand ui ins.operand1 qual lastDef lastBar
    let m2 := sinkTryOperand ui ins.operand2 qual lastDef lastBar
    let m3 := sinkTryOperand ui ins.operand3 qual lastDef lastBar
    if 0 ≤ m1 then m1
    else if 0 ≤ m2 then m2
    else if 0 ≤ m3 then m3
    else sinkSweep qual rest (ui + 1) lastDef (if isBarrierOp ins.opcode then ui else lastBar)

def sinkOne (f : IRFunction) (qual : List Int) : Int :=
  sinkSweep qual f.instructions 0 (List.replicate qual.length (-1)) (-1)

/-- The shifting loop of `moveInstrBefore`: `n` positions from `i` on. -/
def shiftDown : Nat → Nat → List IRInstruction → Option (List IRInstruction)
  | 0, _, is => some is
  | n + 1, i, is =>
    match is[i + 1]? with
    | some x => shiftDown n (i + 1) (is.set i x)
    | none => none

def moveInstrBefore (f : IRFunction) (defIdx useIdx : Nat) : Option IRFunction :=
  match f.instructions[defIdx]? with
  | none => none
  | some d =>
    match shiftDown (useIdx - 1 - defIdx) defIdx f.instructions with
    | none => none
    | some is => some { f with instructions := is.set (useIdx - 1) d }

/-- The sinking loop, for at most the given number of rounds. -/
def sinkLoop (qual : List Int) : Nat → IRFunction × OptStats → Option (IRFunction × OptStats)
  | 0, r => some r
  | rounds + 1, (f, st) =>
    let motion := sinkOne f qual
    if motion < 0 then some (f, st)
    else
      let useIdx := motion / 65536
      let defIdx := motion - useIdx * 65536
      match moveInstrBefore f defIdx.toNat useIdx.toNat with
      | none => none
      | some g =>
        sinkLoop qual rounds (g, { st with patternsApplied := st.patternsApplied + 1
                                           spanSaved := st.spanSaved + (useIdx - defIdx - 1) })

def maxRounds : Nat := 256

def optimizeFunction (f : IRFunction) : Option (IRFunction × OptStats) :=
  let (g, patterns) := foldLoop f f.instructions.length
  sinkLoop (sinkBuildQual g (sinkSlotCount g)) maxRounds
    (g, { patternsApplied := patterns, constantFolds := 0, spanSaved := 0 })

def optimizeIRModule (m : IRModule) : Option (IRModule × OptStats) := do
  let rs ← m.functions.mapM optimizeFunction
  let total := rs.foldl (fun t r =>
    { patternsApplied := t.patternsApplied + r.2.patternsApplied
      constantFolds := t.constantFolds + r.2.constantFolds
      spanSaved := t.spanSaved + r.2.spanSaved }) (⟨0, 0, 0⟩ : OptStats)
  some ({ m with functions := rs.map (·.1) }, total)

end Opt
