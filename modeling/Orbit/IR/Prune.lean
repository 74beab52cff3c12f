import Orbit.IR.Syntax

/-!
# Pruning of unreachable functions

`pruneUnreachable` keeps the functions that the program's entry points reach through the names in
the operands of the instructions, and the externs. The names are found through an open-addressing
table from names to the indices of the functions, at most half full; a probe that goes once around
the table without stopping never stops, and a function is then `none`.
-/

namespace IR

def pruneIsProgramEntry (f : IRFunction) : Bool :=
  if f.routeMethod ≠ "" then true
  else if f.name = "main" || f.name = "orbit_main" then true
  else
    let n := f.name.toList.length
    if n > 5 then f.name.toList.drop (n - 5) = "_main".toList else false

def pruneHash (name : String) : Nat :=
  name.toList.foldl (fun h c => (h * 33 + c.toNat) % 1000003) 5381

/-- A free slot is `none`; the source writes `-1`. -/
abbrev PruneSlots := List (Option Nat)

/-- The first free slot from `pos` on. -/
def pruneFreeSlot (slots : PruneSlots) : Nat → Nat → Option Nat
  | 0, _ => none
  | fuel + 1, pos =>
    if (slots.getD pos none).isNone then some pos
    else pruneFreeSlot slots fuel ((pos + 1) % slots.length)

/-- Puts the index of a function at the first free slot from the hash of its name. -/
def pruneAddSlot (slots : PruneSlots) (f : IRFunction × Nat) : Option PruneSlots := do
  let pos ← pruneFreeSlot slots slots.length (pruneHash f.1.name % slots.length)
  return slots.set pos (some f.2)

def pruneBuildSlots (module : IRModule) (size : Nat) : Option PruneSlots :=
  module.functions.zipIdx.foldlM pruneAddSlot (List.replicate size none)

/-- Which functions are reached, and the queue of those to scan. -/
structure PruneState where
  reached : List Bool
  queue : List Nat
  deriving DecidableEq, Repr

/-- Marks and queues a function of the given name that was not reached before. -/
def pruneReachIndex (module : IRModule) (name : String) (st : PruneState) (idx : Nat) :
    PruneState :=
  if module.functions[idx]?.any (·.name = name) && !st.reached.getD idx false then
    { reached := st.reached.set idx true, queue := st.queue ++ [idx] }
  else st

/-- Probes to the end of the chain, since two functions can share a name. -/
def pruneReachName (module : IRModule) (slots : PruneSlots) (name : String) :
    Nat → Nat → PruneState → Option PruneState
  | 0, _, _ => none
  | fuel + 1, pos, st =>
    match slots.getD pos none with
    | none => some st
    | some idx =>
      pruneReachName module slots name fuel ((pos + 1) % slots.length)
        (pruneReachIndex module name st idx)

def pruneOperandName : IRValue → String
  | .string s => s
  | .sym s => s
  | _ => ""

def pruneReachOperand (module : IRModule) (slots : PruneSlots) (st : PruneState) (op : IRValue) :
    Option PruneState :=
  let name := pruneOperandName op
  if name ≠ "" then
    pruneReachName module slots name slots.length (pruneHash name % slots.length) st
  else some st

/-- The three operands of each instruction in turn. -/
def pruneScan (module : IRModule) (slots : PruneSlots) (f : IRFunction) (st : PruneState) :
    Option PruneState :=
  f.instructions.foldlM (fun st inst => inst.operands.foldlM (pruneReachOperand module slots) st) st

/-- The loop over the queue; `none` also when it does not end. -/
def pruneLoop (module : IRModule) (slots : PruneSlots) : Nat → Nat → PruneState → Option PruneState
  | 0, _, _ => none
  | fuel + 1, head, st =>
    match st.queue[head]? with
    | none => some st
    | some fi => do
      let f ← module.functions[fi]?
      let st ← pruneScan module slots f st
      pruneLoop module slots fuel (head + 1) st

/-- A function that is kept in any case. -/
def pruneIsRoot (f : IRFunction) : Bool := pruneIsProgramEntry f || f.isExtern

def pruneStart (module : IRModule) : PruneState where
  reached := module.functions.map pruneIsRoot
  queue := (module.functions.zipIdx.filter fun f => pruneIsRoot f.1).map (·.2)

/-- The module without the functions nothing reaches, and how many they were. -/
def pruneUnreachable (module : IRModule) : Option (IRModule × Nat) :=
  let count := module.functions.length
  if module.functions.any pruneIsProgramEntry then do
    let slots ← pruneBuildSlots module (count * 2 + 1)
    let st ← pruneLoop module slots (count + 1) 0 (pruneStart module)
    let kept := (module.functions.zipIdx.filter fun f => st.reached.getD f.2 false).map (·.1)
    return ({ module with functions := kept }, count - kept.length)
  else some (module, 0)

end IR
