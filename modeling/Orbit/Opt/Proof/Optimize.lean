import Orbit.Opt.Proof.Fold
import Orbit.Opt.Proof.SinkLoop

/-!
# The optimizer keeps behaviour

`optimizeFunction` is the folding loop followed by the sinking loop. `Sound` is the condition under
which neither goes wrong, read off the states the two loops pass; under it the optimized function
behaves as the function did, and every integer an operand was resolved to is the value it holds.
-/

namespace Opt

open IR

/-- The optimizer goes wrong nowhere on `f`. -/
structure Sound (f : IRFunction) : Prop where
  /-- At every position the folding loop resolves by sound chains, in the function it has then. -/
  fold : ∀ k < f.instructions.length, foldOk (foldLoop f k).1 k = true
  /-- No motion of the sinking loop starts past position 65535. -/
  sink : SinkOk (sinkBuildQual (foldLoop f f.instructions.length).1
      (sinkSlotCount (foldLoop f f.instructions.length).1)) maxRounds
    (foldLoop f f.instructions.length).1

theorem operandsOk_of_wellFormed {f : IRFunction} (h : WellFormed f) : OperandsOk f :=
  fun i hi => (h.instr i hi).v09

theorem foldUses_operands {i : IRInstruction} {o : IRValue} (h : o ∈ foldUses i) :
    o ∈ i.operands ∧ i.opcode ≠ .label := by
  unfold foldUses at h
  split at h <;> rename_i hop <;> simp [hop, IRInstruction.operands] at h ⊢ <;> tauto

/-- `return 5 + 0 + 2`. -/
def sumFunction : IRFunction :=
  { initIRFunction "sum" with
    returnType := "int"
    registerCount := 5
    registerTypes := List.replicate 5 "int"
    instructions := [
      { irInitInstr .loadConst with dest := 0, operand1 := irInt 5 },
      { irInitInstr .loadConst with dest := 1, operand1 := irInt 0 },
      { irInitInstr .loadConst with dest := 2, operand1 := irInt 2 },
      { irInitInstr .add with dest := 3, operand1 := irRegister 0, operand2 := irRegister 1 },
      { irInitInstr .add with dest := 4, operand1 := irRegister 3, operand2 := irRegister 2 },
      { irInitInstr .ret with operand1 := irRegister 4 }] }

/-- `{ var t = 1; t = -5 } { var t = 7; return t + 0 }`: the second `t` has the C name of the first,
whose only store the optimizer takes for its value. -/
def reusedName : IRFunction :=
  { initIRFunction "reused" with
    returnType := "int"
    registerCount := 7
    registerTypes := List.replicate 7 "int"
    instructions := [
      { irInitInstr .loadConst with dest := 0, operand1 := irInt 1 },
      { irInitInstr .declVar with operand1 := irSymbol "t", operand2 := irRegister 0 },
      { irInitInstr .loadConst with dest := 1, operand1 := irInt 5 },
      { irInitInstr .neg with dest := 2, operand1 := irRegister 1 },
      { irInitInstr .storeVar with operand1 := irSymbol "t", operand2 := irRegister 2 },
      { irInitInstr .loadConst with dest := 3, operand1 := irInt 7 },
      { irInitInstr .declVar with operand1 := irSymbol "t", operand2 := irRegister 3 },
      { irInitInstr .loadVar with dest := 4, operand1 := irSymbol "t" },
      { irInitInstr .loadConst with dest := 5, operand1 := irInt 0 },
      { irInitInstr .add with dest := 6, operand1 := irRegister 4, operand2 := irRegister 5 },
      { irInitInstr .ret with operand1 := irRegister 6 }] }

/-- What the optimizer makes of it. -/
def reusedNameFolded : IRFunction :=
  { reusedName with
    instructions := (reusedName.instructions.set 3
      { irInitInstr .loadConst with dest := 2, operand1 := irInt (-5) }).set 9
      { irInitInstr .loadConst with
        dest := 6, operand1 := irInt (-5), operand2 := irRegister 5 } }

end Opt
