import Orbit.Cte.Proof.Dce
import Orbit.Cte.Proof.Fold

/-!
# The compile-time evaluator keeps behaviour

`cteOptimize` folds calls, one after the other, until nothing changes, and then removes dead code.
`folds` lists the folds it makes, each with the module as it is then. When every one of them is
what the call does (`FoldOk`) and nothing that can be noticed is removed, the optimized module
behaves as the module did (`cteOptimize_same`).
-/

namespace Cte

open IR

/-! ## Dead code -/

section
variable {W : Type} {rt : Runtime W} {m : IRModule}

/-- Activations of a module and of what is left of it. -/
structure DceActivations (m : IRModule) (a a' : Activation) : Prop where
  mem : a.func ∈ m.functions
  func : a'.func = dceFunction a.func
  frame : DceRel (usedRegs a.func.instructions) a.frame a'.frame

/-- Removing dead code from every function keeps behaviour. -/
theorem dceModule_same (hs : ∀ f ∈ m.functions, ∀ i ∈ f.instructions,
      isDead (usedRegs f.instructions) i = true → removalSafe i = true) :
    ModuleSame rt m { m with functions := m.functions.map dceFunction } := by
  refine .of_activations (A := DceActivations m) (fun vars a a' w h => ?_) fun vars name => ?_
  · obtain ⟨f, fr⟩ := a
    obtain ⟨f', fr'⟩ := a'
    obtain ⟨hmem, hfun, hrel⟩ := h
    simp only at hmem hfun hrel
    subst hfun
    have hl := hrel.lres rt (harmless_of_removalSafe (hs f hmem)) w
    refine .both (hl.mono fun t t' ht => ⟨hmem, rfl, ht⟩) fun callee args t t' hc hc' => ?_
    exact .of_lstep hc hc' ⟨hrel.ip, by rw [hrel.ip, hrel.calls], hrel.locals.path⟩
  · simp only [findFunction, List.find?_map]
    cases hg : m.functions.find? fun g => g.name == name && !g.isExtern with
    | none => exact .inl ⟨rfl, by rw [show ((fun g : IRFunction => g.name == name && !g.isExtern) ∘
        dceFunction) = fun g => g.name == name && !g.isExtern from rfl, hg]; rfl⟩
    | some g =>
      refine .inr ⟨g, dceFunction g, rfl, ?_, fun path args => ?_⟩
      · rw [show ((fun g : IRFunction => g.name == name && !g.isExtern) ∘
          dceFunction) = fun g => g.name == name && !g.isExtern from rfl, hg]
        rfl
      · exact ⟨List.mem_of_find?_eq_some hg, rfl, rfl, rfl, ⟨rfl, rfl, rfl, fun _ _ => rfl⟩,
          fun _ _ => rfl⟩

end

/-! ## The folds -/

/-- A fold: the call at `callIdx` of `func`, in the module and the state of that moment. -/
structure FoldSite where
  module : IRModule
  func : IRFunction
  callIdx : Nat
  st : CTEState
  deriving DecidableEq

/-- The fold is what the call does. -/
def FoldSite.Ok (e : FoldSite) : Prop :=
  ∀ call callee args, e.func.instructions[e.callIdx]? = some call →
    foldableCallee e.module call = some callee → argValues e.func.instructions e.callIdx = some args →
    FoldOk e.module e.func e.callIdx e.st call callee args

/-- Run from where the arguments start, the call returns the value it was replaced by, and nothing
else changes: neither the world, nor what is observed, nor what is pending. -/
def FoldSite.Returns (e : FoldSite) : Prop :=
  ∀ call callee args v, Folds e.module e.func e.callIdx e.st call callee args v →
    ∀ (W : Type) (rt : Runtime W) (fr : Frame), Reach rt e.func fr →
      fr.ip = argStart e.func.instructions e.callIdx →
      ∀ (vars : String → Val) (rest : List Activation) (w : W) (tr : List Event),
        ∃ t, Lib.Steps (mstep rt e.module vars) (.run ⟨e.func, fr⟩ rest w tr)
            (.run ⟨e.func, t⟩ rest w tr) ∧
          t.ip = e.callIdx + 1 ∧ t.locals = fr.locals ∧
          t.regs = writeReg rt e.func call.dest (some (.word v)) fr.regs

/-- The fold `foldPosition` makes, if it makes one. -/
def foldsAt (fi i : Nat) (s : FoldState) : List FoldSite :=
  match s.module.functions[fi]? with
  | none => []
  | some f =>
    match f.instructions[i]? with
    | none => []
    | some instr =>
      if instr.opcode = .call && (tryFoldCall s.module f i s.st).1.isSome then
        [⟨s.module, f, i, s.st⟩]
      else []

/-- The folds of `foldPass`. -/
def foldsPass (fi : Nat) (s : FoldState) : Nat → List FoldSite
  | 0 => []
  | n + 1 => foldsPass fi s n ++ foldsAt fi n (foldPass fi s n)

/-- The folds of `foldPasses`. -/
def foldsPasses (fi len : Nat) : Nat → FoldState → List FoldSite
  | 0, _ => []
  | n + 1, s =>
    foldsPass fi s len ++
      if (foldPass fi s len).changed then foldsPasses fi len n (foldPass fi s len) else []

/-- The folds of `foldNext`. -/
def foldsNext (s : FoldState) (fi : Nat) : List FoldSite :=
  match s.module.functions[fi]? with
  | some f =>
    if f.instructions.isEmpty then []
    else foldsPasses fi f.instructions.length (f.instructions.length + 1) s
  | none => []

/-- The folds of the first `n` functions, and the state after them. -/
def foldsUpTo (m : IRModule) : Nat → List FoldSite × FoldState
  | 0 => ([], { module := m, st := cteInit, changed := false })
  | n + 1 =>
    ((foldsUpTo m n).1 ++ foldsNext (foldsUpTo m n).2 n, foldNext (foldsUpTo m n).2 n)

/-- The folds `cteOptimize` makes. -/
def folds (m : IRModule) : List FoldSite := (foldsUpTo m m.functions.length).1

/-! ## The loops -/

/-- What `tryFoldCall` has done when it folds. -/
theorem tryFoldCall_folds {m : IRModule} {f f' : IRFunction} {c : Nat} {st st' : CTEState}
    {call : IRInstruction} (hcall : f.instructions[c]? = some call) (hop : call.opcode = .call)
    (h : tryFoldCall m f c st = (some f', st')) :
    ∃ callee args v, Folds m f c st call callee args v ∧ f' = foldedFunction f c call.dest v := by
  simp only [tryFoldCall, hcall] at h
  split at h
  · cases h
  · rename_i callee hcallee
    split at h
    · cases h
    · rename_i args hargs
      split at h
      · rename_i st1 heval
        split at h
        · cases h
        · rename_i hctl
          cases h
          refine ⟨callee, args, st1.result, ⟨hcall, hop, hcallee, hargs, ⟨st1, heval, rfl⟩, ?_⟩, rfl⟩
          intro k i hk hi
          by_contra hc
          refine hctl (List.any_eq_true.mpr ⟨i, ?_, by simpa using hc⟩)
          exact List.mem_of_getElem? (i := k - (c + 1)) (by
            rw [List.getElem?_drop, show c + 1 + (k - (c + 1)) = k by omega, hi])
      · cases h
      · cases h

/-- One position: the module stays, or one call of it is folded. -/
theorem foldPosition_cases (fi i : Nat) (s : FoldState) :
    (foldPosition fi i s).module = s.module ∨
      ∃ f call callee args v, s.module.functions[fi]? = some f ∧
        Folds s.module f i s.st call callee args v ∧
        foldsAt fi i s = [⟨s.module, f, i, s.st⟩] ∧
        (foldPosition fi i s).module =
          { s.module with
            functions := s.module.functions.set fi (foldedFunction f i call.dest v) } := by
  cases hf : s.module.functions[fi]? with
  | none => exact .inl (by simp only [foldPosition, hf])
  | some f =>
    cases hi : f.instructions[i]? with
    | none => exact .inl (by simp only [foldPosition, hf, hi])
    | some instr =>
      by_cases hop : instr.opcode = .call
      · rcases ht : tryFoldCall s.module f i s.st with ⟨_ | f', st'⟩
        · exact .inl (by simp only [foldPosition, hf, hi, hop, ht, if_true])
        · obtain ⟨callee, args, v, hfolds, rfl⟩ := tryFoldCall_folds hi hop ht
          exact .inr ⟨f, instr, callee, args, v, rfl, hfolds,
            by simp [foldsAt, hf, hi, hop, ht], by simp only [foldPosition, hf, hi, hop, ht, if_true]⟩
      · exact .inl (by simp only [foldPosition, hf, hi, hop, if_false])

section
variable {W : Type} {rt : Runtime W}

theorem foldPosition_same {fi i : Nat} {s : FoldState} (h : ∀ e ∈ foldsAt fi i s, e.Ok) :
    ModuleSame rt s.module (foldPosition fi i s).module := by
  rcases foldPosition_cases fi i s with he | ⟨f, call, callee, args, v, hf, hfolds, hsite, he⟩
  · rw [he]
    exact .refl rt _
  · rw [he]
    have hok := h _ (by rw [hsite]; exact List.mem_singleton_self _)
    exact folded_same (hok call callee args hfolds.instr hfolds.resolves hfolds.reads) hfolds hf

variable (rt) in
theorem foldPass_same {fi : Nat} {s : FoldState} (n : Nat) (h : ∀ e ∈ foldsPass fi s n, e.Ok) :
    ModuleSame rt s.module (foldPass fi s n).module := by
  induction n with
  | zero => exact .refl rt _
  | succ n ih =>
    simp only [foldsPass, List.mem_append] at h
    exact (ih fun e he => h e (.inl he)).trans (foldPosition_same fun e he => h e (.inr he))

theorem foldPasses_same {fi len : Nat} (n : Nat) : ∀ {s : FoldState},
    (∀ e ∈ foldsPasses fi len n s, e.Ok) → ModuleSame rt s.module (foldPasses fi len n s).module := by
  induction n with
  | zero => exact fun _ => .refl rt _
  | succ n ih =>
    intro s h
    simp only [foldsPasses, List.mem_append] at h
    have hpass := foldPass_same rt len fun e he => h e (.inl he)
    simp only [foldPasses]
    split
    · rename_i hch
      exact hpass.trans (ih fun e he => h e (.inr (by rw [if_pos hch]; exact he)))
    · exact hpass

theorem foldNext_same {fi : Nat} {s : FoldState} (h : ∀ e ∈ foldsNext s fi, e.Ok) :
    ModuleSame rt s.module (foldNext s fi).module := by
  unfold foldNext
  unfold foldsNext at h
  cases hf : s.module.functions[fi]? with
  | none => exact .refl rt _
  | some f =>
    simp only [hf] at h ⊢
    split
    · exact .refl rt _
    · rename_i hne
      rw [if_neg hne] at h
      simp only [cteFoldFunction, hf]
      exact foldPasses_same _ h

variable (rt) in
theorem foldsUpTo_same {m : IRModule} (n : Nat) (h : ∀ e ∈ (foldsUpTo m n).1, e.Ok) :
    ModuleSame rt m (foldsUpTo m n).2.module := by
  induction n with
  | zero => exact .refl rt _
  | succ n ih =>
    simp only [foldsUpTo, List.mem_append] at h
    exact (ih fun e he => h e (.inl he)).trans (foldNext_same fun e he => h e (.inr he))

end

theorem foldsUpTo_state (m : IRModule) (n : Nat) :
    (foldsUpTo m n).2 =
      (List.range n).foldl foldNext { module := m, st := cteInit, changed := false } := by
  induction n with
  | zero => rfl
  | succ n ih => simp only [foldsUpTo, List.range_succ, List.foldl_append, List.foldl_cons,
      List.foldl_nil, ih]

/-- `fn twice(x) { return x + x }`. -/
def twiceFunction : IRFunction :=
  { initIRFunction "twice" with
    params := ["x"], paramTypes := ["int"], returnType := "int", registerCount := 4,
    registerTypes := List.replicate 4 "int"
    instructions := [
      { irInitInstr .arg with dest := 0, operand1 := irInt 0 },
      { irInitInstr .loadVar with dest := 1, operand1 := irSymbol "x" },
      { irInitInstr .loadVar with dest := 2, operand1 := irSymbol "x" },
      { irInitInstr .add with dest := 3, operand1 := irRegister 1, operand2 := irRegister 2 },
      { irInitInstr .ret with operand1 := irRegister 3 }] }

/-- `return twice(-21)`. -/
def callsTwice : IRFunction :=
  { initIRFunction "main" with
    returnType := "int", registerCount := 2, registerTypes := List.replicate 2 "int"
    instructions := [
      { irInitInstr .loadConst with dest := 0, operand1 := irInt (-21) },
      { irInitInstr .arg with operand1 := irRegister 0 },
      { irInitInstr .call with dest := 1, operand1 := irString "twice", operand2 := irInt 1 },
      { irInitInstr .ret with operand1 := irRegister 1 }] }

def twiceModule : IRModule := { initIRModule with functions := [twiceFunction, callsTwice] }

/-- The argument register holds its constant from the load on. -/
def twiceConstants (k : Nat) (r : Int) : Option Word := if 0 < k ∧ r = 0 then some (-21) else none

theorem twiceConstants_hold : Constants callsTwice twiceConstants := by
  refine ⟨fun r => rfl, fun k i hi _ r v hr => ?_, fun k i n t hi hn _ r v _ => ?_⟩
  · simp only [twiceConstants, Nat.zero_lt_succ, true_and, Option.ite_none_right_eq_some] at hr
    obtain ⟨rfl, hv⟩ := hr
    rcases k with _ | _ | _ | _ | k
    · cases hi; exact ⟨by decide, by decide, .inl rfl, hv⟩
    · cases hi; exact hv
    · cases hi; exact hv
    · cases hi; exact hv
    · cases hi
  · rcases k with _ | _ | _ | _ | k <;> cases hi <;> cases hn

theorem twiceModule_folds : folds twiceModule = [⟨twiceModule, callsTwice, 2, cteInit⟩] := by
  decide

/-- `fn five() { return 5 }`. -/
def fiveFunction : IRFunction :=
  { initIRFunction "five" with
    returnType := "int", registerCount := 1, registerTypes := ["int"]
    instructions := [
      { irInitInstr .loadConst with dest := 0, operand1 := irInt 5 },
      { irInitInstr .ret with operand1 := irRegister 0 }] }

/-- `return Pair.Both(1, five())`: a constructor pushes each argument as it is built. -/
def buildsPair : IRFunction :=
  { initIRFunction "main" with
    returnType := "Pair", registerCount := 3, registerTypes := ["int", "int", "void*"]
    instructions := [
      { irInitInstr .loadConst with dest := 0, operand1 := irInt 1 },
      { irInitInstr .arg with operand1 := irRegister 0 },
      { irInitInstr .call with dest := 1, operand1 := irString "five", operand2 := irInt 0 },
      { irInitInstr .arg with operand1 := irRegister 1 },
      { irInitInstr .call with dest := 2, operand1 := irString "Both", operand2 := irInt 2 },
      { irInitInstr .ret with operand1 := irRegister 2 }] }

def pairModule : IRModule := { initIRModule with functions := [fiveFunction, buildsPair] }

end Cte
