import Orbit.Cte.Proof.Module

/-!
# The folder terminates

A round of `cteFoldFunction` that reports a change has fewer calls left (`foldPass_calls`), so the
rounds come to one that changes nothing (`foldPasses_settle`). An evaluation ends whatever it runs:
every instruction counts against one number of steps, and no activation opens past the limit of the
depth (`evalFunction_ends`).
-/

namespace Cte

open IR

/-! ## Evaluations -/

/-- A result of the loop does not change with more fuel. -/
theorem evalLoop_succ {m : IRModule} (fuel : Nat) :
    ∀ {f : IRFunction} {args : List Word} {st : CTEState} {l : EvalLocals} {r : Bool × CTEState},
      evalLoop m fuel f args st l = some r → evalLoop m (fuel + 1) f args st l = some r := by
  induction fuel with
  | zero => intro f args st l r h; cases h
  | succ fuel ih =>
    intro f args st l r h
    rw [evalLoop] at h ⊢
    split at h
    · exact h
    · dsimp only
      split at h
      · rename_i hs
        rw [if_pos hs]
        exact h
      · rename_i hs
        rw [if_neg hs]
        dsimp only at h ⊢
        split at h
        · exact ih h
        · exact h
        · exact h
        · split at h
          · exact h
          · split at h
            · cases h
            · rename_i he
              rw [ih he]
              exact h
            · rename_i he
              rw [ih he]
              exact ih h

theorem evalLoop_mono {m : IRModule} {fuel fuel' : Nat} (hle : fuel ≤ fuel') {f : IRFunction}
    {args : List Word} {st : CTEState} {l : EvalLocals} {r : Bool × CTEState}
    (h : evalLoop m fuel f args st l = some r) : evalLoop m fuel' f args st l = some r := by
  induction hle with
  | refl => exact h
  | step _ ih => exact evalLoop_succ _ ih

theorem evalFunction_mono {m : IRModule} {fuel fuel' : Nat} (hle : fuel ≤ fuel') {f : IRFunction}
    {args : List Word} {st : CTEState} {r : Bool × CTEState}
    (h : evalFunction m fuel f args st = some r) : evalFunction m fuel' f args st = some r := by
  unfold evalFunction at h ⊢
  split at h
  · exact h
  · exact evalLoop_mono hle h

/-- Every state that the loop passes, those of the calls inside it included, meets `P`. -/
def LoopStates (P : CTEState → Prop) (m : IRModule) :
    Nat → IRFunction → List Word → CTEState → EvalLocals → Prop
  | 0, _, _, _, _ => True
  | fuel + 1, f, args, st, l =>
    P st ∧
      match f.instructions[l.ip]? with
      | none => P (st.leave 0)
      | some i =>
        if st.steps > maxSteps then P st.fail
        else
          let st := { st with steps := st.steps + 1 }
          P st ∧
            match evalInstr m f args st.success l i with
            | .next l' => LoopStates P m fuel f args st l'
            | .stop => P st.fail
            | .ret v => P (st.leave v)
            | .call callee =>
              match st.enter with
              | none => P st.fail
              | some st1 =>
                LoopStates P m fuel callee l.pending st1 (.init l.pending) ∧
                  match evalLoop m fuel callee l.pending st1 (.init l.pending) with
                  | none => True
                  | some (false, st2) => P { st2 with depth := st2.depth - 1 }
                  | some (true, st2) =>
                    LoopStates P m fuel f args st2 { l.set i.dest st2.result with pending := [] }

/-- Every state of an evaluation meets `P`. -/
def EvalStates (P : CTEState → Prop) (m : IRModule) (fuel : Nat) (f : IRFunction) (args : List Word)
    (st : CTEState) : Prop :=
  match st.enter with
  | none => P { st with success := false }
  | some st1 => LoopStates P m fuel f args st1 (.init args)

/-- The limits: one step past the last check, and one activation. -/
structure Within (st : CTEState) : Prop where
  steps : st.steps ≤ maxSteps + 1
  depth : st.depth ≤ maxDepth + 1

theorem Within.enter {st st1 : CTEState} (h : Within st) (he : st.enter = some st1) : Within st1 := by
  simp only [CTEState.enter] at he
  split at he
  · cases he
  · rename_i hlim
    obtain rfl := Option.some.inj he
    exact ⟨h.steps, by dsimp only; omega⟩

theorem Within.lower {st st' : CTEState} (h : Within st) (hs : st'.steps = st.steps)
    (hd : st'.depth ≤ st.depth) : Within st' :=
  ⟨by rw [hs]; exact h.steps, le_trans hd h.depth⟩

theorem enter_steps {st st1 : CTEState} (he : st.enter = some st1) :
    st1.steps = st.steps ∧ st1.depth = st.depth + 1 := by
  simp only [CTEState.enter] at he
  split at he
  · cases he
  · obtain rfl := Option.some.inj he
    exact ⟨rfl, rfl⟩

/-- The loop gives its activation back, within the limits. -/
theorem evalLoop_within {m : IRModule} (fuel : Nat) :
    ∀ {f : IRFunction} {args : List Word} {st st' : CTEState} {l : EvalLocals} {b : Bool},
      Within st → evalLoop m fuel f args st l = some (b, st') →
        Within st' ∧ st'.depth + 1 ≤ st.depth := by
  induction fuel with
  | zero => intro f args st st' l b _ h; cases h
  | succ fuel ih =>
    intro f args st st' l b hst h
    simp only [evalLoop] at h
    split at h
    · cases h
      exact ⟨hst.lower rfl (by simp [CTEState.leave]), by simp [CTEState.leave]⟩
    · rename_i i hi
      split at h
      · cases h
        exact ⟨hst.lower rfl (by simp [CTEState.fail]), by simp [CTEState.fail]⟩
      · rename_i hsteps
        have hone : Within { st with steps := st.steps + 1 } := ⟨by dsimp only; omega, hst.depth⟩
        split at h
        · have hnext := ih hone h
          exact hnext
        · cases h
          exact ⟨hone.lower rfl (by simp [CTEState.fail]), by simp [CTEState.fail]⟩
        · cases h
          exact ⟨hone.lower rfl (by simp [CTEState.leave]), by simp [CTEState.leave]⟩
        · split at h
          · cases h
            exact ⟨hone.lower rfl (by simp [CTEState.fail]), by simp [CTEState.fail]⟩
          · rename_i callee _ _ st1 hst1
            have hd1 := (enter_steps hst1).2
            split at h
            · cases h
            · rename_i st2 he
              obtain ⟨h2, hd2⟩ := ih (hone.enter hst1) he
              cases h
              refine ⟨h2.lower rfl (by dsimp only; omega), ?_⟩
              dsimp only at hd1 ⊢
              omega
            · rename_i st2 he
              obtain ⟨h2, hd2⟩ := ih (hone.enter hst1) he
              obtain ⟨h3, hd3⟩ := ih h2 h
              dsimp only at hd1
              exact ⟨h3, by omega⟩

/-- **No state of the loop is outside the limits.** -/
theorem loopStates_within {m : IRModule} (fuel : Nat) :
    ∀ {f : IRFunction} {args : List Word} {st : CTEState} {l : EvalLocals},
      Within st → LoopStates Within m fuel f args st l := by
  induction fuel with
  | zero => intro f args st l _; trivial
  | succ fuel ih =>
    intro f args st l hst
    refine ⟨hst, ?_⟩
    split
    · exact hst.lower rfl (by simp [CTEState.leave])
    · split
      · exact hst.lower rfl (by simp [CTEState.fail])
      · rename_i hsteps
        have hone : Within { st with steps := st.steps + 1 } := ⟨by dsimp only; omega, hst.depth⟩
        refine ⟨hone, ?_⟩
        split
        · exact ih hone
        · exact hone.lower rfl (by simp [CTEState.fail])
        · exact hone.lower rfl (by simp [CTEState.leave])
        · split
          · exact hone.lower rfl (by simp [CTEState.fail])
          · rename_i st1 hst1
            refine ⟨ih (hone.enter hst1), ?_⟩
            split
            · trivial
            · rename_i st2 he
              exact (evalLoop_within fuel (hone.enter hst1) he).1.lower rfl (by simp)
            · rename_i st2 he
              exact ih (evalLoop_within fuel (hone.enter hst1) he).1

theorem evalStates_within {m : IRModule} {fuel : Nat} {f : IRFunction} {args : List Word}
    {st : CTEState} (h : Within st) : EvalStates Within m fuel f args st := by
  unfold EvalStates
  split
  · exact h.lower rfl (Int.le_refl _)
  · rename_i st1 hst1
    exact loopStates_within fuel (h.enter hst1)

/-- An evaluation of the folder starts within the limits. -/
theorem within_foldStart (st : CTEState) : Within (foldStart st) :=
  ⟨show (0 : Int) ≤ maxSteps + 1 by decide, show (0 : Int) ≤ maxDepth + 1 by decide⟩

/-- **Every evaluation the folder starts ends**, whatever the function: with the same result for all
fuel that is enough, and within the limits of steps and depth at every state. -/
theorem evalFunction_ends (m : IRModule) (f : IRFunction) (args : List Word) (st : CTEState) :
    (∃ r, ∀ fuel, evalFuel ≤ fuel → evalFunction m fuel f args (foldStart st) = some r) ∧
    ∀ fuel, EvalStates Within m fuel f args (foldStart st) := by
  refine ⟨?_, fun fuel => evalStates_within (within_foldStart st)⟩
  obtain ⟨r, hr⟩ := Option.isSome_iff_exists.mp
    (evalFunction_returns m f args (foldStart st) (Int.le_refl 0))
  exact ⟨r, fun fuel hle => evalFunction_mono hle hr⟩

/-! ## Rounds -/

/-- The calls left in a function. -/
def callsIn (is : List IRInstruction) : Nat := is.countP fun i => i.opcode == .call

theorem callsIn_substUses (d : Int) (v : Word) (is : List IRInstruction) :
    callsIn (substUses d v is) = callsIn is := by
  induction is with
  | nil => rfl
  | cons u us ih =>
    simp only [substUses]
    split
    · rfl
    · simp only [callsIn, List.countP_cons] at ih ⊢
      rw [ih]
      rfl

theorem callsIn_toNop (is : List IRInstruction) : callsIn (is.map toNop) = 0 := by
  refine List.countP_eq_zero.mpr fun i hi => ?_
  obtain ⟨j, -, rfl⟩ := List.mem_map.mp hi
  simp [toNop]

/-- **A fold takes a call away.** -/
theorem callsIn_folded {m : IRModule} {f : IRFunction} {c : Nat} {st : CTEState}
    {call : IRInstruction} {callee : IRFunction} {args : List Word} {v : Word}
    (h : Folds m f c st call callee args v) :
    callsIn (foldedFunction f c call.dest v).instructions < callsIn f.instructions := by
  have hle := argStart_le f.instructions c
  have hsplit : f.instructions = f.instructions.take (argStart f.instructions c) ++
      (f.instructions.take (c + 1)).drop (argStart f.instructions c) ++
        f.instructions.drop (c + 1) := by
    have htake : f.instructions.take (argStart f.instructions c) =
        (f.instructions.take (c + 1)).take (argStart f.instructions c) := by
      rw [List.take_take, Nat.min_eq_left (by omega)]
    rw [htake, List.take_append_drop, List.take_append_drop]
  have hmid : 0 < callsIn ((f.instructions.take (c + 1)).drop (argStart f.instructions c)) := by
    refine List.countP_pos_iff.mpr ⟨call, ?_, by simp [h.isCall]⟩
    refine List.mem_of_getElem? (i := c - argStart f.instructions c) ?_
    rw [List.getElem?_drop, Nat.add_sub_cancel' hle, List.getElem?_take_of_lt (Nat.lt_succ_self c),
      h.instr]
  have hfolded : callsIn (foldedFunction f c call.dest v).instructions =
      callsIn (f.instructions.take (argStart f.instructions c)) +
        callsIn (f.instructions.drop (c + 1)) := by
    have hnop := callsIn_toNop ((f.instructions.take (c + 1)).drop (argStart f.instructions c))
    have hsub := callsIn_substUses call.dest v (f.instructions.drop (c + 1))
    simp only [callsIn] at hnop hsub
    simp only [foldedFunction, foldedInstructions, callsIn, List.countP_append, hnop, hsub,
      Nat.add_zero]
  have hall : callsIn f.instructions = callsIn (f.instructions.take (argStart f.instructions c)) +
      callsIn ((f.instructions.take (c + 1)).drop (argStart f.instructions c)) +
        callsIn (f.instructions.drop (c + 1)) := by
    conv_lhs => rw [hsplit]
    simp only [callsIn, List.countP_append]
  omega

/-- The calls left in function `fi` of the module. -/
def callsAt (fi : Nat) (s : FoldState) : Nat :=
  ((s.module.functions[fi]?).map fun f => callsIn f.instructions).getD 0

/-- A position leaves the calls as they are, or reports a change and takes one away. -/
theorem foldPosition_calls (fi i : Nat) (s : FoldState) :
    (foldPosition fi i s).changed = s.changed ∧ callsAt fi (foldPosition fi i s) = callsAt fi s ∨
      (foldPosition fi i s).changed = true ∧ callsAt fi (foldPosition fi i s) < callsAt fi s := by
  cases hf : s.module.functions[fi]? with
  | none => exact .inl (by simp only [foldPosition, hf, and_self])
  | some f =>
    cases hi : f.instructions[i]? with
    | none => exact .inl (by simp only [foldPosition, hf, hi, and_self])
    | some instr =>
      by_cases hop : instr.opcode = .call
      · rcases ht : tryFoldCall s.module f i s.st with ⟨_ | f', st'⟩
        · refine .inl ?_
          simp only [foldPosition, hf, hi, hop, ht, if_true, callsAt, and_self]
        · obtain ⟨callee, args, v, hfolds, rfl⟩ := tryFoldCall_folds hi hop ht
          refine .inr ?_
          have hlt := callsIn_folded hfolds
          have hlen := (List.getElem?_eq_some_iff.mp hf).1
          simp only [foldPosition, hf, hi, hop, ht, if_true, callsAt, true_and,
            List.getElem?_set_self hlen, Option.map_some, Option.getD_some]
          exact hlt
      · exact .inl (by simp only [foldPosition, hf, hi, hop, if_false, and_self])

/-- **A round that reports a change has fewer calls left**, and one that reports none as many. -/
theorem foldPass_calls (fi : Nat) (s : FoldState) (n : Nat) :
    (foldPass fi s n).changed = false ∧ callsAt fi (foldPass fi s n) = callsAt fi s ∨
      (foldPass fi s n).changed = true ∧ callsAt fi (foldPass fi s n) < callsAt fi s := by
  induction n with
  | zero => exact .inl ⟨rfl, rfl⟩
  | succ n ih =>
    have hpos := foldPosition_calls fi n (foldPass fi s n)
    rcases ih with ⟨hc, hcalls⟩ | ⟨hc, hcalls⟩
    · rcases hpos with ⟨hc', hcalls'⟩ | ⟨hc', hcalls'⟩
      · exact .inl ⟨hc'.trans hc, hcalls'.trans hcalls⟩
      · exact .inr ⟨hc', hcalls ▸ hcalls'⟩
    · rcases hpos with ⟨hc', hcalls'⟩ | ⟨hc', hcalls'⟩
      · exact .inr ⟨hc'.trans hc, hcalls' ▸ hcalls⟩
      · exact .inr ⟨hc', Nat.lt_trans hcalls' hcalls⟩

/-- Enough rounds to go through all calls end with one that changes nothing. -/
theorem foldPasses_settle (fi len : Nat) (n : Nat) (s : FoldState) (h : callsAt fi s < n) :
    (foldPasses fi len n s).changed = false ∧
      ∀ k, n ≤ k → foldPasses fi len k s = foldPasses fi len n s := by
  induction n generalizing s with
  | zero => omega
  | succ n ih =>
    rcases foldPass_calls fi s len with ⟨hc, -⟩ | ⟨hc, hcalls⟩
    · refine ⟨by simp only [foldPasses, hc, Bool.false_eq_true, if_false], fun k hk => ?_⟩
      obtain ⟨k, rfl⟩ : ∃ j, k = j + 1 := ⟨k - 1, by omega⟩
      simp only [foldPasses, hc, Bool.false_eq_true, if_false]
    · obtain ⟨hend, hsame⟩ := ih (foldPass fi s len) (by omega)
      refine ⟨by simpa only [foldPasses, hc, if_true] using hend, fun k hk => ?_⟩
      obtain ⟨k, rfl⟩ : ∃ j, k = j + 1 := ⟨k - 1, by omega⟩
      simp only [foldPasses, hc, if_true]
      exact hsame k (by omega)

/-- What it means that the folding of function `fi` ends. -/
structure FoldEnds (fi : Nat) (s : FoldState) : Prop where
  /-- Every evaluation ends, within its limits. -/
  evaluation : ∀ m f args st,
    (∃ r, ∀ fuel, evalFuel ≤ fuel → evalFunction m fuel f args (foldStart st) = some r) ∧
    ∀ fuel, EvalStates Within m fuel f args (foldStart st)
  /-- Every round that reports a change leaves fewer calls. -/
  round : ∀ s n, (foldPass fi s n).changed = true → callsAt fi (foldPass fi s n) < callsAt fi s
  /-- The rounds end with one that reports none, and more would do nothing. -/
  rounds : ∀ f, s.module.functions[fi]? = some f → (cteFoldFunction fi s).changed = false ∧
    ∀ k, callsAt fi s < k → foldPasses fi f.instructions.length k s = cteFoldFunction fi s

/-- **The folding of a function terminates**, in every module. -/
theorem cteFoldFunction_ends (fi : Nat) (s : FoldState) : FoldEnds fi s where
  evaluation := evalFunction_ends
  round s n hc := by
    rcases foldPass_calls fi s n with ⟨hc', -⟩ | ⟨-, hlt⟩
    · rw [hc'] at hc
      cases hc
    · exact hlt
  rounds f hf := by
    have hcalls : callsAt fi s < f.instructions.length + 1 := by
      have : callsIn f.instructions ≤ f.instructions.length := List.countP_le_length
      simp only [callsAt, hf, Option.map_some, Option.getD_some]
      omega
    obtain ⟨hend, hsame⟩ := foldPasses_settle fi f.instructions.length _ s hcalls
    obtain ⟨-, hfew⟩ :=
      foldPasses_settle fi f.instructions.length (callsAt fi s + 1) s (Nat.lt_succ_self _)
    simp only [cteFoldFunction, hf]
    refine ⟨hend, fun k hk => ?_⟩
    rw [hfew k hk, ← hfew _ hcalls]

end Cte
