import Orbit.Opt.Proof.Resolve

/-!
# Folding keeps behaviour

A rewritten instruction computes, in every frame that can reach it, the constant it is rewritten
to (`fold_act`), so the function before and after one round of the loop step alike
(`foldAt_same`) and so do those before and after the whole loop (`foldLoop_same`).

Besides the chains of `chainOk` a rewrite relies on reading a numeral as C does: `numeralOk`.
-/

namespace Opt

open IR

/-- A numeral has the value in decimal that it has in the emitted C, where a leading zero makes it
octal. -/
def numeralOk : IRValue → Bool
  | .sym s => !isDecLit s || cIntLiteral s == some (parseDecLit s)
  | _ => true

/-- The operands the rule for an opcode resolves. -/
def foldUses (i : IRInstruction) : List IRValue :=
  match i.opcode with
  | .add | .sub | .mul | .div => [i.operand1, i.operand2]
  | .neg | .notOp => [i.operand1]
  | _ => []

/-- An operand that resolves to a literal does so by a sound chain, to a numeral C reads alike. -/
def resolveOk (f : IRFunction) (u : Nat) (o : IRValue) : Bool :=
  let v := resolveConstInt f resolveDepth o u
  !(isIntLit v || isBoolLit v) || (chainOk f resolveDepth o && numeralOk v)

/-- Every operand the rule at position `k` resolves is resolved soundly. -/
def foldOk (f : IRFunction) (k : Nat) : Bool :=
  match f.instructions[k]? with
  | some i => (foldUses i).all (resolveOk f k)
  | none => true

/-- The operands of a function are well formed. -/
def OperandsOk (f : IRFunction) : Prop :=
  ∀ i ∈ f.instructions, ∀ o ∈ i.operands, o.wellFormed f = true

section
variable {W : Type} {rt : Runtime W}

/-! ## Literals at run time -/

/-- A symbol that C reads as an integer. -/
theorem literal_value {s : String} {n : Word} (h : cIntLiteral s = some n) (regs : Int → Val) :
    evalOperand rt regs (.sym s) = .word n := by
  change symValue rt s = .word n
  rw [symValue, h]

theorem eq_of_isZero {v : IRValue} (h : isZero v = true) : v = .int 0 ∨ v = .sym "0" := by
  cases v with
  | int m => exact .inl (congrArg _ (eq_of_beq h))
  | sym s => exact .inr (congrArg _ (eq_of_beq h))
  | _ => exact absurd h Bool.false_ne_true

theorem eq_of_isOne {v : IRValue} (h : isOne v = true) : v = .int 1 ∨ v = .sym "1" := by
  cases v with
  | int m => exact .inl (congrArg _ (eq_of_beq h))
  | sym s => exact .inr (congrArg _ (eq_of_beq h))
  | _ => exact absurd h Bool.false_ne_true

theorem isIntLit_value {v : IRValue} (h : isIntLit v = true) (hn : numeralOk v = true)
    (regs : Int → Val) : evalOperand rt regs v = .word (intLitValue v) := by
  cases v with
  | int m => rfl
  | sym s =>
    have hdec : isDecLit s = true := h
    simp only [numeralOk, hdec, Bool.not_true, Bool.false_or, beq_iff_eq] at hn
    exact literal_value hn regs
  | _ => exact absurd h Bool.false_ne_true

theorem isZero_value {v : IRValue} (h : isZero v = true) (regs : Int → Val) :
    evalOperand rt regs v = .word 0 := by
  obtain rfl | rfl := eq_of_isZero h
  · rfl
  · exact literal_value (by decide) regs

theorem isOne_value {v : IRValue} (h : isOne v = true) (regs : Int → Val) :
    evalOperand rt regs v = .word 1 := by
  obtain rfl | rfl := eq_of_isOne h
  · rfl
  · exact literal_value (by decide) regs

theorem isBoolLit_value {v : IRValue} (h : isBoolLit v = true) (regs : Int → Val) :
    evalOperand rt regs v = .word (if boolLitValue v then 1 else 0) := by
  have ht : cIntLiteral "true" = none := by decide
  have hf : cIntLiteral "false" = none := by decide
  cases v with
  | bool b => rfl
  | sym s =>
    simp only [isBoolLit, Bool.or_eq_true, beq_iff_eq] at h
    rcases h with rfl | rfl
    · simp [evalOperand, symValue, ht, boolLitValue, ofBool]
    · simp [evalOperand, symValue, hf, boolLitValue, ofBool]
  | _ => simp [isBoolLit] at h

theorem isIntLit_of_isZero {v : IRValue} (h : isZero v = true) : isIntLit v = true := by
  obtain rfl | rfl := eq_of_isZero h
  · rfl
  · decide

theorem isIntLit_of_isOne {v : IRValue} (h : isOne v = true) : isIntLit v = true := by
  obtain rfl | rfl := eq_of_isOne h
  · rfl
  · decide

/-! ## One rewrite -/

theorem foldTo_act {f : IRFunction} {i : IRInstruction} {v : IRValue} {fr : Frame} {w : W} :
    fr.actOf rt f (foldTo i v) w = .step (some (evalOperand rt fr.regs v)) fr.locals w [] :=
  act_copy (.inr rfl)

/-- An operator whose value on the operands is that of `v` may be rewritten to `v`. -/
theorem foldTo_same {f : IRFunction} {i : IRInstruction} {fr : Frame} {w : W} {a b : Val}
    {v : IRValue} (ha : evalOperand rt fr.regs i.operand1 = a)
    (hb : evalOperand rt fr.regs i.operand2 = b)
    (h : operator rt i.opcode i.line a b = some (.ok (evalOperand rt fr.regs v))) :
    fr.actOf rt f i w = fr.actOf rt f (foldTo i v) w := by
  subst ha hb
  rw [foldTo_act, Frame.actOf, act_operator h]

theorem add_zero_word (l : Int) (x : Word) :
    operator rt .add l (.word x) (.word 0) = some (.ok (.word x)) := by
  simp [operator, Val.isStr, arith, Val.isFloat, toWord]

theorem zero_add_word (l : Int) (x : Word) :
    operator rt .add l (.word 0) (.word x) = some (.ok (.word x)) := by
  simp [operator, Val.isStr, arith, Val.isFloat, toWord]

theorem sub_zero_word (l : Int) (x : Word) :
    operator rt .sub l (.word x) (.word 0) = some (.ok (.word x)) := by
  simp [operator, arith, Val.isFloat, toWord]

theorem mul_one_word (l : Int) (x : Word) :
    operator rt .mul l (.word x) (.word 1) = some (.ok (.word x)) := by
  simp [operator, arith, Val.isFloat, toWord]

theorem one_mul_word (l : Int) (x : Word) :
    operator rt .mul l (.word 1) (.word x) = some (.ok (.word x)) := by
  simp [operator, arith, Val.isFloat, toWord]

theorem div_one_word (l : Int) (x : Word) :
    operator rt .div l (.word x) (.word 1) = some (.ok (.word x)) := by
  simp [operator, Val.isFloat, toWord, checkedDiv]

theorem not_bool_word (l : Int) (b : Bool) (v : Val) :
    operator rt .notOp l (.word (if b then 1 else 0)) v = some (.ok (ofBool (!b))) := by
  cases b <;> rfl

/-- What a rewritten instruction becomes. -/
theorem foldInstr_shape {f : IRFunction} {k : Nat} {i i' : IRInstruction}
    (h : foldInstr f k i = some i') :
    i.opcode ∈ [IROpcode.add, .sub, .mul, .div, .neg, .notOp] ∧
      ∃ v, i' = foldTo i v ∧ ((∃ m, v = .int m) ∨ ∃ b, v = .bool b) := by
  simp only [foldInstr] at h
  split at h
  case h_7 => cases h
  all_goals
    rename_i hop
    refine ⟨by simp [hop], ?_⟩
    repeat' split at h
    all_goals cases h
    all_goals exact ⟨_, rfl, by simp [irInt, irBool]⟩

section
variable {f : IRFunction} {k : Nat} {i i' : IRInstruction} (hwf : OperandsOk f)
  (hi : f.instructions[k]? = some i) (hk : i.opcode ≠ .label)
include hwf hi hk

section
variable {o : IRValue} (ho : o ∈ i.operands) (hok : resolveOk f k o = true) {fr : Frame}
  (hr : Reach rt f fr) (hip : fr.ip = k)
include ho hok hr hip

/-- An operand resolved to a literal has its value when control is at `k`. -/
theorem operand_held {w : Word}
    (hl : isIntLit (resolveConstInt f resolveDepth o k) = true ∨
      isBoolLit (resolveConstInt f resolveDepth o k) = true)
    (hw : numeralOk (resolveConstInt f resolveDepth o k) = true → ∀ regs,
      evalOperand rt regs (resolveConstInt f resolveDepth o k) = .word w) :
    evalOperand rt fr.regs o = .word w := by
  have hok : chainOk f resolveDepth o = true ∧
      numeralOk (resolveConstInt f resolveDepth o k) = true := by
    rcases hl with hl | hl <;> simpa [resolveOk, hl] using hok
  refine resolve_held hwf _ o k w hok.1 (fun j hj => ?_) (hwf i (List.mem_of_getElem? hi) o ho)
    (hw hok.2) fr hr hip
  obtain rfl : j = i := Option.some.inj (hj.symm.trans hi)
  exact hk

theorem operand_int (h : isIntLit (resolveConstInt f resolveDepth o k) = true) :
    evalOperand rt fr.regs o = .word (intLitValue (resolveConstInt f resolveDepth o k)) :=
  operand_held hwf hi hk ho hok hr hip (.inl h) (isIntLit_value h)

theorem operand_zero (h : isZero (resolveConstInt f resolveDepth o k) = true) :
    evalOperand rt fr.regs o = .word 0 :=
  operand_held hwf hi hk ho hok hr hip (.inl (isIntLit_of_isZero h)) fun _ => isZero_value h

theorem operand_one (h : isOne (resolveConstInt f resolveDepth o k) = true) :
    evalOperand rt fr.regs o = .word 1 :=
  operand_held hwf hi hk ho hok hr hip (.inl (isIntLit_of_isOne h)) fun _ => isOne_value h

theorem operand_bool (h : isBoolLit (resolveConstInt f resolveDepth o k) = true) :
    evalOperand rt fr.regs o =
      .word (if boolLitValue (resolveConstInt f resolveDepth o k) then 1 else 0) :=
  operand_held hwf hi hk ho hok hr hip (.inr h) fun _ => isBoolLit_value h

end

/-- **A rewritten instruction computes its constant.** -/
theorem fold_act (h : foldInstr f k i = some i') (hok : (foldUses i).all (resolveOk f k) = true)
    {fr : Frame} (hr : Reach rt f fr) (hip : fr.ip = k) (w : W) :
    fr.actOf rt f i w = fr.actOf rt f i' w := by
  have h1 : i.operand1 ∈ i.operands := by simp [IRInstruction.operands]
  have h2 : i.operand2 ∈ i.operands := by simp [IRInstruction.operands]
  simp only [foldInstr] at h
  split at h
  · rename_i hadd
    simp only [foldUses, hadd, List.all_cons, List.all_nil, Bool.and_true, Bool.and_eq_true] at hok
    split at h
    · rename_i hc
      obtain ⟨hz, hl⟩ := Bool.and_eq_true_iff.mp hc
      obtain rfl := Option.some.inj h
      exact foldTo_same (operand_int hwf hi hk h1 hok.1 hr hip hl)
        (operand_zero hwf hi hk h2 hok.2 hr hip hz) (hadd ▸ add_zero_word _ _)
    · split at h
      · rename_i hc
        obtain ⟨hz, hl⟩ := Bool.and_eq_true_iff.mp hc
        obtain rfl := Option.some.inj h
        exact foldTo_same (operand_zero hwf hi hk h1 hok.1 hr hip hz)
          (operand_int hwf hi hk h2 hok.2 hr hip hl) (hadd ▸ zero_add_word _ _)
      · cases h
  · rename_i hsub
    simp only [foldUses, hsub, List.all_cons, List.all_nil, Bool.and_true, Bool.and_eq_true] at hok
    split at h
    · rename_i hc
      obtain ⟨hz, hl⟩ := Bool.and_eq_true_iff.mp hc
      obtain rfl := Option.some.inj h
      exact foldTo_same (operand_int hwf hi hk h1 hok.1 hr hip hl)
        (operand_zero hwf hi hk h2 hok.2 hr hip hz) (hsub ▸ sub_zero_word _ _)
    · cases h
  · rename_i hmul
    simp only [foldUses, hmul, List.all_cons, List.all_nil, Bool.and_true, Bool.and_eq_true] at hok
    split at h
    · rename_i hc
      obtain ⟨hz, hl⟩ := Bool.and_eq_true_iff.mp hc
      obtain rfl := Option.some.inj h
      exact foldTo_same (operand_int hwf hi hk h1 hok.1 hr hip hl)
        (operand_one hwf hi hk h2 hok.2 hr hip hz) (hmul ▸ mul_one_word _ _)
    · split at h
      · rename_i hc
        obtain ⟨hz, hl⟩ := Bool.and_eq_true_iff.mp hc
        obtain rfl := Option.some.inj h
        exact foldTo_same (operand_one hwf hi hk h1 hok.1 hr hip hz)
          (operand_int hwf hi hk h2 hok.2 hr hip hl) (hmul ▸ one_mul_word _ _)
      · cases h
  · rename_i hdiv
    simp only [foldUses, hdiv, List.all_cons, List.all_nil, Bool.and_true, Bool.and_eq_true] at hok
    split at h
    · rename_i hc
      obtain ⟨hz, hl⟩ := Bool.and_eq_true_iff.mp hc
      obtain rfl := Option.some.inj h
      exact foldTo_same (operand_int hwf hi hk h1 hok.1 hr hip hl)
        (operand_one hwf hi hk h2 hok.2 hr hip hz) (hdiv ▸ div_one_word _ _)
    · cases h
  · rename_i hneg
    simp only [foldUses, hneg, List.all_cons, List.all_nil, Bool.and_true] at hok
    split at h
    · rename_i hl
      obtain rfl := Option.some.inj h
      exact foldTo_same (operand_int hwf hi hk h1 hok hr hip hl) rfl (hneg ▸ rfl)
    · cases h
  · rename_i hnot
    simp only [foldUses, hnot, List.all_cons, List.all_nil, Bool.and_true] at hok
    split at h
    · rename_i hl
      have e1 := operand_bool hwf hi hk h1 hok hr hip hl
      split at h <;> rename_i hb <;> obtain rfl := Option.some.inj h <;>
        exact foldTo_same e1 rfl (by rw [hnot, not_bool_word]; simp [hb, evalOperand, irBool])
    · cases h
  · cases h

end

/-- One round of the loop leaves the function or rewrites the instruction at `k`. -/
theorem foldAt_cases (f : IRFunction) (k : Nat) :
    (foldAt f k).1 = f ∨ ∃ i i', f.instructions[k]? = some i ∧ foldInstr f k i = some i' ∧
      (foldAt f k).1 = { f with instructions := f.instructions.set k i' } := by
  simp only [foldAt]
  split
  · rename_i i hi
    split
    · rename_i i' hf; exact .inr ⟨i, i', hi, hf, rfl⟩
    · exact .inl rfl
  · exact .inl rfl

/-- One round of the folding loop keeps behaviour. -/
theorem foldAt_same {f : IRFunction} {k : Nat} (hwf : OperandsOk f) (hok : foldOk f k = true) :
    SameBehaviour rt f (foldAt f k).1 := by
  rcases foldAt_cases f k with h | ⟨i, i', hi, hf, h⟩
  · rw [h]; exact .refl f
  · rw [h]
    simp only [foldOk, hi] at hok
    obtain ⟨hop, v, rfl, -⟩ := foldInstr_shape hf
    have hk : i.opcode ≠ .label := fun h => by simp [h] at hop
    have hk' : (foldTo i v).opcode ≠ .label := by simp [foldTo]
    exact .of_set hi hk hk' rfl fun fr w hr hip => fold_act hwf hi hk hf hok hr hip w

/-- Folding leaves the operands well formed. -/
theorem foldAt_operandsOk {f : IRFunction} {k : Nat} (hwf : OperandsOk f) :
    OperandsOk (foldAt f k).1 := by
  rcases foldAt_cases f k with h | ⟨i, i', hi, hf, h⟩
  · rw [h]; exact hwf
  · rw [h]
    obtain ⟨-, v, rfl, hv⟩ := foldInstr_shape hf
    have hmem := hwf i (List.mem_of_getElem? hi)
    intro j hj o ho
    rcases List.mem_or_eq_of_mem_set hj with hj | rfl
    · exact hwf j hj o ho
    · simp only [foldTo, IRInstruction.operands, List.mem_cons, List.not_mem_nil,
        or_false] at ho hmem
      rcases ho with rfl | rfl | rfl
      · rcases hv with ⟨m, rfl⟩ | ⟨b, rfl⟩ <;> rfl
      · exact hmem _ (.inr (.inl rfl))
      · exact hmem _ (.inr (.inr rfl))

theorem foldLoop_operandsOk {f : IRFunction} (hwf : OperandsOk f) (n : Nat) :
    OperandsOk (foldLoop f n).1 := by
  induction n with
  | zero => exact hwf
  | succ n ih => exact foldAt_operandsOk ih

theorem foldAt_length (f : IRFunction) (k : Nat) :
    (foldAt f k).1.instructions.length = f.instructions.length := by
  rcases foldAt_cases f k with h | ⟨i, i', -, -, h⟩ <;> rw [h]
  simp

theorem foldLoop_length (f : IRFunction) (n : Nat) :
    (foldLoop f n).1.instructions.length = f.instructions.length := by
  induction n with
  | zero => rfl
  | succ n ih => exact (foldAt_length _ n).trans ih

/-- What stands at a position writes the same register after the folding, and reads no other. -/
theorem foldAt_reads (f : IRFunction) (k j : Nat) (i' : IRInstruction)
    (h : (foldAt f k).1.instructions[j]? = some i') :
    ∃ i, f.instructions[j]? = some i ∧ i.dest = i'.dest ∧
      ∀ r, .register r ∈ i'.operands → .register r ∈ i.operands := by
  rcases foldAt_cases f k with he | ⟨i, i2, hi, hf, he⟩
  · rw [he] at h
    exact ⟨i', h, rfl, fun _ hr => hr⟩
  · rw [he, List.getElem?_set] at h
    split at h
    · rename_i hkj
      subst hkj
      obtain ⟨hlt, -⟩ := List.getElem?_eq_some_iff.mp hi
      rw [if_pos hlt] at h
      obtain rfl := Option.some.inj h
      obtain ⟨-, v, rfl, hv⟩ := foldInstr_shape hf
      refine ⟨i, hi, rfl, fun r hr => ?_⟩
      simp only [foldTo, IRInstruction.operands, List.mem_cons, List.not_mem_nil, or_false] at hr ⊢
      rcases hr with hr | hr
      · rcases hv with ⟨m, rfl⟩ | ⟨b, rfl⟩ <;> cases hr
      · exact .inr hr
    · exact ⟨i', h, rfl, fun _ hr => hr⟩

/-- Folding keeps the register that an instruction writes. -/
theorem foldAt_dest (f : IRFunction) (k j : Nat) :
    ((foldAt f k).1.instructions[j]?).map (·.dest) = (f.instructions[j]?).map (·.dest) := by
  cases h : (foldAt f k).1.instructions[j]? with
  | none =>
    rw [List.getElem?_eq_none_iff, foldAt_length] at h
    rw [List.getElem?_eq_none_iff.mpr h]
  | some i' =>
    obtain ⟨i, hi, hdest, -⟩ := foldAt_reads f k j i' h
    rw [hi, Option.map_some, Option.map_some, hdest]

/-- **The folding loop keeps behaviour**, when every rewrite it makes rests on sound chains. -/
theorem foldLoop_same {f : IRFunction} (hwf : OperandsOk f) (n : Nat)
    (hok : ∀ k < n, foldOk (foldLoop f k).1 k = true) : SameBehaviour rt f (foldLoop f n).1 := by
  induction n with
  | zero => exact .refl f
  | succ n ih =>
    exact (ih fun k hk => hok k (by omega)).trans
      (foldAt_same (foldLoop_operandsOk hwf n) (hok n (by omega)))

end

end Opt
