import Mathlib
import Orbit.IR.Simulate
import Orbit.IR.Sem
import Orbit.Opt.Proof.Resolve

/-!
# Sinking keeps behaviour

A motion takes a constant past instructions that neither read nor write its register and that
control enters only from the constant (`move_same`). A register that `sinkBuildQual` lets through
has one definition and one use (`Sinkable`), and a motion only permutes the instructions, so this
stays true from round to round. `sinkOne` codes a motion as one integer, `useIdx * 65536 + defIdx`,
which gives back the two positions only for a definition before position 65536: `SinkOk`.
-/

namespace Opt

open IR

/-- The number of operands of `i` that are register `r`. -/
def useCount (r : Int) (i : IRInstruction) : Nat := i.operands.countP (· == .register r)

/-- The register has one definition, a movable constant, and one use. -/
structure Sinkable (is : List IRInstruction) (r : Int) : Prop where
  nonneg : 0 ≤ r
  defs : is.countP (fun i => i.dest == r) = 1
  uses : (is.map (useCount r)).sum = 1
  movable : ∃ i ∈ is, i.dest = r ∧ i.opcode = .loadConst ∧ isMovableConst i.operand1 = true

theorem Sinkable.perm {is is' : List IRInstruction} {r : Int} (h : Sinkable is r)
    (hp : is.Perm is') : Sinkable is' r where
  nonneg := h.nonneg
  defs := by rw [← hp.countP_eq]; exact h.defs
  uses := by rw [← (hp.map _).sum_nat]; exact h.uses
  movable := by
    obtain ⟨i, hi, hm⟩ := h.movable
    exact ⟨i, hp.mem_iff.mp hi, hm⟩

/-! ## One motion -/

theorem isBarrierOp_of_isJump {op : IROpcode} (h : op.isJump = true) : isBarrierOp op = true := by
  cases op <;> first | rfl | cases h

section
variable {W : Type} {rt : Runtime W}

/-- Frames before and after a motion from position `a` over `m` instructions: equal outside, and
inside the function before it is one instruction ahead and has written `v` to `r` already. -/
inductive SinkRel (a m : Nat) (r : Int) (v : Val) : Frame → Frame → Prop
  | outside {ip : Nat} {regs : Int → Val} {l : Locals} {c c' : Nat → Nat} :
      ip ≤ a ∨ a + 1 + m ≤ ip → SinkRel a m r v ⟨ip, regs, l, c⟩ ⟨ip, regs, l, c'⟩
  | inside {j : Nat} {regs regs' : Int → Val} {l : Locals} {c c' : Nat → Nat} : j ≤ m →
      (∀ n, n ≠ r → regs n = regs' n) → regs r = v →
      SinkRel a m r v ⟨a + 1 + j, regs, l, c⟩ ⟨a + j, regs', l, c'⟩

/-- The alone steps: into the region on the left, out of it on the right. -/
def sinkMeasure (a m : Nat) (fr fr' : Frame) : Nat :=
  if fr.ip = a ∧ fr'.ip = a then 2 else if fr.ip = a + 1 + m ∧ fr'.ip = a + m then 1 else 0

theorem useCount_zero {r : Int} {i : IRInstruction} (h : useCount r i = 0) {o : IRValue}
    (ho : o ∈ i.operands) : o ≠ .register r := by
  rintro rfl
  have := List.countP_eq_zero.mp h _ ho
  simp at this

variable (rt) in
theorem evalOperand_congr {regs regs' : Int → Val} {r : Int} {o : IRValue}
    (h : ∀ n, n ≠ r → regs n = regs' n) (ho : o ≠ .register r) :
    evalOperand rt regs o = evalOperand rt regs' o := by
  cases o with
  | register n =>
    have hn : n ≠ r := fun hn => ho (by rw [hn])
    simp only [evalOperand, readReg, h n hn]
  | _ => rfl

theorem writeReg_congr {f : IRFunction} {regs regs' : Int → Val} {r d : Int} {v : Option Val}
    (h : ∀ n, n ≠ r → regs n = regs' n) (n : Int) (hn : n ≠ r) :
    writeReg rt f d v regs n = writeReg rt f d v regs' n := by
  cases v with
  | none => exact h n hn
  | some v =>
    simp only [writeReg]
    split
    · exact h n hn
    · by_cases hd : n = d
      · subst hd; simp
      · rw [update_other hd, update_other hd, h n hn]

theorem movable_value {o : IRValue} (h : isMovableConst o = true) (regs regs' : Int → Val) :
    evalOperand rt regs o = evalOperand rt regs' o := by
  cases o <;> first | rfl | simp [isMovableConst] at h

section
variable {A M B : List IRInstruction} {D : IRInstruction}

theorem before_at_def : (A ++ D :: (M ++ B))[A.length]? = some D := by simp

theorem after_at_def : (A ++ (M ++ D :: B))[A.length + M.length]? = some D := by simp

theorem before_inside {j : Nat} (h : j < M.length) :
    (A ++ D :: (M ++ B))[A.length + 1 + j]? = M[j]? := by
  rw [List.getElem?_append_right (by omega), show A.length + 1 + j - A.length = j + 1 by omega]
  simp [List.getElem?_append, h]

theorem after_inside {j : Nat} (h : j < M.length) :
    (A ++ (M ++ D :: B))[A.length + j]? = M[j]? := by
  simp [List.getElem?_append, h]

theorem outside_same {k : Nat} (h : k < A.length ∨ A.length + 1 + M.length ≤ k) :
    (A ++ (M ++ D :: B))[k]? = (A ++ D :: (M ++ B))[k]? := by
  rcases h with h | h
  · simp [List.getElem?_append, h]
  · obtain ⟨b, rfl⟩ : ∃ b, k = A.length + (M.length + (b + 1)) :=
      ⟨k - (A.length + 1 + M.length), by omega⟩
    rw [List.getElem?_append_right (by omega), List.getElem?_append_right (by omega),
      List.getElem?_append_right (by omega), Nat.add_sub_cancel_left, Nat.add_sub_cancel_left,
      List.getElem?_cons_succ, show M.length + (b + 1) = M.length + b + 1 by omega,
      List.getElem?_cons_succ, List.getElem?_append_right (by omega), Nat.add_sub_cancel_left]

/-- Neither the constant nor what it moves over is a label, so no label moves. -/
theorem findLabel_move (hD : D.opcode ≠ .label) (hM : ∀ i ∈ M, i.opcode ≠ .label) (n : Int) :
    findLabel (A ++ (M ++ D :: B)) n = findLabel (A ++ D :: (M ++ B)) n := by
  have hnone : M.findIdx? (fun i => i.opcode = .label && labelNumber i.operand1 == some n) = none := by
    rw [List.findIdx?_eq_none_iff]
    intro i hi
    simp [hM i hi]
  simp only [findLabel, List.findIdx?_append, List.findIdx?_cons, hnone]
  simp [hD, Function.comp_def, Nat.add_assoc, Nat.add_comm, Nat.add_left_comm]

/-- A label stands outside the region of the motion. -/
theorem label_outside (hD : D.opcode ≠ .label) (hM : ∀ i ∈ M, i.opcode ≠ .label) {n : Int} {k : Nat}
    (h : findLabel (A ++ D :: (M ++ B)) n = some k) : k < A.length ∨ A.length + 1 + M.length ≤ k := by
  obtain ⟨i, hi, hop⟩ := findLabel_spec h
  by_contra hk
  rcases Nat.eq_or_lt_of_le (show A.length ≤ k by omega) with rfl | hlt
  · rw [before_at_def] at hi
    exact hD (Option.some.inj hi ▸ hop)
  · obtain ⟨j, rfl⟩ : ∃ j, k = A.length + 1 + j := ⟨k - (A.length + 1), by omega⟩
    rw [before_inside (by omega)] at hi
    exact hM i (List.mem_of_getElem? hi) hop

end

/-- The step over the constant itself. -/
theorem lstep_const {f : IRFunction} {fr : Frame} {D : IRInstruction} {w : W}
    (h : f.instructions[fr.ip]? = some D) (hD : D.opcode = .loadConst) (hr : 0 ≤ D.dest) :
    lstep rt f fr w = .next ⟨fr.ip + 1, update fr.regs D.dest
      (convTo rt (registerType f D.dest) (evalOperand rt fr.regs D.operand1)), fr.locals,
      fr.calls⟩ w [] := by
  rw [lstep_at h, act_copy (.inr hD)]
  simp [Frame.apply, writeReg, Int.not_lt.mpr hr]

/-- **A motion keeps behaviour.** The constant `D` moves from before `M` to after it; nothing in
`M` is a label or a jump, or reads or writes the register of `D`. -/
theorem move_same {f : IRFunction} {A M B : List IRInstruction} {D : IRInstruction}
    (hf : f.instructions = A ++ D :: (M ++ B)) (hD : D.opcode = .loadConst) (hr : 0 ≤ D.dest)
    (hmov : isMovableConst D.operand1 = true)
    (hM : ∀ i ∈ M, isBarrierOp i.opcode = false ∧ i.dest ≠ D.dest ∧ useCount D.dest i = 0) :
    SameBehaviour rt f { f with instructions := A ++ (M ++ D :: B) } := by
  have hDl : D.opcode ≠ .label := by simp [hD]
  have hMl : ∀ i ∈ M, i.opcode ≠ .label := fun i hi h => by
    have := (hM i hi).1
    simp [h, isBarrierOp] at this
  let v := convTo rt (registerType f D.dest) (evalOperand rt (fun _ => .word 0) D.operand1)
  have hv : ∀ regs, convTo rt (registerType f D.dest) (evalOperand rt regs D.operand1) = v :=
    fun regs => by rw [movable_value hmov regs fun _ => .word 0]
  refine .of_frames (R := SinkRel A.length M.length D.dest v)
    (d := sinkMeasure A.length M.length) ?_ (fun fr hip => ?_)
  · rintro _ _ w (@⟨ip, regs, l, c, c', hip⟩ | @⟨j, regs, regs', l, c, c', hj, hregs, hreg⟩)
    · by_cases hA : ip = A.length
      · -- before the motion the constant is executed here
        subst hA
        refine .left (lstep_const (by rw [hf]; exact before_at_def) hD hr) ?_ ?_
        · refine .inside (j := 0) (Nat.zero_le _) (fun n hn => update_other hn) ?_
          rw [update_same, hv]
        · simp only [sinkMeasure, and_self, if_true]
          split
          · omega
          · split <;> omega
      · have hout : ip < A.length ∨ A.length + 1 + M.length ≤ ip := by omega
        have hsame := outside_same (D := D) (B := B) hout
        rw [← hf] at hsame
        refine .both ?_
        cases hi : f.instructions[ip]? with
        | none =>
          simp only [lstep, hi, hsame]
          exact .ret _
        | some i =>
          rw [lstep_at hi, lstep_at (hsame.trans hi)]
          refine LResRel.apply (.refl (fun _ => rfl) _) hi (hsame.trans hi) rfl rfl
            (fun v l l' c c' _ hl _ => hl ▸ .outside ?_) fun n _ =>
              ⟨by rw [hf]; exact findLabel_move hDl hMl n, fun k hk => .outside ?_⟩
          · simp only; omega
          · rw [hf] at hk
            have := label_outside hDl hMl hk
            omega
    · by_cases hjm : j = M.length
      · -- after the motion it is executed here
        subst hjm
        refine .right (lstep_const after_at_def hD hr) ?_ ?_
        · have heq : update regs' D.dest
              (convTo rt (registerType f D.dest) (evalOperand rt regs' D.operand1)) = regs := by
            funext n
            by_cases hn : n = D.dest
            · rw [hn, update_same, hv, hreg]
            · rw [update_other hn, hregs n hn]
          have hip : A.length + M.length + 1 = A.length + 1 + M.length := by omega
          rw [show registerType { f with instructions := A ++ (M ++ D :: B) } D.dest =
            registerType f D.dest from rfl]
          simp only [heq, hip]
          exact .outside (.inr (Nat.le_refl _))
        · simp only [sinkMeasure]
          rw [if_neg (by omega), if_neg (by omega), if_neg (by omega), if_pos (by simp)]
          omega
      · have hlt : j < M.length := by omega
        have hi := List.getElem?_eq_getElem hlt
        obtain ⟨hbar, hdest, huse⟩ := hM M[j] (List.getElem_mem hlt)
        have hif := (before_inside (A := A) (D := D) (B := B) hlt).trans hi
        have hig := (after_inside (A := A) (D := D) (B := B) hlt).trans hi
        rw [← hf] at hif
        have hact : Frame.actOf rt f M[j] ⟨A.length + j, regs', l, c'⟩ w =
            Frame.actOf rt f M[j] ⟨A.length + 1 + j, regs, l, c⟩ w := by
          have ho := fun o ho => evalOperand_congr rt hregs (useCount_zero huse (o := o) ho)
          simp only [Frame.actOf]
          rw [ho M[j].operand1 (by simp [IRInstruction.operands]),
            ho M[j].operand2 (by simp [IRInstruction.operands]),
            ho M[j].operand3 (by simp [IRInstruction.operands])]
        refine .both ?_
        rw [lstep_at hif, lstep_at (f := { f with instructions := A ++ (M ++ D :: B) }) hig]
        rw [show Frame.actOf rt { f with instructions := A ++ (M ++ D :: B) } M[j]
          ⟨A.length + j, regs', l, c'⟩ w = _ from hact]
        refine LResRel.apply (.refl (fun _ => rfl) _) hif hig rfl rfl
          (fun v' l l' c c' _ hl _ => hl ▸ ?_) fun n hn => ?_
        · refine .inside (j := j + 1) (by omega) (writeReg_congr hregs) ?_
          rw [writeReg_other (Ne.symm hdest)]
          exact hreg
        · rw [isBarrierOp_of_isJump (act_goto hn)] at hbar
          cases hbar
  · obtain ⟨ip, regs, l, c⟩ := fr
    obtain rfl : ip = 0 := hip
    exact .outside (.inl (Nat.zero_le _))

end

end Opt
