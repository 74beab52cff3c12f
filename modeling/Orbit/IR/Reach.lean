import Orbit.IR.Sem

/-!
# What one instruction can do to a frame

`FrameStep.cases` says it once: control goes to the next instruction, with the destination written
and the named variable stored, or to a label, with nothing else changed. `Reach` collects the
frames a run of a function can pass, whatever the world does and whatever its calls answer.
-/

namespace IR

open Lib (Step)

section
variable {W : Type} {rt : Runtime W}

@[simp] theorem update_same {α β : Type} [DecidableEq α] (g : α → β) (a : α) (b : β) :
    update g a b a = b := by simp [update]

@[simp] theorem update_other {α β : Type} [DecidableEq α] {g : α → β} {a x : α} {b : β}
    (h : x ≠ a) : update g a b x = g x := by simp [update, h]

theorem writeReg_other {f : IRFunction} {d r : Int} {v : Option Val} {regs : Int → Val}
    (h : r ≠ d) : writeReg rt f d v regs r = regs r := by
  unfold writeReg
  split
  · split
    · rfl
    · exact update_other h
  · rfl

theorem writeReg_same {f : IRFunction} {d : Int} {v : Val} {regs : Int → Val} (h : 0 ≤ d) :
    writeReg rt f d (some v) regs d = convTo rt (registerType f d) v := by
  simp [writeReg, Int.not_lt.mpr h]

@[simp] theorem toWord_word (w : Word) : toWord rt (.word w) = w := rfl

/-- A word goes unchanged into a register that is not a float. -/
theorem convTo_word {t : String} (h : isFloatType t = false) (w : Word) :
    convTo rt t (.word w) = .word w := by
  simp only [convTo, h]
  split
  · contradiction
  · split <;> rfl

/-! ## Instructions -/

def IROpcode.isStore : IROpcode → Bool
  | .storeVar | .declVar => true
  | _ => false

def IROpcode.isJump : IROpcode → Bool
  | .jump | .jumpIfFalse => true
  | _ => false

/-- The label a jump names. -/
def IRInstruction.jumpTarget (i : IRInstruction) : Option Int :=
  match i.opcode with
  | .jump => labelNumber i.operand1
  | .jumpIfFalse => labelNumber i.operand2
  | _ => none

/-- An operator writes its value, or stops the program. -/
theorem act_of_operator {f : IRFunction} {i : IRInstruction} {a b c : Val} {l : Locals} {w : W}
    {r : Except Trap Val} : operator rt i.opcode i.line a b = some r → act rt f i a b c l w =
      match r with
      | .ok v => .step (some v) l w []
      | .error t => .trap t := by
  intro h
  unfold act
  split <;> rename_i hop <;> try (rw [hop] at h; cases h)
  rw [h]
  cases r <;> rfl

/-- An operator with a value writes it. -/
theorem act_operator {f : IRFunction} {i : IRInstruction} {a b c v : Val} {l : Locals} {w : W}
    (h : operator rt i.opcode i.line a b = some (.ok v)) :
    act rt f i a b c l w = .step (some v) l w [] := act_of_operator h

/-- An operator without a value stops the program. -/
theorem act_operator_trap {f : IRFunction} {i : IRInstruction} {a b c : Val} {t : Trap} {l : Locals}
    {w : W} (h : operator rt i.opcode i.line a b = some (.error t)) :
    act rt f i a b c l w = .trap t := act_of_operator h

/-- What an instruction may do: only a store changes a variable, only a jump leaves the order of the
instructions, and it goes to the label it names. -/
def Act.Allowed (i : IRInstruction) (b : Val) (l : Locals) : Act W → Prop
  | .step _ l' _ _ =>
    l'.vars = if i.opcode.isStore then update l.vars i.operand1.nameText b else l.vars
  | .goto n => i.opcode.isJump = true ∧ i.jumpTarget = some n
  | .call _ _ l' => i.opcode = .call ∧ l'.vars = l.vars
  | .ret _ | .trap _ => True

theorem accessAct_allowed {i : IRInstruction} {b : Val} {args : List Val} {l : Locals} {w : W}
    (hop : i.opcode.isStore = false) : (accessAct rt i args l w).Allowed i b l := by
  have hvars : l.vars = if i.opcode.isStore then update l.vars i.operand1.nameText b else l.vars := by
    rw [if_neg (by simp [hop])]
  unfold accessAct
  split
  · exact hvars
  · split
    · exact hvars
    · trivial
  · exact hvars
  · split
    · exact hvars
    · trivial

theorem argAct_allowed {f : IRFunction} {i : IRInstruction} {a b : Val} {l : Locals} {w : W}
    (hop : i.opcode.isStore = false) : (argAct f i a l w).Allowed i b l := by
  have hvars : l.vars = if i.opcode.isStore then update l.vars i.operand1.nameText b else l.vars := by
    rw [if_neg (by simp [hop])]
  unfold argAct
  split
  · exact hvars
  · dsimp only
    split <;> exact hvars

variable (rt) in
theorem act_allowed (f : IRFunction) (i : IRInstruction) (a b c : Val) (l : Locals) (w : W) :
    (act rt f i a b c l w).Allowed i b l := by
  unfold act
  split <;> rename_i hop <;> try exact (if_neg (by simp [hop, IROpcode.isStore])).symm
  · split <;> exact (if_neg (by simp [hop, IROpcode.isStore])).symm
  · exact (if_pos (by simp [hop, IROpcode.isStore])).symm
  · exact (if_pos (by simp [hop, IROpcode.isStore])).symm
  · exact argAct_allowed (by simp [hop, IROpcode.isStore])
  · exact ⟨hop, rfl⟩
  · trivial
  · split
    · next n hn => exact ⟨by simp [hop, IROpcode.isJump], by simp [IRInstruction.jumpTarget, hop, hn]⟩
    · exact (if_neg (by simp [hop, IROpcode.isStore])).symm
  · split
    · exact (if_neg (by simp [hop, IROpcode.isStore])).symm
    · split
      · next n hn =>
        exact ⟨by simp [hop, IROpcode.isJump], by simp [IRInstruction.jumpTarget, hop, hn]⟩
      · exact (if_neg (by simp [hop, IROpcode.isStore])).symm
  · have hstore : i.opcode.isStore = false := by
      cases hop' : i.opcode <;> simp_all [IROpcode.isStore]
    split
    · exact (if_neg (by simp [hstore])).symm
    · trivial
    · exact accessAct_allowed hstore

/-- Only a store changes a variable. -/
theorem act_step_vars {f : IRFunction} {i : IRInstruction} {a b c : Val} {l l' : Locals} {w w' : W}
    {v : Option Val} {evs : List Event} (h : act rt f i a b c l w = .step v l' w' evs) :
    l'.vars = if i.opcode.isStore then update l.vars i.operand1.nameText b else l.vars := by
  have hallowed := act_allowed rt f i a b c l w
  rwa [h] at hallowed

/-- Only a jump leaves the order of the instructions. -/
theorem act_goto {f : IRFunction} {i : IRInstruction} {a b c : Val} {l : Locals} {w : W} {n : Int}
    (h : act rt f i a b c l w = .goto n) : i.opcode.isJump = true := by
  have hallowed := act_allowed rt f i a b c l w
  rw [h] at hallowed
  exact hallowed.1

/-- A jump goes to the label it names. -/
theorem act_goto_target {f : IRFunction} {i : IRInstruction} {a b c : Val} {l : Locals} {w : W}
    {n : Int} (h : act rt f i a b c l w = .goto n) : i.jumpTarget = some n := by
  have hallowed := act_allowed rt f i a b c l w
  rw [h] at hallowed
  exact hallowed.2

theorem act_call {f : IRFunction} {i : IRInstruction} {a b c : Val} {l l' : Locals} {w : W}
    {callee : Callee} {args : List Val} (h : act rt f i a b c l w = .call callee args l') :
    i.opcode = .call ∧ l'.vars = l.vars := by
  have hallowed := act_allowed rt f i a b c l w
  rwa [h] at hallowed

/-! ## Frames -/

/-- The act of the instruction `i` in frame `fr`. -/
def Frame.actOf (rt : Runtime W) (f : IRFunction) (i : IRInstruction) (fr : Frame) (w : W) : Act W :=
  act rt f i (evalOperand rt fr.regs i.operand1) (evalOperand rt fr.regs i.operand2)
    (evalOperand rt fr.regs i.operand3) fr.locals w

theorem lstep_at {f : IRFunction} {i : IRInstruction} {fr : Frame} {w : W}
    (h : f.instructions[fr.ip]? = some i) :
    lstep rt f fr w = fr.apply rt f i w (fr.actOf rt f i w) := by
  simp only [lstep, h, Frame.operandValues, Frame.actOf]

theorem act_copy {f : IRFunction} {i : IRInstruction} {fr : Frame} {w : W}
    (h : i.opcode = .copy ∨ i.opcode = .loadConst) :
    fr.actOf rt f i w = .step (some (evalOperand rt fr.regs i.operand1)) fr.locals w [] := by
  rcases h with h | h <;> simp [Frame.actOf, act, h, operator]

theorem act_loadVar {f : IRFunction} {i : IRInstruction} {fr : Frame} {w : W} (h : i.opcode = .loadVar)
    (hn : i.operand1.nameText ≠ "") :
    fr.actOf rt f i w = .step (some (fr.locals.vars i.operand1.nameText)) fr.locals w [] := by
  cases ho : i.operand1 <;> simp_all [Frame.actOf, act, IRValue.nameText]

/-- The frame executes one instruction; a call may answer anything. -/
inductive FrameStep (rt : Runtime W) (f : IRFunction) (fr : Frame) : Frame → Prop
  | next {w w' : W} {fr' : Frame} {evs : List Event} :
      lstep rt f fr w = .next fr' w' evs → FrameStep rt f fr fr'
  | call {w : W} {callee : Callee} {args : List Val} {fr' : Frame} (v : Val) :
      lstep rt f fr w = .call callee args fr' → FrameStep rt f fr (fr'.resume rt f v)

/-- The frames a run of `f` can pass. -/
inductive Reach (rt : Runtime W) (f : IRFunction) : Frame → Prop
  | entry {fr : Frame} : fr.ip = 0 → Reach rt f fr
  | step {fr fr' : Frame} : Reach rt f fr → FrameStep rt f fr fr' → Reach rt f fr'

/-- Control falls through instruction `i`: what becomes of registers and variables. -/
structure FallsThrough (rt : Runtime W) (f : IRFunction) (i : IRInstruction) (fr fr' : Frame) :
    Prop where
  ip : fr'.ip = fr.ip + 1
  regs : ∃ v, fr'.regs = writeReg rt f i.dest v fr.regs ∧
    (i.opcode ≠ .call → ∃ w l w' evs, fr.actOf rt f i w = .step v l w' evs)
  vars : fr'.locals.vars =
    if i.opcode.isStore then
      update fr.locals.vars i.operand1.nameText (evalOperand rt fr.regs i.operand2)
    else fr.locals.vars

/-- **What one instruction can do.** -/
theorem FrameStep.cases {f : IRFunction} {fr fr' : Frame} (h : FrameStep rt f fr fr') :
    ∃ i, f.instructions[fr.ip]? = some i ∧
      (FallsThrough rt f i fr fr' ∨
        fr'.regs = fr.regs ∧ fr'.locals = fr.locals ∧
          ∃ n, i.jumpTarget = some n ∧ findLabel f.instructions n = some fr'.ip) := by
  cases hi : f.instructions[fr.ip]? with
  | none =>
    cases h with
    | next h => simp [lstep, hi] at h
    | call v h => simp [lstep, hi] at h
  | some i =>
    refine ⟨i, rfl, ?_⟩
    cases h with
    | @next w w' fr' evs h =>
      rw [lstep_at hi] at h
      cases ha : fr.actOf rt f i w with
      | step v l w'' evs' =>
        rw [ha] at h
        simp only [Frame.apply, LRes.next.injEq] at h
        obtain ⟨rfl, rfl, rfl⟩ := h
        exact .inl ⟨rfl, ⟨v, rfl, fun _ => ⟨w, l, w'', evs', ha⟩⟩, act_step_vars ha⟩
      | goto n =>
        rw [ha] at h
        simp only [Frame.apply] at h
        split at h
        · rename_i k hk
          simp only [LRes.next.injEq] at h
          obtain ⟨rfl, -, -⟩ := h
          exact .inr ⟨rfl, rfl, n, act_goto_target ha, hk⟩
        · cases h
      | call callee args l => rw [ha] at h; cases h
      | ret v => rw [ha] at h; cases v <;> cases h
      | trap t => rw [ha] at h; cases h
    | @call w callee args fr1 v h =>
      rw [lstep_at hi] at h
      cases ha : fr.actOf rt f i w with
      | call callee' args' l =>
        rw [ha] at h
        simp only [Frame.apply, LRes.call.injEq] at h
        obtain ⟨-, -, rfl⟩ := h
        obtain ⟨hop, hvars⟩ := act_call ha
        refine .inl ⟨rfl, ⟨some v, by simp [Frame.resume, hi], fun hne => absurd hop hne⟩, ?_⟩
        rw [hop]
        exact hvars
      | step v l w' evs => rw [ha] at h; cases h
      | goto n =>
        rw [ha] at h
        simp only [Frame.apply] at h
        split at h <;> cases h
      | ret v => rw [ha] at h; cases v <;> cases h
      | trap t => rw [ha] at h; cases h

/-- Where a label is, there is a `label` instruction. -/
theorem findLabel_spec {is : List IRInstruction} {n : Int} {k : Nat} (h : findLabel is n = some k) :
    ∃ i, is[k]? = some i ∧ i.opcode = .label := by
  obtain ⟨hk, hp, -⟩ := List.findIdx?_eq_some_iff_getElem.mp h
  refine ⟨is[k], List.getElem?_eq_getElem hk, ?_⟩
  simp only [Bool.and_eq_true, decide_eq_true_eq] at hp
  exact hp.1

/-- Control falls through neither a return nor an unconditional jump. -/
def IRInstruction.flowsOn (i : IRInstruction) : Bool :=
  i.opcode != .ret && !(i.opcode == .jump && i.jumpTarget.isSome)

theorem FallsThrough.flowsOn {f : IRFunction} {i : IRInstruction} {fr fr' : Frame}
    (h : FallsThrough rt f i fr fr') : i.flowsOn = true := by
  obtain ⟨v, -, hact⟩ := h.regs
  simp only [IRInstruction.flowsOn, Bool.and_eq_true, bne_iff_ne, Bool.not_eq_true',
    Bool.and_eq_false_iff, beq_eq_false_iff_ne]
  constructor
  · intro hop
    obtain ⟨w, l, w', evs, ha⟩ := hact (by simp [hop])
    simp [Frame.actOf, act, hop] at ha
  · by_cases hop : i.opcode = .jump
    · refine .inr ?_
      obtain ⟨w, l, w', evs, ha⟩ := hact (by simp [hop])
      simp only [Frame.actOf, act, hop] at ha
      split at ha
      · cases ha
      · rename_i hn
        simp only [IRInstruction.jumpTarget, hop, hn, Option.isSome_none]
    · exact .inl hop

/-- Control reaches a position that is no label only from the one before it. -/
theorem FrameStep.falls {f : IRFunction} {fr fr' : Frame} (h : FrameStep rt f fr fr')
    (hl : ∀ i, f.instructions[fr'.ip]? = some i → i.opcode ≠ .label) :
    ∃ i, f.instructions[fr.ip]? = some i ∧ FallsThrough rt f i fr fr' := by
  obtain ⟨i, hi, hf | ⟨-, -, n, -, hn⟩⟩ := h.cases
  · exact ⟨i, hi, hf⟩
  · obtain ⟨j, hj, hop⟩ := findLabel_spec hn
    exact absurd hop (hl j hj)

/-- Runs of the function machine stay inside `Reach`. -/
theorem Reach.fstep {f : IRFunction} {fr fr' : Frame} {w w' : W} {tr tr' : List Event}
    (hr : Reach rt f fr) (h : fstep rt f (.run fr w tr) = .next (.run fr' w' tr')) :
    Reach rt f fr' := by
  simp only [IR.fstep] at h
  cases hl : lstep rt f fr w with
  | next fr1 w1 evs => rw [hl] at h; cases h; exact .step hr (.next hl)
  | call callee args fr1 =>
    rw [hl] at h
    simp only at h
    cases hc : rt.call callee args w with
    | ret v w1 => rw [hc] at h; cases h; exact .step hr (.call v hl)
    | fail e => rw [hc] at h; cases h
    | hang => rw [hc] at h; cases h
  | ret v => rw [hl] at h; cases h
  | trap t => rw [hl] at h; cases h
  | stuck => rw [hl] at h; cases h

/-- Two functions behave alike when their frames step alike wherever the first can be. -/
theorem SameBehaviour.of_lstep_eq {f g : IRFunction}
    (h : ∀ fr w, Reach rt f fr → lstep rt f fr w = lstep rt g fr w)
    (hres : ∀ fr v, Frame.resume rt f fr v = Frame.resume rt g fr v) : SameBehaviour rt f g := by
  intro fr w hip
  let R : FState W → FState W → Prop :=
    fun s s' => s = s' ∧ ∀ fr w tr, s = .run fr w tr → Reach rt f fr
  refine Lib.ObsEq.of_lockstep (R := R) ?_ (by rintro s s' ⟨rfl, -⟩; rfl)
    ⟨rfl, fun fr w tr hs => by cases hs; exact .entry hip⟩
  rintro s _ ⟨rfl, hr⟩
  have hstep : fstep rt f s = fstep rt g s := by
    cases s with
    | run fr w tr => simp only [fstep, h fr w (hr fr w tr rfl), hres]
    | hung tr => rfl
  cases hs : fstep rt f s with
  | halt o => exact .inr ⟨o, rfl, hstep ▸ hs⟩
  | next t =>
    refine .inl ⟨t, t, rfl, hstep ▸ hs, rfl, ?_⟩
    rintro fr' w' tr' rfl
    cases s with
    | run fr w tr => exact (hr fr w tr rfl).fstep hs
    | hung tr => cases hs

theorem SameBehaviour.refl (f : IRFunction) : SameBehaviour rt f f :=
  fun _ _ _ => Lib.ObsEq.refl _ _ _

theorem SameBehaviour.trans {f g h : IRFunction} (hfg : SameBehaviour rt f g)
    (hgh : SameBehaviour rt g h) : SameBehaviour rt f h :=
  fun fr w hip => (hfg fr w hip).trans (hgh fr w hip)

/-- Replacing an instruction that is no label by one that is no label moves no label. -/
theorem findLabel_set {is : List IRInstruction} {k : Nat} {i i' : IRInstruction} {n : Int}
    (hi : is[k]? = some i) (h : i.opcode ≠ .label) (h' : i'.opcode ≠ .label) :
    findLabel (is.set k i') n = findLabel is n := by
  induction is generalizing k with
  | nil => rfl
  | cons j is ih =>
    cases k with
    | zero =>
      obtain rfl : j = i := by simpa using hi
      simp [findLabel, List.findIdx?_cons, h, h']
    | succ k =>
      have ih := ih (k := k) (by simpa using hi)
      simp only [findLabel] at ih ⊢
      simp [List.set_cons_succ, List.findIdx?_cons, ih]

theorem apply_withInstructions {f : IRFunction} {is : List IRInstruction} {i i' : IRInstruction}
    {fr : Frame} {w : W} (hd : i'.dest = i.dest)
    (hl : ∀ n, findLabel is n = findLabel f.instructions n) (a : Act W) :
    fr.apply rt { f with instructions := is } i' w a = fr.apply rt f i w a := by
  cases a with
  | step v l w' evs => simp only [Frame.apply, hd]; rfl
  | goto n => simp only [Frame.apply, hl]
  | call callee args l => rfl
  | ret v => cases v <;> rfl
  | trap t => rfl

/-- One instruction may be replaced by another that acts alike wherever control reaches it. -/
theorem SameBehaviour.of_set {f : IRFunction} {k : Nat} {i i' : IRInstruction}
    (hi : f.instructions[k]? = some i) (h : i.opcode ≠ .label) (h' : i'.opcode ≠ .label)
    (hd : i'.dest = i.dest)
    (hact : ∀ fr w, Reach rt f fr → fr.ip = k → fr.actOf rt f i w = fr.actOf rt f i' w) :
    SameBehaviour rt f { f with instructions := f.instructions.set k i' } := by
  have hlab : ∀ n, findLabel (f.instructions.set k i') n = findLabel f.instructions n :=
    fun n => findLabel_set hi h h'
  have hself : (f.instructions.set k i')[k]? = some i' :=
    List.getElem?_set_self (List.getElem?_eq_some_iff.mp hi).1
  refine .of_lstep_eq (fun fr w hr => ?_) (fun fr v => ?_)
  · by_cases hip : fr.ip = k
    · subst hip
      rw [lstep_at hi, hact fr w hr rfl,
        lstep_at (f := { f with instructions := f.instructions.set fr.ip i' }) hself]
      exact (apply_withInstructions hd hlab _).symm
    · have hne : (f.instructions.set k i')[fr.ip]? = f.instructions[fr.ip]? :=
        List.getElem?_set_ne (Ne.symm hip)
      cases hj : f.instructions[fr.ip]? with
      | none => simp only [lstep, hne, hj]; rfl
      | some j =>
        rw [lstep_at hj,
          lstep_at (f := { f with instructions := f.instructions.set k i' }) (hne.trans hj)]
        exact (apply_withInstructions rfl hlab _).symm
  · simp only [Frame.resume]
    by_cases hip : fr.ip = k
    · subst hip
      simp only [hself, hi, hd]; rfl
    · rw [List.getElem?_set_ne (Ne.symm hip)]; rfl

end

end IR
