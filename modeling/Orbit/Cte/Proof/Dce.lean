import Orbit.Cte.Cteval
import Orbit.IR.Simulate

/-!
# Dead code

`dceFunction` removes an instruction whose destination no instruction reads and whose opcode
`hasSideEffects` does not list. The list misses opcodes: a division or remainder can stop the
program, so can reading a list, and a declaration or a jump that carries a destination does
something besides writing it. `removalSafe` is the exact condition: under it removing an instruction
cannot be noticed (`harmless_iff`), and without it some run notices.
-/

namespace Cte

open IR

/-- `i` reads register `r`. -/
def Reads (i : IRInstruction) (r : Int) : Prop :=
  isNopOrControl i.opcode = false ∧ .register r ∈ i.operands

/-- The act goes on to the next instruction and does nothing but write the destination of `i`. -/
def Unnoticed {W : Type} (i : IRInstruction) (l : Locals) (w : W) (a : Act W) : Prop :=
  ∃ v l', a = .step v l' w [] ∧ l'.vars = l.vars ∧ l'.pending = l.pending ∧ l'.path = l.path ∧
    ∀ d, d ≠ i.dest → l'.allocs d = l.allocs d

/-- Executing `i` can neither stop the program nor do anything but write its destination. -/
def Harmless (f : IRFunction) (i : IRInstruction) : Prop :=
  ∀ (W : Type) (rt : Runtime W) (fr : Frame) (w : W),
    Unnoticed i fr.locals w (fr.actOf rt f i w)

def symWord (s : String) : Option Word :=
  match cIntLiteral s with
  | some w => some w
  | none => if s = "true" then some 1 else if s = "false" then some 0 else none

/-- The word an operand stands for in every frame. -/
def constWord : IRValue → Option Word
  | .int w => some w
  | .bool b => some (boolWord b)
  | .sym s => symWord s
  | .register n => if n < 0 then some 0 else none
  | .label n => some (BitVec.ofInt 64 n)
  | .none => some 0
  | _ => none

def isFloatConst : IRValue → Bool
  | .float _ => true
  | _ => false

/-- The division of `a` by `b` stops the program in no frame. -/
def cannotStop (a b : IRValue) : Bool :=
  match constWord b with
  | none => false
  | some d =>
    d != 0 && (d != -1 ||
      match constWord a with
      | some n => n != BitVec.intMin 64
      | none => false)

def alwaysTrue : IRValue → Bool
  | .string _ => true
  | o =>
    match constWord o with
    | some w => w != 0
    | none => false

/-- The instructions that may be removed, of those whose opcode `hasSideEffects` does not list. -/
def removalSafe (i : IRInstruction) : Bool :=
  match i.opcode with
  | .div => isFloatConst i.operand1 || isFloatConst i.operand2 || cannotStop i.operand1 i.operand2
  | .mod => cannotStop i.operand1 i.operand2
  | .listGet | .declVar => false
  | .jump => (labelNumber i.operand1).isNone
  | .jumpIfFalse => (labelNumber i.operand2).isNone || alwaysTrue i.operand1
  | _ => true

section
variable {W : Type} {rt : Runtime W}

theorem symWord_value {s : String} {w : Word} (h : symWord s = some w) :
    symValue rt s = .word w := by
  unfold symWord at h
  unfold symValue
  cases hc : cIntLiteral s with
  | some v =>
    rw [hc] at h
    exact congrArg Val.word (Option.some.inj h)
  | none =>
    rw [hc] at h
    simp only at h ⊢
    split at h
    · rename_i ht
      rw [if_pos ht]
      exact congrArg Val.word (Option.some.inj h)
    · rename_i ht
      rw [if_neg ht]
      split at h
      · rename_i hf
        rw [if_pos hf]
        exact congrArg Val.word (Option.some.inj h)
      · cases h

theorem constWord_value {o : IRValue} {w : Word} (h : constWord o = some w) (regs : Int → Val) :
    evalOperand rt regs o = .word w := by
  cases o with
  | sym s => exact symWord_value h
  | register n =>
    have h : (if n < 0 then some 0 else none) = some w := h
    split at h
    · rename_i hn
      rw [← Option.some.inj h]
      simp [evalOperand, readReg, hn]
    · cases h
  | int v => exact congrArg Val.word (Option.some.inj h)
  | bool b => exact congrArg Val.word (Option.some.inj h)
  | label n => exact congrArg Val.word (Option.some.inj h)
  | none => exact congrArg Val.word (Option.some.inj h)
  | float b => cases h
  | string s => cases h

theorem checkedDiv_ok {op : Word → Word → Word} {l : Int} {a b : Word} (hb : b ≠ 0)
    (ha : b ≠ -1 ∨ a ≠ BitVec.intMin 64) : checkedDiv op l a b = .ok (.word (op a b)) := by
  rw [checkedDiv, if_neg hb, if_neg (fun h => ha.elim (fun h' => h' h.2) fun h' => h' h.1)]

variable (rt) in
theorem cannotStop_ok {a b : IRValue} (h : cannotStop a b = true) (op : Word → Word → Word)
    (l : Int) (regs : Int → Val) :
    ∃ v, checkedDiv op l (toWord rt (evalOperand rt regs a)) (toWord rt (evalOperand rt regs b)) =
      .ok v := by
  simp only [cannotStop] at h
  split at h
  · cases h
  · rename_i d hd
    rw [constWord_value hd]
    simp only [Bool.and_eq_true, bne_iff_ne, Bool.or_eq_true] at h
    obtain ⟨h0, h1⟩ := h
    refine ⟨_, checkedDiv_ok h0 (h1.imp id fun h1 => ?_)⟩
    split at h1
    · rename_i n hn
      rw [constWord_value hn]
      exact bne_iff_ne.mp h1
    · cases h1

theorem isFloatConst_value {o : IRValue} (h : isFloatConst o = true) {regs : Int → Val} :
    (evalOperand rt regs o).isFloat = true := by
  cases o <;> first | rfl | cases h

theorem alwaysTrue_truthy {o : IRValue} (h : alwaysTrue o = true) (regs : Int → Val) :
    truthy rt (evalOperand rt regs o) = true := by
  have hconst : ∀ {w : Word}, constWord o = some w → w != 0 →
      truthy rt (evalOperand rt regs o) = true := fun hw h0 => by
    rw [constWord_value hw]; exact h0
  cases o with
  | string s => rfl
  | _ =>
    simp only [alwaysTrue] at h
    split at h
    · rename_i w hw; exact hconst hw h
    · cases h

/-- The operators that have a value on all operands. -/
def isTotalOp : IROpcode → Bool
  | .add | .sub | .mul | .eq | .ne | .lt | .le | .gt | .ge | .andOp | .orOp | .notOp | .neg
  | .bitAnd | .bitOr | .bitXor | .shl | .shr | .bitNot | .copy | .loadConst => true
  | _ => false

/-- The opcodes that `hasSideEffects` leaves to be removed. -/
theorem removable_cases {op : IROpcode} (hs : hasSideEffects op = false)
    (hc : isNopOrControl op = false) :
    isTotalOp op = true ∨ op ∈ [IROpcode.loadVar, .declVar, .jump, .jumpIfFalse, .arg, .typeInfo] ∨
      op ∈ [IROpcode.div, .mod] ∨
      op ∈ [IROpcode.listLen, .mapHas, .mapGet, .listGet, .listCreate, .mapCreate, .mapKeys] := by
  cases op <;> first | (cases hs; done) | (cases hc; done) | decide

variable (rt) in
theorem operator_total {op : IROpcode} (h : isTotalOp op = true) (line : Int) (a b : Val) :
    ∃ v, operator rt op line a b = some (.ok v) := by
  cases op <;> first
    | (cases h; done)
    | exact ⟨_, rfl⟩
    | (simp only [operator]; split <;> exact ⟨_, rfl⟩)

/-- **What may be removed.** -/
theorem harmless_of_safe {f : IRFunction} {i : IRInstruction}
    (hs : hasSideEffects i.opcode = false) (hc : isNopOrControl i.opcode = false)
    (hd : 0 ≤ i.dest) (h : removalSafe i = true) : Harmless f i := by
  intro W rt fr w
  have done : ∀ {v : Option Val}, fr.actOf rt f i w = .step v fr.locals w [] →
      Unnoticed i fr.locals w (fr.actOf rt f i w) :=
    fun h => ⟨_, _, h, rfl, rfl, rfl, fun _ _ => rfl⟩
  have fresh : ∀ {v : Option Val} {n : Nat}, fr.actOf rt f i w =
      .step v { fr.locals with allocs := update fr.locals.allocs i.dest n } w [] →
      Unnoticed i fr.locals w (fr.actOf rt f i w) :=
    fun h => ⟨_, _, h, rfl, rfl, rfl, fun _ hd => update_other hd⟩
  rcases removable_cases hs hc with hop | hop | hop | hop
  · obtain ⟨v, hv⟩ := operator_total rt hop i.line (evalOperand rt fr.regs i.operand1)
      (evalOperand rt fr.regs i.operand2)
    exact done (act_operator hv)
  · simp only [List.mem_cons, List.not_mem_nil, or_false] at hop
    rcases hop with hop | hop | hop | hop | hop | hop
    · simp only [Frame.actOf, act, hop] at done ⊢
      split at done <;> exact done rfl
    · simp [removalSafe, hop] at h
    · simp only [removalSafe, hop, Option.isNone_iff_eq_none] at h
      exact done (v := none) (by simp only [Frame.actOf, act, hop, h])
    · simp only [removalSafe, hop, Bool.or_eq_true, Option.isNone_iff_eq_none] at h
      rcases h with h | h
      · refine done (v := none) ?_
        simp only [Frame.actOf, act, hop, h, ite_self]
      · exact done (v := none) (by simp only [Frame.actOf, act, hop, alwaysTrue_truthy h, if_true])
    · have hne : i.dest ≠ -1 := by omega
      simp only [Frame.actOf, act, hop, argAct, hne, if_false] at done ⊢
      split at done <;> exact done rfl
    · exact done (v := none) (by simp only [Frame.actOf, act, hop])
  · simp only [List.mem_cons, List.not_mem_nil, or_false] at hop
    rcases hop with hop | hop
    · simp only [removalSafe, hop, Bool.or_eq_true] at h
      by_cases hfl : ((evalOperand rt fr.regs i.operand1).isFloat ||
          (evalOperand rt fr.regs i.operand2).isFloat) = true
      · exact done (act_operator (by rw [hop, operator, if_pos hfl]))
      · rcases h with (h | h) | h
        · exact absurd (by rw [isFloatConst_value h]; rfl) hfl
        · exact absurd (by rw [isFloatConst_value h, Bool.or_true]) hfl
        · obtain ⟨v, hv⟩ := cannotStop_ok rt h BitVec.sdiv i.line fr.regs
          exact done (act_operator (by rw [hop, operator, if_neg hfl, hv]))
    · simp only [removalSafe, hop] at h
      obtain ⟨v, hv⟩ := cannotStop_ok rt h BitVec.srem i.line fr.regs
      exact done (act_operator (by rw [hop]; exact congrArg some hv))
  · simp only [List.mem_cons, List.not_mem_nil, or_false] at hop
    rcases hop with hop | hop | hop | hop | hop | hop | hop
    · exact done (by simp only [Frame.actOf, act, hop, operator, accessAct, accessOf]; rfl)
    · exact done (by simp only [Frame.actOf, act, hop, operator, accessAct, accessOf]; rfl)
    · exact done (by simp only [Frame.actOf, act, hop, operator, accessAct, accessOf]; rfl)
    · simp [removalSafe, hop] at h
    · exact fresh (by simp only [Frame.actOf, act, hop, operator, accessAct, accessOf]; rfl)
    · exact fresh (by simp only [Frame.actOf, act, hop, operator, accessAct, accessOf]; rfl)
    · exact fresh (by simp only [Frame.actOf, act, hop, operator, accessAct, accessOf]; rfl)

/-! ## What may not be removed -/

/-- The frame whose registers hold `w` and whose variables hold no word. -/
def probe (w : Word) : Frame :=
  { ip := 0, regs := fun _ => .word w,
    locals := { vars := fun _ => .ref 0, pending := [], allocs := fun _ => 0, path := [] },
    calls := fun _ => 0 }

/-- The runtime in which every constant and address is `w` and no list can be read. -/
def probeRuntime (w : Word) : Runtime Unit :=
  { inertRuntime with
    sym := fun _ => .word w
    addr := fun _ => w
    read := fun _ _ _ _ => .error "out of range" }

theorem probe_sym {s : String} {w : Word} (h : symWord s = none) :
    symValue (probeRuntime w) s = .word w := by
  unfold symWord at h
  unfold symValue
  cases hc : cIntLiteral s with
  | some v =>
    rw [hc] at h
    cases h
  | none =>
    rw [hc] at h
    simp only at h ⊢
    split at h
    · cases h
    · rename_i ht
      rw [if_neg ht]
      split at h
      · cases h
      · rename_i hf
        rw [if_neg hf]
        rfl

/-- An operand that is no constant word is the probe's word. -/
theorem probe_value {o : IRValue} {w : Word} (h : constWord o = none) :
    toWord (probeRuntime w) (evalOperand (probeRuntime w) (probe w).regs o) = w := by
  cases o with
  | sym s =>
    rw [evalOperand, probe_sym h]
    rfl
  | register n =>
    have hn : (if n < 0 then some (0 : Word) else none) = none := h
    split at hn
    · cases hn
    · rename_i hn'
      simp only [evalOperand, readReg, if_neg hn']
      rfl
  | float b => rfl
  | string s => rfl
  | int v => cases h
  | bool b => cases h
  | label n => cases h
  | none => cases h

/-- No operand of the probe is a handle. -/
theorem probe_ne_ref {o : IRValue} {w : Word} :
    evalOperand (probeRuntime w) (probe w).regs o ≠ .ref 0 := by
  cases o with
  | register n => simp only [evalOperand, readReg]; split <;> simp [probe]
  | sym s =>
    simp only [evalOperand, symValue, ofBool]
    split
    · simp
    · split
      · simp
      · split <;> simp [probeRuntime]
  | _ => simp [evalOperand, ofBool]

theorem probe_isFloat {o : IRValue} {w : Word} (h : isFloatConst o = false) :
    (evalOperand (probeRuntime w) (probe w).regs o).isFloat = false := by
  cases o with
  | float b => cases h
  | register n => simp only [evalOperand, readReg]; split <;> rfl
  | sym s =>
    simp only [evalOperand, symValue]
    split
    · rfl
    · split
      · rfl
      · split <;> rfl
  | _ => rfl

/-- Where a division may stop, it does for some registers and constants. -/
theorem probe_stops {a b : IRValue} (h : cannotStop a b = false) (op : Word → Word → Word)
    (l : Int) : ∃ w t, checkedDiv op l
      (toWord (probeRuntime w) (evalOperand (probeRuntime w) (probe w).regs a))
      (toWord (probeRuntime w) (evalOperand (probeRuntime w) (probe w).regs b)) = .error t := by
  cases hb : constWord b with
  | none =>
    refine ⟨0, .divZero l, ?_⟩
    rw [probe_value hb, checkedDiv, if_pos rfl]
  | some d =>
    simp only [cannotStop, hb, Bool.and_eq_false_iff, bne_eq_false_iff_eq,
      Bool.or_eq_false_iff] at h
    rcases h with rfl | ⟨rfl, ha⟩
    · refine ⟨0, .divZero l, ?_⟩
      rw [constWord_value hb, toWord_word, checkedDiv, if_pos rfl]
    · refine ⟨BitVec.intMin 64, .divOverflow l, ?_⟩
      have hmin : toWord (probeRuntime (BitVec.intMin 64)) (evalOperand (probeRuntime
          (BitVec.intMin 64)) (probe (BitVec.intMin 64)).regs a) = BitVec.intMin 64 := by
        cases hc : constWord a with
        | none => exact probe_value hc
        | some n =>
          rw [hc] at ha
          rw [constWord_value hc]
          exact bne_eq_false_iff_eq.mp ha
      rw [hmin, constWord_value hb, toWord_word, checkedDiv, if_neg (by decide), if_pos ⟨rfl, rfl⟩]

theorem not_unnoticed_trap {W : Type} {i : IRInstruction} {l : Locals} {w : W} {t : Trap} :
    ¬ Unnoticed i l w (.trap t : Act W) := by rintro ⟨_, _, h, _⟩; cases h

theorem not_unnoticed_goto {W : Type} {i : IRInstruction} {l : Locals} {w : W} {n : Int} :
    ¬ Unnoticed i l w (.goto n : Act W) := by rintro ⟨_, _, h, _⟩; cases h

theorem probe_false {o : IRValue} (h : alwaysTrue o = false) :
    truthy (probeRuntime 0) (evalOperand (probeRuntime 0) (probe 0).regs o) = false := by
  have hconst : ∀ {w : Word}, constWord o = some w → (w != 0) = false →
      truthy (probeRuntime 0) (evalOperand (probeRuntime 0) (probe 0).regs o) = false :=
    fun hw h0 => by rw [constWord_value hw]; exact h0
  cases o with
  | string s => cases h
  | float b => rfl
  | sym s =>
    simp only [alwaysTrue] at h
    split at h
    · rename_i w hw; exact hconst hw h
    · rename_i hn
      rw [evalOperand, probe_sym hn]
      rfl
  | register n => simp only [evalOperand, readReg]; split <;> rfl
  | _ =>
    simp only [alwaysTrue] at h
    split at h
    · rename_i w hw; exact hconst hw h
    · rename_i hn; cases hn

/-- **What may not be removed.** -/
theorem safe_of_harmless {f : IRFunction} {i : IRInstruction} (h : Harmless f i) :
    removalSafe i = true := by
  by_contra hs
  rw [Bool.not_eq_true] at hs
  unfold removalSafe at hs
  split at hs <;> rename_i hop
  · simp only [Bool.or_eq_false_iff] at hs
    obtain ⟨⟨h1, h2⟩, h3⟩ := hs
    obtain ⟨w, t, ht⟩ := probe_stops h3 BitVec.sdiv i.line
    have := h Unit (probeRuntime w) (probe w) ()
    rw [Frame.actOf, act_operator_trap (t := t)] at this
    · exact not_unnoticed_trap this
    · rw [hop, operator, probe_isFloat h1, probe_isFloat h2]
      exact congrArg some ht
  · obtain ⟨w, t, ht⟩ := probe_stops hs BitVec.srem i.line
    have := h Unit (probeRuntime w) (probe w) ()
    rw [Frame.actOf, act_operator_trap (t := t)] at this
    · exact not_unnoticed_trap this
    · rw [hop, operator]
      exact congrArg some ht
  · have := h Unit (probeRuntime 0) (probe 0) ()
    simp only [Frame.actOf, act, hop, operator, accessAct, accessOf] at this
    exact not_unnoticed_trap this
  · obtain ⟨v, l, ha, hvars, -⟩ := h Unit (probeRuntime 0) (probe 0) ()
    simp only [Frame.actOf, act, hop, Act.step.injEq] at ha
    obtain ⟨-, rfl, -⟩ := ha
    have := congrFun hvars i.operand1.nameText
    simp only [update_same] at this
    exact probe_ne_ref this
  · have := h Unit (probeRuntime 0) (probe 0) ()
    simp only [Option.isNone_eq_false_iff] at hs
    obtain ⟨n, hn⟩ := Option.isSome_iff_exists.mp hs
    simp only [Frame.actOf, act, hop, hn] at this
    exact not_unnoticed_goto this
  · have := h Unit (probeRuntime 0) (probe 0) ()
    simp only [Bool.or_eq_false_iff, Option.isNone_eq_false_iff] at hs
    obtain ⟨n, hn⟩ := Option.isSome_iff_exists.mp hs.1
    simp only [Frame.actOf, act, hop, hn, probe_false hs.2] at this
    exact not_unnoticed_goto this
  · cases hs

/-! ## The simulation -/

theorem mem_markRegUsed {used : List Int} {o : IRValue} {r : Int} :
    r ∈ markRegUsed used o ↔ r ∈ used ∨ o = .register r := by
  cases o with
  | register n =>
    simp only [markRegUsed, IRValue.register.injEq]
    split
    · rename_i h
      refine ⟨.inl, fun h' => h'.elim id ?_⟩
      rintro rfl
      simpa using h
    · simp [eq_comm]
  | _ => simp [markRegUsed]

theorem mem_markUses {used : List Int} {i : IRInstruction} {r : Int} :
    r ∈ markUses used i ↔ r ∈ used ∨ Reads i r := by
  unfold markUses Reads
  split
  · rename_i h; simp [h]
  · rename_i h
    simp [mem_markRegUsed, IRInstruction.operands, h, or_assoc, eq_comm]

/-- Every register an instruction reads is marked. -/
theorem mem_usedRegs {is : List IRInstruction} {i : IRInstruction} {r : Int} (hi : i ∈ is)
    (h : Reads i r) : r ∈ usedRegs is := by
  suffices key : ∀ (is : List IRInstruction) (used : List Int),
      (r ∈ used ∨ ∃ i ∈ is, Reads i r) → r ∈ is.foldl markUses used from
    key is [] (.inr ⟨i, hi, h⟩)
  clear hi h
  intro is
  induction is with
  | nil => intro used h; simpa using h
  | cons j is ih =>
    intro used h
    apply ih _
    rcases h with h | ⟨i, hi, h⟩
    · exact .inl (mem_markUses.mpr (.inl h))
    · rcases List.mem_cons.mp hi with rfl | hi
      · exact .inl (mem_markUses.mpr (.inr h))
      · exact .inr ⟨i, hi, h⟩

/-- Locals that differ at most in what was made in registers outside `S`. -/
structure LocalsRel (S : Int → Prop) (l l' : Locals) : Prop where
  vars : l'.vars = l.vars
  pending : l'.pending = l.pending
  path : l'.path = l.path
  allocs : ∀ d, S d → l'.allocs d = l.allocs d

theorem accessAct_congr {S : Int → Prop} {i : IRInstruction} {l l' : Locals}
    (hl : LocalsRel S l l') (hd : accessOf i.opcode = .fresh → S i.dest) (args : List Val) (w : W) :
    ActRel (LocalsRel S) (accessAct rt i args l w) (accessAct rt i args l' w) := by
  unfold accessAct
  split
  · exact .step _ _ _ hl
  · split
    · exact .step _ _ _ hl
    · exact .trap _
  · rename_i hacc
    have ha := hl.allocs i.dest (hd hacc)
    simp only [ha, hl.path]
    refine .step _ _ _ ⟨hl.vars, hl.pending, rfl, fun d hS => ?_⟩
    by_cases h : d = i.dest
    · simp [h]
    · simp only [update_other h, hl.allocs d hS]
  · split
    · exact .step _ _ _ hl
    · exact .trap _

/-- An instruction does the same in locals that differ only outside `S`. -/
theorem act_congr {S : Int → Prop} {f : IRFunction} {i : IRInstruction} {l l' : Locals}
    (hl : LocalsRel S l l') (hd : accessOf i.opcode = .fresh → S i.dest) (a b c : Val) (w : W) :
    ActRel (LocalsRel S) (act rt f i a b c l w) (act rt f i a b c l' w) := by
  unfold act
  split
  · exact .step _ _ _ hl
  · exact .step _ _ _ hl
  · exact .step _ _ _ hl
  · exact .step _ _ _ hl
  · exact .step _ _ _ hl
  · exact .step _ _ _ hl
  · rw [hl.vars]
    split <;> exact .step _ _ _ hl
  · exact .step _ _ _ ⟨by simp only [hl.vars], hl.pending, hl.path, hl.allocs⟩
  · exact .step _ _ _ ⟨by simp only [hl.vars], hl.pending, hl.path, hl.allocs⟩
  · simp only [argAct]
    split
    · exact .step _ _ _ ⟨hl.vars, by simp only [hl.pending], hl.path, hl.allocs⟩
    · rw [hl.vars]
      split <;> exact .step _ _ _ hl
  · simp only [callAct, hl.pending]
    exact .call _ _ ⟨hl.vars, rfl, hl.path, hl.allocs⟩
  · exact .ret _
  · split
    · exact .goto _
    · exact .step _ _ _ hl
  · split
    · exact .step _ _ _ hl
    · split
      · exact .goto _
      · exact .step _ _ _ hl
  · split
    · exact .step _ _ _ hl
    · exact .trap _
    · exact accessAct_congr hl hd _ _

/-- The registers whose contents matter: those read, and none. -/
def Live (used : List Int) (d : Int) : Prop := d < 0 ∨ d ∈ used

/-- Frames of a function and of what is left of it. -/
structure DceRel (used : List Int) (fr fr' : Frame) : Prop where
  ip : fr'.ip = fr.ip
  calls : fr'.calls = fr.calls
  locals : LocalsRel (Live used) fr.locals fr'.locals
  regs : ∀ r, Live used r → fr'.regs r = fr.regs r

theorem DceRel.operand {used : List Int} {fr fr' : Frame} (h : DceRel used fr fr') {o : IRValue}
    (ho : ∀ r, o = .register r → r ∈ used) :
    evalOperand rt fr'.regs o = evalOperand rt fr.regs o := by
  cases o with
  | register r => simp only [evalOperand, readReg, h.regs r (.inr (ho r rfl))]
  | _ => rfl

theorem writeReg_rel {used : List Int} {f : IRFunction} {d : Int} {v : Option Val}
    {regs regs' : Int → Val} (h : ∀ r, Live used r → regs' r = regs r) (r : Int)
    (hr : Live used r) : writeReg rt f d v regs' r = writeReg rt f d v regs r := by
  cases v with
  | none => exact h r hr
  | some v =>
    simp only [writeReg]
    split
    · exact h r hr
    · by_cases hd : r = d
      · subst hd; simp
      · rw [update_other hd, update_other hd, h r hr]

/-- A kept instruction acts alike in related frames. -/
theorem DceRel.act {f : IRFunction} {i : IRInstruction} {fr fr' : Frame} {w : W}
    (h : DceRel (usedRegs f.instructions) fr fr') (hi : i ∈ f.instructions)
    (hk : isDead (usedRegs f.instructions) i = false) :
    ActRel (LocalsRel (Live (usedRegs f.instructions))) (fr.actOf rt f i w)
      (fr'.actOf rt f i w) := by
  have hd : accessOf i.opcode = .fresh → Live (usedRegs f.instructions) i.dest := by
    intro hfresh
    have hop : isNopOrControl i.opcode = false ∧ hasSideEffects i.opcode = false := by
      cases hop : i.opcode <;> rw [hop] at hfresh <;> cases hfresh <;> exact ⟨rfl, rfl⟩
    by_cases hneg : i.dest < 0
    · exact .inl hneg
    · refine .inr ?_
      simpa [isDead, hop, Int.not_lt.mp hneg] using hk
  unfold Frame.actOf
  cases hc : isNopOrControl i.opcode with
  | false =>
    have ho : ∀ o ∈ i.operands, evalOperand rt fr'.regs o = evalOperand rt fr.regs o :=
      fun o ho => h.operand fun r hr => mem_usedRegs hi ⟨hc, hr ▸ ho⟩
    rw [ho i.operand1 (by simp [IRInstruction.operands]),
      ho i.operand2 (by simp [IRInstruction.operands]),
      ho i.operand3 (by simp [IRInstruction.operands])]
    exact act_congr h.locals hd _ _ _ _
  | true =>
    have hnop : ∀ a b c l, IR.act rt f i a b c l w = .step none l w [] := by
      intro a b c l
      unfold IR.act
      cases hop : i.opcode <;> rw [hop] at hc <;> cases hc
    rw [hnop, hnop]
    exact .step _ _ _ h.locals

theorem findLabel_dce (f : IRFunction) (n : Int) :
    findLabel (dceFunction f).instructions n = findLabel f.instructions n := by
  simp only [findLabel, dceFunction, List.findIdx?_map]
  congr 1
  funext i
  simp only [Function.comp_apply]
  split
  · rename_i h
    have hop : i.opcode ≠ .label := fun hop => by simp [isDead, hop, isNopOrControl] at h
    simp [toNop, hop]
  · rfl

variable (rt) in
/-- **Frames of a function and of what is left of it match**, when all that is removed is
harmless. -/
theorem DceRel.lres {f : IRFunction}
    (hs : ∀ i ∈ f.instructions, isDead (usedRegs f.instructions) i = true → Harmless f i)
    {fr fr' : Frame} (w : W) (h : DceRel (usedRegs f.instructions) fr fr') :
    LResRel rt f (dceFunction f) (DceRel (usedRegs f.instructions)) (lstep rt f fr w)
      (lstep rt (dceFunction f) fr' w) := by
  have hget : (dceFunction f).instructions[fr'.ip]? = (f.instructions[fr.ip]?).map fun i =>
      if isDead (usedRegs f.instructions) i then toNop i else i := by
    simp [dceFunction, h.ip]
  cases hi : f.instructions[fr.ip]? with
  | none =>
    rw [hi] at hget
    simp only [lstep, hi, hget]
    exact .ret _
  | some i =>
    rw [hi] at hget
    have hmem := List.mem_of_getElem? hi
    cases hdead : isDead (usedRegs f.instructions) i with
    | false =>
      simp only [Option.map_some, hdead, Bool.false_eq_true, if_false] at hget
      rw [lstep_at hi, lstep_at hget]
      refine LResRel.apply (h.act hmem hdead) hi hget rfl rfl (fun v l l' c c' _ hl hc => ?_)
        fun n hn => ⟨findLabel_dce f n, fun k hk => ⟨rfl, h.calls, h.locals, h.regs⟩⟩
      refine ⟨by simp only [h.ip], ?_, hl, writeReg_rel h.regs⟩
      rcases hc with ⟨rfl, rfl⟩ | ⟨rfl, rfl⟩
      · exact h.calls
      · simp only [h.ip, h.calls]
    | true =>
      simp only [Option.map_some, hdead, if_true] at hget
      obtain ⟨v, l, ha, hv, hp, hpath, hal⟩ := hs i hmem hdead W rt fr w
      simp only [isDead, Bool.and_eq_true, Bool.not_eq_true', decide_eq_true_eq] at hdead
      have hunused : ∀ r, Live (usedRegs f.instructions) r → r ≠ i.dest := by
        rintro r (hr | hr) rfl
        · omega
        · simp [hr] at hdead
      rw [lstep_at hi, lstep_at hget, ha]
      refine .next ⟨by simp only [h.ip], h.calls, ?_, fun r hr => ?_⟩
      · exact ⟨h.locals.vars.trans hv.symm, h.locals.pending.trans hp.symm,
          h.locals.path.trans hpath.symm,
          fun d hd => (h.locals.allocs d hd).trans (hal d (hunused d hd)).symm⟩
      · exact (h.regs r hr).trans (writeReg_other (hunused r hr)).symm

/-- Removing harmless instructions keeps behaviour. -/
theorem dceFunction_same {f : IRFunction}
    (hs : ∀ i ∈ f.instructions, isDead (usedRegs f.instructions) i = true → Harmless f i) :
    SameBehaviour rt f (dceFunction f) :=
  .of_frames (R := DceRel (usedRegs f.instructions)) (d := fun _ _ => 0)
    (fun _ _ w h => .both (h.lres rt hs w))
    fun _ _ => ⟨rfl, rfl, ⟨rfl, rfl, rfl, fun _ _ => rfl⟩, fun _ _ => rfl⟩

end

/-- What `removalSafe` allows is harmless. -/
theorem harmless_of_removalSafe {f : IRFunction}
    (h : ∀ i ∈ f.instructions, isDead (usedRegs f.instructions) i = true → removalSafe i = true) :
    ∀ i ∈ f.instructions, isDead (usedRegs f.instructions) i = true → Harmless f i := by
  intro i hi hd
  have hs := h i hi hd
  simp only [isDead, Bool.and_eq_true, Bool.not_eq_true', decide_eq_true_eq] at hd
  exact harmless_of_safe hd.2 hd.1.1.1 hd.1.1.2 hs

/-- `val unused = 1 / 0` and then `return 7`. -/
def deadDivision : IRFunction :=
  { initIRFunction "dead" with
    returnType := "int"
    registerCount := 3
    registerTypes := List.replicate 3 "int"
    instructions := [
      { irInitInstr .loadConst with dest := 0, operand1 := irInt 1 },
      { irInitInstr .loadConst with dest := 1, operand1 := irInt 0 },
      { irInitInstr .div with
        dest := 2, operand1 := irRegister 0, operand2 := irRegister 1, line := 3 },
      { irInitInstr .ret with operand1 := irInt 7 }] }

end Cte
