import Orbit.Cte.Proof.Eval
import Orbit.IR.Modules

/-!
# One folded call

`tryFoldCall` takes the `arg`s that stand directly before a call, looks their registers up in a scan
of everything before it, and puts the value the interpreter gives in the place of the call. That is
what the call does at run time (`folded_same`) under `FoldOk`: the `arg`s are the call's own, the
constants reach them on every path of control, the interpreter is right about the callee, and the
register of the result is not read where the substitution does not go.
-/

namespace Cte

open IR

/-! ## Constants along the paths of control -/

/-- The constant an operand is, when register `r` is known to hold `C r`. -/
def constOperand (C : Int → Option Word) : IRValue → Option Word
  | .int v => some v
  | .bool b => some (boolWord b)
  | .register r => C r
  | _ => none

/-- After `i`, register `r` holds `v`: `i` loads it or copies it there, or `r` held it before. -/
def HoldsAfter (f : IRFunction) (i : IRInstruction) (C : Int → Option Word) (r : Int) (v : Word) :
    Prop :=
  if r = i.dest then
    0 ≤ r ∧ isFloatType (registerType f r) = false ∧ (i.opcode = .loadConst ∨ i.opcode = .copy) ∧
      constOperand C i.operand1 = some v
  else C r = some v

/-- `C k r` is the constant register `r` holds at position `k`, whatever path led there. -/
structure Constants (f : IRFunction) (C : Nat → Int → Option Word) : Prop where
  entry : ∀ r, C 0 r = none
  falls : ∀ (k : Nat) i, f.instructions[k]? = some i → i.flowsOn = true → ∀ r v,
    C (k + 1) r = some v → HoldsAfter f i (C k) r v
  jumps : ∀ (k : Nat) i n t, f.instructions[k]? = some i → i.jumpTarget = some n →
    findLabel f.instructions n = some t → ∀ r v, C t r = some v → C k r = some v

section
variable {W : Type} {rt : Runtime W} {f : IRFunction} {C : Nat → Int → Option Word}

theorem constOperand_value {K : Int → Option Word} {regs : Int → Val}
    (hK : ∀ r v, K r = some v → 0 ≤ r ∧ regs r = .word v) {o : IRValue} {v : Word}
    (h : constOperand K o = some v) : evalOperand rt regs o = .word v := by
  cases o with
  | int w => cases h; rfl
  | bool b => cases h; rfl
  | register r =>
    obtain ⟨h0, hr⟩ := hK r v h
    simp [evalOperand, readReg, Int.not_lt.mpr h0, hr]
  | _ => cases h

/-- In every frame a run can pass the constants are there. -/
theorem Constants.held (hC : Constants f C) {fr : Frame} (h : Reach rt f fr) :
    ∀ r v, C fr.ip r = some v → 0 ≤ r ∧ fr.regs r = .word v := by
  induction h with
  | entry h0 => intro r v hr; rw [h0, hC.entry] at hr; cases hr
  | @step fr fr' _ hs ih =>
    intro r v hr
    obtain ⟨i, hi, hft | ⟨hregs, -, n, hn, hk⟩⟩ := hs.cases
    · rw [hft.ip] at hr
      have hafter := hC.falls fr.ip i hi hft.flowsOn r v hr
      obtain ⟨v', hregs, hact⟩ := hft.regs
      rw [hregs]
      unfold HoldsAfter at hafter
      split at hafter
      · rename_i hd
        obtain ⟨h0, hty, hop, ho⟩ := hafter
        obtain ⟨w, l, w', evs, ha⟩ := hact (by rcases hop with hop | hop <;> simp [hop])
        rw [act_copy hop.symm, constOperand_value ih ho] at ha
        cases ha
        rw [← hd, writeReg_same h0, convTo_word hty]
        exact ⟨h0, rfl⟩
      · rename_i hd
        rw [writeReg_other hd]
        exact ih r v hafter
    · rw [hregs]
      exact ih r v (hC.jumps fr.ip i n fr'.ip hi hn hk r v hr)

end

/-! ## The arguments of a call -/

theorem argStart_le (is : List IRInstruction) (c : Nat) : argStart is c ≤ c := by
  induction c with
  | zero => exact Nat.le_refl 0
  | succ c ih =>
    simp only [argStart]
    split <;> omega

/-- From `argStart` to the call there are `arg`s only. -/
theorem argStart_arg {is : List IRInstruction} {c k : Nat} {i : IRInstruction}
    (ha : argStart is c ≤ k) (hk : k < c) (hi : is[k]? = some i) : i.opcode = .arg := by
  induction c with
  | zero => omega
  | succ c ih =>
    simp only [argStart] at ha
    split at ha
    · rename_i harg
      by_cases hkc : k = c
      · subst hkc
        simpa [hi] using harg
      · exact ih ha (by omega)
    · omega

/-- The values of the arguments, one by one. -/
theorem argValues_get {is : List IRInstruction} {c k : Nat} {args : List Word} {i : IRInstruction}
    (h : argValues is c = some args) (ha : argStart is c ≤ k) (hk : k < c) (hi : is[k]? = some i) :
    ∃ v, args[k - argStart is c]? = some v ∧ argValue (knownBefore is c) i.operand1 = some v := by
  have hget : ((is.take c).drop (argStart is c))[k - argStart is c]? = some i := by
    rw [List.getElem?_drop, Nat.add_sub_cancel' ha, List.getElem?_take_of_lt hk, hi]
  unfold argValues at h
  generalize (is.take c).drop (argStart is c) = l at h hget
  generalize k - argStart is c = j at hget ⊢
  induction l generalizing args j with
  | nil => cases hget
  | cons i' l ih =>
    simp only [List.mapM_cons, Option.pure_def, Option.bind_eq_bind, Option.bind_eq_some_iff,
      Option.some.injEq] at h
    obtain ⟨v, hv, vs, hvs, rfl⟩ := h
    cases j with
    | zero =>
      obtain rfl : i' = i := by simpa using hget
      exact ⟨v, rfl, hv⟩
    | succ j => simpa using ih hvs j (by simpa using hget)

theorem argValues_length {is : List IRInstruction} {c : Nat} {args : List Word}
    (h : argValues is c = some args) (hc : c ≤ is.length) : args.length = c - argStart is c := by
  have hlen : ∀ (l : List IRInstruction) (args : List Word),
      l.mapM (fun i => argValue (knownBefore is c) i.operand1) = some args →
      args.length = l.length := by
    intro l
    induction l with
    | nil => intro args h; cases h; rfl
    | cons i l ih =>
      intro args h
      simp only [List.mapM_cons, Option.pure_def, Option.bind_eq_bind, Option.bind_eq_some_iff,
        Option.some.injEq] at h
      obtain ⟨v, -, vs, hvs, rfl⟩ := h
      simp [ih vs hvs]
  rw [hlen _ _ h]
  simp [Nat.min_eq_left hc]

/-! ## What follows the call -/

/-- The instruction writes its destination whenever control goes past it. -/
def alwaysWrites (f : IRFunction) (u : IRInstruction) : Bool :=
  match u.opcode with
  | .nop | .label | .beginBlock | .endBlock | .typeInfo | .free | .storeVar | .declVar
  | .jump | .jumpIfFalse
  | .storeField | .listPush | .listSet | .byteStore | .bytesCopy | .memStore => false
  | .arg =>
    match u.operand1 with
    | .int n => u.dest != -1 && n.toNat < f.params.length
    | _ => u.dest != -1 && 0 < f.params.length
  | _ => true

/-- The instruction reads its operands as values, not as an index or a count. -/
def substOk (d : Int) (u : IRInstruction) : Bool :=
  match u.opcode with
  | .arg => u.dest == -1 || u.operand1 != .register d
  | .call => u.operand2 != .register d
  | _ => true

/-- Register `d` may be replaced in `l`: the substitution reaches all that reads it. It stops at the
next definition, which must be one and must not itself read `d`. -/
def usesOk (f : IRFunction) (d : Int) : List IRInstruction → Bool
  | [] => true
  | u :: us =>
    if u.dest = d then !u.operands.contains (.register d) && alwaysWrites f u
    else substOk d u && usesOk f d us

/-- None of the first `j` instructions defines the register. -/
def Undefined (d : Int) (l : List IRInstruction) (j : Nat) : Prop := ∀ u ∈ l.take j, u.dest ≠ d

theorem undefined_succ {d : Int} {l : List IRInstruction} {j : Nat} {u : IRInstruction}
    (hu : l[j]? = some u) : Undefined d l (j + 1) ↔ Undefined d l j ∧ u.dest ≠ d := by
  unfold Undefined
  rw [List.take_add_one, hu]
  simp only [Option.toList_some, List.mem_append, List.mem_singleton]
  constructor
  · exact fun h => ⟨fun x hx => h x (.inl hx), h u (.inr rfl)⟩
  · rintro ⟨h, hu⟩ x (hx | rfl)
    · exact h x hx
    · exact hu

theorem substUses_undefined {d : Int} {v : Word} {l : List IRInstruction} {j : Nat}
    (h : Undefined d l (j + 1)) : (substUses d v l)[j]? = l[j]?.map (substInstr d v) := by
  induction l generalizing j with
  | nil => rfl
  | cons u us ih =>
    have hu : u.dest ≠ d := h u (by simp)
    rw [substUses, if_neg hu]
    cases j with
    | zero => rfl
    | succ j => exact ih fun x hx => h x (by simp [hx])

theorem substUses_defined {d : Int} {v : Word} {l : List IRInstruction} {j : Nat}
    (h : ¬ Undefined d l (j + 1)) : (substUses d v l)[j]? = l[j]? := by
  induction l generalizing j with
  | nil => rfl
  | cons u us ih =>
    rw [substUses]
    split
    · rfl
    · rename_i hu
      cases j with
      | zero => exact absurd (fun x hx => by simp at hx; exact hx ▸ hu) h
      | succ j =>
        refine ih fun hus => h fun x hx => ?_
        rw [List.take_succ_cons, List.mem_cons] at hx
        rcases hx with rfl | hx
        · exact hu
        · exact hus x hx

/-- What `usesOk` says of the instruction at `j`, while the register is not defined again. -/
theorem usesOk_get {f : IRFunction} {d : Int} {l : List IRInstruction} {j : Nat} {u : IRInstruction}
    (h : usesOk f d l = true) (hj : Undefined d l j) (hu : l[j]? = some u) :
    (u.dest ≠ d ∧ substOk d u = true) ∨
      (u.dest = d ∧ .register d ∉ u.operands ∧ alwaysWrites f u = true) := by
  induction l generalizing j with
  | nil => cases hu
  | cons x xs ih =>
    rw [usesOk] at h
    cases j with
    | zero =>
      obtain rfl : x = u := by simpa using hu
      split at h
      · rename_i hd
        simp only [Bool.and_eq_true, Bool.not_eq_true', List.contains_eq_mem,
          decide_eq_false_iff_not] at h
        exact .inr ⟨hd, h.1, h.2⟩
      · rename_i hd
        rw [Bool.and_eq_true] at h
        exact .inl ⟨hd, h.1⟩
    | succ j =>
      have hx : x.dest ≠ d := hj x (by simp)
      rw [if_neg hx, Bool.and_eq_true] at h
      refine ih h.2 (fun y hy => hj y ?_) (by simpa using hu)
      rw [List.take_succ_cons]
      exact List.mem_cons_of_mem x hy

section
variable {W : Type} {rt : Runtime W} {f : IRFunction}

theorem accessAct_gives {u : IRInstruction} {args : List Val} {l l' : Locals} {w w' : W}
    {v : Option Val} {evs : List Event} (h : accessAct rt u args l w = .step v l' w' evs)
    (hp : primWrites u.opcode = true) : v.isSome := by
  unfold accessAct at h
  split at h
  · cases h; rfl
  · split at h <;> cases h
    rfl
  · cases h; rfl
  · split at h <;> cases h
    simp [hp]

theorem alwaysWrites_gives {u : IRInstruction} (h : alwaysWrites f u = true) {a b c : Val}
    {l : Locals} {w : W} {v : Option Val} (hg : (act rt f u a b c l w).Gives v) : v.isSome := by
  rcases hg with ⟨l', w', evs, hact⟩ | ⟨-, hv⟩
  · have hp : primWrites u.opcode = true := by
      unfold alwaysWrites at h
      cases hop : u.opcode <;> rw [hop] at h <;> first | rfl | cases h
    unfold act at hact
    split at hact
    case h_7 => split at hact <;> cases hact <;> rfl
    case h_10 =>
      rename_i hop
      simp only [alwaysWrites, hop] at h
      unfold argAct at hact
      split at hact
      · rename_i hd
        split at h <;> simp [hd] at h
      · have hn : ∀ n, n < f.params.length → ∃ p, f.params[n]? = some p :=
          fun n hn => ⟨_, List.getElem?_eq_getElem hn⟩
        split at h
        · rename_i n ho
          simp only [Bool.and_eq_true, decide_eq_true_eq] at h
          obtain ⟨p, hp⟩ := hn _ h.2
          simp only [ho, hp] at hact
          cases hact
          rfl
        · rename_i ho
          simp only [Bool.and_eq_true, decide_eq_true_eq] at h
          obtain ⟨p, hp⟩ := hn _ h.2
          split at hact
          · exact absurd ‹_› (ho _)
          · simp only [hp] at hact
            cases hact
            rfl
    case h_15 =>
      split at hact
      · cases hact; rfl
      · cases hact
      · exact accessAct_gives hact hp
    all_goals
      rename_i hop
      first
        | cases hact; done
        | simp [alwaysWrites, hop] at h
  · exact hv

end

/-! ## The fold -/

/-- The state in which `tryFoldCall` starts the interpreter. -/
def foldStart (st : CTEState) : CTEState := { st with depth := 0, steps := 0, success := true }

/-- What `tryFoldCall` has found when it folds the call at `c` of `f` to `v`. -/
structure Folds (m : IRModule) (f : IRFunction) (c : Nat) (st : CTEState) (call : IRInstruction)
    (callee : IRFunction) (args : List Word) (v : Word) : Prop where
  instr : f.instructions[c]? = some call
  isCall : call.opcode = .call
  resolves : foldableCallee m call = some callee
  reads : argValues f.instructions c = some args
  evaluates : ∃ st', evalFunction m evalFuel callee args (foldStart st) = some (true, st') ∧
    st'.result = v
  straight : ∀ (k : Nat) i, c < k → f.instructions[k]? = some i → isControlOp i.opcode = false

/-- The fold is what the call does: the `arg`s before it are the call's own and hold what the scan
found, the interpreter is right about the callee, and the result is replaced in all that reads it. -/
structure FoldOk (m : IRModule) (f : IRFunction) (c : Nat) (st : CTEState) (call : IRInstruction)
    (callee : IRFunction) (args : List Word) : Prop where
  pushes : ∀ (k : Nat) i, argStart f.instructions c ≤ k → k < c → f.instructions[k]? = some i →
    i.dest = -1
  count : callArity call.operand2 = args.length ∧ callee.params.length = args.length
  held : ∃ C, Constants f C ∧ ∀ (k : Nat) i r v, argStart f.instructions c ≤ k → k < c →
    f.instructions[k]? = some i → i.operand1 = .register r →
    args[k - argStart f.instructions c]? = some v → C k r = some v
  shape : Shape callee
  eval : evalOk m evalFuel callee args (foldStart st) = true
  result : isFloatType (registerType f call.dest) = false
  uses : usesOk f call.dest (f.instructions.drop (c + 1)) = true

/-- The function with the call folded. -/
def foldedFunction (f : IRFunction) (c : Nat) (d : Int) (v : Word) : IRFunction :=
  { f with instructions := foldedInstructions f.instructions c d v }

section
variable {f : IRFunction} {c : Nat} {d : Int} {v : Word}

theorem folded_before {k : Nat} (hc : c < f.instructions.length)
    (hk : k < argStart f.instructions c) :
    (foldedFunction f c d v).instructions[k]? = f.instructions[k]? := by
  have ha := argStart_le f.instructions c
  have hlen : (f.instructions.take (argStart f.instructions c)).length =
    argStart f.instructions c := by simp; omega
  simp only [foldedFunction, foldedInstructions, List.append_assoc]
  rw [List.getElem?_append_left (by omega), List.getElem?_take_of_lt hk]

theorem folded_within {k : Nat} (hc : c < f.instructions.length)
    (ha : argStart f.instructions c ≤ k) (hk : k ≤ c) :
    (foldedFunction f c d v).instructions[k]? = f.instructions[k]?.map toNop := by
  have hlen : (f.instructions.take (argStart f.instructions c)).length =
    argStart f.instructions c := by simp; omega
  simp only [foldedFunction, foldedInstructions, List.append_assoc]
  rw [List.getElem?_append_right (by omega), hlen, List.getElem?_append_left (by simp; omega),
    List.getElem?_map, List.getElem?_drop, Nat.add_sub_cancel' ha,
    List.getElem?_take_of_lt (by omega)]

theorem folded_after (hc : c < f.instructions.length) (j : Nat) :
    (foldedFunction f c d v).instructions[c + 1 + j]? =
      (substUses d v (f.instructions.drop (c + 1)))[j]? := by
  have ha := argStart_le f.instructions c
  have hlen : (f.instructions.take (argStart f.instructions c) ++
      ((f.instructions.take (c + 1)).drop (argStart f.instructions c)).map toNop).length =
      c + 1 := by simp; omega
  simp only [foldedFunction, foldedInstructions]
  rw [List.getElem?_append_right (by omega), hlen, Nat.add_sub_cancel_left]

/-- A label search sees only which positions carry the label. -/
theorem findLabel_congr {is is' : List IRInstruction} {n : Int}
    (h : ∀ k : Nat,
      is'[k]?.map (fun i => decide (i.opcode = .label) && labelNumber i.operand1 == some n) =
      is[k]?.map fun i => decide (i.opcode = .label) && labelNumber i.operand1 == some n) :
    findLabel is' n = findLabel is n := by
  have hmap : is'.map (fun i => decide (i.opcode = .label) && labelNumber i.operand1 == some n) =
      is.map fun i => decide (i.opcode = .label) && labelNumber i.operand1 == some n :=
    List.ext_getElem? fun k => by rw [List.getElem?_map, List.getElem?_map, h k]
  have key : ∀ l : List IRInstruction, findLabel l n = (l.map fun i =>
      decide (i.opcode = .label) && labelNumber i.operand1 == some n).findIdx? id := by
    intro l
    rw [List.findIdx?_map]
    rfl
  rw [key, key, hmap]

end

section
variable {m : IRModule} {f : IRFunction} {c : Nat} {st : CTEState} {call : IRInstruction}
  {callee : IRFunction} {args : List Word} {v : Word}

theorem Folds.lt (h : Folds m f c st call callee args v) : c < f.instructions.length :=
  (List.getElem?_eq_some_iff.mp h.instr).1

theorem Folds.length (h : Folds m f c st call callee args v) :
    args.length = c - argStart f.instructions c :=
  argValues_length h.reads (Nat.le_of_lt h.lt)

/-- The instruction at a position past the call, before and after the fold. -/
theorem folded_past (h : Folds m f c st call callee args v) {k : Nat} {u : IRInstruction}
    (hk : c < k) (hu : f.instructions[k]? = some u) :
    (f.instructions.drop (c + 1))[k - (c + 1)]? = some u ∧
      ((Undefined call.dest (f.instructions.drop (c + 1)) (k - (c + 1)) ∧ u.dest ≠ call.dest ∧
          (foldedFunction f c call.dest v).instructions[k]? = some (substInstr call.dest v u)) ∨
        ((Undefined call.dest (f.instructions.drop (c + 1)) (k - (c + 1)) → u.dest = call.dest) ∧
          (foldedFunction f c call.dest v).instructions[k]? = some u)) := by
  obtain ⟨j, rfl⟩ : ∃ j, k = c + 1 + j := ⟨k - (c + 1), by omega⟩
  have hget : (f.instructions.drop (c + 1))[j]? = some u := by rw [List.getElem?_drop, hu]
  rw [Nat.add_sub_cancel_left, folded_after h.lt]
  refine ⟨hget, ?_⟩
  by_cases hund : Undefined call.dest (f.instructions.drop (c + 1)) (j + 1)
  · obtain ⟨hj, hd⟩ := (undefined_succ hget).mp hund
    exact .inl ⟨hj, hd, by rw [substUses_undefined hund, hget]; rfl⟩
  · refine .inr ⟨fun hj => ?_, by rw [substUses_defined hund, hget]⟩
    by_contra hd
    exact hund ((undefined_succ hget).mpr ⟨hj, hd⟩)

theorem folded_past_none (h : Folds m f c st call callee args v) {k : Nat} (hk : c < k)
    (hu : f.instructions[k]? = none) :
    (foldedFunction f c call.dest v).instructions[k]? = none := by
  obtain ⟨j, rfl⟩ : ∃ j, k = c + 1 + j := ⟨k - (c + 1), by omega⟩
  have hnone : (f.instructions.drop (c + 1))[j]? = none := by rw [List.getElem?_drop]; exact hu
  rw [folded_after h.lt]
  by_cases hund : Undefined call.dest (f.instructions.drop (c + 1)) (j + 1)
  · rw [substUses_undefined hund, hnone]; rfl
  · rw [substUses_defined hund, hnone]

theorem findLabel_folded (h : Folds m f c st call callee args v) (n : Int) :
    findLabel (foldedFunction f c call.dest v).instructions n = findLabel f.instructions n := by
  refine findLabel_congr fun k => ?_
  rcases Nat.lt_or_ge k (argStart f.instructions c) with hk | hk
  · rw [folded_before h.lt hk]
  · rcases Nat.lt_or_ge c k with hck | hck
    · cases hu : f.instructions[k]? with
      | none => rw [folded_past_none h hck hu]
      | some u =>
        have hlab : u.opcode ≠ .label := by
          intro hop
          have := h.straight k u hck hu
          simp [hop, isControlOp] at this
        rcases (folded_past h hck hu).2 with ⟨-, -, he⟩ | ⟨-, he⟩
        · rw [he]
          simp [substInstr, hlab]
        · rw [he]
    · rw [folded_within h.lt hk hck]
      cases hu : f.instructions[k]? with
      | none => rfl
      | some u =>
        have hlab : u.opcode ≠ .label := by
          rcases Nat.lt_or_eq_of_le hck with hlt | rfl
          · rw [argStart_arg hk hlt hu]; decide
          · rw [h.instr] at hu
            cases hu
            rw [h.isCall]; decide
        simp [toNop, hlab]

end

/-! ## Frames before and after the fold -/

/-- The arguments of the call that are pushed at position `ip`. -/
def pushed (f : IRFunction) (c : Nat) (args : List Word) (ip : Nat) : List Val :=
  if ip ≤ c then (args.take (ip - argStart f.instructions c)).map .word else []

/-- Past the call, where its result has not been overwritten. -/
def Stale (f : IRFunction) (c : Nat) (d : Int) (ip : Nat) : Prop :=
  c < ip ∧ Undefined d (f.instructions.drop (c + 1)) (ip - (c + 1))

/-- Frames of the function and of the function with the call folded. -/
structure FoldRel (f : IRFunction) (c : Nat) (d : Int) (args : List Word) (v : Word)
    (fr fr' : Frame) : Prop where
  ip : fr'.ip = fr.ip
  calls : ∀ k, k ≠ c → fr'.calls k = fr.calls k
  locals : fr.locals =
    { fr'.locals with pending := fr'.locals.pending ++ pushed f c args fr.ip }
  regs : ∀ r, (r = d → ¬ Stale f c d fr.ip) → fr'.regs r = fr.regs r
  stale : Stale f c d fr.ip → fr.regs d = .word v

section
variable {W : Type} {rt : Runtime W} {m : IRModule} {f : IRFunction} {c : Nat} {st : CTEState}
  {call : IRInstruction} {callee : IRFunction} {args : List Word} {v : Word} {d : Int}
  {fr fr' : Frame}

theorem FoldRel.operand (h : FoldRel f c d args v fr fr') {o : IRValue}
    (ho : o = .register d → ¬ Stale f c d fr.ip) :
    evalOperand rt fr'.regs o = evalOperand rt fr.regs o := by
  cases o with
  | register r =>
    simp only [evalOperand, readReg]
    rw [h.regs r fun hr => ho (by rw [hr])]
  | _ => rfl

theorem FoldRel.operand_subst (h : FoldRel f c d args v fr fr') (hd : 0 ≤ d)
    (hs : Stale f c d fr.ip) (o : IRValue) :
    evalOperand rt fr'.regs (substValue d v o) = evalOperand rt fr.regs o := by
  unfold substValue
  split
  · rename_i ho
    simp [ho, irInt, evalOperand, readReg, Int.not_lt.mpr hd, h.stale hs]
  · rename_i ho
    exact h.operand fun h => absurd h ho

theorem nameText_subst (o : IRValue) : (substValue d v o).nameText = o.nameText := by
  unfold substValue
  split
  · rename_i ho; rw [ho]; rfl
  · rfl

theorem calleeOf_subst (o : IRValue) (a : Val) : calleeOf (substValue d v o) a = calleeOf o a := by
  unfold substValue
  split
  · rename_i ho; rw [ho]; rfl
  · rfl

theorem subst_eq_none (o : IRValue) : substValue d v o = .none ↔ o = .none := by
  unfold substValue
  split
  · rename_i ho; simp [ho, irInt]
  · rfl

/-- Replacing the register in its operands changes nothing of what an instruction does with their
values. -/
theorem act_subst {u : IRInstruction} (hu : substOk d u = true)
    (hc : isControlOp u.opcode = false) (a b e : Val) (l : Locals) (w : W) :
    act rt f (substInstr d v u) a b e l w = act rt f u a b e l w := by
  unfold act
  have hop : (substInstr d v u).opcode = u.opcode := rfl
  rw [hop]
  cases ho : u.opcode <;> first | rfl | (rw [ho] at hc; cases hc; done) | skip
  case loadVar =>
    simp only [substInstr]
    by_cases h1 : u.operand1 = .register d
    · rw [h1, show substValue d v (.register d) = irInt v from if_pos rfl]
      rfl
    · rw [show substValue d v u.operand1 = u.operand1 from if_neg h1]
  case storeVar => simp only [substInstr, nameText_subst]
  case declVar => simp only [substInstr, nameText_subst]
  case ret => simp only [substInstr, subst_eq_none]
  case call =>
    simp only [substOk, ho, bne_iff_ne, ne_eq] at hu
    simp only [callAct, substInstr, calleeOf_subst]
    rw [show substValue d v u.operand2 = u.operand2 from if_neg hu]
  case arg =>
    simp only [substOk, ho, Bool.or_eq_true, beq_iff_eq, bne_iff_ne, ne_eq] at hu
    simp only [argAct, substInstr]
    rcases hu with hu | hu
    · simp only [hu, if_true]
    · simp only [show substValue d v u.operand1 = u.operand1 from if_neg hu]

/-- A label stands before the arguments of the call. -/
theorem Folds.label (h : Folds m f c st call callee args v) {n : Int} {t : Nat}
    (ht : findLabel f.instructions n = some t) : t < argStart f.instructions c := by
  obtain ⟨i, hi, hop⟩ := findLabel_spec ht
  by_contra hlt
  rcases Nat.lt_trichotomy t c with hk | rfl | hk
  · rw [argStart_arg (by omega) hk hi] at hop
    cases hop
  · rw [h.instr] at hi
    cases hi
    rw [h.isCall] at hop
    cases hop
  · have := h.straight t i hk hi
    simp [hop, isControlOp] at this

theorem pushed_before {ip : Nat} (h : ip ≤ argStart f.instructions c) :
    pushed f c args ip = [] := by
  unfold pushed
  split
  · rw [Nat.sub_eq_zero_of_le h]; rfl
  · rfl

theorem writeReg_eq {g : IRFunction} {regs regs' : Int → Val} {o : Option Val} {e r : Int}
    (ht : g.registerTypes = f.registerTypes) (h : regs' r = regs r) :
    writeReg rt g e o regs' r = writeReg rt f e o regs r := by
  by_cases hr : r = e
  · subst hr
    cases o with
    | none => exact h
    | some x =>
      simp only [writeReg, registerType, ht]
      split
      · exact h
      · simp
  · rw [writeReg_other hr, writeReg_other hr, h]

/-- How often the other calls have run. -/
theorem FoldRel.callsNext (h : FoldRel f c d args v fr fr') (hip : fr.ip ≠ c)
    {cs cs' : Nat → Nat} (hc : CallsNext fr fr' cs cs') (k : Nat) (hk : k ≠ c) : cs' k = cs k := by
  rcases hc with ⟨rfl, rfl⟩ | ⟨rfl, rfl⟩
  · exact h.calls k hk
  · rw [h.ip, h.calls fr.ip hip]
    by_cases hkip : k = fr.ip
    · rw [hkip, update_same, update_same]
    · rw [update_other hkip, update_other hkip, h.calls k hk]

/-- Before the arguments both functions execute the same instruction. -/
theorem FoldRel.before (hf : Folds m f c st call callee args v)
    (h : FoldRel f c call.dest args v fr fr') (hip : fr.ip < argStart f.instructions c) (w : W) :
    LResRel rt f (foldedFunction f c call.dest v) (FoldRel f c call.dest args v) (lstep rt f fr w)
      (lstep rt (foldedFunction f c call.dest v) fr' w) := by
  have hac := argStart_le f.instructions c
  have hlt := hf.lt
  have hfresh : ∀ k ≤ c, ¬ Stale f c call.dest k := fun k hk hs => by have := hs.1; omega
  have hregs : ∀ r, fr'.regs r = fr.regs r := fun r => h.regs r fun _ => hfresh _ (by omega)
  have hloc : fr.locals = fr'.locals := by
    rw [h.locals, pushed_before (by omega), List.append_nil]
  obtain ⟨i, hi⟩ : ∃ i, f.instructions[fr.ip]? = some i :=
    ⟨_, List.getElem?_eq_getElem (by omega)⟩
  have hi' : (foldedFunction f c call.dest v).instructions[fr'.ip]? = some i := by
    rw [h.ip, folded_before hf.lt hip, hi]
  have hact : fr'.actOf rt (foldedFunction f c call.dest v) i w = fr.actOf rt f i w := by
    simp only [Frame.actOf, h.operand fun _ => hfresh fr.ip (by omega), hloc]
    rfl
  rw [lstep_at hi, lstep_at hi', hact]
  refine LResRel.apply (L := Eq) (.refl (fun _ => rfl) _) hi hi' rfl rfl
    (fun o l l' cs cs' _ hl hcs => ?_)
    fun n _ => ⟨findLabel_folded hf n, fun t ht => ?_⟩
  · subst hl
    refine ⟨by simp only [h.ip], h.callsNext (by omega) hcs, ?_, fun r _ => writeReg_eq rfl (hregs r),
      fun hs => absurd hs (hfresh _ (by simp only; omega))⟩
    rw [pushed_before (by simp only; omega), List.append_nil]
  · have ht := hf.label ht
    refine ⟨rfl, h.calls, ?_, fun r _ => hregs r, fun hs => absurd hs (hfresh _ (by simp only; omega))⟩
    rw [pushed_before (by simp only; omega), List.append_nil]
    exact hloc

/-- Past the call both execute the same instruction, with the result in the place of its register. -/
theorem FoldRel.past (hf : Folds m f c st call callee args v) (hd : 0 ≤ call.dest)
    (huses : usesOk f call.dest (f.instructions.drop (c + 1)) = true)
    (h : FoldRel f c call.dest args v fr fr') (hip : c < fr.ip) (w : W) :
    LResRel rt f (foldedFunction f c call.dest v) (FoldRel f c call.dest args v) (lstep rt f fr w)
      (lstep rt (foldedFunction f c call.dest v) fr' w) := by
  have hpush : ∀ k, c < k → pushed f c args k = [] := fun k hk => if_neg (by omega)
  have hloc : fr.locals = fr'.locals := by rw [h.locals, hpush _ hip, List.append_nil]
  cases hu : f.instructions[fr.ip]? with
  | none =>
    have hnone := folded_past_none hf hip hu
    rw [← h.ip] at hnone
    simp only [lstep, hu, hnone]
    exact .ret _
  | some u =>
    obtain ⟨hget, hcases⟩ := folded_past hf hip hu
    have hctl := hf.straight fr.ip u hip hu
    have hgoto : ∀ n, fr.actOf rt f u w ≠ .goto n := by
      intro n hn
      have hj := act_goto hn
      cases hop : u.opcode <;> rw [hop] at hj hctl <;> first | cases hj; done | cases hctl
    have hsucc : fr.ip + 1 - (c + 1) = fr.ip - (c + 1) + 1 := by omega
    have hstale : Stale f c call.dest (fr.ip + 1) ↔
        Stale f c call.dest fr.ip ∧ u.dest ≠ call.dest := by
      simp only [Stale, hsucc, undefined_succ hget]
      constructor
      · rintro ⟨-, h1, h2⟩
        exact ⟨⟨hip, h1⟩, h2⟩
      · rintro ⟨⟨-, h1⟩, h2⟩
        exact ⟨by omega, h1, h2⟩
    obtain ⟨u', hu', hdest, hact⟩ : ∃ u',
        (foldedFunction f c call.dest v).instructions[fr'.ip]? = some u' ∧ u'.dest = u.dest ∧
        fr'.actOf rt (foldedFunction f c call.dest v) u' w = fr.actOf rt f u w := by
      rw [h.ip]
      rcases hcases with ⟨hund, hne, he⟩ | ⟨hdef, he⟩
      · refine ⟨_, he, rfl, ?_⟩
        have hok := (usesOk_get huses hund hget).resolve_right fun hr => hne hr.1
        rw [Frame.actOf, ← hloc]
        simp only [substInstr, h.operand_subst hd ⟨hip, hund⟩]
        exact act_subst hok.2 hctl _ _ _ _ _
      · refine ⟨u, he, rfl, ?_⟩
        have hop : ∀ o ∈ u.operands, evalOperand rt fr'.regs o = evalOperand rt fr.regs o := by
          refine fun o ho => h.operand fun hreg hs => ?_
          rcases usesOk_get huses hs.2 hget with ⟨hne, -⟩ | ⟨-, hread, -⟩
          · exact hne (hdef hs.2)
          · exact hread (hreg ▸ ho)
        rw [Frame.actOf, ← hloc, hop _ (by simp [IRInstruction.operands]),
          hop _ (by simp [IRInstruction.operands]), hop _ (by simp [IRInstruction.operands])]
        rfl
    rw [lstep_at hu, lstep_at hu', hact]
    refine LResRel.apply (L := Eq) (.refl (fun _ => rfl) _) hu hu' hdest rfl
      (fun o l l' cs cs' hg hl hcs => ?_) fun n hn => absurd hn (hgoto n)
    subst hl
    refine ⟨by simp only [h.ip], h.callsNext (by omega) hcs, ?_, fun r hr => ?_, fun hs => ?_⟩
    · rw [hpush _ (by simp only; omega), List.append_nil]
    · simp only [hstale] at hr ⊢
      by_cases hrd : r = call.dest
      · by_cases hs : Stale f c call.dest fr.ip
        · -- the register is defined again, in both
          obtain rfl : r = u.dest := by
            by_contra hne
            exact hr hrd ⟨hs, fun he => hne (hrd.trans he.symm)⟩
          have hw := (usesOk_get huses hs.2 hget).resolve_left fun hl => hl.1 hrd
          obtain ⟨x, rfl⟩ := Option.isSome_iff_exists.mp (alwaysWrites_gives hw.2.2 hg)
          rw [writeReg_same (hrd ▸ hd), writeReg_same (hrd ▸ hd)]
          rfl
        · exact writeReg_eq rfl (h.regs r fun _ => hs)
      · exact writeReg_eq rfl (h.regs r fun he => absurd he hrd)
    · obtain ⟨hs, hne⟩ := hstale.mp hs
      simp only
      rw [writeReg_other (Ne.symm hne)]
      exact h.stale hs

/-- What the argument at `fr.ip` pushes. -/
theorem FoldOk.argument (hok : FoldOk m f c st call callee args)
    (hf : Folds m f c st call callee args v) (hr : Reach rt f fr)
    (ha : argStart f.instructions c ≤ fr.ip) (hc : fr.ip < c) {i : IRInstruction}
    (hi : f.instructions[fr.ip]? = some i) :
    ∃ x, args[fr.ip - argStart f.instructions c]? = some x ∧
      evalOperand rt fr.regs i.operand1 = .word x := by
  obtain ⟨x, hx, hv⟩ := argValues_get hf.reads ha hc hi
  refine ⟨x, hx, ?_⟩
  cases ho : i.operand1 with
  | int n => rw [ho] at hv; cases hv; rfl
  | bool b => rw [ho] at hv; cases hv; rfl
  | register r =>
    obtain ⟨C, hC, hheld⟩ := hok.held
    obtain ⟨h0, hreg⟩ := hC.held hr r x (hheld fr.ip i r x ha hc hi ho hx)
    simp [evalOperand, readReg, Int.not_lt.mpr h0, hreg]
  | _ => rw [ho] at hv; cases hv

variable (rt) in
/-- One argument of the call is pushed. -/
theorem FoldOk.pushStep (hok : FoldOk m f c st call callee args)
    (hf : Folds m f c st call callee args v) (hr : Reach rt f fr)
    (ha : argStart f.instructions c ≤ fr.ip) (hc : fr.ip < c) (w : W) :
    ∃ x, pushed f c args (fr.ip + 1) = pushed f c args fr.ip ++ [.word x] ∧
      lstep rt f fr w = .next { fr with
        ip := fr.ip + 1
        locals := { fr.locals with pending := fr.locals.pending ++ [.word x] } } w [] := by
  have hlt := hf.lt
  obtain ⟨i, hi⟩ : ∃ i, f.instructions[fr.ip]? = some i :=
    ⟨_, List.getElem?_eq_getElem (by omega)⟩
  have hop := argStart_arg ha hc hi
  have hdest := hok.pushes fr.ip i ha hc hi
  obtain ⟨x, hx, hval⟩ := hok.argument hf hr ha hc hi
  have hact : fr.actOf rt f i w =
      .step none { fr.locals with pending := fr.locals.pending ++ [.word x] } w [] := by
    simp only [Frame.actOf, act, hop, argAct, hdest, if_true, hval]
  refine ⟨x, ?_, by rw [lstep_at hi, hact]; rfl⟩
  have hsub : fr.ip + 1 - argStart f.instructions c =
      fr.ip - argStart f.instructions c + 1 := by omega
  simp only [pushed, if_pos (show fr.ip + 1 ≤ c by omega), if_pos (Nat.le_of_lt hc), hsub,
    List.take_add_one, hx, Option.toList_some, List.map_append, List.map_cons, List.map_nil]

/-- Where the function pushes an argument of the call, the folded function does nothing. -/
theorem FoldRel.argument (hok : FoldOk m f c st call callee args)
    (hf : Folds m f c st call callee args v) (hr : Reach rt f fr)
    (h : FoldRel f c call.dest args v fr fr') (ha : argStart f.instructions c ≤ fr.ip)
    (hc : fr.ip < c) (w : W) :
    LResRel rt f (foldedFunction f c call.dest v) (FoldRel f c call.dest args v) (lstep rt f fr w)
      (lstep rt (foldedFunction f c call.dest v) fr' w) := by
  have hlt := hf.lt
  obtain ⟨x, hpush, hl⟩ := hok.pushStep rt hf hr ha hc w
  have hl' : lstep rt (foldedFunction f c call.dest v) fr' w =
      .next { fr' with ip := fr'.ip + 1 } w [] := by
    obtain ⟨i, hi⟩ : ∃ i, f.instructions[fr.ip]? = some i :=
      ⟨_, List.getElem?_eq_getElem (by omega)⟩
    have hi' : (foldedFunction f c call.dest v).instructions[fr'.ip]? = some (toNop i) := by
      rw [h.ip, folded_within hf.lt ha (Nat.le_of_lt hc), hi]; rfl
    rw [lstep_at hi']
    rfl
  have hfresh : ∀ k ≤ c, ¬ Stale f c call.dest k := fun k hk hs => by have := hs.1; omega
  rw [hl, hl']
  refine .next ⟨by simp only [h.ip], h.calls, ?_, fun r _ => ?_, fun hs => ?_⟩
  · simp only [hpush]
    rw [h.locals, List.append_assoc]
  · exact h.regs r fun _ => hfresh _ (Nat.le_of_lt hc)
  · exact absurd hs (hfresh _ (by simp only; omega))

theorem foldableCallee_spec (h : foldableCallee m call = some callee) :
    resolveCallee m (.name call.operand1.nameText) = some callee ∧ 0 ≤ call.dest ∧
      (∀ a, calleeOf call.operand1 a = .name call.operand1.nameText) ∧
      ∀ i ∈ callee.instructions, i.opcode ≠ .call := by
  simp only [foldableCallee] at h
  split at h
  · cases h
  · rename_i hname
    split at h
    · cases h
    · split at h
      · cases h
      · rename_i g hg
        split at h
        · rename_i hcond
          cases h
          simp only [Bool.and_eq_true, Bool.not_eq_true', decide_eq_false_iff_not] at hcond
          obtain ⟨⟨⟨hpure, hbody⟩, -⟩, hd⟩ := hcond
          have hext : callee.isExtern = false := by
            simp only [isPure, Bool.and_eq_true, Bool.not_eq_true'] at hpure
            exact hpure.1.1
          refine ⟨findFunction_of_cte hg hext, Int.not_lt.mp hd, fun a => ?_, fun i hi hop => ?_⟩
          · cases ho : call.operand1 <;> simp_all [calleeOf, IRValue.nameText]
          · have := List.all_eq_true.mp hbody i hi
            simp [hop] at this
        · cases h

variable (rt) in
/-- At the call the function runs the callee and returns with the result, the folded function does
nothing. -/
theorem FoldRel.at_call (hok : FoldOk m f c st call callee args)
    (hf : Folds m f c st call callee args v) (h : FoldRel f c call.dest args v fr fr')
    (hip : fr.ip = c) (vars : String → Val) (w : W) :
    ∃ t t', FrameStep rt f fr t ∧
      (∀ rest tr, ∃ u, Lib.Quiet (mstep rt m vars) MState.trace (.run ⟨f, fr⟩ rest w tr) u ∧
        mstep rt m vars u = .next (.run ⟨f, t⟩ rest w tr)) ∧
      lstep rt (foldedFunction f c call.dest v) fr' w = .next t' w [] ∧
      FoldRel f c call.dest args v t t' ∧ t.ip = c + 1 ∧ t.locals = fr'.locals ∧
      t.regs = writeReg rt f call.dest (some (.word v)) fr.regs := by
  obtain ⟨hres, hd, hcallee, hnocall⟩ := foldableCallee_spec hf.resolves
  obtain ⟨st', heval, hv⟩ := hf.evaluates
  have hi : f.instructions[fr.ip]? = some call := by rw [hip]; exact hf.instr
  have hi' : (foldedFunction f c call.dest v).instructions[fr'.ip]? = some (toNop call) := by
    rw [h.ip, hip, folded_within hf.lt (argStart_le _ _) (Nat.le_refl _), hf.instr]; rfl
  have hpush : pushed f c args fr.ip = args.map .word := by
    rw [pushed, if_pos (by omega), hip, List.take_of_length_le (Nat.le_of_eq hf.length)]
  have hpend : fr.locals.pending = fr'.locals.pending ++ args.map .word := by
    rw [h.locals, hpush]
  have hloc : { fr.locals with pending := fr'.locals.pending } = fr'.locals := by
    rw [h.locals]
  -- the call takes exactly what was pushed for it
  have hact : fr.actOf rt f call w =
      .call (.name call.operand1.nameText) (args.map .word) fr'.locals := by
    simp only [Frame.actOf, act, hf.isCall, callAct, hcallee, hok.count.1, hpend,
      List.length_append, List.length_map, Nat.add_sub_cancel, List.drop_left', List.take_left', hloc]
  have hl : lstep rt f fr w = .call (.name call.operand1.nameText) (args.map .word)
      { fr with locals := fr'.locals } := by rw [lstep_at hi, hact]; rfl
  have hP : CallClosed m (· = callee) := by
    refine ⟨fun g hg => hg ▸ hok.shape, fun g i g' hg hi hop _ _ => ?_⟩
    subst hg
    exact absurd hop (hnocall i hi)
  refine ⟨_, { fr' with ip := fr'.ip + 1 }, .call (.word v) hl, fun rest tr => ?_, ?_, ?_⟩
  · obtain ⟨frc, hq, hret⟩ := evalFunction_quiet rt hP rfl hok.count.2.symm heval hok.eval
      vars ((fr.ip, fr.calls fr.ip) :: fr'.locals.path)
      (⟨f, { fr with locals := fr'.locals }⟩ :: rest) w tr
    have hcall : mstep rt m vars (.run ⟨f, fr⟩ rest w tr) = .next (.run
        ⟨callee, Frame.enter rt callee vars ((fr.ip, fr.calls fr.ip) :: fr'.locals.path)
          (args.map .word)⟩ (⟨f, { fr with locals := fr'.locals }⟩ :: rest) w tr) := by
      simp only [mstep, hl, hres]
    exact ⟨_, .next hcall rfl hq, by simp only [mstep, hret, mreturn, hv]⟩
  · rw [lstep_at hi']
    rfl
  · have hund : Stale f c call.dest (c + 1) :=
      ⟨Nat.lt_succ_self c, by rw [Nat.sub_self]; intro x hx; simp at hx⟩
    have hfresh : ¬ Stale f c call.dest fr.ip := fun hs => by have := hs.1; omega
    have hregs : Frame.resume rt f { fr with locals := fr'.locals } (.word v) =
        ⟨fr.ip + 1, writeReg rt f call.dest (some (.word v)) fr.regs, fr'.locals,
          update fr.calls fr.ip (fr.calls fr.ip + 1)⟩ := by simp only [Frame.resume, hi]
    rw [hregs]
    refine ⟨⟨by simp only [h.ip], fun k hk => ?_, ?_, fun r hr => ?_, fun _ => ?_⟩, by rw [hip],
      rfl, rfl⟩
    · simp only
      rw [hip, update_other hk, h.calls k hk]
    · rw [pushed, if_neg (by simp only; omega), List.append_nil]
    · simp only [hip] at hr
      simp only
      rw [writeReg_other fun he => hr he hund, h.regs r fun _ => hfresh]
    · simp only
      rw [writeReg_same hd, convTo_word hok.result]

/-- **What a folded call does at run time.** From where its arguments are pushed, control comes past
it with the result in its register; nothing else has changed, and what was pending still is. -/
theorem FoldOk.runs (hok : FoldOk m f c st call callee args)
    (hf : Folds m f c st call callee args v) (hr : Reach rt f fr)
    (hip : fr.ip = argStart f.instructions c) (vars : String → Val) (rest : List Activation) (w : W)
    (tr : List Event) :
    ∃ t, Lib.Steps (mstep rt m vars) (.run ⟨f, fr⟩ rest w tr) (.run ⟨f, t⟩ rest w tr) ∧
      t.ip = c + 1 ∧ t.locals = fr.locals ∧
      t.regs = writeReg rt f call.dest (some (.word v)) fr.regs := by
  -- the arguments, one after the other
  have hpush : ∀ j, argStart f.instructions c + j ≤ c → ∃ t, Reach rt f t ∧
      Lib.Steps (mstep rt m vars) (.run ⟨f, fr⟩ rest w tr) (.run ⟨f, t⟩ rest w tr) ∧
      t = { fr with
        ip := argStart f.instructions c + j
        locals := { fr.locals with
          pending := fr.locals.pending ++ pushed f c args (argStart f.instructions c + j) } } := by
    intro j
    induction j with
    | zero =>
      intro _
      refine ⟨fr, hr, .refl _, ?_⟩
      rw [Nat.add_zero, pushed_before (Nat.le_refl _), List.append_nil, ← hip]
    | succ j ih =>
      intro hj
      obtain ⟨t, hrt, hs, ht⟩ := ih (by omega)
      have htip : t.ip = argStart f.instructions c + j := by rw [ht]
      obtain ⟨x, hx, hl⟩ := hok.pushStep rt hf hrt (by omega) (by omega) w
      refine ⟨_, .step hrt (.next hl), hs.trans (.single ?_), ?_⟩
      · simp only [mstep, hl, List.append_nil]
      · rw [htip] at hx
        rw [← Nat.add_assoc, hx, htip, ht, List.append_assoc]
  have hac := argStart_le f.instructions c
  obtain ⟨t, -, hs, ht⟩ := hpush (c - argStart f.instructions c) (by omega)
  rw [Nat.add_sub_cancel' hac] at ht
  have hrel : FoldRel f c call.dest args v t { fr with ip := c } := by
    subst ht
    refine ⟨rfl, fun _ _ => rfl, rfl, fun _ _ => rfl, fun hst => ?_⟩
    have := hst.1
    simp only at this
    omega
  obtain ⟨t', -, -, hq, -, -, hip', hloc, hregs⟩ :=
    hrel.at_call rt hok hf (by rw [ht]) vars w
  obtain ⟨u, hu, hstep⟩ := hq rest tr
  refine ⟨t', hs.trans (hu.steps.trans (.single hstep)), hip', hloc, ?_⟩
  rw [hregs, ht]

/-- Activations of the module and of the module with the call folded. -/
def FoldActivations (rt : Runtime W) (f : IRFunction) (c : Nat) (d : Int) (args : List Word)
    (v : Word) (a a' : Activation) : Prop :=
  a' = a ∨ (a.func = f ∧ a'.func = foldedFunction f c d v ∧ Reach rt f a.frame ∧
    FoldRel f c d args v a.frame a'.frame)

/-- A step of a frame a run can pass leads to another. -/
theorem LResRel.reach {g : IRFunction} {R : Frame → Frame → Prop} {w : W} {l' : LRes W}
    (hr : Reach rt f fr) (h : LResRel rt f g R (lstep rt f fr w) l') :
    LResRel rt f g (fun t t' => Reach rt f t ∧ R t t') (lstep rt f fr w) l' := by
  generalize hl : lstep rt f fr w = l at h
  cases h with
  | next hR => exact .next ⟨.step hr (.next hl), hR⟩
  | call hR => exact .call fun v => ⟨.step hr (.call v hl), hR v⟩
  | ret v => exact .ret v
  | trap t => exact .trap t
  | stuck => exact .stuck

/-- Related activations match. -/
theorem FoldActivations.matches (hok : FoldOk m f c st call callee args)
    (hf : Folds m f c st call callee args v) (vars : String → Val) (a a' : Activation) (w : W)
    (h : FoldActivations rt f c call.dest args v a a') :
    ActivationMatch rt (FoldActivations rt f c call.dest args v) m vars a a' w := by
  rcases h with rfl | ⟨hfun, hfun', hr, h⟩
  · exact .of_eq fun fr => .inl rfl
  · obtain ⟨g, fr⟩ := a
    obtain ⟨g', fr'⟩ := a'
    simp only at hfun hfun' hr h
    subst hfun hfun'
    have hd := (foldableCallee_spec hf.resolves).2.1
    have hrel : ∀ t t', Reach rt g t ∧ FoldRel g c call.dest args v t t' →
        FoldActivations rt g c call.dest args v ⟨g, t⟩ ⟨foldedFunction g c call.dest v, t'⟩ :=
      fun t t' ht => .inr ⟨rfl, rfl, ht⟩
    by_cases hip : fr.ip = c
    · obtain ⟨t, t', hs, hq, hl', ht, -⟩ := h.at_call rt hok hf hip vars w
      exact .inner hq hl' (hrel t t' ⟨.step hr hs, ht⟩)
    · have hl : LResRel rt g (foldedFunction g c call.dest v) (FoldRel g c call.dest args v)
          (lstep rt g fr w) (lstep rt (foldedFunction g c call.dest v) fr' w) := by
        rcases Nat.lt_or_ge fr.ip (argStart g.instructions c) with ha | ha
        · exact h.before hf ha w
        · rcases Nat.lt_or_ge fr.ip c with hc | hc
          · exact h.argument hok hf hr ha hc w
          · exact h.past hf hd hok.uses (by omega) w
      refine .both ((LResRel.reach hr hl).mono hrel) fun callee args t t' hc hc' => ?_
      refine .of_lstep hc hc' ⟨h.ip, ?_, ?_⟩
      · rw [h.ip, h.calls fr.ip hip]
      · rw [h.locals]

/-- Searching a list in which one element is replaced by one that the search treats alike. -/
theorem find?_set {α : Type} {l : List α} {k : Nat} {x y : α} {p : α → Bool}
    (hx : l[k]? = some x) (hp : p y = p x) :
    (l.set k y).find? p = l.find? p ∨ (l.find? p = some x ∧ (l.set k y).find? p = some y) := by
  induction l generalizing k with
  | nil => cases hx
  | cons z l ih =>
    cases k with
    | zero =>
      obtain rfl : z = x := by simpa using hx
      rw [List.set_cons_zero, List.find?_cons, List.find?_cons, hp]
      cases hpz : p z with
      | true => exact .inr ⟨rfl, rfl⟩
      | false => exact .inl rfl
    | succ k =>
      rw [List.set_cons_succ, List.find?_cons, List.find?_cons]
      cases hpz : p z with
      | true => exact .inl rfl
      | false => exact ih (by simpa using hx)

/-- **One folded call keeps behaviour.** -/
theorem folded_same (hok : FoldOk m f c st call callee args)
    (hf : Folds m f c st call callee args v) {fi : Nat} (hfi : m.functions[fi]? = some f) :
    ModuleSame rt m
      { m with functions := m.functions.set fi (foldedFunction f c call.dest v) } := by
  refine .of_activations (A := FoldActivations rt f c call.dest args v)
    (fun vars a a' w h => h.matches hok hf vars a a' w) fun vars name => ?_
  have hset := find?_set (y := foldedFunction f c call.dest v)
    (p := fun g => g.name == name && !g.isExtern) hfi rfl
  simp only [findFunction]
  rcases hset with he | ⟨he, he'⟩
  · cases hg : m.functions.find? fun g => g.name == name && !g.isExtern with
    | none => exact .inl ⟨rfl, he.trans hg⟩
    | some g => exact .inr ⟨g, g, rfl, he.trans hg, fun _ _ => .inl rfl⟩
  · refine .inr ⟨f, _, he, he', fun path as => .inr ⟨rfl, rfl, .entry rfl, rfl, fun _ _ => rfl, ?_,
      fun _ _ => rfl, fun hs => absurd hs.1 (Nat.not_lt_zero _)⟩⟩
    have h0 : pushed f c args (Frame.enter rt f vars path as).ip = [] :=
      pushed_before (Nat.zero_le _)
    rw [h0, List.append_nil]
    rfl

end

end Cte
