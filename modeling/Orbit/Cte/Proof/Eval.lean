import Mathlib
import Orbit.Cte.Cteval
import Orbit.IR.Reach

/-!
# The interpreter against the run-time semantics

A run of `evalFunction` that returns is followed, instruction by instruction, by a run of the
module machine that returns the same word and that nobody can observe (`evalFunction_sound`). The
two agree on arithmetic, jumps, guards and calls. They do not agree where `stepOk` fails: the
interpreter takes every parameter read for a pushed argument and hands a call all that is pending,
leaves the old value in a register when it is loaded with a constant it does not know, and skips
declarations even of a parameter's name; and it knows no floats.
-/

namespace Cte

open IR

/-- The shape `buildFunction` gives a function: the parameters are read first, one after the other,
into registers `0, 1, …`; labels are placed once; the last instruction returns. -/
structure Shape (f : IRFunction) : Prop where
  named : f.name ≠ ""
  params : f.params.Nodup ∧ "" ∉ f.params ∧ f.params.length < 2 ^ 64
  reads : ∀ k < f.params.length, ∃ i, f.instructions[k]? = some i ∧ i.opcode = .arg ∧
    i.dest = k ∧ i.operand1 = .int (BitVec.ofNat 64 k)
  body : ∀ k i, f.params.length ≤ k → f.instructions[k]? = some i → i.opcode = .arg → i.dest = -1
  labels : ∀ i ∈ f.instructions, i.opcode = .label → ∃ n, i.operand1 = .label n
  once : ((f.instructions.filter fun i => i.opcode == .label).map (·.operand1)).Nodup
  returns : ∃ i, f.instructions.getLast? = some i ∧ i.opcode = .ret

/-- The checks of `Shape`, computed. -/
def shapeCheck (f : IRFunction) : Bool :=
  f.name != "" && decide f.params.Nodup && !f.params.contains "" &&
    decide (f.params.length < 2 ^ 64) &&
    (List.range f.params.length).all (fun k => f.instructions[k]?.any fun i =>
      i.opcode == .arg && i.dest == (k : Int) && i.operand1 == .int (BitVec.ofNat 64 k)) &&
    (f.instructions.drop f.params.length).all (fun i => i.opcode != .arg || i.dest == -1) &&
    f.instructions.all (fun i => i.opcode != .label ||
      match i.operand1 with
      | .label _ => true
      | _ => false) &&
    decide ((f.instructions.filter fun i => i.opcode == .label).map (·.operand1)).Nodup &&
    f.instructions.getLast?.any fun i => i.opcode == .ret

theorem Shape.of_check {f : IRFunction} (h : shapeCheck f = true) : Shape f := by
  simp only [shapeCheck, Bool.and_eq_true, bne_iff_ne, decide_eq_true_eq, Bool.not_eq_true',
    List.contains_eq_mem, decide_eq_false_iff_not, List.all_eq_true, List.mem_range,
    Option.any_eq_true_iff_get, beq_iff_eq, Bool.or_eq_true] at h
  obtain ⟨⟨⟨⟨⟨⟨⟨⟨hname, hnd⟩, hempty⟩, hlen⟩, hreads⟩, hbody⟩, hlabels⟩, honce⟩, hret⟩ := h
  refine ⟨hname, ⟨hnd, hempty, hlen⟩, ?_, ?_, ?_, honce, ?_⟩
  · intro k hk
    obtain ⟨hs, ⟨hop, hd⟩, ho⟩ := hreads k hk
    exact ⟨_, (Option.some_get hs).symm, hop, hd, ho⟩
  · intro k i hk hi hop
    have hmem : i ∈ f.instructions.drop f.params.length := by
      refine List.mem_iff_getElem?.mpr ⟨k - f.params.length, ?_⟩
      rw [List.getElem?_drop, show f.params.length + (k - f.params.length) = k by omega, hi]
    exact (hbody i hmem).resolve_left (fun h => h hop)
  · intro i hi hop
    have hl := (hlabels i hi).resolve_left (fun h => h hop)
    cases ho : i.operand1 with
    | label n => exact ⟨n, rfl⟩
    | _ => simp [ho] at hl
  · obtain ⟨hs, hop⟩ := hret
    exact ⟨_, (Option.some_get hs).symm, hop⟩

/-- No parameter of the function is a float. -/
def wordParams (f : IRFunction) : Bool := f.paramTypes.all fun t => !isFloatType t

/-- What the instruction gives is kept as a word: it is not assigned to a float. -/
def keepsWord (f : IRFunction) (i : IRInstruction) : Bool :=
  if i.opcode = .ret then !isFloatType f.returnType
  else i.dest < 0 || !isFloatType (registerType f i.dest)

/-- The interpreter treats instruction `i` as the run-time semantics does. -/
def stepOk (m : IRModule) (f : IRFunction) (l : EvalLocals) (i : IRInstruction) : Bool :=
  keepsWord f i &&
    match i.opcode with
    | .loadConst =>
      match i.operand1 with
      | .int _ | .bool _ | .float _ => true
      | _ => !regIsKnown l.regs i.dest
    | .declVar => !f.params.contains i.operand1.nameText
    | .call =>
      -- a function with parameters still has their reads pending at its first call
      f.params.isEmpty && callArity i.operand2 == l.pending.length &&
        match cteFindFunction m i.operand1.nameText with
        | some g => g.params.length == l.pending.length && wordParams g
        | none => true
    | _ => true

/-- Every step of the loop of `evalFunction` meets `stepOk`, those of its calls included. -/
def evalLoopOk (m : IRModule) : Nat → IRFunction → List Word → CTEState → EvalLocals → Bool
  | 0, _, _, _, _ => true
  | fuel + 1, f, args, st, l =>
    match f.instructions[l.ip]? with
    | none => true
    | some i =>
      stepOk m f l i &&
        let st := { st with steps := st.steps + 1 }
        match evalInstr m f args st.success l i with
        | .next l' => evalLoopOk m fuel f args st l'
        | .call callee =>
          match st.enter with
          | none => true
          | some st1 =>
            evalLoopOk m fuel callee l.pending st1 (.init l.pending) &&
              match evalLoop m fuel callee l.pending st1 (.init l.pending) with
              | some (true, st2) =>
                evalLoopOk m fuel f args st2 { l.set i.dest st2.result with pending := [] }
              | _ => true
        | _ => true

/-- A run of `evalFunction` that goes wrong nowhere. -/
def evalOk (m : IRModule) (fuel : Nat) (f : IRFunction) (args : List Word) (st : CTEState) : Bool :=
  wordParams f && match st.enter with
    | none => true
    | some st1 => evalLoopOk m fuel f args st1 (.init args)

/-! ## Registers -/

theorem padSet_getD {α : Type} {l : List α} {pad v d : α} {idx : Int} {j : Nat} (hpad : d = pad) :
    (padSet l pad idx v).getD j d = if 0 ≤ idx ∧ (j : Int) = idx then v else l.getD j d := by
  subst hpad
  unfold padSet
  split
  · rename_i h
    rw [if_neg (by omega)]
  · rename_i h
    rw [List.getD_eq_getElem?_getD, List.getD_eq_getElem?_getD]
    by_cases hj : j = idx.toNat
    · rw [if_pos (by omega), hj, List.getElem?_set_self (by simp; omega)]
      rfl
    · rw [if_neg (by omega), List.getElem?_set_ne (Ne.symm hj), List.getElem?_append]
      split
      · rfl
      · rename_i hlen
        rw [List.getElem?_eq_none (Nat.not_lt.mp hlen), List.getElem?_replicate]
        split <;> rfl

theorem regIsKnown_regSet {r : Regs} {idx j : Int} {v : Word} :
    regIsKnown (regSet r idx v) j = if 0 ≤ idx ∧ j = idx then true else regIsKnown r j := by
  unfold regIsKnown regSet
  split
  · rename_i h
    rw [if_neg (by omega)]
  · rename_i h
    rw [padSet_getD rfl]
    simp only [Int.toNat_of_nonneg (Int.not_lt.mp h)]

theorem regGet_regSet {r : Regs} {idx j : Int} {v : Word} :
    regGet (regSet r idx v) j = if 0 ≤ idx ∧ j = idx then v else regGet r j := by
  unfold regGet regSet
  split
  · rename_i h
    rw [if_neg (by omega)]
  · rename_i h
    rw [padSet_getD rfl]
    simp only [Int.toNat_of_nonneg (Int.not_lt.mp h)]

theorem regIsKnown_nonneg {r : Regs} {j : Int} (h : regIsKnown r j = true) : 0 ≤ j := by
  unfold regIsKnown at h
  split at h
  · cases h
  · omega

theorem init_known {args : List Word} {r : Int} (h : regIsKnown (EvalLocals.init args).regs r = true) :
    0 ≤ r ∧ r < args.length ∧ args[r.toNat]? = some (regGet (EvalLocals.init args).regs r) := by
  have h0 := regIsKnown_nonneg h
  simp only [regIsKnown, EvalLocals.init, Int.not_lt.mpr h0, if_false,
    List.getD_eq_getElem?_getD, List.getElem?_replicate] at h
  split at h
  · rename_i hlt
    refine ⟨h0, by omega, ?_⟩
    simp only [regGet, EvalLocals.init, Int.not_lt.mpr h0, if_false, List.getD_eq_getElem?_getD,
      List.getElem?_eq_getElem hlt, Option.getD_some]
  · cases h

/-! ## Operators -/

section
variable {W : Type} {rt : Runtime W}

theorem divisionStops_ok {op : Word → Word → Word} {line : Int} {a b : Word}
    (h : divisionStops a b = false) : checkedDiv op line a b = .ok (.word (op a b)) := by
  simp only [divisionStops, Bool.or_eq_false_iff, beq_eq_false_iff_ne] at h
  obtain ⟨hb, hmin⟩ := h
  rw [checkedDiv, if_neg hb, if_neg]
  rintro ⟨rfl, rfl⟩
  revert hmin
  decide

theorem evalUnary_operator {op : IROpcode} {a v : Word} (h : evalUnary op a = some v) (line : Int)
    (b : Val) : operator rt op line (.word a) b = some (.ok (.word v)) := by
  cases op <;> first | (cases h; done) | skip
  case copy => cases h; rfl
  case neg =>
    cases h
    simp [operator, toWord]
  case notOp =>
    cases h
    by_cases ha : a = 0 <;> simp [operator, truthy, ofBool, boolWord, ha]

theorem evalBinary_operator {op : IROpcode} {a b v : Word} (h : evalBinary op a b = some (some v))
    (line : Int) : operator rt op line (.word a) (.word b) = some (.ok (.word v)) := by
  cases op <;> first | (cases h; done) | skip
  case div =>
    simp only [evalBinary, Option.some.injEq] at h
    split at h
    · cases h
    · rename_i hs
      cases h
      simp [operator, Val.isFloat, divisionStops_ok (Bool.not_eq_true _ ▸ hs)]
  case mod =>
    simp only [evalBinary, Option.some.injEq] at h
    split at h
    · cases h
    · rename_i hs
      cases h
      simp [operator, divisionStops_ok (Bool.not_eq_true _ ▸ hs)]
  all_goals
    cases h
    rfl

/-! ## The relation -/

/-- The interpreter in `l` and the frame `fr` are at the same point of `f`. Registers whose
parameter is still to be read may differ. -/
structure EvalRel (f : IRFunction) (args : List Word) (l : EvalLocals) (fr : Frame) : Prop where
  ip : fr.ip = l.ip
  lt : l.ip < f.instructions.length
  regs : ∀ r : Int, regIsKnown l.regs r = true → r < l.ip ∨ f.params.length ≤ l.ip →
    fr.regs r = .word (regGet l.regs r)
  seeded : l.ip < f.params.length → l.regs = (EvalLocals.init args).regs
  vars : ∀ (k : Nat) p a, f.params[k]? = some p → args[k]? = some a → fr.locals.vars p = .word a
  pending : f.params = [] → fr.locals.pending = l.pending.map .word

theorem EvalRel.operand {f : IRFunction} {args : List Word} {l : EvalLocals} {fr : Frame}
    (h : EvalRel f args l fr) (hb : f.params.length ≤ l.ip) {o : IRValue} {v : Word}
    (hv : resolveValue l.regs o = some v) : evalOperand rt fr.regs o = .word v := by
  cases o with
  | int m => cases hv; rfl
  | bool b => cases hv; rfl
  | register n =>
    simp only [resolveValue] at hv
    split at hv
    · rename_i hk
      cases hv
      simp only [evalOperand, readReg, Int.not_lt.mpr (regIsKnown_nonneg hk), if_false]
      exact h.regs n hk (.inr hb)
    · cases hv
  | _ => cases hv

/-- Past the reads of the parameters: the instruction writes nothing the interpreter knows. -/
theorem EvalRel.skip {f : IRFunction} {args : List Word} {l : EvalLocals} {fr : Frame}
    (h : EvalRel f args l fr) (hb : f.params.length ≤ l.ip)
    (hlt : l.ip + 1 < f.instructions.length) {regs : Int → Val} {loc : Locals} {c : Nat → Nat}
    {pend : List Word}
    (hregs : ∀ r, regIsKnown l.regs r = true → regs r = fr.regs r)
    (hvars : ∀ p ∈ f.params, loc.vars p = fr.locals.vars p)
    (hpend : f.params = [] → loc.pending = pend.map .word) :
    EvalRel f args { l with pending := pend, ip := l.ip + 1 } ⟨fr.ip + 1, regs, loc, c⟩ where
  ip := by simp only [h.ip]
  lt := hlt
  regs r hr _ := (hregs r hr).trans (h.regs r hr (.inr hb))
  seeded hs := by simp only at hs; omega
  vars k p a hp ha := (hvars p (List.mem_of_getElem? hp)).trans (h.vars k p a hp ha)
  pending := hpend

theorem keepsWord_dest {f : IRFunction} {i : IRInstruction} (h : keepsWord f i = true)
    (hop : i.opcode ≠ .ret) (hd : 0 ≤ i.dest) : isFloatType (registerType f i.dest) = false := by
  simp only [keepsWord, hop, if_false, Bool.or_eq_true, decide_eq_true_eq, Bool.not_eq_true'] at h
  exact h.resolve_left (Int.not_lt.mpr hd)

/-- Past the reads of the parameters: the instruction writes the word the interpreter writes. -/
theorem EvalRel.write {f : IRFunction} {args : List Word} {l : EvalLocals} {fr : Frame}
    (h : EvalRel f args l fr) (hb : f.params.length ≤ l.ip)
    (hlt : l.ip + 1 < f.instructions.length) {d : Int}
    (hty : 0 ≤ d → isFloatType (registerType f d) = false) {v : Word} {loc : Locals} {c : Nat → Nat}
    {pend : List Word} (hvars : loc.vars = fr.locals.vars)
    (hpend : f.params = [] → loc.pending = pend.map .word) :
    EvalRel f args { l.set d v with pending := pend }
      ⟨fr.ip + 1, writeReg rt f d (some (.word v)) fr.regs, loc, c⟩ where
  ip := by simp only [h.ip, EvalLocals.set]
  lt := hlt
  regs r hr _ := by
    simp only [EvalLocals.set] at hr ⊢
    rw [regIsKnown_regSet] at hr
    rw [regGet_regSet]
    split at hr
    · rename_i hd
      rw [if_pos hd, hd.2, writeReg_same hd.1, convTo_word (hty hd.1)]
    · rename_i hd
      rw [if_neg hd]
      have hne : r ≠ d := fun he => hd ⟨he ▸ regIsKnown_nonneg hr, he⟩
      rw [writeReg_other hne]
      exact h.regs r hr (.inr hb)
  seeded hs := by simp only [EvalLocals.set] at hs; omega
  vars k p a hp ha := by
    simp only [hvars]
    exact h.vars k p a hp ha
  pending := hpend

/-! ## One instruction -/

/-- Only the last instruction need not have a next one. -/
theorem Shape.next_lt {f : IRFunction} (hf : Shape f) {k : Nat} {i : IRInstruction}
    (hi : f.instructions[k]? = some i) (h : i.opcode ≠ .ret) : k + 1 < f.instructions.length := by
  obtain ⟨j, hj, hret⟩ := hf.returns
  have hk := (List.getElem?_eq_some_iff.mp hi).1
  by_contra hlt
  have hlast : k = f.instructions.length - 1 := by omega
  rw [List.getLast?_eq_getElem?, ← hlast, hi] at hj
  exact h (Option.some.inj hj ▸ hret)

theorem findLabelIndex_eq {f : IRFunction} (hf : Shape f) (n : Int) :
    findLabelIndex f.instructions n = findLabel f.instructions n := by
  have hl := hf.labels
  unfold findLabelIndex findLabel
  generalize f.instructions = is at hl ⊢
  induction is with
  | nil => rfl
  | cons i is ih =>
    rw [List.findIdx?_cons, List.findIdx?_cons, ih fun j hj => hl j (List.mem_cons_of_mem i hj)]
    by_cases hop : i.opcode = .label
    · obtain ⟨k, hk⟩ := hl i List.mem_cons_self hop
      simp [hop, hk, labelNumber]
    · simp [hop]

theorem paramValue_spec {params : List String} {args : List Word} {name : String} {v : Word}
    (h : paramValue params args name = some v) :
    ∃ k : Nat, params[k]? = some name ∧ args[k]? = some v := by
  simp only [paramValue, Option.map_eq_some_iff] at h
  obtain ⟨⟨p, a⟩, hfind, rfl⟩ := h
  have hname : p = name := by simpa using List.find?_some hfind
  have hmem := List.mem_of_find?_eq_some hfind
  rw [List.mem_reverse] at hmem
  obtain ⟨k, hk⟩ := List.mem_iff_getElem?.mp hmem
  obtain ⟨hp, ha⟩ := List.getElem?_zip_eq_some.mp hk
  exact ⟨k, hname ▸ hp, ha⟩

section
variable {m : IRModule} {f : IRFunction} {args : List Word} {l : EvalLocals} {fr : Frame}
  {i : IRInstruction}

theorem lstep_rel (hrel : EvalRel f args l fr) (hi : f.instructions[l.ip]? = some i) (w : W) :
    lstep rt f fr w = fr.apply rt f i w (fr.actOf rt f i w) :=
  lstep_at (by rw [hrel.ip]; exact hi)

/-- The read of a parameter. -/
theorem read_param (hf : Shape f) (hkeep : keepsWord f i = true)
    (hargs : args.length = f.params.length) (hrel : EvalRel f args l fr)
    (hi : f.instructions[l.ip]? = some i) {ok : Bool}
    {l' : EvalLocals} (hb : l.ip < f.params.length) (h : evalInstr m f args ok l i = .next l')
    (w : W) : ∃ fr', lstep rt f fr w = .next fr' w [] ∧ EvalRel f args l' fr' := by
  obtain ⟨j, hj, hop, hdest, hidx⟩ := hf.reads l.ip hb
  obtain rfl : i = j := Option.some.inj (hi.symm.trans hj)
  -- the interpreter pushes the index and goes on
  have hl' : l' = { l with pending := l.pending ++ [BitVec.ofNat 64 l.ip], ip := l.ip + 1 } := by
    simp only [evalInstr, hop, isNopOrControl, hidx, resolveValue] at h
    cases ok with
    | true => simpa using h.symm
    | false => simp at h
  have hnat : (BitVec.ofNat 64 l.ip).toNat = l.ip := by
    rw [BitVec.toNat_ofNat, Nat.mod_eq_of_lt (by have := hf.params.2.2; omega)]
  have hp := List.getElem?_eq_getElem hb
  have ha := List.getElem?_eq_getElem (show l.ip < args.length by omega)
  have hact : fr.actOf rt f i w =
      .step (some (.word args[l.ip])) fr.locals w [] := by
    have hne : i.dest ≠ -1 := by omega
    simp only [Frame.actOf, act, hop, argAct, hne, if_false, hidx, hnat, hp]
    rw [hrel.vars l.ip _ _ hp ha]
  rw [lstep_rel hrel hi, hact]
  refine ⟨_, rfl, hl' ▸ ⟨by simp only [hrel.ip], hf.next_lt hi (by simp [hop]), ?_, ?_, hrel.vars, ?_⟩⟩
  · intro r hk hr
    have hseed := hrel.seeded hb
    simp only [hseed] at hk ⊢
    obtain ⟨h0, hlt, hval⟩ := init_known hk
    by_cases hrd : r = l.ip
    · have hdr : i.dest = r := by omega
      have hty := keepsWord_dest hkeep (by simp [hop]) (hdr ▸ h0)
      rw [hdr] at hty
      rw [hdr, writeReg_same h0, convTo_word hty]
      subst hrd
      rw [Int.toNat_natCast, ha] at hval
      rw [Option.some.inj hval]
    · rw [writeReg_other (by omega)]
      rw [← hseed]
      refine hrel.regs r (hseed ▸ hk) (.inl ?_)
      simp only at hr
      omega
  · intro _; exact hrel.seeded hb
  · intro hnil; rw [hnil] at hb; exact absurd hb (Nat.not_lt_zero _)

/-- A label stands past the reads of the parameters. -/
theorem Shape.label_body (hf : Shape f) {n : Int} {k : Nat}
    (h : findLabel f.instructions n = some k) :
    f.params.length ≤ k ∧ k < f.instructions.length := by
  obtain ⟨i, hi, hop⟩ := findLabel_spec h
  refine ⟨?_, (List.getElem?_eq_some_iff.mp hi).1⟩
  by_contra hk
  obtain ⟨j, hj, hop', -⟩ := hf.reads k (by omega)
  obtain rfl : i = j := Option.some.inj (hi.symm.trans hj)
  rw [hop] at hop'
  cases hop'

variable (rt) in
theorem jumpTo_rel (hf : Shape f) (hrel : EvalRel f args l fr) (hb : f.params.length ≤ l.ip)
    {o : IRValue} {l' : EvalLocals} (h : jumpTo f.instructions l o = .next l') (w : W) :
    ∃ n, labelNumber o = some n ∧ ∃ fr', fr.apply rt f i w (.goto n) = .next fr' w [] ∧
      EvalRel f args l' fr' := by
  have key : ∀ {n : Int}, jumpTo f.instructions l (.label n) = .next l' →
      ∃ fr', fr.apply rt f i w (.goto n) = .next fr' w [] ∧ EvalRel f args l' fr' := by
    intro n h
    rw [jumpTo, findLabelIndex_eq hf] at h
    cases hk : findLabel f.instructions n with
    | none => rw [hk] at h; cases h
    | some k =>
      rw [hk] at h
      cases h
      obtain ⟨hkb, hkl⟩ := hf.label_body hk
      refine ⟨{ fr with ip := k }, by simp only [Frame.apply, hk], rfl, hkl, ?_, ?_, hrel.vars,
        hrel.pending⟩
      · intro r hr _; exact hrel.regs r hr (.inr hb)
      · intro hs; simp only at hs; omega
  cases o with
  | label n => exact ⟨n, rfl, key h⟩
  | int v => exact ⟨v.toInt, rfl, key h⟩
  | _ => cases h

/-- An instruction past the reads of the parameters. -/
theorem evalInstr_body (hf : Shape f) (hrel : EvalRel f args l fr)
    (hi : f.instructions[l.ip]? = some i) {ok : Bool} {l' : EvalLocals}
    (hb : f.params.length ≤ l.ip) (hok : stepOk m f l i = true)
    (h : evalInstr m f args ok l i = .next l') (w : W) :
    ∃ fr', lstep rt f fr w = .next fr' w [] ∧ EvalRel f args l' fr' := by
  rw [lstep_rel hrel hi]
  rw [stepOk, Bool.and_eq_true] at hok
  obtain ⟨hkeep, hok⟩ := hok
  have hlt : i.opcode ≠ .ret → l.ip + 1 < f.instructions.length := hf.next_lt hi
  have resolved : ∀ {o v}, (if ok then resolveValue l.regs o else none) = some v →
      evalOperand rt fr.regs o = .word v := by
    intro o v hv
    cases ok with
    | true => exact hrel.operand hb hv
    | false => cases hv
  -- an instruction that goes on without touching what the interpreter knows
  have skip : ∀ {v : Option Val} {e : Locals}, i.opcode ≠ .ret →
      fr.actOf rt f i w = .step v e w [] → v = none ∨ regIsKnown l.regs i.dest = false →
      (∀ p ∈ f.params, e.vars p = fr.locals.vars p) → e.pending = fr.locals.pending →
      ∃ fr', fr.apply rt f i w (fr.actOf rt f i w) = .next fr' w [] ∧
        EvalRel f args { l with ip := l.ip + 1 } fr' := by
    intro v e hret ha hd hv hp
    rw [ha]
    refine ⟨_, rfl, hrel.skip hb (hlt hret) (fun r hr => ?_) hv
      fun hnil => hp.trans (hrel.pending hnil)⟩
    rcases hd with rfl | hd
    · rfl
    · exact writeReg_other fun he => by rw [he, hd] at hr; cases hr
  have write : ∀ {v : Word}, i.opcode ≠ .ret →
      fr.actOf rt f i w = .step (some (.word v)) fr.locals w [] →
      ∃ fr', fr.apply rt f i w (fr.actOf rt f i w) = .next fr' w [] ∧
        EvalRel f args (l.set i.dest v) fr' := by
    intro v hret ha
    rw [ha]
    exact ⟨_, rfl, hrel.write hb (hlt hret) (keepsWord_dest hkeep hret) rfl hrel.pending⟩
  simp only [evalInstr] at h
  split at h
  · rename_i hc
    cases h
    refine skip (v := none) (e := fr.locals) ?_ ?_ (.inl rfl) (fun _ _ => rfl) rfl
    · intro hop; simp [hop, isNopOrControl] at hc
    · unfold Frame.actOf act
      cases hop : i.opcode <;> rw [hop] at hc <;> cases hc
  · split at h
    · rename_i hop
      split at h
      · rename_i v hv
        cases h
        obtain ⟨k, hp, ha⟩ := paramValue_spec hv
        have hname : i.operand1.nameText ≠ "" := fun he =>
          hf.params.2.1 (he ▸ List.mem_of_getElem? hp)
        refine write (by simp [hop]) ?_
        rw [act_loadVar hop hname, hrel.vars k _ _ hp ha]
      · cases h
    · rename_i hop
      cases h
      have ha : fr.actOf rt f i w = .step none { fr.locals with
          vars := update fr.locals.vars i.operand1.nameText (evalOperand rt fr.regs i.operand2) }
          w [] := by simp only [Frame.actOf, act, hop]
      refine skip (by simp [hop]) ha (.inl rfl) (fun p hp => update_other ?_) rfl
      rintro rfl
      simp [hop] at hok
      exact hok hp
    · rename_i hop
      have hret : i.opcode ≠ .ret := by simp [hop]
      split at h
      · rename_i v hv
        cases h
        exact write hret (by rw [act_copy (.inr hop), hv]; rfl)
      · rename_i b hv
        cases h
        exact write hret (by rw [act_copy (.inr hop), hv]; rfl)
      · cases h
      · rename_i h1 h2 h3
        cases h
        have hunk : regIsKnown l.regs i.dest = false := by
          simp only [hop] at hok
          simpa using hok
        exact skip hret (act_copy (.inr hop)) (.inr hunk) (fun _ _ => rfl) rfl
    · rename_i hop
      obtain ⟨n, hn, fr', hfr⟩ := jumpTo_rel rt (i := i) hf hrel hb h w
      have ha : fr.actOf rt f i w = .goto n := by simp only [Frame.actOf, act, hop, hn]
      rw [ha]
      exact ⟨fr', hfr⟩
    · rename_i hop
      split at h
      · rename_i c hc
        have hcond := resolved hc
        split at h
        · rename_i hz
          obtain ⟨n, hn, fr', hfr⟩ := jumpTo_rel rt (i := i) hf hrel hb h w
          have ha : fr.actOf rt f i w = .goto n := by
            simp only [Frame.actOf, act, hop, hcond, hn, hz]
            rfl
          rw [ha]
          exact ⟨fr', hfr⟩
        · rename_i hz
          cases h
          refine skip (v := none) (e := fr.locals) (by simp [hop]) ?_ (.inl rfl)
            (fun _ _ => rfl) rfl
          have htrue : truthy rt (.word c) = true := bne_iff_ne.mpr hz
          simp only [Frame.actOf, act, hop, hcond, htrue, if_true]
      · cases h
    · rename_i hop
      split at h
      · rename_i v hv
        cases h
        have hd := hf.body l.ip i hb hi hop
        have ha : fr.actOf rt f i w =
            .step none { fr.locals with pending := fr.locals.pending ++ [.word v] } w [] := by
          simp only [Frame.actOf, act, hop, argAct, hd, if_true, resolved hv]
        rw [ha]
        refine ⟨_, rfl, hrel.skip hb (hlt (by simp [hop])) (fun _ _ => rfl) (fun _ _ => rfl)
          fun hnil => ?_⟩
        simp [hrel.pending hnil]
      · cases h
    · split at h
      · cases h
      · split at h
        · split at h <;> cases h
        · cases h
    · split at h
      · cases h
      · split at h <;> cases h
    · rename_i hret
      split at h
      · cases h
      · rename_i a ha
        have e1 := resolved ha
        split at h
        · rename_i v hv
          cases h
          exact write hret (act_operator (by rw [e1]; exact evalUnary_operator hv _ _))
        · split at h
          · cases h
          · rename_i b hb'
            have e2 := resolved hb'
            split at h
            · rename_i v hv
              cases h
              exact write hret (act_operator (by rw [e1, e2]; exact evalBinary_operator hv _))
            · cases h

variable (rt) in
/-- One instruction the interpreter passes. -/
theorem evalInstr_next (hf : Shape f)
    (hargs : args.length = f.params.length) (hrel : EvalRel f args l fr)
    (hi : f.instructions[l.ip]? = some i) {ok : Bool} {l' : EvalLocals}
    (hok : stepOk m f l i = true) (h : evalInstr m f args ok l i = .next l') (w : W) :
    ∃ fr', lstep rt f fr w = .next fr' w [] ∧ EvalRel f args l' fr' := by
  rcases Nat.lt_or_ge l.ip f.params.length with hb | hb
  · rw [stepOk, Bool.and_eq_true] at hok
    exact read_param hf hok.1 hargs hrel hi hb h w
  · exact evalInstr_body hf hrel hi hb hok h w

theorem Shape.body_of_not_arg (hf : Shape f) (hi : f.instructions[l.ip]? = some i)
    (hop : i.opcode ≠ .arg) : f.params.length ≤ l.ip := by
  by_contra hb
  obtain ⟨j, hj, hop', -⟩ := hf.reads l.ip (by omega)
  obtain rfl : i = j := Option.some.inj (hi.symm.trans hj)
  exact hop hop'

theorem jumpTo_cases (is : List IRInstruction) (l : EvalLocals) (o : IRValue) :
    jumpTo is l o = .stop ∨ ∃ l', jumpTo is l o = .next l' := by
  unfold jumpTo
  repeat' split
  all_goals first | exact .inl rfl | exact .inr ⟨_, rfl⟩

/-- Only a `ret` returns and only a `call` calls. -/
theorem evalInstr_opcode {ok : Bool} :
    (∀ v, evalInstr m f args ok l i = .ret v → i.opcode = .ret) ∧
      ∀ g, evalInstr m f args ok l i = .call g → i.opcode = .call := by
  have hj1 := jumpTo_cases f.instructions l i.operand1
  have hj2 := jumpTo_cases f.instructions l i.operand2
  unfold evalInstr
  constructor
  · intro v h
    simp only at h
    repeat' split at h
    all_goals first | assumption | cases h | skip
    · rcases hj1 with hj | ⟨_, hj⟩ <;> rw [hj] at h <;> cases h
    · rcases hj2 with hj | ⟨_, hj⟩ <;> rw [hj] at h <;> cases h
  · intro g h
    simp only at h
    repeat' split at h
    all_goals first | assumption | cases h | skip
    · rcases hj1 with hj | ⟨_, hj⟩ <;> rw [hj] at h <;> cases h
    · rcases hj2 with hj | ⟨_, hj⟩ <;> rw [hj] at h <;> cases h

/-- The return of a value. -/
theorem evalInstr_ret (hf : Shape f) (hkeep : keepsWord f i = true) (hrel : EvalRel f args l fr)
    (hi : f.instructions[l.ip]? = some i) {ok : Bool} {v : Word}
    (h : evalInstr m f args ok l i = .ret v) (w : W) : lstep rt f fr w = .ret (.word v) := by
  have hop := evalInstr_opcode.1 v h
  have hty : isFloatType f.returnType = false := by simpa [keepsWord, hop] using hkeep
  have hb := hf.body_of_not_arg hi (by simp [hop])
  rw [lstep_rel hrel hi]
  simp only [evalInstr, hop, isNopOrControl, Bool.false_eq_true, if_false] at h
  split at h
  · rename_i ho
    cases h
    simp [Frame.actOf, act, hop, ho, Frame.apply, retDefault, hty]
  · rename_i ho
    split at h
    · rename_i v' hv
      cases h
      have hval : evalOperand rt fr.regs i.operand1 = .word v := by
        cases ok with
        | true => exact hrel.operand hb hv
        | false => cases hv
      have hact : fr.actOf rt f i w = .ret (some (.word v)) := by
        simp only [Frame.actOf, act, hop, hval, if_neg ho]
      rw [hact, Frame.apply, convTo_word hty]
    · cases h

/-- What is found among all functions of a name is found among those that are not external. -/
theorem findFunction_of_cte {name : String} {g : IRFunction}
    (h : cteFindFunction m name = some g) (hg : g.isExtern = false) :
    findFunction m name = some g := by
  unfold cteFindFunction at h
  unfold findFunction
  generalize m.functions = fs at h ⊢
  induction fs with
  | nil => cases h
  | cons f fs ih =>
    rw [List.find?_cons] at h ⊢
    cases hn : f.name == name with
    | true =>
      rw [hn] at h
      cases h
      simp [hg]
    | false =>
      rw [hn] at h
      simpa using ih h

/-- Functions of the shape, whose calls of pure functions stay among them. -/
structure CallClosed (m : IRModule) (P : IRFunction → Prop) : Prop where
  shape : ∀ f, P f → Shape f
  calls : ∀ f i g, P f → i ∈ f.instructions → i.opcode = .call → g ∈ m.functions →
    isPure g = true → P g

variable (rt) in
/-- The call of a function of the module. -/
theorem evalInstr_call {P : IRFunction → Prop} (hP : CallClosed m P) (hf : P f)
    (hrel : EvalRel f args l fr) (hi : f.instructions[l.ip]? = some i) {ok : Bool} {g : IRFunction}
    (hok : stepOk m f l i = true) (h : evalInstr m f args ok l i = .call g) (w : W) :
    f.params.length ≤ l.ip ∧ i.opcode ≠ .ret ∧ wordParams g = true ∧ P g ∧
      l.pending.length = g.params.length ∧
      ∃ callee, resolveCallee m callee = some g ∧
        lstep rt f fr w = .call callee (l.pending.map .word)
          { fr with locals := { fr.locals with pending := [] } } := by
  have hop := evalInstr_opcode.2 g h
  have hb := (hP.shape f hf).body_of_not_arg hi (by simp [hop])
  simp only [stepOk, hop, Bool.and_eq_true, List.isEmpty_iff, beq_iff_eq] at hok
  obtain ⟨-, ⟨hnil, hk⟩, hg⟩ := hok
  simp only [evalInstr, hop, isNopOrControl, Bool.false_eq_true, if_false] at h
  split at h
  · cases h
  · split at h
    · rename_i g' hfind
      split at h
      · rename_i hpure
        cases h
        rw [hfind] at hg
        simp only [Bool.and_eq_true, beq_iff_eq] at hg
        have hmem := List.mem_of_find?_eq_some hfind
        have hPg := hP.calls f i g hf (List.mem_of_getElem? hi) hop hmem hpure
        have hname : g.name = i.operand1.nameText := by simpa using List.find?_some hfind
        have hext : g.isExtern = false := by
          simp only [isPure, Bool.and_eq_true, Bool.not_eq_true'] at hpure
          exact hpure.1.1
        have hcallee : ∀ v, calleeOf i.operand1 v = .name i.operand1.nameText := by
          have hne : i.operand1.nameText ≠ "" := hname ▸ (hP.shape g hPg).named
          cases ho : i.operand1 <;> simp_all [calleeOf, IRValue.nameText]
        refine ⟨hb, by simp [hop], hg.2, hPg, hg.1.symm, .name i.operand1.nameText,
          findFunction_of_cte hfind hext, ?_⟩
        have hpend := hrel.pending hnil
        rw [lstep_rel hrel hi]
        have hact : fr.actOf rt f i w = .call (.name i.operand1.nameText) (l.pending.map .word)
            { fr.locals with pending := [] } := by
          simp [Frame.actOf, act, hop, callAct, hcallee, hpend, hk]
        rw [hact, Frame.apply]
      · cases h
    · cases h

end

/-! ## Whole runs -/

theorem bindParams_other {ps ts : List String} {as : List Val} {vars : String → Val} {x : String}
    (h : x ∉ ps) : Frame.enter.bindParams rt ps ts as vars x = vars x := by
  induction ps generalizing ts as vars with
  | nil => cases ts <;> cases as <;> rfl
  | cons p ps ih =>
    have hp : x ≠ p := fun he => h (he ▸ List.mem_cons_self)
    have hps : x ∉ ps := fun hx => h (List.mem_cons_of_mem p hx)
    cases as with
    | nil => cases ts <;> rfl
    | cons a as => cases ts <;> exact (ih hps).trans (update_other hp)

/-- A frame starts with its parameters bound to the arguments. -/
theorem bindParams_get {ps ts : List String} {as : List Word} {vars : String → Val} {k : Nat}
    {p : String} {a : Word} (hnd : ps.Nodup) (hts : ts.all (fun t => !isFloatType t) = true)
    (hp : ps[k]? = some p) (ha : as[k]? = some a) :
    Frame.enter.bindParams rt ps ts (as.map .word) vars p = .word a := by
  induction ps generalizing ts as vars k with
  | nil => cases hp
  | cons q ps ih =>
    obtain ⟨hq, hnd⟩ := List.nodup_cons.mp hnd
    cases as with
    | nil => cases ha
    | cons b as =>
      cases k with
      | zero =>
        obtain rfl : q = p := by simpa using hp
        obtain rfl : b = a := by simpa using ha
        cases ts with
        | nil => exact (bindParams_other hq).trans (update_same _ _ _)
        | cons t ts =>
          refine (bindParams_other hq).trans ?_
          rw [update_same]
          exact convTo_word (by simpa using List.all_eq_true.mp hts t List.mem_cons_self) b
      | succ k =>
        cases ts with
        | nil => exact ih hnd hts hp ha
        | cons t ts => exact ih hnd (by simp at hts ⊢; exact hts.2) hp ha

theorem EvalRel.entry {f : IRFunction} (hf : Shape f) (hpt : wordParams f = true) {args : List Word}
    (hargs : args.length = f.params.length) (vars : String → Val) (path : Path) :
    EvalRel f args (.init args) (Frame.enter rt f vars path (args.map .word)) where
  ip := rfl
  lt := by
    obtain ⟨i, hi, -⟩ := hf.returns
    exact List.length_pos_iff.mpr fun h => by rw [h] at hi; cases hi
  regs r hr hip := by
    obtain ⟨h0, hlt, -⟩ := init_known hr
    simp only [EvalLocals.init] at hip
    omega
  seeded _ := rfl
  vars k p a hp ha := by
    exact bindParams_get hf.params.1 hpt hp ha
  pending _ := rfl

open Lib (Quiet Halts)

/-- **The loop, followed.** When the loop of `evalFunction` returns, the machine comes, unobserved,
to the return of the same word from the same activation. -/
theorem evalLoop_sound {m : IRModule} {P : IRFunction → Prop} (hP : CallClosed m P)
    (vars : String → Val) (w : W) (tr : List Event) (fuel : Nat) :
    ∀ {f : IRFunction} {args : List Word} {st st' : CTEState} {l : EvalLocals} {fr : Frame}
      (rest : List Activation), P f → args.length = f.params.length →
      evalLoop m fuel f args st l = some (true, st') → evalLoopOk m fuel f args st l = true →
      EvalRel f args l fr → ∃ fr', Quiet (mstep rt m vars) MState.trace (.run ⟨f, fr⟩ rest w tr)
        (.run ⟨f, fr'⟩ rest w tr) ∧ lstep rt f fr' w = .ret (.word st'.result) := by
  induction fuel with
  | zero => intro f args st st' l fr rest _ _ h; cases h
  | succ fuel ih =>
    intro f args st st' l fr rest hPf hargs h hok hrel
    have hf := hP.shape f hPf
    obtain ⟨i, hi⟩ : ∃ i, f.instructions[l.ip]? = some i := ⟨_, List.getElem?_eq_getElem hrel.lt⟩
    simp only [evalLoop, hi] at h
    simp only [evalLoopOk, hi, Bool.and_eq_true] at hok
    obtain ⟨hstep, hok⟩ := hok
    split at h
    · cases h
    · split at h
      · rename_i l' hact
        rw [hact] at hok
        obtain ⟨fr1, hl, hrel'⟩ := evalInstr_next rt hf hargs hrel hi hstep hact w
        obtain ⟨fr', hs, hret⟩ := ih rest hPf hargs h hok hrel'
        have hnext : mstep rt m vars (.run ⟨f, fr⟩ rest w tr) = .next (.run ⟨f, fr1⟩ rest w tr) := by
          simp only [mstep, hl, List.append_nil]
        exact ⟨fr', .next hnext rfl hs, hret⟩
      · cases h
      · rename_i v hact
        cases h
        exact ⟨fr, .refl _, evalInstr_ret hf (Bool.and_eq_true_iff.mp hstep).1 hrel hi hact w⟩
      · rename_i g hact
        rw [hact] at hok
        obtain ⟨hb, hnr, hgf, hPg, hlen, callee, hres, hl⟩ :=
          evalInstr_call rt hP hPf hrel hi hstep hact w
        split at h
        · cases h
        · rename_i st1 hst1
          simp only [hst1, Bool.and_eq_true] at hok
          obtain ⟨hok1, hok2⟩ := hok
          split at h
          · cases h
          · cases h
          · rename_i st2 hst2
            rw [hst2] at hok2
            -- the callee runs in a frame of its own and returns to this one
            obtain ⟨fr0, hfr0⟩ : ∃ fr0 : Frame,
                fr0 = { fr with locals := { fr.locals with pending := [] } } := ⟨_, rfl⟩
            rw [← hfr0] at hl
            obtain ⟨fr1, hs1, hret1⟩ := ih (⟨f, fr0⟩ :: rest) hPg hlen hst2 hok1
              (EvalRel.entry (hP.shape g hPg) hgf hlen vars
                ((fr0.ip, fr0.calls fr0.ip) :: fr0.locals.path))
            have hrel' : EvalRel f args { l.set i.dest st2.result with pending := [] }
                (Frame.resume rt f fr0 (.word st2.result)) := by
              have hi' : f.instructions[fr.ip]? = some i := by rw [hrel.ip]; exact hi
              simp only [Frame.resume, hfr0, hi']
              exact hrel.write hb (hf.next_lt hi hnr)
                (keepsWord_dest (Bool.and_eq_true_iff.mp hstep).1 hnr) rfl fun _ => rfl
            obtain ⟨fr2, hs2, hret2⟩ := ih rest hPf hargs h hok2 hrel'
            have hcall : mstep rt m vars (.run ⟨f, fr⟩ rest w tr) = .next (.run
                ⟨g, Frame.enter rt g vars ((fr0.ip, fr0.calls fr0.ip) :: fr0.locals.path)
                  (l.pending.map .word)⟩ (⟨f, fr0⟩ :: rest) w tr) := by
              simp only [mstep, hl, hres]
            have hback : mstep rt m vars (.run ⟨g, fr1⟩ (⟨f, fr0⟩ :: rest) w tr) =
                .next (.run ⟨f, Frame.resume rt f fr0 (.word st2.result)⟩ rest w tr) := by
              simp only [mstep, hret1, mreturn]
            exact ⟨fr2, .next hcall rfl (hs1.trans (.next hback rfl hs2)), hret2⟩

variable (rt) in
/-- A run of the interpreter, in a frame entered with the arguments. -/
theorem evalFunction_quiet {m : IRModule} {P : IRFunction → Prop} (hP : CallClosed m P)
    {f : IRFunction} (hf : P f) {args : List Word} (hargs : args.length = f.params.length)
    {fuel : Nat} {st st' : CTEState} (h : evalFunction m fuel f args st = some (true, st'))
    (hok : evalOk m fuel f args st = true) (vars : String → Val) (path : Path)
    (rest : List Activation) (w : W) (tr : List Event) :
    ∃ fr', Quiet (mstep rt m vars) MState.trace
      (.run ⟨f, Frame.enter rt f vars path (args.map .word)⟩ rest w tr) (.run ⟨f, fr'⟩ rest w tr) ∧
      lstep rt f fr' w = .ret (.word st'.result) := by
  simp only [evalFunction] at h
  simp only [evalOk, Bool.and_eq_true] at hok
  obtain ⟨hpt, hok⟩ := hok
  split at h
  · cases h
  · rename_i st1 hst1
    rw [hst1] at hok
    exact evalLoop_sound hP vars w tr fuel rest hf hargs h hok
      (EvalRel.entry (hP.shape f hf) hpt hargs vars path)

end

/-! ## Termination -/

open Lib (Halts)

/-- The loop returns once its fuel exceeds the steps that are left. -/
theorem evalLoop_returns {m : IRModule} (fuel : Nat) :
    ∀ (f : IRFunction) (args : List Word) (st : CTEState) (l : EvalLocals),
      maxSteps + 2 - st.steps ≤ fuel → 0 < fuel →
      ∃ b st', evalLoop m fuel f args st l = some (b, st') ∧ st.steps ≤ st'.steps := by
  induction fuel with
  | zero => intro f args st l _ h; omega
  | succ fuel ih =>
    intro f args st l hfuel _
    simp only [evalLoop]
    split
    · exact ⟨_, _, rfl, Int.le_refl _⟩
    · rename_i i hi
      split
      · exact ⟨_, _, rfl, Int.le_refl _⟩
      · rename_i hsteps
        split
        · rename_i l' hl'
          obtain ⟨b, st', he, hle⟩ := ih f args { st with steps := st.steps + 1 } l'
            (by dsimp only; omega) (by omega)
          exact ⟨b, st', he, by dsimp only at hle; omega⟩
        · exact ⟨_, _, rfl, by simp only [CTEState.fail]; omega⟩
        · exact ⟨_, _, rfl, by simp only [CTEState.leave]; omega⟩
        · split
          · exact ⟨_, _, rfl, by simp only [CTEState.fail]; omega⟩
          · rename_i callee _ _ st1 hst1
            have h1 : st1.steps = st.steps + 1 := by
              simp only [CTEState.enter] at hst1
              split at hst1 <;> cases hst1
              rfl
            obtain ⟨b, st2, he, hle⟩ := ih callee l.pending st1 (.init l.pending) (by omega)
              (by omega)
            rw [he]
            cases b with
            | false => exact ⟨_, _, rfl, by dsimp only; omega⟩
            | true =>
              obtain ⟨b, st', he', hle'⟩ := ih f args st2
                { l.set i.dest st2.result with pending := [] } (by omega) (by omega)
              exact ⟨b, st', he', by omega⟩

/-- `evalFuel` is more than `evalFunction` takes: its step limit stops it first. -/
theorem evalFunction_returns (m : IRModule) (f : IRFunction) (args : List Word) (st : CTEState)
    (h : 0 ≤ st.steps) : (evalFunction m evalFuel f args st).isSome := by
  simp only [evalFunction]
  split
  · rfl
  · rename_i st1 hst1
    have h1 : st1.steps = st.steps := by
      simp only [CTEState.enter] at hst1
      split at hst1 <;> cases hst1
      rfl
    obtain ⟨b, st', he, -⟩ := evalLoop_returns (m := m) evalFuel f args st1 (.init args)
      (by simp only [maxSteps, evalFuel]; omega) (by decide)
    rw [he]
    rfl

/-- `fn pass(y) { return y }`. -/
def passFunction : IRFunction :=
  { initIRFunction "pass" with
    params := ["y"], paramTypes := ["int"], returnType := "int", registerCount := 2,
    registerTypes := ["int", "int"]
    instructions := [
      { irInitInstr .arg with dest := 0, operand1 := irInt 0 },
      { irInitInstr .loadVar with dest := 1, operand1 := irString "y" },
      { irInitInstr .ret with operand1 := irRegister 1 }] }

/-- `fn hand_on(x) { return pass(x) }`. -/
def handOnFunction : IRFunction :=
  { initIRFunction "hand_on" with
    params := ["x"], paramTypes := ["int"], returnType := "int", registerCount := 3,
    registerTypes := ["int", "int", "int"]
    instructions := [
      { irInitInstr .arg with dest := 0, operand1 := irInt 0 },
      { irInitInstr .loadVar with dest := 1, operand1 := irString "x" },
      { irInitInstr .arg with operand1 := irRegister 1 },
      { irInitInstr .call with dest := 2, operand1 := irString "pass", operand2 := irInt 1 },
      { irInitInstr .ret with operand1 := irRegister 2 }] }

/-- `fn seven() { return pass(7) }`. -/
def sevenFunction : IRFunction :=
  { initIRFunction "seven" with
    returnType := "int", registerCount := 2, registerTypes := ["int", "int"]
    instructions := [
      { irInitInstr .loadConst with dest := 0, operand1 := irInt 7 },
      { irInitInstr .arg with operand1 := irRegister 0 },
      { irInitInstr .call with dest := 1, operand1 := irString "pass", operand2 := irInt 1 },
      { irInitInstr .ret with operand1 := irRegister 1 }] }

def passModule : IRModule :=
  { initIRModule with functions := [passFunction, handOnFunction, sevenFunction] }

theorem passModule_shape : ∀ g ∈ passModule.functions, Shape g := by
  intro g hg
  refine .of_check ?_
  revert g
  decide

end Cte
