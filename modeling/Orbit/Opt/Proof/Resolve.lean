import Orbit.IR.Reach
import Orbit.IR.Sem
import Orbit.Opt.Optimizer

/-!
# What `resolveConstInt` resolves is what the register holds

`resolveConstInt` walks back from a use through single definitions. Two of its steps do not
follow from what it checks: it takes the only store of a variable even when the load comes before
that store or a declaration of the same name comes between them, and it takes the constant even
when a register of the chain is a float, which converts it. `chainOk` says that neither happens.
Then (`resolve_held`) the constant is the value of the operand in every frame that can reach the
use.
-/

namespace Opt

open IR

def declares (name : String) (i : IRInstruction) : Bool :=
  i.opcode == .declVar && i.operand1.nameText == name

/-- No declaration of `name` at a position of `[fromIdx, toIdx)`. -/
def declClear (f : IRFunction) (name : String) (fromIdx toIdx : Nat) : Bool :=
  ((f.instructions.take toIdx).drop fromIdx).all fun i => !declares name i

/-- The chain of definitions `resolveConstInt` follows is sound: no register on it is a float, and
each load comes after the store it takes, with no declaration of the variable between. -/
def chainOk (f : IRFunction) : Nat → IRValue → Bool
  | 0, _ => true
  | depth + 1, .register r =>
    !isFloatType (registerType f r) &&
    match positions (fun i => i.dest == r) f.instructions with
    | [defIdx] =>
      match f.instructions[defIdx]? with
      | some d =>
        match d.opcode with
        | .copy => chainOk f depth d.operand1
        | .loadVar =>
          match positions (storesTo d.operand1.nameText) f.instructions with
          | [storeIdx] =>
            match f.instructions[storeIdx]? with
            | some s =>
              storeIdx < defIdx && declClear f d.operand1.nameText storeIdx defIdx &&
                chainOk f depth s.operand2
            | none => true
          | _ => true
        | _ => true
      | none => true
    | _ => true
  | _ + 1, _ => true

theorem mem_positions {p : IRInstruction → Bool} {is : List IRInstruction} {k : Nat}
    {i : IRInstruction} (h : is[k]? = some i) (hp : p i = true) : k ∈ positions p is := by
  obtain ⟨hk, rfl⟩ := List.getElem?_eq_some_iff.mp h
  simp [positions, hk, hp]

/-- The only position of `p`. -/
theorem positions_single {p : IRInstruction → Bool} {is : List IRInstruction} {d k : Nat}
    {i : IRInstruction} (hd : positions p is = [d]) (h : is[k]? = some i) (hk : k ≠ d) :
    p i = false := by
  by_contra hp
  have hmem := mem_positions h (by simpa using hp)
  rw [hd] at hmem
  exact hk (List.mem_singleton.mp hmem)

theorem positions_at {p : IRInstruction → Bool} {is : List IRInstruction} {d : Nat}
    {i : IRInstruction} (hd : positions p is = [d]) (h : is[d]? = some i) : p i = true := by
  have hmem : d ∈ positions p is := by rw [hd]; exact List.mem_singleton_self d
  obtain ⟨hk, rfl⟩ := List.getElem?_eq_some_iff.mp h
  simpa [positions, hk] using hmem

theorem all_region {p : IRInstruction → Bool} {is : List IRInstruction} {a b k : Nat}
    {i : IRInstruction} (h : ((is.take b).drop a).all p = true) (ha : a ≤ k) (hb : k < b)
    (hi : is[k]? = some i) : p i = true := by
  refine List.all_eq_true.mp h i (List.mem_of_getElem? (i := k - a) ?_)
  rw [List.getElem?_drop, List.getElem?_take]
  simp [Nat.add_sub_cancel' ha, hb, hi]

theorem not_label_of_region {f : IRFunction} {a b k : Nat} {i : IRInstruction}
    (h : regionClear f a b = true) (ha : a ≤ k) (hb : k < b) (hi : f.instructions[k]? = some i) :
    i.opcode ≠ .label := by
  intro hop
  have := all_region h ha hb hi
  simp [hop, isBarrierOp] at this

section
variable {W : Type} {rt : Runtime W} {f : IRFunction}

/-- Position `k` is no label. -/
def NoLabel (f : IRFunction) (k : Nat) : Prop :=
  ∀ i, f.instructions[k]? = some i → i.opcode ≠ .label

/-- A property made true by the instruction at `d` and kept by those up to `u` holds of every
frame between them, when control cannot enter there. -/
theorem held_after {d u : Nat} {P : Frame → Prop} (hclear : ∀ k, d < k → k ≤ u → NoLabel f k)
    (hdef : ∀ fr fr' i, Reach rt f fr → fr.ip = d → f.instructions[d]? = some i →
      FallsThrough rt f i fr fr' → P fr')
    (hkeep : ∀ fr fr' i, d < fr.ip → fr.ip < u → f.instructions[fr.ip]? = some i →
      FallsThrough rt f i fr fr' → P fr → P fr') {fr : Frame} (hr : Reach rt f fr) :
    d < fr.ip → fr.ip ≤ u → P fr := by
  induction hr with
  | entry h0 => intro hd; omega
  | @step fr fr' hr hs ih =>
    intro hd hu
    obtain ⟨i, hi, hft⟩ := hs.falls (hclear _ hd hu)
    have hip := hft.ip
    by_cases h : fr.ip = d
    · exact hdef fr fr' i hr h (h ▸ hi) hft
    · exact hkeep fr fr' i (by omega) (by omega) hi hft (ih (by omega) (by omega))

/-- What the instruction at `d` writes to `r`, its only definition, `r` holds up to `u`. -/
theorem register_held {r : Int} {d u : Nat} {w : Word} (hr0 : 0 ≤ r)
    (hpos : positions (fun i => i.dest == r) f.instructions = [d])
    (hty : isFloatType (registerType f r) = false)
    (hclear : ∀ k, d < k → k ≤ u → NoLabel f k)
    (hdef : ∀ fr fr' i, Reach rt f fr → fr.ip = d → f.instructions[d]? = some i →
      FallsThrough rt f i fr fr' → fr'.regs = writeReg rt f i.dest (some (.word w)) fr.regs)
    {fr : Frame} (hr : Reach rt f fr) (hd : d < fr.ip) (hu : fr.ip ≤ u) :
    evalOperand rt fr.regs (.register r) = .word w := by
  have hreg : fr.regs r = .word w := by
    refine held_after (P := fun fr => fr.regs r = .word w) hclear ?_ ?_ hr hd hu
    · intro fr fr' i hr hip hi hft
      have hdest : i.dest = r := by simpa using positions_at hpos hi
      rw [hdef fr fr' i hr hip hi hft, hdest, writeReg_same hr0, convTo_word hty]
    · intro fr fr' i hd' _ hi hft hp
      obtain ⟨v, hv, -⟩ := hft.regs
      have hdest : i.dest ≠ r := by simpa using positions_single hpos hi (by omega)
      rw [hv, writeReg_other (Ne.symm hdest), hp]
  simp [evalOperand, readReg, Int.not_lt.mpr hr0, hreg]

/-- The value a `loadConst` or a `copy` of a word writes. -/
theorem regs_copy {i : IRInstruction} {fr fr' : Frame} {w : Word}
    (hft : FallsThrough rt f i fr fr') (h : i.opcode = .copy ∨ i.opcode = .loadConst)
    (hv : evalOperand rt fr.regs i.operand1 = .word w) :
    fr'.regs = writeReg rt f i.dest (some (.word w)) fr.regs := by
  obtain ⟨v, hreg, hact⟩ := hft.regs
  obtain ⟨w', l, w'', evs, ha⟩ := hact (by rcases h with h | h <;> simp [h])
  rw [act_copy h, hv] at ha
  cases ha
  exact hreg

theorem regs_loadVar {i : IRInstruction} {fr fr' : Frame} {w : Word}
    (hft : FallsThrough rt f i fr fr') (h : i.opcode = .loadVar) (hn : i.operand1.nameText ≠ "")
    (hv : fr.locals.vars i.operand1.nameText = .word w) :
    fr'.regs = writeReg rt f i.dest (some (.word w)) fr.regs := by
  obtain ⟨v, hreg, hact⟩ := hft.regs
  obtain ⟨w', l, w'', evs, ha⟩ := hact (by simp [h])
  rw [act_loadVar h hn, hv] at ha
  cases ha
  exact hreg

/-- What the only store of `x` stores at `s`, `x` holds up to `d`. -/
theorem variable_held {x : String} {s d : Nat} {w : Word} {i : IRInstruction}
    (hpos : positions (storesTo x) f.instructions = [s]) (hi : f.instructions[s]? = some i)
    (hdecl : declClear f x s d = true) (hclear : ∀ k, s < k → k ≤ d → NoLabel f k)
    (hval : ∀ fr, Reach rt f fr → fr.ip = s → evalOperand rt fr.regs i.operand2 = .word w)
    {fr : Frame} (hr : Reach rt f fr) (hs : s < fr.ip) (hd : fr.ip ≤ d) :
    fr.locals.vars x = .word w := by
  have hstore : i.opcode = .storeVar ∧ i.operand1.nameText = x := by
    simpa [storesTo] using positions_at hpos hi
  refine held_after (P := fun fr => fr.locals.vars x = .word w) hclear ?_ ?_ hr hs hd
  · intro fr fr' j hr hip hj hft
    obtain rfl : j = i := Option.some.inj (hj.symm.trans hi)
    rw [hft.vars, hstore.1, hstore.2, hval fr hr hip]
    simp [IROpcode.isStore]
  · intro fr fr' j hlo hhi hj hft hp
    have hst : storesTo x j = false := positions_single hpos hj (by omega)
    have hdc : declares x j = false := by
      simpa using all_region hdecl (by omega) hhi hj
    rw [hft.vars]
    split
    · rename_i hop
      have hne : x ≠ j.operand1.nameText := by
        rintro rfl
        cases hj' : j.opcode <;> simp_all [IROpcode.isStore, storesTo, declares]
      rw [update_other hne, hp]
    · exact hp

/-- What `resolveConstInt` has checked when it resolves register `r` at position `u`. -/
inductive Resolved (f : IRFunction) (depth : Nat) (r : Int) (u : Nat) : IRValue → Prop
  | const {d : Nat} {i : IRInstruction} :
      positions (fun i => i.dest == r) f.instructions = [d] → d < u →
      f.instructions[d]? = some i → i.opcode = .loadConst → regionClear f d u = true →
      Resolved f depth r u i.operand1
  | copy {d : Nat} {i : IRInstruction} {m : Word} :
      positions (fun i => i.dest == r) f.instructions = [d] → d < u →
      f.instructions[d]? = some i → i.opcode = .copy → regionClear f d u = true →
      resolveConstInt f depth i.operand1 d = .int m → Resolved f depth r u (.int m)
  | var {d s : Nat} {i st : IRInstruction} {m : Word} :
      positions (fun i => i.dest == r) f.instructions = [d] → d < u →
      f.instructions[d]? = some i → i.opcode = .loadVar → i.operand1.nameText ≠ "" →
      positions (storesTo i.operand1.nameText) f.instructions = [s] → s < u →
      f.instructions[s]? = some st → regionClear f s u = true →
      resolveConstInt f depth st.operand2 s = .int m → Resolved f depth r u (.int m)

/-- A register resolves to itself, or through a checked definition. -/
theorem resolve_cases (f : IRFunction) (depth : Nat) (r : Int) (u : Nat) :
    resolveConstInt f (depth + 1) (.register r) u = .register r ∨
      Resolved f depth r u (resolveConstInt f (depth + 1) (.register r) u) := by
  simp only [resolveConstInt]
  split
  · rename_i d hpos
    split
    · exact .inl rfl
    · rename_i hdu
      split
      · rename_i i hi
        split
        · rename_i hop
          split
          · rename_i hreg; exact .inr (.const hpos (by omega) hi hop hreg)
          · exact .inl rfl
        · rename_i hop
          split
          · rename_i m hm
            split
            · rename_i hreg; exact .inr (.copy hpos (by omega) hi hop hreg hm)
            · exact .inl rfl
          · exact .inl rfl
        · rename_i hop
          split
          · exact .inl rfl
          · rename_i hname
            split
            · rename_i s hspos
              split
              · exact .inl rfl
              · split
                · rename_i st hst
                  split
                  · rename_i m hm
                    split
                    · rename_i hreg
                      exact .inr (.var hpos (by omega) hi hop hname hspos (by omega) hst hreg hm)
                    · exact .inl rfl
                  · exact .inl rfl
                · exact .inl rfl
            · exact .inl rfl
        · exact .inl rfl
      · exact .inl rfl
  · exact .inl rfl

/-- Between a clear region and a use that is no label, control cannot enter. -/
theorem noLabel_upto {a u : Nat} (h : regionClear f a u = true) (hu : NoLabel f u) (k : Nat)
    (hk : a ≤ k) (hku : k ≤ u) : NoLabel f k := by
  rcases Nat.lt_or_eq_of_le hku with h' | rfl
  · exact fun j hj => not_label_of_region h hk h' hj
  · exact hu

/-- **The resolved constant is the value held.** In every frame that can reach the use, the operand
has the value of the constant it is resolved to. -/
theorem resolve_held (hwf : ∀ i ∈ f.instructions, ∀ o ∈ i.operands, o.wellFormed f = true)
    (depth : Nat) (o : IRValue) (u : Nat) (w : Word) (hok : chainOk f depth o = true)
    (hu : NoLabel f u) (ho : o.wellFormed f = true)
    (hw : ∀ regs, evalOperand rt regs (resolveConstInt f depth o u) = .word w) (fr : Frame)
    (hr : Reach rt f fr) (hip : fr.ip = u) : evalOperand rt fr.regs o = .word w := by
  induction depth generalizing o u fr with
  | zero => exact hw fr.regs
  | succ depth ih =>
    cases o with
    | register r =>
      have hr0 : 0 ≤ r := by
        simp only [IRValue.wellFormed, Bool.and_eq_true, decide_eq_true_eq] at ho
        exact ho.1
      simp only [chainOk, Bool.and_eq_true, Bool.not_eq_true'] at hok
      obtain ⟨hty, hok⟩ := hok
      rcases resolve_cases f depth r u with hself | hres
      · rw [hself] at hw
        exact hw fr.regs
      · subst hip
        generalize resolveConstInt f (depth + 1) (.register r) fr.ip = v at hw hres
        cases hres with
        | @const d i hpos hdu hi hop hreg =>
          refine register_held hr0 hpos hty (fun k hk hku => noLabel_upto hreg hu k (by omega) hku)
            ?_ hr hdu (Nat.le_refl _)
          intro fr fr' j _ _ hj hft
          obtain rfl : j = i := Option.some.inj (hj.symm.trans hi)
          exact regs_copy hft (.inr hop) (hw fr.regs)
        | @copy d i m hpos hdu hi hop hreg hm =>
          simp only [hpos, hi, hop] at hok
          have hop1 := hwf i (List.mem_of_getElem? hi) i.operand1 (by simp [IRInstruction.operands])
          refine register_held hr0 hpos hty (fun k hk hku => noLabel_upto hreg hu k (by omega) hku)
            ?_ hr hdu (Nat.le_refl _)
          intro fr1 fr' j hr1 hip1 hj hft
          obtain rfl : j = i := Option.some.inj (hj.symm.trans hi)
          refine regs_copy hft (.inl hop) ?_
          exact ih _ d hok (noLabel_upto hreg hu d (Nat.le_refl _) (by omega)) hop1
            (fun regs => by rw [hm]; exact hw regs) fr1 hr1 hip1
        | @var d s i st m hpos hdu hi hop hname hspos hsu hst hreg hm =>
          simp only [hpos, hi, hop, hspos, hst, Bool.and_eq_true, decide_eq_true_eq] at hok
          obtain ⟨⟨hsd, hdecl⟩, hok⟩ := hok
          have hop2 := hwf st (List.mem_of_getElem? hst) st.operand2
            (by simp [IRInstruction.operands])
          have hclear := noLabel_upto hreg hu
          have hval := ih _ s hok (hclear s (Nat.le_refl _) (by omega)) hop2
            (fun regs => by rw [hm]; exact hw regs)
          refine register_held hr0 hpos hty (fun k hk hku => hclear k (by omega) hku)
            ?_ hr hdu (Nat.le_refl _)
          intro fr1 fr' j hr1 hip1 hj hft
          obtain rfl : j = i := Option.some.inj (hj.symm.trans hi)
          apply regs_loadVar hft hop hname
          exact variable_held hspos hst hdecl (fun k hk hkd => hclear k (by omega) (by omega))
            hval hr1 (by omega) (by omega)
    | _ => exact hw fr.regs

end

end Opt
