import Orbit.Lib.C.Means
import Orbit.Emit.Target

/-!
# Operands and casts in C

The text of an operand means the word it stands for (`operand_means`), and the casts the backend
puts around it give that word as a `uintptr_t` or as an `int64_t` (`castText_unsigned`,
`castText_signed`). The value of an instruction is stored through two casts, which give back the
word whatever the type of the value was (`assigns`).
-/

namespace Emit

open IR (IRInstruction IRValue Word)
open Lib.C
open Lib.Decimal
open Lib.Text (chars intToString)

/-! ## Words -/

theorem conv_unsigned_toNat (w : Word) : conv .u64 w.toNat = w.toNat :=
  Int.emod_eq_of_lt (by omega) (by have := w.isLt; omega)

theorem conv_unsigned_toInt (w : Word) : conv .u64 w.toInt = w.toNat := by
  have hmod : conv .u64 w.toInt = w.toInt % 18446744073709551616 := rfl
  rw [hmod, BitVec.toInt_eq_toNat_bmod]
  exact (Int.bmod_emod (m := 18446744073709551616)).trans (conv_unsigned_toNat w)

theorem conv_signed_toNat (w : Word) : conv .i64 w.toNat = w.toInt := by
  rw [conv_i64, BitVec.toInt_eq_toNat_bmod]

theorem conv_signed_toInt (w : Word) : conv .i64 w.toInt = w.toInt := by
  rw [conv_i64, BitVec.toInt_eq_toNat_bmod, Int.bmod_bmod]

theorem toInt_bounds (w : Word) : -maxInt64 - 1 ≤ w.toInt ∧ w.toInt ≤ maxInt64 := by
  have h1 := BitVec.le_toInt w
  have h2 := BitVec.toInt_lt (x := w)
  rw [maxInt64]
  constructor <;> omega

theorem fits_toInt (w : Word) : fits .i64 w.toInt = true := by
  simpa [fits] using toInt_bounds w

theorem eq_intMin {w : Word} (h : w.toInt = -maxInt64 - 1) : w = BitVec.intMin 64 :=
  BitVec.eq_of_toInt_eq (h.trans (by decide))

/-! ## Names -/

theorem chars_reg : chars "r_" = ['r', '_'] := by simp [chars]
theorem chars_label : chars "label_" = ['l', 'a', 'b', 'e', 'l', '_'] := by simp [chars]
theorem chars_semi : chars ";\n" = [] ++ [';', '\n'] := by simp [chars]

theorem isWord_digits {c : Char} {w : Text} (h : isWord (c :: w) = true) (n : Nat) :
    isWord (c :: w ++ Nat.toDigits 10 n) = true := by
  simp only [isWord, List.cons_append, Bool.and_eq_true, List.all_append, List.all_eq_true] at h ⊢
  exact ⟨h.1, h.2, fun x hx => isIdentChar_of_mem_digits hx⟩

theorem isWord_regName (n : Nat) : isWord (regName n) = true := by
  rw [regName, chars_reg]
  exact isWord_digits (by decide) n

theorem isWord_labelName (n : Nat) : isWord (labelName n) = true := by
  rw [labelName, chars_label]
  exact isWord_digits (by decide) n

theorem cTypes_regName (n : Nat) : cTypes (regName n) = none := by
  have hhead : ∀ e ∈ typedefs, (chars e.1).head? ≠ some 'r' := by decide +kernel
  rw [cTypes, Option.map_eq_none_iff, List.find?_eq_none]
  intro e he h
  rw [decide_eq_true_eq] at h
  apply hhead e he
  rw [h, regName, chars_reg]
  rfl

/-! ## Operands -/

/-- The word an operand stands for. -/
def wordOf (regs : Int → Word) : IRValue → Word
  | .register n => if n < 0 then 0 else regs n
  | .int w => w
  | _ => 0

section
variable {backend : CBackend} {regs : Int → Word} {env : Env DivError}

theorem evalOperand_eq {W : Type} (rt : IR.Runtime W) {o : IRValue} (h : IntOperand backend o) :
    IR.evalOperand rt (fun n => .word (regs n)) o = .word (wordOf regs o) := by
  cases o with
  | register n =>
    rw [IR.evalOperand, IR.readReg, wordOf]
    split <;> rfl
  | int w => rfl
  | _ => exact h.elim

theorem generateValue_min {w : Word} (h : w ≠ 0 ∧ 0 - w = w) : w = BitVec.intMin 64 := by
  obtain ⟨h0, h1⟩ := h
  have h1 := congrArg BitVec.toNat h1
  have h0 : w.toNat ≠ 0 := fun h => h0 (BitVec.eq_of_toNat_eq h)
  apply BitVec.eq_of_toNat_eq
  have hlt := w.isLt
  have hz : (0 : Word).toNat = 0 := rfl
  rw [BitVec.toNat_sub, hz] at h1
  rw [show (BitVec.intMin 64).toNat = 9223372036854775808 from rfl]
  omega

theorem means_negative {n : Nat} (h : (n : Int) ≤ maxInt64) :
    Means cTypes env 3 ('-' :: Nat.toDigits 10 n) (constType n) (.ok (-(n : Int))) := by
  have hfits : fits (constType n) (-(n : Int)) = true := by
    obtain ⟨h32, hty⟩ | ⟨h32, hty⟩ := constType_cases n <;> rw [hty] <;>
      simp [fits, maxInt32, maxInt64] at * <;> omega
  have hdigits : Means cTypes env 2 (Nat.toDigits 10 n) (constType n) (.ok (n : Int)) :=
    means_digits h
  have := hdigits.neg (head_digits_ne_minus n) (constType_ne_u64 n)
  rwa [promote_constType, if_pos hfits] at this

/-- The tokens of `(-9223372036854775807LL-1)`. -/
def minTokens : List Tok :=
  [.punct .lpar, .punct .minus,
    .number ['9', '2', '2', '3', '3', '7', '2', '0', '3', '6', '8', '5', '4', '7', '7', '5', '8',
      '0', '7', 'L', 'L'], .punct .minus, .number ['1'], .punct .rpar]

theorem inner_min : Inner (chars "(-9223372036854775807LL-1)") minTokens := by
  obtain ⟨w, hw⟩ : ∃ w, chars "(-9223372036854775807LL-1)" = '(' :: w :=
    ⟨(chars "(-9223372036854775807LL-1)").tail, by simp [chars]⟩
  have hscan : scan (.op ['(']) ((chars "(-9223372036854775807LL-1)").tail) =
      (minTokens.dropLast, .op [')']) := by
    have htail : (chars "(-9223372036854775807LL-1)").tail = ['-', '9', '2', '2', '3', '3', '7', '2',
        '0', '3', '6', '8', '5', '4', '7', '7', '5', '8', '0', '7', 'L', 'L', '-', '1', ')'] := by
      simp [chars]
    rw [htail]
    rfl
  rw [hw] at hscan ⊢
  refine ⟨⟨'(', w, rfl, by decide⟩, fun p pre hp c hc rest => ?_⟩
  have hend : step (.op [')']) c = ([.punct .rpar], start c) :=
    step_close (by decide) (by decide) (punctOf_rpar c)
  have hstart : start '(' = .op ['('] := by decide
  rw [List.cons_append, scan, hp '(' rfl, hstart, scan_append,
    show w = ('(' :: w).tail from rfl, hscan, scan, hend]
  simp [minTokens]

theorem means_min (env : Env DivError) :
    Means cTypes env 10 (chars "(-9223372036854775807LL-1)") .i64
      (.ok (BitVec.intMin 64).toInt) := by
  refine ⟨.bin .sub (.un .neg (.num ['9', '2', '2', '3', '3', '7', '2', '0', '3', '6', '8', '5',
    '4', '7', '7', '5', '8', '0', '7', 'L', 'L'])) (.num ['1']), ⟨minTokens, inner_min, ?_⟩, ?_, ?_,
    by simp⟩
  · intro n rest hr
    rfl
  · rfl
  · rfl

theorem fits_neg (w : Word) : fits .i64 (-w.toInt) = true ↔ w ≠ BitVec.intMin 64 := by
  have hb := toInt_bounds w
  have hmin : w = BitVec.intMin 64 ↔ w.toInt = -maxInt64 - 1 :=
    ⟨fun h => by rw [h]; rfl, eq_intMin⟩
  rw [Ne, hmin]
  simp only [fits, Bool.and_eq_true, decide_eq_true_eq]
  omega

/-- The type can hold the negation of the word, unless that overflows. -/
def Negates (ty : Ty) (w : Word) : Prop :=
  fits (promote ty) (-w.toInt) = true ↔ w ≠ BitVec.intMin 64

theorem negates_small {ty : Ty} {w : Word} (h : fits (promote ty) (-w.toInt) = true)
    (hw : -maxInt64 ≤ w.toInt) : Negates ty w := by
  refine ⟨fun _ hmin => ?_, fun _ => h⟩
  rw [hmin] at hw
  exact absurd hw (by decide)

theorem negates_constType {w : Word} (h : w ≠ BitVec.intMin 64) :
    Negates (constType w.toInt.natAbs) w := by
  have hb := toInt_bounds w
  have hne : w.toInt ≠ -maxInt64 - 1 := fun he => h (eq_intMin he)
  refine negates_small ?_ (by omega)
  obtain ⟨h32, hty⟩ | ⟨h32, hty⟩ := constType_cases w.toInt.natAbs <;> rw [hty]
  · simp only [promote, fits, Bool.and_eq_true, decide_eq_true_eq]
    omega
  · simp only [promote, fits, Bool.and_eq_true, decide_eq_true_eq]
    omega

theorem negates_cType {w : Word} {t : String} (h : cType t = .bool → w = 0 ∨ w = 1) :
    Negates (cType t) w := by
  rw [cType] at h ⊢
  split
  · rw [if_pos (by assumption)] at h
    rcases h rfl with rfl | rfl
    · exact negates_small (by decide) (by decide)
    · exact negates_small (by decide) (by decide)
  · exact fits_neg w

variable (backend) in
/-- The text of a constant is its word. -/
theorem int_means (w : Word) (env : Env DivError) : ∃ ty, ty ≠ .u64 ∧ Negates ty w ∧
    Means cTypes env 10 (generateValue backend (.int w)) ty (.ok w.toInt) := by
  rw [generateValue]
  by_cases hmin : w ≠ 0 ∧ 0 - w = w
  · rw [if_pos hmin, generateValue_min hmin]
    exact ⟨.i64, by decide, fits_neg _, means_min env⟩
  · have hne : w ≠ BitVec.intMin 64 := by
      rintro rfl
      exact hmin (by decide)
    have hbounds := toInt_bounds w
    have hmax : w.toInt ≠ -maxInt64 - 1 := fun h => hne (eq_intMin h)
    have hty := constType_ne_u64 w.toInt.natAbs
    rw [if_neg hmin, intToString]
    by_cases hneg : w.toInt < 0
    · have : Means cTypes env 3 ('-' :: Nat.toDigits 10 w.toInt.natAbs) _
          (.ok (-(w.toInt.natAbs : Int))) := means_negative (by omega)
      rw [show -((w.toInt.natAbs : Nat) : Int) = w.toInt by omega] at this
      rw [if_pos hneg]
      exact ⟨_, hty, negates_constType hne, this.mono (by decide)⟩
    · have : Means cTypes env 2 (Nat.toDigits 10 w.toInt.natAbs) _
          (.ok (w.toInt.natAbs : Int)) := means_digits (by omega)
      rw [show ((w.toInt.natAbs : Nat) : Int) = w.toInt by omega] at this
      rw [if_neg hneg]
      exact ⟨_, hty, negates_constType hne, this.mono (by decide)⟩

/-- **Operands.** The text of a register or a constant is its word, at some type. -/
theorem operand_means (hd : Declares backend regs env) {o : IRValue} (ho : IntOperand backend o) :
    ∃ ty, ty ≠ .u64 ∧ Negates ty (wordOf regs o) ∧
      Means cTypes env 10 (generateValue backend o) ty (.ok (wordOf regs o).toInt) := by
  cases o with
  | register n =>
    rw [generateValue, wordOf]
    by_cases hn : n < 0
    · rw [if_pos hn, if_pos hn]
      exact ⟨_, by decide, negates_constType (w := 0) (by decide),
        (means_digits (n := 0) (by decide)).mono (by decide)⟩
    · rw [if_neg hn, if_neg hn]
      obtain ⟨k, rfl⟩ : ∃ k : Nat, n = k := ⟨n.toNat, by omega⟩
      have hk : k < backend.currentFunction.registerTypes.length := by
        rcases ho with h | h
        · exact absurd h hn
        · simpa using h
      have hvar := hd.vars k _ (List.getElem?_eq_getElem hk)
      have hname : chars "r_" ++ intToString (k : Int) = regName k := by
        simp [regName, intToString]
      rw [hname]
      refine ⟨_, ?_, negates_cType (hd.bools k _ (List.getElem?_eq_getElem hk)),
        (means_var (isWord_regName k) hvar (cTypes_regName k)).mono (by decide)⟩
      rw [cType]
      split <;> decide
  | int w => exact int_means backend w env
  | _ => exact ho.elim

/-! ## Casts -/

/-- A type name of the target, as it stands in a cast. -/
structure CastName (name : Text) (ty : Ty) : Prop where
  word : isWord name = true
  type : cTypes name = some ty

theorem castName_typedef : ∀ e ∈ typedefs,
    isWord (chars e.1) = true ∧ cTypes (chars e.1) = some e.2 := by
  decide +kernel

theorem castName_of_mem {name : String} {ty : Ty} (h : (name, ty) ∈ typedefs) :
    CastName (chars name) ty := by
  obtain ⟨hword, htype⟩ := castName_typedef _ h
  exact ⟨hword, htype⟩

theorem castName_uintptr : CastName (chars "uintptr_t") .u64 := castName_of_mem (by simp [typedefs])
theorem castName_intptr : CastName (chars "intptr_t") .i64 := castName_of_mem (by simp [typedefs])
theorem castName_int64 : CastName (chars "int64_t") .i64 := castName_of_mem (by simp [typedefs])
theorem castName_orbitInt : CastName (chars "orbit_int") .i64 :=
  castName_of_mem (by simp [typedefs])

theorem CastName.means {name t : Text} {s ty : Ty} {k : Nat} {r : Except (Fault DivError) Int}
    (h : CastName name s) (ht : Means cTypes env k t ty r) :
    Means cTypes env (k + 1) ('(' :: (name ++ ')' :: t)) s (r.map (conv s)) :=
  ht.cast (inner_word h.word) h.type

theorem means_paren {t : Text} {ty : Ty} {k : Nat} {r : Except (Fault DivError) Int}
    (h : Means cTypes env k t ty r) (hk : 0 < k) :
    Means cTypes env (k + 3) ('(' :: (t ++ [')'])) ty r := (h.bin hk).paren

theorem castText_one (cast : String) {name : String} {s : Ty} {o : IRValue}
    (hcast : chars cast = '(' :: (chars name ++ [')'])) (hname : CastName (chars name) s)
    (hd : Declares backend regs env) (ho : IntOperand backend o) :
    Means cTypes env 14 (castText backend cast o) s (.ok (conv s (wordOf regs o).toInt)) := by
  obtain ⟨ty, -, -, h⟩ := operand_means hd ho
  have := hname.means (means_paren h (by decide))
  rw [castText, hcast]
  simpa [Except.map] using this

theorem castText_unsigned (hd : Declares backend regs env) {o : IRValue}
    (ho : IntOperand backend o) :
    Means cTypes env 14 (castText backend "(uintptr_t)" o) .u64 (.ok (wordOf regs o).toNat) := by
  have := castText_one "(uintptr_t)" (by simp [chars]) castName_uintptr hd ho
  rwa [conv_unsigned_toInt] at this

theorem castText_signed (hd : Declares backend regs env) {o : IRValue}
    (ho : IntOperand backend o) :
    Means cTypes env 14 (castText backend "(intptr_t)" o) .i64 (.ok (wordOf regs o).toInt) := by
  have := castText_one "(intptr_t)" (by simp [chars]) castName_intptr hd ho
  rwa [conv_signed_toInt] at this

/-- A cast to `uintptr_t` and then to a signed type. -/
theorem castText_two {cast name : String} {o : IRValue}
    (hcast : chars cast = '(' :: (chars name ++ ')' :: chars "(uintptr_t)"))
    (hname : CastName (chars name) .i64) (hd : Declares backend regs env)
    (ho : IntOperand backend o) :
    Means cTypes env 15 (castText backend cast o) .i64 (.ok (wordOf regs o).toInt) := by
  have := hname.means (castText_unsigned hd ho)
  rw [castText] at this ⊢
  rw [hcast]
  simpa [Except.map, conv_signed_toNat] using this

theorem castText_orbitInt (hd : Declares backend regs env) {o : IRValue}
    (ho : IntOperand backend o) :
    Means cTypes env 15 (castText backend "(orbit_int)(uintptr_t)" o) .i64
      (.ok (wordOf regs o).toInt) :=
  castText_two (by simp [chars]) castName_orbitInt hd ho

theorem castText_int64 (hd : Declares backend regs env) {o : IRValue} (ho : IntOperand backend o) :
    Means cTypes env 15 (castText backend "(int64_t)(uintptr_t)" o) .i64
      (.ok (wordOf regs o).toInt) :=
  castText_two (by simp [chars]) castName_int64 hd ho

/-! ## Assignments -/

/-- The value is the word, modulo its width. -/
def Represents (v : Int) (w : Word) : Prop := v % 18446744073709551616 = w.toNat

theorem represents_toInt (w : Word) : Represents w.toInt w := conv_unsigned_toInt w
theorem represents_toNat (w : Word) : Represents w.toNat w := conv_unsigned_toNat w

theorem assignText_eq {d : Int} (hd : 0 ≤ d) (cast val close : Text) {after : String}
    (hafter : chars after = close ++ [';', '\n']) :
    assignText d cast val (chars after) = indent ++ (regName d.toNat ++ ' ' :: '=' :: ' ' ::
      ((cast ++ (val ++ close)) ++ [';', '\n'])) := by
  have h1 : chars "    r_" = indent ++ chars "r_" := by simp [chars, indent]
  have h2 : chars " = " = [' ', '=', ' '] := by simp [chars]
  have h3 : intToString d = Nat.toDigits 10 d.toNat := by
    rw [intToString, if_neg (by omega)]
    congr 1
    omega
  rw [assignText, h1, h2, h3, hafter, regName]
  simp

theorem DestOk.var {d : Int} (h : DestOk backend d) (hd : Declares backend regs env) :
    ∃ old, env.vars (regName d.toNat) = some (cType (registerType backend d), old) := by
  rw [registerType, if_neg (by have := h.1; omega), List.getD_eq_getElem _ _ h.2]
  exact ⟨_, hd.vars d.toNat _ (List.getElem?_eq_getElem h.2)⟩

theorem DestOk.intType {d : Int} (h : DestOk backend d) (hf : IntFunction backend) :
    isIntType (registerType backend d) = true := by
  rw [registerType, if_neg (by have := h.1; omega), List.getD_eq_getElem _ _ h.2]
  exact hf.types _ (List.getElem_mem h.2)

/-- An int or bool register is assigned through the same casts whatever the text of the value. -/
theorem generateRegAssign_int {d : Int} (h : DestOk backend d) (hf : IntFunction backend)
    (val : Text) : generateRegAssign backend d val = assignText d castInt val closeCast := by
  have hint := h.intType hf
  have henum := hf.notEnum _ hint
  simp [generateRegAssign, hint, henum]

/-- An assignment of a value, or the fault that its evaluation ends in. -/
theorem assign_means {d : Int} {k : Nat} {cast val close : Text} {after : String} {ty : Ty}
    {r : Except (Fault DivError) Int} (hdest : DestOk backend d) (hd : Declares backend regs env)
    (hafter : chars after = close ++ [';', '\n'])
    (h : MeansBin cTypes env k (cast ++ (val ++ close)) ty r) (hk : k ≤ depth) :
    ∃ stmt, parse cTypes (assignText d cast val (chars after)) = some stmt ∧
      stmt.WellTyped env ∧ exec env stmt =
        r.map fun v => .assign (regName d.toNat) (conv (cType (registerType backend d)) v) := by
  obtain ⟨old, hvar⟩ := hdest.var hd
  rw [assignText_eq hdest.1 cast val close hafter]
  exact h.assign hk (inner_word (isWord_regName d.toNat)) hvar

theorem castInt_eq : castInt = '(' :: (chars "orbit_int" ++ ')' :: '(' :: (chars "uintptr_t" ++
    ')' :: ['('])) := by simp [castInt, chars]

/-- A value through the casts. -/
theorem castInt_means {k : Nat} {val : Text} {ty : Ty} {r : Except (Fault DivError) Int}
    (h : MeansBin cTypes env k val ty r) : Means cTypes env (k + 4) (castInt ++ (val ++ [')'])) .i64
      ((r.map (conv .u64)).map (conv .i64)) := by
  have htext : castInt ++ (val ++ [')']) = '(' :: (chars "orbit_int" ++ ')' :: '(' ::
      (chars "uintptr_t" ++ ')' :: '(' :: (val ++ [')']))) := by
    rw [castInt_eq]
    simp
  rw [htext]
  exact castName_orbitInt.means (castName_uintptr.means h.paren)

/-- An assignment through the casts. -/
theorem assign_cast {d : Int} {k : Nat} {val : Text} {ty : Ty} {r : Except (Fault DivError) Int}
    (hdest : DestOk backend d) (hf : IntFunction backend) (hd : Declares backend regs env)
    (h : MeansBin cTypes env k val ty r) (hk : k ≤ 90) :
    ∃ stmt, parse cTypes (generateRegAssign backend d val) = some stmt ∧
      stmt.WellTyped env ∧ exec env stmt =
        r.map fun v => .assign (regName d.toNat)
          (conv (cType (registerType backend d)) (conv .i64 (conv .u64 v))) := by
  have hdepth : k + 4 + 1 ≤ depth := by
    rw [depth]
    omega
  have hafter : chars ");\n" = [')'] ++ [';', '\n'] := by simp [chars]
  have hbin := (castInt_means h).bin (by omega)
  rw [generateRegAssign_int hdest hf, closeCast]
  obtain ⟨stmt, hparse, hwt, hexec⟩ := assign_means hdest hd hafter hbin hdepth
  refine ⟨stmt, hparse, hwt, hexec.trans ?_⟩
  cases r <;> rfl

theorem Represents.conv_eq {v : Int} {w : Word} (h : Represents v w) :
    conv .i64 (conv .u64 v) = w.toInt := by
  have : conv .u64 v = w.toNat := h
  rw [this, conv_signed_toNat]

end

end Emit
