import Orbit.Emit.Constant
import Orbit.Emit.Proof.Operand
import Orbit.Opt.Proof.Minus

/-!
# The C of a literal under minus signs

A load of a constant assigns its word (`load_runs`), a negation of a register assigns the negated
word and has undefined behaviour at the minimum (`neg_runs`, `neg_fails`). So the code of a literal
leaves its number in the last register unless it negates the minimum (`minusCode_runs`,
`minusCode_fails`), and the folded code always does (`loads_run`).
-/

namespace Emit

open IR (IRInstruction IRValue Word)
open Lib.C
open Lib.Text (chars intToString)
open Build (loadAt negAt minusAt minusCode)
open Opt (minusValue)

/-! ## The texts -/

theorem contains_false {hay : Text} {needle : String} {c : Char} (hc : c ∈ chars needle)
    (hn : c ∉ hay) : contains hay needle = false := by
  rw [contains, Option.isSome_eq_false_iff, Option.isNone_iff_eq_none]
  cases h : Lib.Find.indexOf (chars needle) hay with
  | none => rfl
  | some p =>
    have hmem := (Lib.Find.indexOf_some h).1.subset hc
    exact absurd (List.mem_of_mem_drop hmem) hn

theorem digits_no_T (n : Nat) : 'T' ∉ Nat.toDigits 10 n := by
  intro h
  exact absurd (Lib.Decimal.isDigit_of_mem_digits h) (by decide)

section
variable {backend : CBackend} {env : Env DivError}

theorem constant_no_T (w : Word) : 'T' ∉ generateValue backend (.int w) := by
  rw [generateValue]
  split
  · unfold chars
    decide
  · rw [intToString]
    split
    · simp [digits_no_T]
    · exact digits_no_T _

theorem registerType_eq {r : Nat} {t : String}
    (h : backend.currentFunction.registerTypes[r]? = some t) : registerType backend r = t := by
  rw [registerType, if_neg (by omega), Int.toNat_natCast, List.getD_eq_getElem?_getD, h]
  rfl

/-- A load of a constant into an `int` register. -/
theorem emit_load {d : Nat} (hd : backend.currentFunction.registerTypes[d]? = some "int") (w : Word) :
    emitInstruction backend (loadAt d w) =
      some (assignText d castInt (generateValue backend (.int w)) closeCast) := by
  have htag : contains (generateValue backend (.int w)) "TAG_" = false :=
    contains_false (c := 'T') (by simp [chars]) (constant_no_T w)
  have hint : isIntType "int" = true := by decide
  have hemit : emitInstruction backend (loadAt d w) =
      some (generateRegAssign backend d (generateValue backend (.int w))) := rfl
  rw [hemit, generateRegAssign, registerType_eq hd, htag, hint]
  simp

/-- A negation of an `int` register. -/
theorem emit_neg {r : Nat} (hr : backend.currentFunction.registerTypes[r]? = some "int") (d : Int) :
    emitInstruction backend (negAt d r) =
      some (assignText d ['-'] (regName r) (chars ";\n")) := by
  have htype : operandDefType backend.currentFunction (.register r) = "int" := by
    have hneg : ¬ (r : Int) < 0 := by omega
    simp [operandDefType, hr, hneg]
  have hname : generateValue backend (.register r) = regName r := by
    rw [generateValue, if_neg (by omega), intToString, if_neg (by omega)]
    rfl
  have hemit : emitInstruction backend (negAt d r) =
      if operandDefType backend.currentFunction (.register r) == "float" then
        some (assignText d (chars "-(orbit_float)(") (generateValue backend (.register r)) closeCast)
      else some (assignText d ['-'] (generateValue backend (.register r)) (chars ";\n")) := rfl
  rw [hemit, htype, hname]
  rfl

/-! ## One statement -/

/-- An assignment to an `orbit_int` register, or the fault of its value. -/
theorem assign_reg {d k : Nat} {cast val close : Text} {after : String} {ty : Ty} {old : Int}
    {r : Except (Fault DivError) Int} (hvar : env.vars (regName d) = some (.i64, old))
    (hafter : chars after = close ++ [';', '\n'])
    (h : MeansBin cTypes env k (cast ++ (val ++ close)) ty r) (hk : k ≤ depth) :
    ∃ stmt, parse cTypes (assignText d cast val (chars after)) = some stmt ∧
      stmt.WellTyped env ∧ exec env stmt = r.map fun v => .assign (regName d) (conv .i64 v) := by
  rw [assignText_eq (Int.natCast_nonneg d) cast val close hafter, Int.toNat_natCast]
  exact h.assign hk (inner_word (isWord_regName d)) hvar

theorem load_runs {d : Nat} {old : Int} (hvar : env.vars (regName d) = some (.i64, old)) (w : Word) :
    run cTypes env [assignText d castInt (generateValue backend (.int w)) closeCast] =
      some (env.set (regName d) w.toInt) := by
  obtain ⟨ty, -, -, hmeans⟩ := int_means backend w env
  have hafter : chars ");\n" = [')'] ++ [';', '\n'] := by simp [chars]
  have hbin := (castInt_means (hmeans.bin (by decide))).bin (by decide)
  obtain ⟨stmt, hparse, hwt, hexec⟩ := assign_reg hvar hafter hbin (by decide)
  have hvalue : conv .i64 (conv .i64 (conv .u64 w.toInt)) = w.toInt := by
    rw [(represents_toInt w).conv_eq, conv_signed_toInt]
  simp only [Except.map, hvalue] at hexec
  exact run_assign hparse hwt hexec []

theorem neg_means {r : Nat} {w : Word} (hvar : env.vars (regName r) = some (.i64, w.toInt)) :
    Means cTypes env 3 ('-' :: regName r) .i64
      (if w ≠ BitVec.intMin 64 then .ok (-w.toInt) else .error .undefined) := by
  have hhead : (regName r).head? ≠ some '-' := by
    rw [regName, chars_reg]
    simp
  have := (means_var (isWord_regName r) hvar (cTypes_regName r)).neg hhead (by decide)
  rwa [show promote .i64 = .i64 from rfl, if_congr (fits_neg w) rfl rfl] at this

theorem toInt_neg {w : Word} (h : w ≠ BitVec.intMin 64) : (0 - w).toInt = -w.toInt := by
  have hsub : 0 - w = -w := by simp
  rw [hsub, BitVec.toInt_neg_of_ne_intMin h]

theorem neg_runs {d r : Nat} {old : Int} {w : Word} (hd : env.vars (regName d) = some (.i64, old))
    (hr : env.vars (regName r) = some (.i64, w.toInt)) (h : w ≠ BitVec.intMin 64) :
    run cTypes env [assignText d ['-'] (regName r) (chars ";\n")] =
      some (env.set (regName d) (0 - w).toInt) := by
  have hmeans := neg_means hr
  rw [if_pos h, ← toInt_neg h] at hmeans
  have hbin : MeansBin cTypes env 4 (['-'] ++ (regName r ++ [])) .i64 (.ok (0 - w).toInt) := by
    rw [List.append_nil]
    exact hmeans.bin (by decide)
  obtain ⟨stmt, hparse, hwt, hexec⟩ := assign_reg hd chars_semi hbin (by decide)
  simp only [Except.map, conv_signed_toInt] at hexec
  exact run_assign hparse hwt hexec []

/-- The negation of the minimum overflows. -/
theorem neg_fails {d r : Nat} {old : Int} (hd : env.vars (regName d) = some (.i64, old))
    (hr : env.vars (regName r) = some (.i64, (BitVec.intMin 64).toInt)) (ts : List Text) :
    run cTypes env (assignText d ['-'] (regName r) (chars ";\n") :: ts) = none := by
  have hmeans := neg_means hr
  rw [if_neg (by simp)] at hmeans
  have hbin : MeansBin cTypes env 4 (['-'] ++ (regName r ++ [])) .i64 (.error .undefined) := by
    rw [List.append_nil]
    exact hmeans.bin (by decide)
  obtain ⟨stmt, hparse, hwt, hexec⟩ := assign_reg hd chars_semi hbin (by decide)
  exact run_fault hparse hexec ts

/-! ## Runs -/

theorem RunsTo.nil : RunsTo backend env [] env := ⟨[], rfl, rfl⟩

theorem RunsTo.snoc {is : List IRInstruction} {i : IRInstruction} {t : Text}
    {env₁ env₂ : Env DivError} (h : RunsTo backend env is env₁)
    (hemit : emitInstruction backend i = some t) (hrun : run cTypes env₁ [t] = some env₂) :
    RunsTo backend env (is ++ [i]) env₂ := by
  obtain ⟨texts, htexts, hto⟩ := h
  refine ⟨texts ++ [t], ?_, ?_⟩
  · rw [List.map_append, List.map_append, htexts, List.map_cons, hemit]
    rfl
  · rw [run_append, hto]
    exact hrun

/-- The registers from `lo` to `hi` are variables of type `orbit_int`. -/
def IntVars (env : Env DivError) (lo hi : Nat) : Prop :=
  ∀ k, lo ≤ k → k < hi → ∃ v, env.vars (regName k) = some (.i64, v)

theorem IntVars.set {lo hi d : Nat} (h : IntVars env lo hi) (hlo : lo ≤ d) (hhi : d < hi) (v : Int) :
    IntVars (env.set (regName d) v) lo hi := by
  intro k hk hkh
  by_cases hkd : regName k = regName d
  · obtain ⟨old, hold⟩ := h d hlo hhi
    rw [hkd]
    exact ⟨v, Env.set_vars_self hold⟩
  · obtain ⟨old, hold⟩ := h k hk hkh
    exact ⟨old, (Env.set_vars_other hkd).trans hold⟩

/-- The code of a literal is in the function whose instructions are emitted: its registers are `int`
registers, and variables in C. -/
structure InFunction (backend : CBackend) (env : Env DivError) (base hi : Nat) : Prop where
  types : ∀ k, base ≤ k → k < hi → backend.currentFunction.registerTypes[k]? = some "int"
  vars : IntVars env base hi

/-- A run that leaves the value of the last register in it. -/
def Leaves (backend : CBackend) (env : Env DivError) (base hi n : Nat) (is : List IRInstruction)
    (w : Word) : Prop :=
  ∃ env', RunsTo backend env is env' ∧ IntVars env' base hi ∧
    env'.vars (regName (base + n)) = some (.i64, w.toInt)

section
variable {base hi n : Nat} {w : Word}

/-- A load behind code that runs. -/
theorem RunsTo.load {is : List IRInstruction} {env₁ : Env DivError} (h : RunsTo backend env is env₁)
    (hin : InFunction backend env base hi) (hvars : IntVars env₁ base hi) (hn : base + n < hi)
    (v : Word) : Leaves backend env base hi n (is ++ [loadAt ((base + n : Nat) : Int) v]) v := by
  obtain ⟨old, hold⟩ := hvars (base + n) (by omega) hn
  exact ⟨_, h.snoc (emit_load (hin.types _ (by omega) hn) v) (load_runs hold v),
    hvars.set (by omega) hn _, Env.set_vars_self hold⟩

/-- The folded code. -/
def loads (base : Nat) (w : Word) (n : Nat) : List IRInstruction :=
  (List.range (n + 1)).map fun k => loadAt ((base + k : Nat) : Int) (minusValue w k)

theorem loads_succ (base : Nat) (w : Word) (n : Nat) : loads base w (n + 1) =
    loads base w n ++ [loadAt ((base + (n + 1) : Nat) : Int) (minusValue w (n + 1))] := by
  rw [loads, List.range_succ, List.map_append]
  rfl

theorem loads_run (hin : InFunction backend env base hi) (hn : base + n < hi) :
    Leaves backend env base hi n (loads base w n) (minusValue w n) := by
  induction n with
  | zero => exact RunsTo.nil.load hin hin.vars hn w
  | succ n ih =>
    obtain ⟨env₁, hrun, hvars, -⟩ := ih (by omega)
    rw [loads_succ]
    exact hrun.load hin hvars hn _

theorem minusValue_ne_min (h : w ≠ BitVec.intMin 64) (n : Nat) :
    minusValue w n ≠ BitVec.intMin 64 := by
  induction n with
  | zero => exact h
  | succ n ih =>
    intro he
    apply ih
    have hsub : 0 - minusValue w n = -minusValue w n := by simp
    rw [minusValue, hsub] at he
    rw [← BitVec.neg_neg (x := minusValue w n), he]
    decide

/-- The code leaves its number unless it negates the minimum. -/
theorem minusCode_runs (hin : InFunction backend env base hi) (hn : base + n < hi)
    (h : w ≠ BitVec.intMin 64) :
    Leaves backend env base hi n (minusCode base w n) (minusValue w n) := by
  induction n with
  | zero => exact RunsTo.nil.load hin hin.vars hn w
  | succ n ih =>
    obtain ⟨env₁, hrun, hvars, hval⟩ := ih (by omega)
    obtain ⟨old, hold⟩ := hvars (base + (n + 1)) (by omega) hn
    have hemit : emitInstruction backend (minusAt base w (n + 1)) = some (assignText
        ((base + (n + 1) : Nat) : Int) ['-'] (regName (base + n)) (chars ";\n")) :=
      emit_neg (hin.types _ (by omega) (by omega)) _
    rw [Build.minusCode_succ]
    exact ⟨_, hrun.snoc hemit (neg_runs hold hval (minusValue_ne_min h n)),
      hvars.set (by omega) hn _, Env.set_vars_self hold⟩

/-- The negation of the minimum does not run. -/
theorem minusCode_fails (hin : InFunction backend env base hi) (hn : base + (n + 1) < hi)
    (env' : Env DivError) :
    ¬ RunsTo backend env (minusCode base (BitVec.intMin 64) (n + 1)) env' := by
  rintro ⟨texts, htexts, hrun⟩
  obtain ⟨old, hold⟩ := hin.vars base (Nat.le_refl _) (by omega)
  have hset := Env.set_vars_self (v := (BitVec.intMin 64).toInt) hold
  obtain ⟨old₁, hold₁⟩ := hin.vars.set (Nat.le_refl base) (by omega)
    (BitVec.intMin 64).toInt (base + 1)
    (by omega) (by omega)
  have hcode : minusCode base (BitVec.intMin 64) (n + 1) = loadAt base (BitVec.intMin 64) ::
      negAt ((base + 1 : Nat) : Int) base ::
        (List.range n).map fun k => minusAt base (BitVec.intMin 64) (k + 2) := by
    simp [minusCode, List.range_succ_eq_map, minusAt, Function.comp_def]
  rw [hcode, List.map_cons, List.map_cons, emit_load (hin.types base (Nat.le_refl _) (by omega)),
    emit_neg (hin.types base (Nat.le_refl _) (by omega))] at htexts
  cases texts with
  | nil => simp at htexts
  | cons t texts =>
    cases texts with
    | nil => simp at htexts
    | cons u texts =>
      simp only [List.map_cons, List.cons.injEq, Option.some.injEq] at htexts
      obtain ⟨rfl, rfl, -⟩ := htexts
      rw [← List.singleton_append, run_append, load_runs hold, Option.bind_some,
        neg_fails hold₁ hset] at hrun
      cases hrun

end

end

end Emit
