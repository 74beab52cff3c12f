import Orbit.Emit.Proof.MinusCode
import Orbit.Emit.Proof.TopLevel

/-!
# Integer constants keep their value

At a site the code of a literal is the code that the builder added, or the folded one
(`Site.Hosts.code_eq`), so it leaves the number unless it negates the minimum and was not folded
(`Site.Hosts.leaves`, `Site.Hosts.fails`). With the texts of arguments and returns this settles every
position: `constants_iff`.
-/

namespace Emit

open Front
open IR (IRInstruction IRFunction IRValue Word)
open Lib.C
open Lib.Text (chars intToString)
open Build (loadAt minusAt minusCode withMinus)
open Opt (minusValue HasMinus)

/-! ## The number -/

theorem orbitValue_eq (n : Nat) (w : Text) : orbitValue n w = minusValue (orbitValue 0 w) n := by
  induction n with
  | zero => rfl
  | succ n ih =>
    have hsucc : orbitValue (n + 1) w = -orbitValue n w := rfl
    rw [hsucc, minusValue, ih]
    simp

theorem parseInt_eq (w : Text) : parseIntSelfhost (String.ofList w) = orbitValue 0 w := by
  rw [Front.Lex.parseIntSelfhost_eq, String.toList_ofList]
  rfl

/-- Of what the checker accepts, only the minimum has its word, and it stands under a sign. -/
theorem accepted_min {n : Nat} {w : Text} (h : Accepted n w) :
    (orbitValue 0 w = BitVec.intMin 64 ↔ w = chars minLiteral) ∧ (w = chars minLiteral → 0 < n) := by
  rcases (accepted_iff n w).mp h with hle | ⟨hn, rfl⟩
  · have hne : w ≠ chars minLiteral := ne_min hle
    have hword : orbitValue 0 w ≠ BitVec.intMin 64 := by
      intro he
      have hint := literal_toInt hle
      have hmin : (BitVec.intMin 64).toInt = -9223372036854775808 := by decide
      rw [he, hmin] at hint
      omega
    exact ⟨⟨fun he => absurd he hword, fun he => absurd he hne⟩, fun he => absurd he hne⟩
  · refine ⟨⟨fun _ => rfl, fun _ => ?_⟩, fun _ => hn⟩
    rw [orbitValue, literalValue_min]
    decide

/-! ## The code at a site -/

theorem take_drop_eq {α : Type} {l m : List α} {n : Nat}
    (h : ∀ k, k < m.length → l[n + k]? = m[k]?) : (l.take (n + m.length)).drop n = m := by
  refine List.ext_getElem? fun k => ?_
  rw [List.getElem?_drop, List.getElem?_take]
  by_cases hk : k < m.length
  · rw [if_pos (by omega), h k hk]
  · rw [if_neg (by omega), List.getElem?_eq_none (by omega)]

theorem foldAt_registerTypes (f : IRFunction) (k : Nat) :
    (Opt.foldAt f k).1.registerTypes = f.registerTypes := by
  rcases Opt.foldAt_cases f k with h | ⟨i, i', -, -, h⟩
  · rw [h]
  · rw [h]

theorem foldLoop_registerTypes (f : IRFunction) (m : Nat) :
    (Opt.foldLoop f m).1.registerTypes = f.registerTypes := by
  induction m with
  | zero => rfl
  | succ m ih => exact (foldAt_registerTypes _ m).trans ih

namespace Site.Hosts
variable {s : Site} {after : IRFunction}

/-- What the builder added is the code of the literal and instructions that write no register. -/
structure Adds (s : Site) (after : IRFunction) (w : Word) (n : Nat) (extra : List IRInstruction) :
    Prop where
  instructions : after.instructions =
    s.builder.currentFunction.instructions ++ (minusCode s.base w n ++ extra)
  types : after.registerTypes =
    s.builder.currentFunction.registerTypes ++ List.replicate (n + 1) "int"
  extra : ∀ i ∈ extra, i.dest = -1

variable {w : Word} {n : Nat} {extra : List IRInstruction}

theorem backend_types (h : s.Hosts after) :
    s.backend.currentFunction.registerTypes = s.function.registerTypes := by
  rw [h.emitted]
  split
  · exact foldLoop_registerTypes _ _
  · rfl

theorem at_start (h : s.Hosts after) (ha : Adds s after w n extra) {k : Nat}
    (hk : k < (minusCode s.base w n ++ extra).length) :
    s.function.instructions[s.start + k]? = (minusCode s.base w n ++ extra)[k]? := by
  obtain ⟨post, hpost⟩ := h.grown
  rw [← hpost, ha.instructions, List.append_assoc, Site.start,
    List.getElem?_append_right (Nat.le_add_right _ k), Nat.add_sub_cancel_left,
    List.getElem?_append_left hk]

theorem hasMinus (h : s.Hosts after) (ha : Adds s after w n extra) :
    HasMinus s.function s.start s.base w n := by
  have hlen : after.instructions.length = s.start + (n + 1 + extra.length) := by
    rw [ha.instructions, List.length_append, List.length_append, Build.length_minusCode, Site.start]
  have htypes : after.registerTypes.length = s.base + (n + 1) := by
    rw [ha.types, List.length_append, List.length_replicate, Site.base]
  constructor
  · intro k hk
    have hlt : k < (minusCode s.base w n).length := by
      rw [Build.length_minusCode]
      omega
    rw [h.at_start ha (by rw [List.length_append]; omega), List.getElem?_append_left hlt,
      Build.getElem?_minusCode _ _ hk]
  · intro j i hi hge hle
    obtain ⟨hstart, hend⟩ := h.fresh j i hi hge (by omega)
    refine ⟨hstart, ?_⟩
    by_contra hj
    -- behind the code nothing writes a register
    obtain ⟨k, rfl⟩ : ∃ k, j = s.start + k := ⟨j - s.start, by omega⟩
    rw [h.at_start ha (by rw [List.length_append, Build.length_minusCode]; omega),
      List.getElem?_append_right (by rw [Build.length_minusCode]; omega)] at hi
    have := ha.extra i (List.mem_of_getElem? hi)
    omega

theorem inFunction (h : s.Hosts after) (ha : Adds s after w n extra) :
    InFunction s.backend s.env s.base (s.base + (n + 1)) := by
  constructor
  · intro k hlo hhi
    obtain ⟨post, hpost⟩ := h.types
    rw [h.backend_types, ← hpost, ha.types, List.append_assoc]
    rw [List.getElem?_append_right hlo, List.getElem?_append_left (by
      rw [List.length_replicate, ← Site.base]
      omega), List.getElem?_replicate_of_lt (by rw [← Site.base]; omega)]
  · intro k hlo hhi
    apply h.declared k hlo
    rw [ha.types, List.length_append, List.length_replicate, ← Site.base]
    exact hhi

/-- What is emitted at the site. -/
theorem code_eq (h : s.Hosts after) (ha : Adds s after w n extra) :
    s.code (s.start + (n + 1)) = if s.folded then loads s.base w n else minusCode s.base w n := by
  have hm := h.hasMinus ha
  rw [Site.code, h.emitted]
  split
  · have hlen : (loads s.base w n).length = n + 1 := by simp [loads]
    rw [← hlen]
    refine take_drop_eq fun k hk => ?_
    rw [hlen] at hk
    have hlt : s.start + k < s.function.instructions.length :=
      (List.getElem?_eq_some_iff.mp (hm.code k (by omega))).1
    rw [Opt.foldLoop_minus hm _ k (by omega) hlt]
    simp [loads, hk]
  · have hlen : (minusCode s.base w n).length = n + 1 := Build.length_minusCode _ _ _
    rw [← hlen]
    refine take_drop_eq fun k hk => ?_
    rw [hlen] at hk
    rw [hm.code k (by omega), Build.getElem?_minusCode _ _ (by omega)]

theorem leaves (h : s.Hosts after) (ha : Adds s after w n extra)
    (hk : s.folded = true ∨ w ≠ BitVec.intMin 64) :
    Leaves s.backend s.env s.base (s.base + (n + 1)) n (s.code (s.start + (n + 1)))
      (minusValue w n) := by
  have hin := h.inFunction ha
  rw [h.code_eq ha]
  split
  · exact loads_run hin (by omega)
  · rename_i hf
    exact minusCode_runs hin (by omega) (hk.resolve_left hf)

theorem fails (h : s.Hosts after) (ha : Adds s after (BitVec.intMin 64) (n + 1) extra)
    (hf : s.folded = false) (env' : Env DivError) :
    ¬ RunsTo s.backend s.env (s.code (s.start + (n + 1 + 1))) env' := by
  rw [h.code_eq ha, hf]
  exact minusCode_fails (h.inFunction ha) (by omega) env'

end Site.Hosts

/-! ## Texts of values -/

section
variable {backend : CBackend} {env : Env DivError} {val : Text} {k : Nat} {ty : Ty} {w : Word}

theorem valueOf_cast (h : MeansBin cTypes env k val ty (.ok w.toInt)) (hk : k + 4 < depth) :
    valueOf cTypes env (castInt ++ (val ++ [')'])) = some w.toInt := by
  have hmeans := castInt_means h
  simp only [Except.map, (represents_toInt w).conv_eq] at hmeans
  exact hmeans.valueOf hk

/-- An argument for an `int` parameter goes through the casts. -/
theorem declaredParamCast_int {callee : String} {argIdx : Int} {cf : IRFunction}
    (hfind : (backend.module.functions.find? fun cf => cf.name == callee) = some cf)
    (hidx : 0 ≤ argIdx) (htype : cf.paramTypes[argIdx.toNat]? = some "int") (aStr : Text) :
    declaredParamCast backend callee argIdx aStr = castInt ++ (aStr ++ [')']) := by
  obtain ⟨hlt, -⟩ := List.getElem?_eq_some_iff.mp htype
  have hin : ¬ (argIdx < 0 ∨ (cf.paramTypes.length : Int) ≤ argIdx) := by omega
  have hget : cf.paramTypes.getD argIdx.toNat "" = "int" := by
    rw [List.getD_eq_getElem?_getD, htype]
    rfl
  rw [declaredParamCast, hfind]
  dsimp only
  rw [if_neg hin, hget, if_pos (.inl rfl), castInt, List.append_assoc]

/-- A return of an int. -/
theorem returned_int (hres : isResultType backend.currentFunction.returnType = false)
    (hint : returnsInt backend = true) (h : MeansBin cTypes env k val ty (.ok w.toInt))
    (hk : k + 5 ≤ depth) : returned cTypes env (returnText backend val) = some w.toInt := by
  have hmeans := (castInt_means h).bin (by omega)
  simp only [Except.map, (represents_toInt w).conv_eq] at hmeans
  have hopen : chars "    return (orbit_int)(uintptr_t)(" =
      indent ++ (returnWord ++ ' ' :: castInt) := by
    simp [chars, indent, returnWord, castInt]
  have hclose : chars ");\n" = [')', ';', '\n'] := by simp [chars]
  have htext : returnText backend val =
      indent ++ (returnWord ++ ' ' :: ((castInt ++ (val ++ [')'])) ++ [';', '\n'])) := by
    rw [returnText, hres, hint, hopen, hclose]
    simp
  rw [htext]
  exact hmeans.ret hk

theorem reg_means {r : Nat} {v : Int} (h : env.vars (regName r) = some (.i64, v)) :
    Means cTypes env 2 (regName r) .i64 (.ok v) :=
  means_var (isWord_regName r) h (cTypes_regName r)

theorem regName_eq (r : Nat) : chars "r_" ++ intToString r = regName r := by
  rw [intToString, if_neg (by omega)]
  rfl

theorem generateOperand_reg (r : Nat) :
    generateOperand backend (.register r) = regName r := by
  rw [generateOperand, generateValue, if_neg (by omega), regName_eq]
  simp

end

/-! ## Positions -/

section
variable {s : Site} {n : Nat} {w : Text}

/-- A value in the last register of the code, or no run of it. -/
theorem Site.Hosts.settles {after : IRFunction} {extra : List IRInstruction} (h : s.Hosts after)
    (ha : Site.Hosts.Adds s after (orbitValue 0 w) n extra) (hacc : Accepted n w) :
    ((s.folded = true ∨ w ≠ chars minLiteral) →
      ∃ env', RunsTo s.backend s.env (s.code (s.start + (n + 1))) env' ∧
        env'.vars (regName (s.base + n)) = some (.i64, (orbitValue n w).toInt)) ∧
    (¬ (s.folded = true ∨ w ≠ chars minLiteral) →
      ∀ env', ¬ RunsTo s.backend s.env (s.code (s.start + (n + 1))) env') := by
  obtain ⟨hmin, hsign⟩ := accepted_min hacc
  constructor
  · intro hk
    obtain ⟨env', hrun, -, hval⟩ := h.leaves ha (hk.imp_right (mt hmin.mp))
    rw [← orbitValue_eq] at hval
    exact ⟨env', hrun, hval⟩
  · intro hk env'
    obtain ⟨hf, hw⟩ := not_or.mp hk
    rw [not_not] at hw
    obtain ⟨m, rfl⟩ : ∃ m, n = m + 1 := ⟨n - 1, by have := hsign hw; omega⟩
    rw [hmin.mpr hw] at ha
    exact h.fails ha (by simpa using hf) env'

/-- The builder after a literal under signs and instructions that write no register. -/
theorem adds_minus (extra : List IRInstruction) (hextra : ∀ i ∈ extra, i.dest = -1) :
    Site.Hosts.Adds s { withMinus s.builder.currentFunction (parseIntSelfhost (String.ofList w)) n with
      instructions := (withMinus s.builder.currentFunction (parseIntSelfhost (String.ofList w))
        n).instructions ++ extra } (orbitValue 0 w) n extra := by
  rw [parseInt_eq]
  exact ⟨List.append_assoc _ _ _, rfl, hextra⟩

theorem length_withMinus (w : Word) (n : Nat) :
    (withMinus s.builder.currentFunction w n).instructions.length = s.start + (n + 1) := by
  rw [withMinus, List.length_append, Build.length_minusCode, Site.start]

theorem expression_iff (hacc : Accepted n w) (h : (Position.expression s).Hosted n w) :
    (Position.expression s).Denotes n w ↔ (Position.expression s).Kept n w := by
  rw [Position.Hosted] at h
  have hb := Build.buildExpr_intNode s.other n w h.counted
  rw [hb] at h
  have hadds := adds_minus (s := s) (n := n) (w := w) [] (by simp)
  rw [List.append_nil] at hadds
  obtain ⟨hkept, hlost⟩ := h.settles hadds hacc
  have hreg : (s.builder.currentFunction.registerTypes.length + n : Int).toNat = s.base + n := by
    rw [Site.base]
    omega
  rw [Position.Denotes, Position.Kept, hb]
  dsimp only
  rw [length_withMinus, hreg]
  constructor
  · rintro ⟨env', hrun, -⟩
    by_contra hk
    exact hlost hk env' hrun
  · exact hkept

theorem runs_nothing (s : Site) : RunsTo s.backend s.env (s.code s.start) s.env := by
  have hnil : s.code s.start = [] := by simp [Site.code]
  rw [hnil]
  exact .nil

theorem argument_iff {callee : String} {argIdx : Int} (hacc : Accepted n w)
    (h : (Position.argument s callee argIdx).Hosted n w) :
    (Position.argument s callee argIdx).Denotes n w ↔
      (Position.argument s callee argIdx).Kept n w := by
  rw [Position.Hosted] at h
  obtain ⟨h, cf, hfind, hidx, htype⟩ := h
  have hcast := declaredParamCast_int hfind hidx htype
  rw [Position.Denotes, Position.Kept]
  cases n with
  | zero =>
    -- the literal is the operand
    have hw : w ≠ chars minLiteral := fun he => absurd ((accepted_min hacc).2 he) (by omega)
    have hb := Build.buildCallArgValue_literal s.other s.otherArg w s.builder
    rw [parseInt_eq] at hb
    rw [hb]
    dsimp only
    obtain ⟨ty, -, -, hmeans⟩ := int_means s.backend (orbitValue 0 w) s.env
    refine iff_of_true ⟨s.env, runs_nothing s, ?_, ?_⟩ (.inr hw)
    · exact hmeans.valueOf (by decide)
    · rw [hcast]
      exact valueOf_cast (hmeans.bin (by decide)) (by decide)
  | succ n =>
    have hb := Build.buildCallArgValue_minus s.other s.otherArg n w h.counted
    rw [hb] at h ⊢
    have hadds := adds_minus (s := s) (n := n + 1) (w := w) [] (by simp)
    rw [List.append_nil] at hadds
    obtain ⟨hkept, hlost⟩ := h.settles hadds hacc
    dsimp only
    rw [length_withMinus]
    constructor
    · rintro ⟨env', hrun, -⟩
      by_contra hk
      exact hlost hk env' hrun
    · intro hk
      obtain ⟨env', hrun, hval⟩ := hkept hk
      have hmeans := reg_means hval
      have htext : generateOperand s.backend (IR.irRegister
          (s.builder.currentFunction.registerTypes.length + (n + 1 : Nat))) =
            regName (s.base + (n + 1)) := generateOperand_reg (s.base + (n + 1))
      rw [htext, hcast]
      exact ⟨env', hrun, hmeans.valueOf (by decide), valueOf_cast (hmeans.bin (by decide)) (by decide)⟩

/-- The instruction at a position that is not folded. -/
theorem Site.Hosts.emitted_ret {after : IRFunction} (h : s.Hosts after) {j : Nat} {i : IRInstruction}
    (hi : after.instructions[j]? = some i) (hop : i.opcode = .ret) :
    s.backend.currentFunction.instructions[j]? = some i := by
  have hfun : s.function.instructions[j]? = some i := by
    obtain ⟨post, hpost⟩ := h.grown
    rw [← hpost, List.getElem?_append_left (List.getElem?_eq_some_iff.mp hi).1, hi]
  rw [h.emitted]
  split
  · exact Opt.foldLoop_ret hfun hop _
  · exact hfun

theorem returned_iff (hw : NumberToken w) (hacc : Accepted n w)
    (h : (Position.returned s).Hosted n w) :
    (Position.returned s).Denotes n w ↔ (Position.returned s).Kept n w := by
  rw [Position.Hosted] at h
  obtain ⟨h, hres, hint⟩ := h
  rw [Position.Denotes, Position.Kept]
  cases n with
  | zero =>
    have hne : w ≠ chars minLiteral := fun he => absurd ((accepted_min hacc).2 he) (by omega)
    have hhead : w.head? ≠ some '-' := by
      obtain ⟨c, v, rfl, hc, -⟩ := hw
      rw [List.head?_cons, Ne, Option.some.injEq]
      rintro rfl
      exact absurd hc (by decide)
    have hb := Build.buildReturn_literal s.other s.asModel hhead s.builder
    rw [parseInt_eq] at hb
    rw [hb] at h
    have hlen : (Build.IRFunction.emit s.builder.currentFunction
        (Build.retInstr (IR.irInt (orbitValue 0 w)))).instructions.length - 1 = s.start := by
      simp [Build.IRFunction.emit, Site.start]
    have hret := h.emitted_ret (j := s.start)
      (i := Build.retInstr (IR.irInt (orbitValue 0 w)))
      (by simp [Build.IRFunction.emit, Site.start]) rfl
    rw [hb, hlen]
    obtain ⟨ty, -, -, hmeans⟩ := int_means s.backend (orbitValue 0 w) s.env
    exact iff_of_true ⟨s.env, _, runs_nothing s, hret, rfl,
      returned_int hres hint (hmeans.bin (by decide)) (by decide)⟩ (.inr hne)
  | succ n =>
    have hb := Build.buildReturn_minus s.other s.asModel n w h.counted
    rw [hb] at h
    have hadds := adds_minus (s := s) (n := n + 1) (w := w)
      [Build.retInstr (IR.irRegister (s.builder.currentFunction.registerTypes.length +
        (n + 1 : Nat)))] (by simp [Build.retInstr, IR.irInitInstr])
    obtain ⟨hkept, hlost⟩ := h.settles hadds hacc
    have hlen : (Build.IRFunction.emit
        (withMinus s.builder.currentFunction (parseIntSelfhost (String.ofList w)) (n + 1))
        (Build.retInstr (IR.irRegister (s.builder.currentFunction.registerTypes.length +
          (n + 1 : Nat))))).instructions.length - 1 = s.start + (n + 1 + 1) := by
      rw [Build.IRFunction.emit, List.length_append, length_withMinus]
      rfl
    have hret := h.emitted_ret (j := s.start + (n + 1 + 1))
      (i := Build.retInstr (IR.irRegister (s.builder.currentFunction.registerTypes.length +
        (n + 1 : Nat)))) (by
          rw [Build.IRFunction.emit, List.getElem?_append_right (by rw [length_withMinus]),
            length_withMinus]
          simp) rfl
    rw [hb, hlen]
    constructor
    · rintro ⟨env', ret, hrun, -⟩
      by_contra hk
      exact hlost hk env' hrun
    · intro hk
      obtain ⟨env', hrun, hval⟩ := hkept hk
      refine ⟨env', _, hrun, hret, rfl, ?_⟩
      have htext : emitRet s.backend (Build.retInstr (IR.irRegister
          (s.builder.currentFunction.registerTypes.length + (n + 1 : Nat)))) =
            returnText s.backend (regName (s.base + (n + 1))) := by
        have : emitRet s.backend (Build.retInstr (IR.irRegister
            (s.builder.currentFunction.registerTypes.length + (n + 1 : Nat)))) =
              returnText s.backend (chars "r_" ++ intToString ((s.base + (n + 1) : Nat) : Int)) := rfl
        rw [this, regName_eq]
      rw [htext]
      exact returned_int hres hint ((reg_means hval).bin (by decide)) (by decide)

/-- **Integer constants from source to C.** For every integer token that the checker accepts under
any number of minus signs, and every position it can stand in, the C text denotes the number of the
literal exactly in these cases: at top level, when the spelling means the same in C and no sign
stands before an `unsigned int`, or it is the minimum; elsewhere, when it is not the minimum or the
negation was folded. -/
theorem constants_iff (hw : IntegerText w) (p : Position) (ha : p.Accepts n w) (hh : p.Hosted n w) :
    p.Denotes n w ↔ p.Kept n w := by
  cases p with
  | topLevel binary => exact topLevel_iff hw.token ha
  | expression s => exact expression_iff ha hh
  | argument s callee argIdx => exact argument_iff ha hh
  | returned s => exact returned_iff hw.token ha hh

end

/-! ## A number that is kept and one that is not -/

/-- The expression `-7` at the start of a function. -/
def sevenSite : Site where
  builder := Build.initIRBuilder
  function := withMinus (IR.initIRFunction "orbit_main") 7 1
  backend :=
    { module := IR.initIRModule
      currentFunction := withMinus (IR.initIRFunction "orbit_main") 7 1
      strRegs := []
      strVars := []
      refLabels := []
      floatText := fun _ => []
      cSymbolText := fun _ => []
      mapTypeToC := fun _ => [] }
  env :=
    { vars := fun x => if x = regName 0 ∨ x = regName 1 then some (.i64, 0) else none
      funs := fun _ => none }
  folded := false
  other _ := pure 0
  otherArg _ := pure .none
  asModel _ _ := pure 0

theorem sevenSite_hosts : sevenSite.Hosts (withMinus (IR.initIRFunction "orbit_main") 7 1) where
  counted := rfl
  grown := List.prefix_refl _
  types := List.prefix_refl _
  fresh k i hi _ _ := ⟨Nat.zero_le k, (List.getElem?_eq_some_iff.mp hi).1⟩
  emitted := rfl
  declared k _ hk := by
    have hk : k < 2 := hk
    obtain rfl | rfl : k = 0 ∨ k = 1 := by omega
    · exact ⟨0, if_pos (.inl rfl)⟩
    · exact ⟨0, if_pos (.inr rfl)⟩

/-- A text that is an integer token by itself. -/
theorem integerText_of {w : Text}
    (h : (Front.Lex.nextToken (Front.Lex.initLexer w)).1.tag = .IntegerLiteral ∧
      (Front.Lex.nextToken (Front.Lex.initLexer w)).1.text = w) : IntegerText w :=
  ⟨w, _, Relation.ReflTransGen.refl, h.1, h.2⟩

theorem accepted_of_le {n : Nat} {w : Text} (h : Front.Lex.literalValue w ≤ 10) : Accepted n w := by
  refine (accepted_iff n w).mpr (.inl (le_trans h ?_))
  rw [Front.Lex.intMax]
  decide

/-- `-7` in an expression. -/
theorem minusSeven_denotes : (Position.expression sevenSite).Denotes 1 ['7'] := by
  have hacc : Accepted 1 ['7'] := accepted_of_le (by decide)
  have hhost : (Position.expression sevenSite).Hosted 1 ['7'] := by
    rw [Position.Hosted, Build.buildExpr_intNode _ 1 ['7'] rfl]
    exact sevenSite_hosts
  have hne : (['7'] : Text) ≠ chars minLiteral := ne_min (by decide)
  exact (constants_iff (integerText_of (by decide)) (.expression sevenSite) hacc hhost).mpr (.inr hne)

/-- `val X = 010` defines 10, and its C text `010` is octal: 8. -/
theorem leadingZero_differs : ¬ ∀ (p : Position) n w, IntegerText w → p.Accepts n w →
    p.Hosted n w → p.Denotes n w := by
  intro h
  have hvalue : Front.Lex.literalValue ['0', '1', '0'] = 10 := by decide
  have htext : IntegerText ['0', '1', '0'] := integerText_of (by decide)
  have hacc : (Position.topLevel true).Accepts 0 ['0', '1', '0'] :=
    ⟨rfl, accepted_of_le (by rw [hvalue])⟩
  have hdenotes := h (.topLevel true) 0 ['0', '1', '0'] htext hacc trivial
  rcases (topLevel_iff htext.token hacc).mp hdenotes with hmin | ⟨halike, -⟩
  · exact ne_min (by rw [hvalue, Front.Lex.intMax]; decide) hmin
  · have hmarked : ¬ HasPrefix ['0', '1', '0'] := by
      rintro ⟨m, ds, he, hm⟩
      obtain ⟨-, rfl, -⟩ : '0' = '0' ∧ '1' = m ∧ ['0'] = ds := by simpa using he
      exact absurd hm (by decide)
    have := ((readsAlike_decimal hmarked).mp halike).2.2 rfl
    omega

end Emit
