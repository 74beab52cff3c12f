import Orbit.Lib.C.Sem
import Orbit.Lib.C.Spell

/-!
# Texts that mean a value

`Means k t ty r`: the text `t` is a cast expression of type `ty` whose evaluation ends in `r`, a
value or a fault. The rules follow the grammar, so the meaning of a text is computed from the
meanings of the texts it is put together from. `Means.assign` and `Means.ifGoto` are the
statements around such a text.
-/

namespace Lib.C

open Lib.Decimal

section
variable {σ : Type} (types : Text → Option Ty) (env : Env σ)

structure MeansExpr (e : Expr) (ty : Ty) (r : Except (Fault σ) Int) : Prop where
  type : typeOf env e = some ty
  value : eval env e = r.map (Prod.mk ty)
  /-- In parentheses the text is not the name of a type. -/
  noType : ∀ x ty, types x = some ty → e ≠ .var x

/-- The text is a cast expression of type `ty` whose evaluation ends in `r`. -/
def Means (k : Nat) (t : Text) (ty : Ty) (r : Except (Fault σ) Int) : Prop :=
  ∃ e, Spells types k t e ∧ MeansExpr types env e ty r

/-- The text is an expression of type `ty`, up to a closing token. -/
def MeansBin (k : Nat) (t : Text) (ty : Ty) (r : Except (Fault σ) Int) : Prop :=
  ∃ e, SpellsBin types k t e ∧ MeansExpr types env e ty r

variable {types} {env} {k m : Nat} {t : Text} {ty : Ty} {r : Except (Fault σ) Int} {v : Int}

theorem Means.mono (h : Means types env k t ty r) (hkm : k ≤ m) : Means types env m t ty r := by
  obtain ⟨e, hs, he⟩ := h
  exact ⟨e, hs.mono hkm, he⟩

theorem Means.bin (h : Means types env k t ty r) (hk : 0 < k) :
    MeansBin types env (k + 1) t ty r := by
  obtain ⟨e, hs, he⟩ := h
  exact ⟨e, hs.bin hk, he⟩

theorem MeansBin.paren (h : MeansBin types env k t ty r) :
    Means types env (k + 2) ('(' :: (t ++ [')'])) ty r := by
  obtain ⟨e, hs, he⟩ := h
  exact ⟨e, hs.paren he.noType, he⟩

theorem Means.cast {name : Text} {s : Ty} (h : Means types env k t ty r)
    (hname : Inner name [.ident name]) (hty : types name = some s) :
    Means types env (k + 1) ('(' :: (name ++ ')' :: t)) s (r.map (conv s)) := by
  obtain ⟨e, hs, he⟩ := h
  refine ⟨.cast s e, hs.cast hname hty, ?_, ?_, by simp⟩
  · rw [typeOf_cast, he.type]
    rfl
  · have hcast : eval env (.cast s e) = (eval env e).bind fun v => .ok (s, conv s v.2) := rfl
    rw [hcast, he.value]
    cases r <;> rfl

theorem Means.not (h : Means types env k t ty (.ok v)) :
    Means types env (k + 1) ('!' :: t) .i32 (.ok (if v = 0 then 1 else 0)) := by
  obtain ⟨e, hs, he⟩ := h
  refine ⟨.un .not e, hs.not, ?_, ?_, by simp⟩
  · rw [typeOf_not, he.type]
    rfl
  · have hnot : eval env (.un .not e) = (eval env e).bind fun v => .ok (truth (v.2 = 0)) := rfl
    rw [hnot, he.value]
    by_cases hv : v = 0 <;> simp [Except.map, Except.bind, truth, hv]

theorem Means.bnot (h : Means types env k t .u64 (.ok v)) :
    Means types env (k + 1) ('~' :: t) .u64
      (.ok (conv .u64 (~~~ BitVec.ofInt 64 v).toInt)) := by
  obtain ⟨e, hs, he⟩ := h
  refine ⟨.un .bnot e, hs.bnot, ?_, ?_, by simp⟩
  · rw [typeOf, he.type] <;> simp [promote]
  · rw [eval, he.value]
    rfl

/-- The operand of a minus sign must not start with another. -/
theorem Means.neg (h : Means types env k t ty (.ok v)) (hne : t.head? ≠ some '-') (hu : ty ≠ .u64) :
    Means types env (k + 1) ('-' :: t) (promote ty)
      (if fits (promote ty) (-v) then .ok (-v) else .error .undefined) := by
  obtain ⟨e, hs, he⟩ := h
  have hu' : promote ty ≠ .u64 := by cases ty <;> simp_all [promote]
  refine ⟨.un .neg e, hs.neg hne, ?_, ?_, by simp⟩
  · rw [typeOf, he.type] <;> simp
  · rw [eval, he.value]
    simp only [Except.map, bind, Except.bind, arith, if_neg hu']
    split <;> rfl

/-! ## Constants and variables -/

/-- The type of a decimal constant. -/
def constType (n : Nat) : Ty := if (n : Int) ≤ maxInt32 then .i32 else .i64

theorem constType_cases (n : Nat) :
    ((n : Int) ≤ maxInt32 ∧ constType n = .i32) ∨ (¬ (n : Int) ≤ maxInt32 ∧ constType n = .i64) := by
  by_cases h : (n : Int) ≤ maxInt32
  · exact .inl ⟨h, if_pos h⟩
  · exact .inr ⟨h, if_neg h⟩

theorem constType_ne_u64 (n : Nat) : constType n ≠ .u64 := by
  obtain ⟨-, h⟩ | ⟨-, h⟩ := constType_cases n <;> rw [h] <;> decide

theorem promote_constType (n : Nat) : promote (constType n) = constType n := by
  obtain ⟨-, h⟩ | ⟨-, h⟩ := constType_cases n <;> rw [h] <;> rfl

theorem constant_digits {n : Nat} (h : (n : Int) ≤ maxInt64) :
    constant (Nat.toDigits 10 n) = some (constType n, (n : Int)) := by
  have htake : (Nat.toDigits 10 n).takeWhile isDigit = Nat.toDigits 10 n :=
    List.takeWhile_eq_self_iff.mpr fun c hc => isDigit_of_mem_digits hc
  have hvalid : ¬ (Nat.toDigits 10 n = [] ∨ ((Nat.toDigits 10 n).length ≠ 1 ∧
      (Nat.toDigits 10 n).head? = some '0') ∨ maxInt64 < (n : Int)) := by
    rintro (h0 | ⟨hlen, h0⟩ | hlt)
    · exact Nat.toDigits_ne_nil h0
    · rw [head_digits h0] at hlen
      exact hlen rfl
    · omega
  simp only [constant, htake, digitsValue_digits, if_neg hvalid, List.drop_length, if_pos]
  rfl

theorem means_digits {n : Nat} (h : (n : Int) ≤ maxInt64) :
    Means types env 2 (Nat.toDigits 10 n) (constType n) (.ok (n : Int)) := by
  refine ⟨_, spells_digits n, ?_, ?_, by simp⟩
  · exact congrArg (Option.map (·.1)) (constant_digits h)
  · rw [eval, constant_digits h]
    rfl

/-- A name: a letter or underscore, then letters, digits and underscores. -/
def isWord : Text → Bool
  | [] => false
  | c :: w => isIdentStart c && !isDigit c && w.all isIdentChar

theorem inner_word {x : Text} (h : isWord x = true) : Inner x [.ident x] := by
  cases x with
  | nil => cases h
  | cons c w =>
    simp only [isWord, Bool.and_eq_true, Bool.not_eq_true', List.all_eq_true] at h
    exact inner_ident h.1.1 h.1.2 h.2

theorem means_var {x : Text} (h : isWord x = true) (hx : env.vars x = some (ty, v))
    (htype : types x = none) : Means types env 2 x ty (.ok v) := by
  cases x with
  | nil => cases h
  | cons c w =>
    simp only [isWord, Bool.and_eq_true, Bool.not_eq_true', List.all_eq_true] at h
    refine ⟨_, spells_name h.1.1 h.1.2 h.2, ?_, ?_, ?_⟩
    · exact congrArg (Option.map (·.1)) hx
    · rw [eval, hx]
      rfl
    · intro y s hy he
      rw [Expr.var.injEq] at he
      rw [← he, htype] at hy
      cases hy

/-! ## Binary operators -/

/-- The type of the result of an operator whose operands are converted to the type `s`. -/
def Bin.type (op : Bin) (s : Ty) : Ty :=
  match op with
  | .lt | .le | .gt | .ge | .eq | .ne => .i32
  | _ => s

/-- The operators that convert their operands to a common type. -/
def Bin.isCommon : Bin → Bool
  | .land | .lor | .shl | .shr => false
  | _ => true

theorem Means.binary {a b mid : Text} {s₁ s₂ s : Ty} {x y : Int} {p : Punct} {op : Bin}
    {prec : Nat} (ha : Means types env k a s₁ (.ok x)) (hb : Means types env m b s₂ (.ok y))
    (hop : binOf p = some (op, prec)) (hmid : scan .none mid = ([.punct p], .none))
    (hcommon : op.isCommon = true) (hs : common (promote s₁) (promote s₂) = s)
    (hv : binCommon op s (conv s x) (conv s y) = (.ok (op.type s, v) : Except (Fault σ) _)) :
    MeansBin types env (k + m + 4) (a ++ (' ' :: (mid ++ b))) (op.type s) (.ok v) := by
  obtain ⟨e, hse, hte, hve, -⟩ := ha
  obtain ⟨f, hsf, htf, hvf, -⟩ := hb
  refine ⟨.bin op e f, hse.binary hsf hop hmid, ?_, ?_, by simp⟩
  · simp only [typeOf_bin, hte, htf, hs]
    cases op <;> first | rfl | cases hcommon
  · have hok : ((Except.ok v : Except (Fault σ) Int).map (Prod.mk (op.type s))) =
        .ok (op.type s, v) := rfl
    rw [hok, ← hv, eval_bin, hve]
    simp only [Except.map, bind, Except.bind]
    cases op <;> first | (simp only [hvf, hs, Except.map]; done) | cases hcommon

theorem Means.shift {a b mid : Text} {s u : Ty} {x y : Int} {p : Punct} {op : Bin} {prec : Nat}
    (ha : Means types env k a s (.ok x)) (hb : Means types env m b u (.ok y))
    (hop : binOf p = some (op, prec)) (hmid : scan .none mid = ([.punct p], .none))
    (hshift : op = .shl ∨ op = .shr)
    (hv : Lib.C.shift op (promote s) x y = (.ok (promote s, v) : Except (Fault σ) _)) :
    MeansBin types env (k + m + 4) (a ++ (' ' :: (mid ++ b))) (promote s) (.ok v) := by
  obtain ⟨e, hse, hte, hve, -⟩ := ha
  obtain ⟨f, hsf, htf, hvf, -⟩ := hb
  refine ⟨.bin op e f, hse.binary hsf hop hmid, ?_, ?_, by simp⟩
  · rcases hshift with rfl | rfl <;> simp only [typeOf_bin, hte, htf]
  · have hok : ((Except.ok v : Except (Fault σ) Int).map (Prod.mk (promote s))) =
        .ok (promote s, v) := rfl
    rw [hok, ← hv, eval_bin, hve]
    rcases hshift with rfl | rfl <;> simp only [Except.map, bind, Except.bind, hvf]

theorem Means.land {a b : Text} {s u : Ty} {x y : Int} (ha : Means types env k a s (.ok x))
    (hb : Means types env m b u (.ok y)) (mid : Text)
    (hmid : scan .none mid = ([.punct .ampAmp], .none)) :
    MeansBin types env (k + m + 4) (a ++ (' ' :: (mid ++ b))) .i32
      (.ok (if x ≠ 0 ∧ y ≠ 0 then 1 else 0)) := by
  obtain ⟨e, hse, hte, hve, -⟩ := ha
  obtain ⟨f, hsf, htf, hvf, -⟩ := hb
  refine ⟨.bin .land e f, hse.binary hsf rfl hmid, ?_, ?_, by simp⟩
  · simp only [typeOf_bin, hte, htf]
  · rw [eval_bin, hve]
    by_cases hx : x = 0 <;> by_cases hy : y = 0 <;>
      simp [Except.map, bind, Except.bind, pure, Except.pure, hvf, truth, hx, hy]

theorem Means.lor {a b : Text} {s u : Ty} {x y : Int} (ha : Means types env k a s (.ok x))
    (hb : Means types env m b u (.ok y)) (mid : Text)
    (hmid : scan .none mid = ([.punct .barBar], .none)) :
    MeansBin types env (k + m + 4) (a ++ (' ' :: (mid ++ b))) .i32
      (.ok (if x ≠ 0 ∨ y ≠ 0 then 1 else 0)) := by
  obtain ⟨e, hse, hte, hve, -⟩ := ha
  obtain ⟨f, hsf, htf, hvf, -⟩ := hb
  refine ⟨.bin .lor e f, hse.binary hsf rfl hmid, ?_, ?_, by simp⟩
  · simp only [typeOf_bin, hte, htf]
  · rw [eval_bin, hve]
    by_cases hx : x = 0 <;> by_cases hy : y = 0 <;>
      simp [Except.map, bind, Except.bind, pure, Except.pure, hvf, truth, hx, hy]

/-! ## Calls -/

variable (types) (env) in
/-- The text is arguments for the parameters `ps` that are passed as `vs`. -/
def MeansArgs (k : Nat) (t : Text) (ps : List (Option Ty)) (vs : List Arg) : Prop :=
  ∃ es, SpellsArgs types k t es ∧ typeArgs env ps es = true ∧ evalArgs env ps es = .ok vs

theorem MeansBin.lastArg {s : Ty} (h : MeansBin types env k t ty (.ok v)) :
    MeansArgs types env (k + 1) t [some s] [.int (conv s v)] := by
  obtain ⟨e, hs, he⟩ := h
  refine ⟨_, hs.arg, ?_, ?_⟩
  · simp [typeArgs, he.type]
  · simp [evalArgs, he.value, Except.map, bind, Except.bind, pure, Except.pure]

theorem MeansBin.arg {a : Text} {s : Ty} {ps : List (Option Ty)} {vs : List Arg}
    (h : MeansBin types env k a ty (.ok v)) (hs : MeansArgs types env m t ps vs) :
    MeansArgs types env (k + m + 1) (a ++ (',' :: ' ' :: t)) (some s :: ps)
      (.int (conv s v) :: vs) := by
  obtain ⟨e, hse, he⟩ := h
  obtain ⟨es, hses, htes, hves⟩ := hs
  refine ⟨_, hse.args hses, ?_, ?_⟩
  · simp [typeArgs, he.type, htes]
  · simp [evalArgs, he.value, hves, Except.map, bind, Except.bind, pure, Except.pure]

theorem MeansArgs.str {body : Text} {ps : List (Option Ty)} {vs : List Arg}
    (hs : MeansArgs types env m t ps vs) (hbody : scan (.str []) body = ([], .str body)) :
    MeansArgs types env (m + 4) ('"' :: (body ++ ['"']) ++ (',' :: ' ' :: t)) (none :: ps)
      (.str body :: vs) := by
  obtain ⟨es, hses, htes, hves⟩ := hs
  refine ⟨.cons (.str body) es, ?_, ?_, ?_⟩
  · have := ((spells_str hbody).bin (by omega)).args hses
    rwa [show m + 4 = 2 + 1 + m + 1 by omega]
  · simp [typeArgs, htes]
  · simp [evalArgs, hves, bind, Except.bind, pure, Except.pure]

theorem MeansArgs.call {f : Text} {g : Fun σ} {vs : List Arg}
    (h : MeansArgs types env k t g.params vs) (hg : env.funs f = some g) (hf : isWord f = true) :
    Means types env (k + 2) (f ++ '(' :: (t ++ [')'])) g.result (g.run vs) := by
  obtain ⟨es, hses, htes, hves⟩ := h
  cases f with
  | nil => cases hf
  | cons c w =>
    simp only [isWord, Bool.and_eq_true, Bool.not_eq_true', List.all_eq_true] at hf
    have htype : typeOf env (.call (c :: w) es) = some g.result := by simp [typeOf, hg, htes]
    have hvalue : eval env (.call (c :: w) es) = (g.run vs).map (Prod.mk g.result) := by
      simp only [eval, hg, hves, bind, Except.bind]
      cases g.run vs <;> rfl
    rw [List.cons_append]
    exact ⟨_, hses.call hf.1.1 hf.1.2 hf.2, htype, hvalue, by simp⟩

/-! ## Statements -/

/-- An assignment of the value to a variable of type `s`. -/
theorem MeansBin.assign {x : Text} {s : Ty} {old : Int} (h : MeansBin types env k t ty r)
    (hk : k ≤ depth) (hx : Inner x [.ident x]) (hvar : env.vars x = some (s, old)) :
    ∃ stmt, parse types (indent ++ (x ++ ' ' :: '=' :: ' ' :: (t ++ [';', '\n']))) = some stmt ∧
      stmt.WellTyped env ∧ exec env stmt = r.map fun v => .assign x (conv s v) := by
  obtain ⟨e, hs, he⟩ := h
  refine ⟨_, hs.assign hk hx, ?_, ?_⟩
  · simp [Stmt.WellTyped, hvar, he.type]
  · simp only [exec, he.value, hvar]
    cases r <;> rfl

/-- A jump that is taken unless the value is zero. -/
theorem MeansBin.ifGoto {l : Text} (h : MeansBin types env k t ty (.ok v)) (hk : k ≤ depth)
    (hl : Inner l [.ident l]) :
    ∃ stmt, parse types (indent ++ (ifWord ++ ' ' :: '(' :: (t ++ ')' :: ' ' :: (gotoWord ++
      ' ' :: (l ++ [';', '\n']))))) = some stmt ∧ stmt.WellTyped env ∧
      exec env stmt = .ok (if v = 0 then .next else .goto l) := by
  obtain ⟨e, hs, he⟩ := h
  refine ⟨_, hs.ifGoto hk hl, ?_, ?_⟩
  · simp [Stmt.WellTyped, he.type]
  · simp [exec, he.value, Except.map, bind, Except.bind, pure, Except.pure]

end

end Lib.C
