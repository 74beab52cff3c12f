import Orbit.Lib.C.Means

/-!
# Expressions and straight-line code of C

The value of a text that is one expression (`valueOf`), statements that run one after another
(`run`), and the value that a return statement gives (`returned`). A run that leaves the straight
line, breaks a constraint or has undefined behaviour is no run.
-/

namespace Lib.C

/-! ## One expression -/

/-- The expression a text is. -/
def parseExpr (types : Text → Option Ty) (t : Text) : Option Expr :=
  (lex t).bind fun ts =>
    match parseBin types depth 0 ts with
    | some (e, []) => some e
    | _ => none

/-- What a semicolon ends is the token at the end of the text. -/
theorem finish_of_semi {q : Pending} {ts : List Tok} (h : step q ';' = (ts, .op [';'])) :
    finish q = some ts := by
  cases q with
  | none => cases h; rfl
  | word s => cases h; rfl
  | num s => cases h; rfl
  | op s =>
    rw [step_op] at h
    split at h
    · -- only the empty operator goes on as a semicolon
      cases s with
      | nil => cases h; rfl
      | cons o s => simp at h
    · split at h
      · cases h
      · cases h; rfl
  | str s => simp [step] at h
  | esc s => simp [step] at h
  | bad => simp [step] at h

theorem Inner.lex {t : Text} {ts : List Tok} (h : Inner t ts) : lex t = some ts := by
  have hsemi := h.opened opens_none (c := ';') (by decide) []
  have hstart : start ';' = .op [';'] := by decide
  simp only [scan_append, scan_cons, scan_nil, hstart, List.nil_append, List.append_nil,
    Prod.mk.injEq] at hsemi
  obtain ⟨htoks, hend⟩ := hsemi
  have hfinish : finish (scan .none t).2 = some (step (scan .none t).2 ';').1 :=
    finish_of_semi (Prod.ext rfl hend)
  rw [Lib.C.lex, hfinish, Option.map_some, htoks]

theorem Spells.parseExpr {types : Text → Option Ty} {k : Nat} {t : Text} {e : Expr}
    (h : Spells types k t e) (hk : k < depth) : parseExpr types t = some e := by
  obtain ⟨ts, hi, hp⟩ := h
  obtain ⟨m, hm⟩ : ∃ m, depth = m + k + 1 := ⟨depth - k - 1, by omega⟩
  have hcast := hp m [] (by simp [NoCall])
  rw [List.append_nil] at hcast
  have hrest : parseRest types (m + k) 0 e [] = some (e, []) := by
    obtain ⟨j, hj⟩ : ∃ j, m + k = j + 1 := ⟨depth - 2, by unfold depth at *; omega⟩
    rw [hj, parseRest.eq_def]
  rw [Lib.C.parseExpr, hi.lex, Option.bind_some, hm, parseBin, hcast]
  dsimp only
  rw [hrest]

/-! ## Values, runs and returns -/

section
variable {σ : Type} (types : Text → Option Ty)

/-- The environment after an assignment to a declared variable. -/
def Env.set (env : Env σ) (x : Text) (v : Int) : Env σ :=
  { env with vars := fun y => if y = x then (env.vars x).map fun d => (d.1, v) else env.vars y }

instance (env : Env σ) (stmt : Stmt) : Decidable (stmt.WellTyped env) := by
  cases stmt <;> unfold Stmt.WellTyped <;> infer_instance

/-- The environment after the statements. -/
def run : Env σ → List Text → Option (Env σ)
  | env, [] => some env
  | env, t :: ts =>
    match parse types t with
    | some stmt =>
      if stmt.WellTyped env then
        match exec env stmt with
        | .ok .next => run env ts
        | .ok (.assign x v) => run (env.set x v) ts
        | _ => none
      else none
    | none => none

theorem run_cons (env : Env σ) (t : Text) (ts : List Text) :
    run types env (t :: ts) =
      match parse types t with
      | some stmt =>
        if stmt.WellTyped env then
          match exec env stmt with
          | .ok .next => run types env ts
          | .ok (.assign x v) => run types (env.set x v) ts
          | _ => none
        else none
      | none => none := rfl

/-- The value of an expression that satisfies the constraints. -/
def valueOf (env : Env σ) (t : Text) : Option Int :=
  match parseExpr types t with
  | some e =>
    if (typeOf env e).isSome then
      match eval env e with
      | .ok v => some v.2
      | .error _ => none
    else none
  | none => none

def returnWord : Text := ['r', 'e', 't', 'u', 'r', 'n']

/-- The expression a return statement returns. -/
def parseReturn (t : Text) : Option Expr :=
  (lex t).bind fun ts =>
    match ts with
    | .ident k :: rest =>
      if k = returnWord then
        match parseBin types depth 0 rest with
        | some (e, [.punct .semi]) => some e
        | _ => none
      else none
    | _ => none

/-- The value of the expression that a return statement returns. -/
def returned (env : Env σ) (t : Text) : Option Int :=
  match parseReturn types t with
  | some e =>
    if (typeOf env e).isSome then
      match eval env e with
      | .ok v => some v.2
      | .error _ => none
    else none
  | none => none

variable {types} {env : Env σ} {k : Nat} {t x : Text} {ty s : Ty} {v : Int}

@[simp] theorem Env.set_vars_self {d : Ty × Int} (h : env.vars x = some d) :
    (env.set x v).vars x = some (d.1, v) := by
  simp [Env.set, h]

theorem Env.set_vars_other {y : Text} (h : y ≠ x) : (env.set x v).vars y = env.vars y := by
  simp [Env.set, h]

theorem Means.valueOf (h : Means types env k t ty (.ok v)) (hk : k < depth) :
    valueOf types env t = some v := by
  obtain ⟨e, hs, he⟩ := h
  rw [Lib.C.valueOf, hs.parseExpr hk]
  dsimp only
  rw [he.type, Option.isSome_some, if_pos rfl, he.value]
  rfl

/-! ## Runs -/

theorem run_assign {stmt : Stmt} (hp : parse types t = some stmt) (hw : stmt.WellTyped env)
    (he : exec env stmt = .ok (.assign x v)) (ts : List Text) :
    run types env (t :: ts) = run types (env.set x v) ts := by
  rw [run_cons, hp]
  dsimp only
  rw [if_pos hw, he]

theorem run_fault {stmt : Stmt} {f : Fault σ} (hp : parse types t = some stmt)
    (he : exec env stmt = .error f) (ts : List Text) : run types env (t :: ts) = none := by
  rw [run_cons, hp]
  dsimp only
  rw [he]
  split <;> rfl

theorem run_append (ts us : List Text) :
    run types env (ts ++ us) = (run types env ts).bind fun env' => run types env' us := by
  induction ts generalizing env with
  | nil => rfl
  | cons t ts ih =>
    rw [List.cons_append, run_cons, run_cons]
    cases parse types t with
    | none => rfl
    | some stmt =>
      dsimp only
      by_cases hw : stmt.WellTyped env
      · rw [if_pos hw, if_pos hw]
        cases exec env stmt with
        | error f => rfl
        | ok eff =>
          cases eff with
          | next => exact ih
          | assign x v => exact ih
          | goto l => rfl
      · rw [if_neg hw, if_neg hw]
        rfl

/-! ## Return statements -/

theorem SpellsBin.ret {e : Expr} (h : SpellsBin types k t e) (hk : k ≤ depth) :
    parseReturn types (indent ++ (returnWord ++ ' ' :: (t ++ [';', '\n']))) = some e := by
  obtain ⟨ts, hi, hp⟩ := h
  have hbody := hp (depth - k) [.punct .semi] ⟨.semi, [], rfl, by decide, by decide⟩
  rw [show depth - k + k = depth by omega] at hbody
  have hret : scan .none (returnWord ++ [' ']) = ([.ident returnWord], .none) := rfl
  have hscan : scan .none (returnWord ++ ' ' :: (t ++ [';', '\n'])) =
      (.ident returnWord :: (ts ++ [.punct .semi]), .none) := by
    rw [show returnWord ++ ' ' :: (t ++ [';', '\n']) = (returnWord ++ [' ']) ++ (t ++ ';' :: ['\n'])
      by simp, scan_append, hret]
    dsimp only
    rw [hi.opened opens_none (by decide) ['\n'], start_semi]
    rfl
  have hlex : lex (returnWord ++ ' ' :: (t ++ [';', '\n'])) =
      some (.ident returnWord :: (ts ++ [.punct .semi])) := by
    rw [lex, hscan]
    simp [finish]
  rw [parseReturn, lex_indent, hlex, Option.bind_some]
  dsimp only
  rw [if_pos rfl, hbody]

theorem MeansBin.ret (h : MeansBin types env k t ty (.ok v)) (hk : k ≤ depth) :
    returned types env (indent ++ (returnWord ++ ' ' :: (t ++ [';', '\n']))) = some v := by
  obtain ⟨e, hs, he⟩ := h
  rw [returned, hs.ret hk]
  dsimp only
  rw [he.type, Option.isSome_some, if_pos rfl, he.value]
  rfl

end

end Lib.C
