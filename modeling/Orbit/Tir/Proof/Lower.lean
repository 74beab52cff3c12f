import Mathlib.Data.List.Forall2
import Orbit.Tir.Proof.Blocks
import Orbit.Tir.Proof.Scope
import Orbit.Tir.Proof.Values

/-!
# Lowered programs are well formed

A function that is lowered without an error is well formed (`wellFormed_function`), so a program whose
text is not empty has one such function for each of its function declarations
(`wellFormed_program`).
-/

namespace Tir

open Front (ASTNode)

/-! ## Functions -/

/-- The function that the body is lowered into. -/
theorem enterFunction_snd (id : Nat) (name returnType : String)
    (parameters : List (String × String)) :
    (enterFunction id name returnType parameters).2.instructions = [] ∧
      (enterFunction id name returnType parameters).2.nextValueId = 0 ∧
      (enterFunction id name returnType parameters).2.nextBlockId = 1 ∧
      (enterFunction id name returnType parameters).1 = 0 := by
  have hparams : ∀ f : TirFunction,
      (parameters.foldl (fun f p => tirAddParameter f p.1 p.2) f).instructions = f.instructions ∧
      (parameters.foldl (fun f p => tirAddParameter f p.1 p.2) f).nextValueId = f.nextValueId ∧
      (parameters.foldl (fun f p => tirAddParameter f p.1 p.2) f).nextBlockId = f.nextBlockId := by
    induction parameters with
    | nil => exact fun f => ⟨rfl, rfl, rfl⟩
    | cons p ps ih => exact fun f => ih (tirAddParameter f p.1 p.2)
  obtain ⟨hi, hv, hb⟩ := hparams (initTirFunction id name returnType)
  exact ⟨hi, hv, congrArg (· + 1) hb, hb⟩

/-- Control stays in a set that is closed under the edges of the blocks. -/
theorem reaches_mem {is : List TirInstruction} {S : Nat → Prop} (h0 : S 0)
    (hs : ∀ c t, S c → Goes is c t → S t) {b : Nat} (h : Reaches is b) : S b := by
  induction h with
  | refl => exact h0
  | tail _ hg ih => exact hs _ _ ih hg

/-- **A function that is lowered without an error is well formed.** -/
theorem wellFormed_function {f : TirFunction} {diagnostics : List TirDiagnostic} {body : ASTNode}
    {parameters : List TirBinding} (hf : f.instructions = [] ∧ f.nextValueId = 0 ∧ f.nextBlockId = 1)
    (hbody : wellShaped body = true)
    (hclean : (lowerStatement body (some 0) parameters ⟨f, diagnostics⟩).2.2.clean) :
    WellFormed parameters body
      (lowerStatement body (some 0) parameters ⟨f, diagnostics⟩).2.2.function := by
  obtain ⟨hi, hv, hb⟩ := hf
  have hscope : parameters = Scope.bindings [parameters.reverse] := by
    rw [Scope.bindings, List.flatten_singleton, List.reverse_reverse]
  obtain ⟨new, hnew, hbuilt⟩ := lowered_both.1 body hbody 0 parameters ⟨f, diagnostics⟩
    (by rw [hb]; omega)
  have hkeeps := keeps_both.1 body (some 0) parameters ⟨f, diagnostics⟩
  have hnumbered := hkeeps.numbered hclean ⟨hv.trans (congrArg List.length hi.symm),
    fun k i hk => by rw [hi] at hk; cases hk⟩
  have hloads := (loads_statement_both.1 body hbody 0 [parameters.reverse] ⟨f, diagnostics⟩).1
  rw [← hscope] at hloads
  generalize lowerStatement body (some 0) parameters ⟨f, diagnostics⟩ = out at *
  dsimp only at hnew hbuilt
  rw [hi, List.nil_append] at hnew
  rw [hb] at hbuilt
  rw [loadsOf, loadsOf, hi] at hloads
  obtain ⟨S, hS0, hSr, hSg, hSf⟩ := hbuilt.reach
  rw [← hnew] at hbuilt hSg
  have hreach : ∀ {b}, Reaches out.2.2.function.instructions b → S b := fun h =>
    reaches_mem hS0 hSg h
  have hlast : ∀ {b}, Reaches out.2.2.function.instructions b →
      ¬ Terminated (blockOf b out.2.2.function.instructions) → out.1 = some b := by
    intro b h hno
    by_contra hne
    exact hno (hbuilt.closed b (hSr b (hreach h)) hne)
  refine ⟨fun b h => ?_, fun b c h h' hno hno' => ?_, fun i hi t ht => ?_, hnumbered.ok, hloads⟩
  · by_cases hno : Terminated (blockOf b out.2.2.function.instructions)
    · exact .inl hno
    · have hb := hlast h hno
      refine .inr ⟨?_, fun i hi => (hbuilt.opened b hb i hi).2.2⟩
      by_contra hf
      exact hSf (Bool.eq_false_iff.mpr hf) b hb (hreach h)
  · exact Option.some.inj ((hlast h hno).symm.trans (hlast h' hno'))
  · exact (hbuilt.targets i hi t ht).2

/-! ## Programs -/

/-- What one declaration adds to a module. -/
structure Declares (m m' : TirModule) (decl : Option (List TirBinding × ASTNode)) : Prop where
  diagnostics : m.diagnostics <+: m'.diagnostics
  errors : AllErrors m.diagnostics → AllErrors m'.diagnostics
  functions : m'.diagnostics = [] → (∀ d, decl = some d → wellShaped d.2 = true) →
    ∃ fs, m'.functions = m.functions ++ fs ∧
      List.Forall₂ (fun d f => WellFormed d.1 d.2 f) decl.toList fs

theorem declares_function (m : TirModule) (name : String) (params paramTypes : List String)
    (returnType : String) (body : ASTNode) :
    Declares m (lowerFunction m name params paramTypes returnType body)
      (some ((parameterList params paramTypes).map fun p => ⟨p.1, p.2⟩, body)) := by
  obtain ⟨hi, hv, hb, hentry⟩ := enterFunction_snd m.functions.length name returnType
    (parameterList params paramTypes)
  rw [lowerFunction]
  dsimp only
  rw [hentry]
  have hkeeps := keeps_both.1 body (some 0)
    ((parameterList params paramTypes).map fun p => ⟨p.1, p.2⟩)
    ⟨(enterFunction m.functions.length name returnType (parameterList params paramTypes)).2,
      m.diagnostics⟩
  refine ⟨hkeeps.diagnostics, hkeeps.errors, fun hclean hshape => ⟨_, rfl, ?_⟩⟩
  exact .cons (wellFormed_function ⟨hi, hv, hb⟩ (hshape _ rfl) hclean) .nil

theorem declares_lowerDeclaration (m : TirModule) (decl : ASTNode) :
    Declares m (lowerDeclaration m decl) (functionDecl? decl) := by
  have hsame : Declares m m none :=
    ⟨List.prefix_rfl, id, fun _ _ => ⟨[], (List.append_nil _).symm, .nil⟩⟩
  have herror : Declares m { m with diagnostics := m.diagnostics ++
      [tirError "E3000" "top-level declaration cannot be lowered to TIR" 0 0] } none :=
    ⟨List.prefix_append _ _, fun h => h.append (allErrors_tirError _ _ _ _),
      fun hc => absurd hc (List.append_ne_nil_of_right_ne_nil _ (List.cons_ne_nil _ _))⟩
  cases decl with
  | functionDecl name params paramTypes returnType body =>
    exact declares_function m name params paramTypes returnType body
  | _ => first | exact hsame | exact herror

/-- A list of declarations adds the functions of all of them. -/
theorem declares_fold (decls : List ASTNode) (m : TirModule) :
    m.diagnostics <+: (decls.foldl lowerDeclaration m).diagnostics ∧
    (AllErrors m.diagnostics → AllErrors (decls.foldl lowerDeclaration m).diagnostics) ∧
    ((decls.foldl lowerDeclaration m).diagnostics = [] →
      (∀ d ∈ decls.filterMap functionDecl?, wellShaped d.2 = true) →
        ∃ fs, (decls.foldl lowerDeclaration m).functions = m.functions ++ fs ∧
          List.Forall₂ (fun d f => WellFormed d.1 d.2 f) (decls.filterMap functionDecl?) fs) := by
  induction decls generalizing m with
  | nil => exact ⟨List.prefix_rfl, id, fun _ _ => ⟨[], (List.append_nil _).symm, .nil⟩⟩
  | cons decl decls ih =>
    have hd := declares_lowerDeclaration m decl
    obtain ⟨hpre, herr, hfun⟩ := ih (lowerDeclaration m decl)
    refine ⟨hd.diagnostics.trans hpre, herr ∘ hd.errors, fun hclean hshape => ?_⟩
    rw [List.foldl_cons] at hclean ⊢
    have hlist : (decl :: decls).filterMap functionDecl? =
        (functionDecl? decl).toList ++ decls.filterMap functionDecl? := by
      cases h : functionDecl? decl with
      | none => rw [List.filterMap_cons_none h]; rfl
      | some d => rw [List.filterMap_cons_some h]; rfl
    rw [hlist] at hshape ⊢
    have hclean' : (lowerDeclaration m decl).diagnostics = [] := by
      rw [hclean] at hpre
      exact List.prefix_nil.mp hpre
    obtain ⟨fs, hfs, hall⟩ := hd.functions hclean' fun d h =>
      hshape d (List.mem_append_left _ (by rw [h]; exact List.mem_singleton_self d))
    obtain ⟨gs, hgs, hall'⟩ := hfun hclean fun d h => hshape d (List.mem_append_right _ h)
    exact ⟨fs ++ gs, by rw [hgs, hfs, List.append_assoc], List.rel_append hall hall'⟩

theorem tirHasErrors_of_text {m : TirModule} (h : tirCanonical m ≠ "") :
    ∀ d ∈ m.diagnostics, d.severity ≠ "error" := by
  rw [tirCanonical] at h
  by_cases he : tirHasErrors m = true
  · exact absurd (if_pos he) h
  · rw [Bool.not_eq_true, tirHasErrors, List.any_eq_false] at he
    exact fun d hd => by simpa using he d hd

/-- **A program whose text is not empty has a well-formed function for each function declaration.** -/
theorem wellFormed_program {moduleName : String} {decls : List ASTNode} {m : TirModule}
    (hshape : ∀ d ∈ decls.filterMap functionDecl?, wellShaped d.2 = true)
    (hf : m.functions = (lowerProgramToTir moduleName (.program decls)).functions)
    (hd : (lowerProgramToTir moduleName (.program decls)).diagnostics <+: m.diagnostics)
    (htext : tirCanonical m ≠ "") :
    List.Forall₂ (fun d f => WellFormed d.1 d.2 f) (decls.filterMap functionDecl?) m.functions := by
  obtain ⟨-, herr, hfun⟩ := declares_fold decls (initTirModule moduleName)
  have hall := herr fun d h => absurd h List.not_mem_nil
  have hclean : (decls.foldl lowerDeclaration (initTirModule moduleName)).diagnostics = [] := by
    rw [List.eq_nil_iff_forall_not_mem]
    intro d h
    exact tirHasErrors_of_text htext d (hd.subset h) (hall d h)
  obtain ⟨fs, hfs, hforall⟩ := hfun hclean hshape
  rw [hf]
  exact (show (decls.foldl lowerDeclaration (initTirModule moduleName)).functions = fs from hfs) ▸
    hforall

end Tir
