import Mathlib.Data.List.TakeWhile
import Orbit.Build.Generic

/-!
# The type frame of an instance

`ensureFnInstance` joins the type parameters and their bindings with commas, and `resolveFnType`
splits the parameters at commas and the bindings at tabs. The parameters come back
(`splitTypeArgs_join`), the bindings only when there is at most one and it has no tab: the frame
stands for them exactly then (`resolveFnType_queued_iff`).
-/

namespace Build

open Front IR Lib

/-! ## What is queued -/

/-- The code leaves the queue of instances alone. -/
def KeepsWork {α : Type} (m : BuildM α) : Prop := ∀ b, (m b).2.fnWork = b.fnWork

theorem KeepsWork.bind {α β : Type} {m : BuildM α} {f : α → BuildM β} (hm : KeepsWork m)
    (hf : ∀ a, KeepsWork (f a)) : KeepsWork (m >>= f) :=
  fun b => (hf _ _).trans (hm b)

theorem KeepsWork.pure {α : Type} (a : α) : KeepsWork (pure a : BuildM α) := fun _ => rfl

theorem KeepsWork.mapM {α β : Type} {f : α → BuildM β} (hf : ∀ a, KeepsWork (f a))
    (l : List α) : KeepsWork (l.mapM f) := by
  induction l with
  | nil => exact .pure []
  | cons a l ih =>
    rw [List.mapM_cons]
    exact (hf a).bind fun _ => ih.bind fun _ => .pure _

theorem ensureModelDecl_fnWork (b : IRBuilder) (gm : IRModelDecl) (inst : String)
    (args : List String) : (ensureModelDecl b gm inst args).fnWork = b.fnWork := by
  rw [ensureModelDecl]
  split <;> rfl

theorem keepsWork_ensureModelInstanceFromArgs (modelName : String) (args : List String) :
    KeepsWork (ensureModelInstanceFromArgs modelName args) := by
  intro b
  rw [ensureModelInstanceFromArgs]
  split
  · split_ifs
    · rfl
    · rfl
    · exact ensureModelDecl_fnWork _ _ _ _
  · rfl

theorem keepsWork_declaredTypeInstanceName (declared : String) :
    KeepsWork (declaredTypeInstanceName declared) := by
  refine .bind (fun _ => rfl) fun b => ?_
  split
  · dsimp only
    split_ifs
    · exact .pure _
    · exact .pure _
    · exact keepsWork_ensureModelInstanceFromArgs _ _
  · exact .pure _

theorem keepsWork_signatureType (declared : String) : KeepsWork (signatureType declared) :=
  (keepsWork_declaredTypeInstanceName declared).bind fun _ => .pure _

theorem keepsWork_registerFunctionSignature (node : ASTNode) :
    KeepsWork (registerFunctionSignature node) := by
  cases node with
  | functionDecl =>
    refine (keepsWork_signatureType _).bind fun _ => .bind (fun _ => rfl) fun _ => ?_
    exact (KeepsWork.mapM keepsWork_signatureType _).bind fun _ _ => rfl
  | routeDecl => exact .bind (fun _ => rfl) fun _ _ => rfl
  | _ => exact .pure _

/-- The work that is queued holds the joined parameters and bindings. -/
theorem Queued.joined {b : IRBuilder} {name : String} {bindings : List String} {w : FnWork}
    (h : Queued b name bindings w) :
    w.params = joinTypeNames (typeParamsOf (genericFnByName b name)) ∧
      w.args = joinTypeNames bindings := by
  obtain ⟨hmem, hnew⟩ := h
  simp only [ensureFnInstance, bind, StateT.bind, get, getThe, MonadStateOf.get, StateT.get,
    pure] at hmem
  split at hmem
  · exact absurd hmem hnew
  · cases hdecl : genericFnByName b name with
    | functionDecl _ params paramTypes returnType body isAsync isPrivate isExtern generics exp =>
      rw [hdecl] at hmem
      dsimp only at hmem
      generalize hclone : ASTNode.functionDecl (fnInstanceName name bindings) _ _ _ _ _ _ _ _ _ =
        clone at hmem
      have hkeep := keepsWork_registerFunctionSignature clone b
      generalize registerFunctionSignature clone = register at hmem hkeep
      change w ∈ (if _ = true then (register b).2 else
        { (register b).2 with fnWork := (register b).2.fnWork ++ [_] }).fnWork at hmem
      split at hmem
      · exact absurd (hkeep ▸ hmem) hnew
      · rw [hkeep, List.mem_append, List.mem_singleton] at hmem
        obtain rfl := hmem.resolve_left hnew
        exact ⟨rfl, rfl⟩
    | _ =>
      rw [hdecl] at hmem
      exact absurd hmem hnew

/-! ## Joining and splitting -/

/-- A name of a type parameter. -/
def IsTypeName (p : String) : Prop := p ≠ "" ∧ ∀ c ∈ p.toList, isTypeNameChar c = true

instance : DecidablePred IsTypeName := fun p =>
  decidable_of_iff (p ≠ "" ∧ p.toList.all isTypeNameChar = true) (by
    rw [IsTypeName, List.all_eq_true])

theorem isTypeNameChar_plain {c : Char} (h : isTypeNameChar c = true) :
    c ≠ ',' ∧ c ≠ '<' ∧ c ≠ '>' ∧ c ≠ '\t' ∧ isTypeArgSpace c = false := by
  refine ⟨?_, ?_, ?_, ?_, ?_⟩
  · rintro rfl
    revert h
    decide
  · rintro rfl
    revert h
    decide
  · rintro rfl
    revert h
    decide
  · rintro rfl
    revert h
    decide
  · rw [Bool.eq_false_iff]
    intro hs
    simp only [isTypeArgSpace, Bool.or_eq_true, decide_eq_true_eq] at hs
    rcases hs with ((rfl | rfl) | rfl) | rfl <;> revert h <;> decide

theorem trimTypeArg_name {p : String} (h : IsTypeName p) : trimTypeArg p = p := by
  have key : ∀ l : List Char, (∀ c ∈ l, isTypeArgSpace c = false) →
      l.dropWhile isTypeArgSpace = l := by
    intro l hl
    cases l with
    | nil => rfl
    | cons c l => rw [List.dropWhile_cons_of_neg (by simp [hl c List.mem_cons_self])]
  have hspace : ∀ c ∈ p.toList, isTypeArgSpace c = false :=
    fun c hc => (isTypeNameChar_plain (h.2 c hc)).2.2.2.2
  rw [trimTypeArg, key _ hspace, key _ fun c hc => hspace c (List.mem_reverse.mp hc),
    List.reverse_reverse, String.ofList_toList]

theorem splitTypeArgs_go_name {w : List Char} (hw : ∀ c ∈ w, isTypeNameChar c = true)
    (l cur : List Char) :
    splitTypeArgs.go (w ++ l) cur 0 = splitTypeArgs.go l (w.reverse ++ cur) 0 := by
  induction w generalizing cur with
  | nil => rfl
  | cons c w ih =>
    obtain ⟨hcomma, hlt, hgt, -, -⟩ := isTypeNameChar_plain (hw c List.mem_cons_self)
    rw [List.cons_append, splitTypeArgs.go, if_neg hlt, if_neg hgt, if_neg (fun h => hcomma h.1),
      ih fun d hd => hw d (List.mem_cons_of_mem _ hd)]
    simp

theorem splitTypeArgs_go_comma (l cur : List Char) : splitTypeArgs.go (',' :: l) cur 0 =
    trimTypeArg (String.ofList cur.reverse) :: splitTypeArgs.go l [] 0 := rfl

/-- **The type parameters come back.** -/
theorem splitTypeArgs_join {ps : List String} (h : ∀ p ∈ ps, IsTypeName p) :
    splitTypeArgs (joinTypeNames ps) = ps := by
  have hcomma : ",".toList = [','] := rfl
  rw [splitTypeArgs, joinTypeNames, String.toList_intercalate, hcomma]
  induction ps with
  | nil => decide
  | cons p ps ih =>
    have hp := h p List.mem_cons_self
    have hlast : splitTypeArgs.go [] (p.toList.reverse ++ []) 0 = [p] := by
      simp [splitTypeArgs.go, trimTypeArg_name hp, hp.1]
    cases ps with
    | nil =>
      rw [List.map_cons, List.map_nil, List.intercalate_singleton, ← List.append_nil p.toList,
        splitTypeArgs_go_name hp.2, hlast]
    | cons q ps =>
      have ih := ih fun q hq => h q (List.mem_cons_of_mem _ hq)
      rw [List.map_cons] at ih ⊢
      rw [List.map_cons, List.intercalate_cons_cons, List.append_assoc,
        splitTypeArgs_go_name hp.2, List.singleton_append, splitTypeArgs_go_comma, ih,
        List.append_nil, List.reverse_reverse, String.ofList_toList, trimTypeArg_name hp]

theorem splitOn_go_head (sep : Char) (l cur : List Char) :
    (Text.splitOn.go sep l cur).head? = some (cur.reverse ++ l.takeWhile (· ≠ sep)) := by
  induction l generalizing cur with
  | nil => simp [Text.splitOn_go_nil]
  | cons c l ih =>
    rw [Text.splitOn_go_cons]
    by_cases hc : c = sep
    · simp [hc]
    · simp [hc, ih]

theorem splitOn_go_none {sep : Char} {l : List Char} (h : sep ∉ l) (cur : List Char) :
    Text.splitOn.go sep l cur = [cur.reverse ++ l] := by
  induction l generalizing cur with
  | nil => simp [Text.splitOn_go_nil]
  | cons c l ih =>
    have hc : c ≠ sep := fun hc => h (hc ▸ List.mem_cons_self)
    rw [Text.splitOn_go_cons, if_neg hc, ih fun hl => h (List.mem_cons_of_mem _ hl)]
    simp

/-- One binding comes back when it has no tab. -/
theorem splitPayloadTypes_single {x : String} (hx : x ≠ "") (htab : '\t' ∉ x.toList) :
    splitPayloadTypes x = [x] := by
  rw [splitPayloadTypes, if_neg hx, Text.splitOn, splitOn_go_none htab]
  simp

/-- The first part ends at the first tab. -/
theorem splitPayloadTypes_head {x : String} (hx : x ≠ "") :
    (splitPayloadTypes x)[0]? = some (String.ofList (x.toList.takeWhile (· ≠ '\t'))) := by
  rw [splitPayloadTypes, if_neg hx, Text.splitOn, List.getElem?_map, ← List.head?_eq_getElem?,
    splitOn_go_head]
  simp

/-! ## What a frame stands for -/

theorem substituteTypeParams_go_name {params args : List String} {w : List Char}
    (hw : ∀ c ∈ w, isTypeNameChar c = true) (word : List Char) :
    substituteTypeParams.go params args w word =
      substituteTypeParams.flush params args (w.reverse ++ word) := by
  induction w generalizing word with
  | nil => rfl
  | cons c w ih =>
    rw [substituteTypeParams.go, if_pos (hw c List.mem_cons_self),
      ih fun d hd => hw d (List.mem_cons_of_mem _ hd)]
    simp

/-- A whole word is replaced by its argument. -/
theorem substituteTypeParams_name {p : String} (hp : IsTypeName p) (params args : List String) :
    substituteTypeParams p params args = argumentForTypeName p params args := by
  rw [substituteTypeParams, substituteTypeParams_go_name hp.2, substituteTypeParams.flush]
  simp [hp.1]

/-- The substitution asks only for the arguments of words. -/
theorem substituteTypeParams_congr {params args args' : List String}
    (h : ∀ word, argumentForTypeName word params args = argumentForTypeName word params args')
    (t : String) : substituteTypeParams t params args = substituteTypeParams t params args' := by
  have hflush : ∀ word, substituteTypeParams.flush params args word =
      substituteTypeParams.flush params args' word := by
    intro word
    rw [substituteTypeParams.flush, substituteTypeParams.flush, h]
  have hgo : ∀ l word, substituteTypeParams.go params args l word =
      substituteTypeParams.go params args' l word := by
    intro l
    induction l with
    | nil => exact hflush
    | cons c l ih =>
      intro word
      rw [substituteTypeParams.go, substituteTypeParams.go, hflush, ih, ih]
  exact hgo _ _

/-- The first parameter and its binding. -/
theorem argumentForTypeName_head (p : String) (ps args : List String) :
    argumentForTypeName p (p :: ps) args =
      match args[0]? with
      | some a => if a = "" then p else a
      | none => p := by
  have hfirst : typeParamIndex (p :: ps) p = some 0 := by simp [typeParamIndex, List.findIdx?_cons]
  cases harg : args[0]? <;> simp [argumentForTypeName, hfirst, harg]

/-- The first part of a joined list with a comma, or of one binding with a tab, is not the first
binding. -/
theorem argument_join_ne {p : String} (hp : IsTypeName p) (ps : List String) {x : String}
    {xs : List String} (h : xs ≠ [] ∨ '\t' ∈ x.toList) :
    argumentForTypeName p (p :: ps) (splitPayloadTypes (joinTypeNames (x :: xs))) ≠
      argumentForTypeName p (p :: ps) (x :: xs) := by
  have hptab : '\t' ∉ p.toList := fun hc => (isTypeNameChar_plain (hp.2 _ hc)).2.2.2.1 rfl
  have hpcomma : ',' ∉ p.toList := fun hc => (isTypeNameChar_plain (hp.2 _ hc)).1 rfl
  obtain ⟨rest, hjoin, hrest⟩ : ∃ rest, (joinTypeNames (x :: xs)).toList = x.toList ++ rest ∧
      (xs ≠ [] → rest.head? = some ',') := by
    rw [joinTypeNames, String.toList_intercalate, List.map_cons]
    cases xs with
    | nil => exact ⟨[], by simp, fun hne => absurd rfl hne⟩
    | cons y ys =>
      rw [List.map_cons, List.intercalate_cons_cons, List.append_assoc]
      exact ⟨_, rfl, by simp⟩
  have hne : joinTypeNames (x :: xs) ≠ "" := by
    intro hempty
    rw [hempty, String.toList_empty, eq_comm, List.append_eq_nil_iff] at hjoin
    rcases h with hxs | htab
    · rw [hjoin.2] at hrest
      exact absurd (hrest hxs) (by simp)
    · rw [hjoin.1] at htab
      cases htab
  rw [argumentForTypeName_head, argumentForTypeName_head, splitPayloadTypes_head hne, hjoin]
  dsimp only
  by_cases htab : '\t' ∈ x.toList
  · -- neither the parameter nor a part has a tab
    have hx : x ≠ "" := by
      rintro rfl
      cases htab
    rw [List.getElem?_cons_zero]
    simp only [if_neg hx]
    intro heq
    rw [← heq] at htab
    split at htab
    · exact hptab htab
    · rw [String.toList_ofList] at htab
      simpa using List.mem_takeWhile_imp htab
  · -- the part goes on behind the comma
    obtain ⟨more, rfl⟩ : ∃ more, rest = ',' :: more := by
      cases rest with
      | nil => cases hrest (h.resolve_right htab)
      | cons c more => exact ⟨more, by simpa using hrest (h.resolve_right htab)⟩
    have hpart : (x.toList ++ ',' :: more).takeWhile (· ≠ '\t') =
        x.toList ++ ',' :: more.takeWhile (· ≠ '\t') := by
      have hplain : ∀ c ∈ x.toList, (decide (c ≠ '\t')) = true :=
        fun c hc => decide_eq_true fun hct => htab (hct ▸ hc)
      rw [List.takeWhile_append_of_pos hplain, List.takeWhile_cons_of_pos (by decide)]
    rw [hpart, List.getElem?_cons_zero]
    have hlong : String.ofList (x.toList ++ ',' :: more.takeWhile (· ≠ '\t')) ≠ "" := by
      intro hempty
      have := congrArg String.toList hempty
      simp at this
    simp only [if_neg hlong]
    intro heq
    have heq := congrArg String.toList heq
    rw [String.toList_ofList] at heq
    split at heq
    · exact hpcomma (heq ▸ by simp)
    · have := congrArg List.length heq
      simp at this

/-- What a spelling resolves to under the frame of an instance. -/
theorem resolveFnType_under {b b' : IRBuilder} {name : String} {bindings : List String}
    {w : FnWork} (hw : Queued b name bindings w)
    (hnames : ∀ p ∈ typeParamsOf (genericFnByName b name), IsTypeName p)
    (hframes : b'.fnGeneric = []) (t : String) :
    resolveFnType (b'.under w) t = substituteTypeParams t (typeParamsOf (genericFnByName b name))
      (splitPayloadTypes (joinTypeNames bindings)) := by
  obtain ⟨hparams, hargs⟩ := hw.joined
  change ((w.params, w.args) :: b'.fnGeneric).foldl _ t = _
  rw [hframes, hparams, hargs, List.foldl_cons, List.foldl_nil, splitTypeArgs_join hnames]

/-- **The frame of an instance stands for its bindings** exactly when the function has no type
parameter, or there is at most one binding and it has no tab. -/
theorem resolveFnType_queued_iff {b b' : IRBuilder} {name : String} {bindings : List String}
    {w : FnWork} (hw : Queued b name bindings w)
    (hnames : ∀ p ∈ typeParamsOf (genericFnByName b name), IsTypeName p)
    (hframes : b'.fnGeneric = []) :
    (∀ t, resolveFnType (b'.under w) t =
        substituteTypeParams t (typeParamsOf (genericFnByName b name)) bindings) ↔
      typeParamsOf (genericFnByName b name) = [] ∨ bindings = [] ∨
        ∃ x, bindings = [x] ∧ '\t' ∉ x.toList := by
  simp only [resolveFnType_under hw hnames hframes]
  generalize typeParamsOf (genericFnByName b name) = params at hnames ⊢
  constructor
  · intro h
    cases params with
    | nil => exact .inl rfl
    | cons p ps =>
      cases bindings with
      | nil => exact .inr (.inl rfl)
      | cons x xs =>
        right
        right
        have hp := hnames p List.mem_cons_self
        have hone := h p
        rw [substituteTypeParams_name hp, substituteTypeParams_name hp] at hone
        by_contra hnot
        refine argument_join_ne hp ps ?_ hone
        by_contra hx
        rw [not_or, not_not] at hx
        obtain ⟨rfl, htab⟩ := hx
        exact hnot ⟨x, rfl, htab⟩
  · intro h t
    apply substituteTypeParams_congr
    intro word
    rcases h with rfl | rfl | ⟨x, rfl, htab⟩
    · rfl
    · rfl
    · rw [joinTypeNames, String.intercalate_singleton]
      by_cases hx : x = ""
      · subst hx
        cases hword : typeParamIndex params word with
        | none => simp [argumentForTypeName, hword]
        | some i => cases i <;> simp [argumentForTypeName, hword, splitPayloadTypes]
      · rw [splitPayloadTypes_single hx htab]

/-- A builder that knows one generic function, of these type parameters. -/
def builderWith (params : List String) : IRBuilder :=
  { initIRBuilder with genericFns := [("pick", .functionDecl "pick" [] [] "void" .empty false false
      false (params.map fun p => .genericParam p "") false)] }

/-- The instance of one parameter stands for a binding with a comma. -/
theorem resolveFnType_one :
    ∃ w, Queued (builderWith ["T"]) "pick" ["map<string, int>"] w ∧
      ∀ t, resolveFnType (initIRBuilder.under w) t =
        substituteTypeParams t ["T"] ["map<string, int>"] := by
  have hlen : 0 < (ensureFnInstance "pick" ["map<string, int>"]
      (builderWith ["T"])).2.fnWork.length := by
    decide
  have hw : Queued (builderWith ["T"]) "pick" ["map<string, int>"] _ :=
    ⟨List.getElem_mem hlen, by simp [builderWith, initIRBuilder]⟩
  refine ⟨_, hw, (resolveFnType_queued_iff hw ?_ rfl).mpr (.inr (.inr ⟨_, rfl, by decide⟩))⟩
  change ∀ p ∈ ["T"], IsTypeName p
  decide

/-- In the instance at `string` and `int` the first parameter is the text `string,int`. -/
theorem resolveFnType_two :
    ¬ ∀ (b b' : IRBuilder) (name : String) (bindings : List String) (w : FnWork),
      Queued b name bindings w → (∀ p ∈ typeParamsOf (genericFnByName b name), IsTypeName p) →
      bindings.length = (typeParamsOf (genericFnByName b name)).length → b'.fnGeneric = [] →
      ∀ t, resolveFnType (b'.under w) t =
        substituteTypeParams t (typeParamsOf (genericFnByName b name)) bindings := by
  intro h
  have hlen : 0 < (ensureFnInstance "pick" ["string", "int"]
      (builderWith ["K", "V"])).2.fnWork.length := by
    decide
  have hw : Queued (builderWith ["K", "V"]) "pick" ["string", "int"] _ :=
    ⟨List.getElem_mem hlen, by simp [builderWith, initIRBuilder]⟩
  have hparams : typeParamsOf (genericFnByName (builderWith ["K", "V"]) "pick") = ["K", "V"] := rfl
  have hnames : ∀ p ∈ ["K", "V"], IsTypeName p := by decide
  have hread := h _ initIRBuilder _ _ _ hw (hparams ▸ hnames) (by rw [hparams]; rfl) rfl "K"
  rw [resolveFnType_under hw (hparams ▸ hnames) rfl, hparams] at hread
  exact absurd hread (by decide)

end Build
