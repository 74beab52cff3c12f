import Mathlib.Tactic.FinCases
import Orbit.Emit.Proof.DocumentText

/-!
# The IR document is faithful

The grammar reads the JSON value of each entry back (`readFunction_functionJson` and its like), the
scan for runtime symbols finds each missing one once (`irRuntimeExterns_once`), and the document is
the JSON text of the whole module (`emitIRv1_eq`). Together: `emitIRv1_faithful`.
-/

namespace Emit.Document

open IR
open Lib.Json (Value Elems Fields write)
open Lib.Text (chars)

/-! ## Reading the value back -/

/-- What the grammar can write: register and label numbers are not negative. -/
def DocValue : IRValue → Prop
  | .float _ => False
  | .register n => 0 ≤ n
  | .label n => 0 ≤ n
  | _ => True

/-- The instructions of the grammar. -/
structure DocInstr (runtime : Bool) (i : IRInstruction) : Prop where
  opcode : runtime = true ∨ i.opcode ∈ opcodes
  dest : -1 ≤ i.dest
  operands : ∀ v ∈ i.operands, DocValue v
  elemKind : elemKindOk runtime i.opcode i.elemKind = true
  line : 0 < i.line → i.opcode = .div ∨ i.opcode = .mod

/-- The instruction as the document has it: `fieldKind` is not a member, `line` only when it is
positive. -/
def docInstr (i : IRInstruction) : IRInstruction :=
  { i with fieldKind := 0, line := if 0 < i.line then i.line else 0 }

def docFunction (f : IRFunction) : IRFunction :=
  { f with
    paramTypes := f.paramTypes.map irTypeName
    registerTypes := f.registerTypes.map irTypeName
    returnType := irTypeName f.returnType
    instructions := f.instructions.map docInstr }

theorem DocValue.noFloat {v : IRValue} (h : DocValue v) : NoFloat v := by
  rintro b rfl
  exact h

theorem member_self {α β : Type} {k : String} {get : Value → Option α}
    {next : α → Fields → Option β} {x : Value} {a : α} (h : get x = some a) (fs : Fields) :
    member k get next (.cons (chars k) x fs) = next a fs := by
  rw [member, if_pos rfl, h, Option.bind_some]

@[simp] theorem asString_strJson (s : String) : asString (strJson s) = some s := by
  simp [asString, strJson]

theorem asWord_toInt (w : Word) : asWord (.num w.toInt) = some w := by
  have h1 := BitVec.le_toInt w
  have h2 := BitVec.toInt_lt (x := w)
  rw [asWord, if_pos (by omega), BitVec.ofInt_toInt]

theorem readElems_ofList {α : Type} {item : Value → Option α} {f : α → Value} {g : α → α}
    {xs : List α} (h : ∀ x ∈ xs, item (f x) = some (g x)) :
    readElems item (Elems.ofList (xs.map f)) = some (xs.map g) := by
  induction xs with
  | nil => rfl
  | cons x xs ih =>
    have ih := ih fun y hy => h y (List.mem_cons_of_mem x hy)
    simp only [List.map_cons, Elems.ofList, readElems, h x List.mem_cons_self, ih]

theorem asList_listJson {α : Type} {item : Value → Option α} {f : α → Value} {g : α → α}
    {xs : List α} (h : ∀ x ∈ xs, item (f x) = some (g x)) :
    asList item (listJson f xs) = some (xs.map g) := readElems_ofList h

theorem map_same {α : Type} {f : α → α} {xs : List α} (h : ∀ x ∈ xs, f x = x) : xs.map f = xs :=
  (List.map_congr_left h).trans (List.map_id' xs)

/-- A list whose items are read back is read back. -/
theorem asList_same {α : Type} {item : Value → Option α} {f : α → Value} {xs : List α}
    (h : ∀ x ∈ xs, item (f x) = some x) : asList item (listJson f xs) = some xs := by
  have hmap : xs.map id = xs := List.map_id xs
  rw [asList_listJson (g := id) h, hmap]

@[simp] theorem asList_strings (xs : List String) :
    asList asString (listJson strJson xs) = some xs :=
  asList_same fun x _ => asString_strJson x

@[simp] theorem asList_types (xs : List String) :
    asList asString (listJson typeJson xs) = some (xs.map irTypeName) :=
  asList_listJson fun x _ => asString_strJson (irTypeName x)

theorem readOperand_payload {kind : String} {x : Value} {v : IRValue} (hkind : kind ≠ "None")
    (h : readPayload kind x = some v) :
    readOperand (object [("kind", strJson kind), ("value", x)]) = some v := by
  change member "kind" asString _ (.cons (chars "kind") (strJson kind)
    (.cons (chars "value") x .nil)) = some v
  rw [member_self (asString_strJson kind), if_neg hkind, member_self h]
  rfl

theorem readOperand_valueJson {v : IRValue} (h : DocValue v) :
    readOperand (valueJson v) = some v := by
  cases v with
  | float b => exact h.elim
  | int w => exact readOperand_payload (by decide) (by simp [readPayload, asWord_toInt])
  | string s => exact readOperand_payload (by decide) (by simp [readPayload])
  | sym s => exact readOperand_payload (by decide) (by simp [readPayload])
  | bool b => exact readOperand_payload (by decide) (by simp [readPayload, asBool])
  | register n =>
    have h : 0 ≤ n := h
    exact readOperand_payload (by decide) (by simp [readPayload, asUInt, h])
  | label n =>
    have h : 0 ≤ n := h
    exact readOperand_payload (by decide) (by simp [readPayload, asUInt, h])
  | none =>
    change member "kind" asString _ (.cons (chars "kind") (strJson "None") .nil) = some IRValue.none
    rw [member_self (asString_strJson "None"), if_pos rfl]
    rfl

theorem find_name {α : Type} {name : α → String} {l : List α} (h : (l.map name).Nodup) {x : α}
    (hx : x ∈ l) : l.find? (name · == name x) = some x := by
  induction l with
  | nil => cases hx
  | cons y l ih =>
    rw [List.map_cons, List.nodup_cons] at h
    rcases List.mem_cons.mp hx with rfl | hx
    · simp
    · have hne : name y ≠ name x := fun he => h.1 (he ▸ List.mem_map_of_mem hx)
      rw [List.find?_cons_of_neg (by simpa using hne)]
      exact ih h.2 hx

theorem irOpcodeName_nodup : ((opcodes ++ runtimeOpcodes).map irOpcodeName).Nodup := by
  decide

theorem readOpcode_name {runtime : Bool} {op : IROpcode} (h : runtime = true ∨ op ∈ opcodes) :
    readOpcode runtime (irOpcodeName op) = some op := by
  rw [readOpcode]
  cases runtime with
  | true =>
    rw [if_pos rfl]
    exact find_name irOpcodeName_nodup (mem_opcodes op)
  | false =>
    rw [if_neg (by decide)]
    have hnodup := irOpcodeName_nodup
    rw [List.map_append] at hnodup
    exact find_name hnodup.of_append_left (h.resolve_left (by decide))

theorem readInstruction_instrJson {runtime : Bool} {i : IRInstruction} (h : DocInstr runtime i) :
    readInstruction runtime (instrJson i) = some (docInstr i) := by
  have hops := h.operands
  simp only [IRInstruction.operands, List.mem_cons, List.not_mem_nil, or_false, forall_eq_or_imp,
    forall_eq] at hops
  obtain ⟨h1, h2, h3⟩ := hops
  have hopcode : (asString (strJson (irOpcodeName i.opcode))).bind (readOpcode runtime) =
      some i.opcode := by
    rw [asString_strJson, Option.bind_some, readOpcode_name h.opcode]
  have hdest : asDest (.num i.dest) = some i.dest := if_pos h.dest
  have hkind : asElemKind runtime i.opcode (.num i.elemKind) = some i.elemKind := if_pos h.elemKind
  have hline : readLine i.opcode (if 0 < i.line then .cons (chars "line") (.num i.line) .nil
      else .nil) = some (if 0 < i.line then i.line else 0) := by
    by_cases hpos : 0 < i.line
    · have hasLine : asLine i.opcode (.num i.line) = some i.line := if_pos ⟨hpos, h.line hpos⟩
      rw [if_pos hpos, if_pos hpos, readLine, member_self hasLine]
      · rfl
      · simp
    · rw [if_neg hpos, if_neg hpos]
      rfl
  have hfs : asObject (instrJson i) = some (.cons (chars "opcode") (strJson (irOpcodeName i.opcode))
      (.cons (chars "dest") (.num i.dest) (.cons (chars "operand1") (valueJson i.operand1)
      (.cons (chars "operand2") (valueJson i.operand2) (.cons (chars "operand3")
      (valueJson i.operand3) (.cons (chars "elemKind") (.num i.elemKind)
      (if 0 < i.line then .cons (chars "line") (.num i.line) .nil else .nil))))))) := by
    rw [instrJson]
    split <;> rfl
  rw [readInstruction, hfs, Option.bind_some, member_self hopcode, member_self hdest,
    member_self (readOperand_valueJson h1), member_self (readOperand_valueJson h2),
    member_self (readOperand_valueJson h3), member_self hkind, hline]
  rfl

theorem key_ne {k l : String} (h : k ≠ l) : chars k ≠ chars l := by
  rw [chars, chars]
  exact fun he => h (String.toList_injective he)

theorem flag_self {β : Type} {k : String} {next : Bool → Fields → Option β} (fs : Fields) :
    flag k next (.cons (chars k) (.bool true) fs) = next true fs := by
  rw [flag, if_pos rfl]

theorem flag_other {β : Type} {k l : String} (h : l ≠ k) {next : Bool → Fields → Option β}
    {x : Value} (fs : Fields) :
    flag k next (.cons (chars l) x fs) = next false (.cons (chars l) x fs) := by
  unfold flag
  exact if_neg (key_ne h)

theorem readFunction_functionJson {runtime : Bool} {f : IRFunction}
    (hinstr : ∀ i ∈ f.instructions, DocInstr runtime i)
    (hexport : f.isExport = true → runtime = true) :
    readFunction runtime (functionJson f) = some (docFunction f) := by
  have hparams := asList_strings f.params
  have htypes := asList_types f.paramTypes
  have hregs := asList_types f.registerTypes
  have hbody := asList_listJson fun i hi => readInstruction_instrJson (hinstr i hi)
  have hint : ∀ n : Int, asInt (.num n) = some n := fun n => rfl
  have hbool : ∀ b : Bool, asBool (.bool b) = some b := fun b => rfl
  have hret : asString (typeJson f.returnType) = some (irTypeName f.returnType) :=
    asString_strJson _
  have hok : exportOk runtime f.isExport = true := by
    cases he : f.isExport with
    | false => rfl
    | true => simp [exportOk, hexport he]
  obtain ⟨tail, htail⟩ : ∃ tail : Fields, tail =
      Fields.ofList ((functionTail f).map fun f => (chars f.1, f.2)) := ⟨_, rfl⟩
  have hfs : asObject (functionJson f) = some (.cons (chars "name") (strJson f.name)
      (.cons (chars "params") (listJson strJson f.params)
      (.cons (chars "paramTypes") (listJson typeJson f.paramTypes)
      (.cons (chars "instructions") (listJson instrJson f.instructions)
      (.cons (chars "registerCount") (.num f.registerCount)
      (.cons (chars "registerTypes") (listJson typeJson f.registerTypes)
      (.cons (chars "returnType") (typeJson f.returnType)
      (.cons (chars "isExtern") (.bool f.isExtern)
      (if f.isExport then .cons (chars "export") (.bool true) tail else tail))))))))) := by
    rw [functionJson, htail]
    split <;> rfl
  have hflag : ∀ next : Bool → Fields → Option IRFunction, flag "export" next
      (if f.isExport then .cons (chars "export") (.bool true) tail else tail) =
        next f.isExport tail := by
    intro next
    cases f.isExport with
    | false =>
      rw [if_neg (by decide), htail]
      exact flag_other (k := "export") (l := "routeMethod") (by decide) _
    | true => exact flag_self tail
  rw [readFunction, hfs, Option.bind_some, member_self (asString_strJson f.name),
    member_self hparams, member_self htypes, member_self hbody, member_self (hint _),
    member_self hregs, member_self hret, member_self (hbool _), hflag, htail]
  simp only [functionTail, List.map_cons, List.map_nil, Fields.ofList]
  rw [member_self (asString_strJson f.routeMethod), member_self (asString_strJson f.routePath),
    member_self (hbool _), member_self (hint _), member_self (hint _), member_self (hint _), done,
    if_pos hok]
  rfl

theorem readField_fieldJson (f : IRModelField) : readField (fieldJson f) = some f := by
  change member "name" asString _ (.cons (chars "name") (strJson f.name)
    (.cons (chars "typeName") (strJson f.typeName) .nil)) = some f
  rw [member_self (asString_strJson f.name), member_self (asString_strJson f.typeName)]
  rfl

theorem readModel_modelJson (m : IRModelDecl) : readModel (modelJson m) = some m := by
  have hfields := asList_same fun f (_ : f ∈ m.fields) => readField_fieldJson f
  change member "name" asString _ (.cons (chars "name") (strJson m.name)
    (.cons (chars "fields") (listJson fieldJson m.fields)
    (.cons (chars "typeParams") (listJson strJson m.typeParams) .nil))) = some m
  rw [member_self (asString_strJson m.name), member_self hfields,
    member_self (asList_strings m.typeParams)]
  rfl

theorem readType_typeDeclJson (t : IRTypeDecl) : readType (typeDeclJson t) = some t := by
  change member "name" asString _ (.cons (chars "name") (strJson t.name)
    (.cons (chars "kind") (strJson t.kind) (.cons (chars "variants") (listJson strJson t.variants)
    (.cons (chars "richVariants") (listJson strJson t.richVariants)
    (.cons (chars "methods") (listJson strJson t.methods) .nil))))) = some t
  rw [member_self (asString_strJson t.name), member_self (asString_strJson t.kind),
    member_self (asList_strings t.variants), member_self (asList_strings t.richVariants),
    member_self (asList_strings t.methods)]
  rfl

theorem readGlobal_globalJson {g : IRGlobal} (h : DocValue g.value) :
    readGlobal (globalJson g) = some g := by
  change member "name" asString _ (.cons (chars "name") (strJson g.name)
    (.cons (chars "value") (valueJson g.value)
    (.cons (chars "typeName") (strJson g.typeName) .nil))) = some g
  rw [member_self (asString_strJson g.name), member_self (readOperand_valueJson h),
    member_self (asString_strJson g.typeName)]
  rfl

/-! ## Externs -/

theorem irRuntimeExtern_instructions (name : String) :
    (irRuntimeExtern name).instructions = [] := by
  rw [irRuntimeExtern]
  split <;> rfl

/-- A runtime symbol, by its name. -/
def isRuntimeSymbol (name : String) : Bool := runtimeSymbols.any (·.1 == name)

theorem irRuntimeExtern_name (name : String) :
    (irRuntimeExtern name).name = if isRuntimeSymbol name then name else "" := by
  rw [irRuntimeExtern, isRuntimeSymbol, List.any_eq]
  cases hfind : runtimeSymbols.find? (·.1 == name) with
  | none =>
    rw [List.find?_eq_none] at hfind
    have hno : ¬ ∃ x ∈ runtimeSymbols, (x.1 == name) = true := by
      rintro ⟨x, hx, h⟩
      exact hfind x hx h
    simp only [initIRFunction, hno, decide_false, Bool.false_eq_true, if_false]
  | some r =>
    have hname := List.find?_some hfind
    have hyes : ∃ x ∈ runtimeSymbols, (x.1 == name) = true :=
      ⟨r, List.mem_of_find?_eq_some hfind, hname⟩
    simp only [irExternDecl, initIRFunction, hyes, decide_true, if_true]

/-- `instr` calls the runtime symbol `name` by its name. -/
def Calls (instr : IRInstruction) (name : String) : Prop :=
  instr.opcode = .call ∧ calleeText instr = name

instance (instr : IRInstruction) (name : String) : Decidable (Calls instr name) :=
  inferInstanceAs (Decidable (_ ∧ _))

/-- A runtime symbol that the module does not declare. -/
def Missing (m : IRModule) (name : String) : Prop :=
  isRuntimeSymbol name = true ∧ irHasFunctionNamed m name = false

instance (m : IRModule) (name : String) : Decidable (Missing m name) :=
  inferInstanceAs (Decidable (_ ∧ _))

theorem isRuntimeSymbol_empty : isRuntimeSymbol "" = false := by
  decide

/-- The scan adds the extern of a missing symbol at its first call. -/
theorem externStep_eq (m : IRModule) (acc : List IRFunction × List String)
    (instr : IRInstruction) :
    externStep m acc instr =
      if instr.opcode = .call ∧ Missing m (calleeText instr) ∧ calleeText instr ∉ acc.2 then
        (acc.1 ++ [irRuntimeExtern (calleeText instr)], acc.2 ++ [calleeText instr])
      else acc := by
  have hname := irRuntimeExtern_name (calleeText instr)
  have hempty := isRuntimeSymbol_empty
  unfold externStep Missing
  by_cases hcall : instr.opcode = .call
  · by_cases hne : calleeText instr = ""
    · simp [hcall, hne, hempty]
    · by_cases hsym : isRuntimeSymbol (calleeText instr) = true
      · by_cases hdecl : irHasFunctionNamed m (calleeText instr) = false <;>
          by_cases hseen : calleeText instr ∈ acc.2 <;>
          simp [hcall, hne, hsym, hdecl, hseen, hname]
      · simp [hcall, hsym, hname]
  · simp [hcall]

/-- What the scan of the instructions `is` has found. -/
structure Found (m : IRModule) (is : List IRInstruction)
    (acc : List IRFunction × List String) : Prop where
  externs : acc.1 = acc.2.map irRuntimeExtern
  nodup : acc.2.Nodup
  mem : ∀ name, name ∈ acc.2 ↔ Missing m name ∧ ∃ i ∈ is, Calls i name

theorem Found.step {m : IRModule} {is : List IRInstruction}
    {acc : List IRFunction × List String} (h : Found m is acc) (instr : IRInstruction) :
    Found m (is ++ [instr]) (externStep m acc instr) := by
  have hcalls : ∀ name, (∃ i ∈ is ++ [instr], Calls i name) ↔
      (∃ i ∈ is, Calls i name) ∨ Calls instr name := by
    intro name
    simp only [List.mem_append, List.mem_singleton, or_and_right, exists_or, exists_eq_left]
  rw [externStep_eq]
  by_cases hnew : instr.opcode = .call ∧ Missing m (calleeText instr) ∧ calleeText instr ∉ acc.2
  · rw [if_pos hnew]
    obtain ⟨hcall, hmissing, hseen⟩ := hnew
    refine ⟨by simp [h.externs], ?_, ?_⟩
    · exact h.nodup.append (List.nodup_singleton _) (by simpa using hseen)
    · intro name
      rw [hcalls, List.mem_append, List.mem_singleton, h.mem]
      constructor
      · rintro (⟨hm, hi⟩ | rfl)
        · exact ⟨hm, .inl hi⟩
        · exact ⟨hmissing, .inr ⟨hcall, rfl⟩⟩
      · rintro ⟨hm, hi | hi⟩
        · exact .inl ⟨hm, hi⟩
        · exact .inr hi.2.symm
  · rw [if_neg hnew]
    refine ⟨h.externs, h.nodup, fun name => ?_⟩
    rw [hcalls, h.mem]
    constructor
    · rintro ⟨hm, hi⟩
      exact ⟨hm, .inl hi⟩
    · rintro ⟨hm, hi | hi⟩
      · exact ⟨hm, hi⟩
      · obtain ⟨hcall, rfl⟩ := hi
        by_contra hno
        exact hnew ⟨hcall, hm, fun hseen => hno ((h.mem _).mp hseen)⟩

theorem Found.run {m : IRModule} (rest : List IRInstruction) :
    ∀ {is : List IRInstruction} {acc : List IRFunction × List String}, Found m is acc →
      Found m (is ++ rest) (rest.foldl (externStep m) acc) := by
  induction rest with
  | nil =>
    intro is acc h
    rwa [List.append_nil]
  | cons instr rest ih =>
    intro is acc h
    have := ih (h.step instr)
    rwa [List.append_assoc, List.singleton_append] at this

theorem found (m : IRModule) : Found m (m.functions.flatMap (·.instructions))
    ((m.functions.flatMap (·.instructions)).foldl (externStep m) ([], [])) := by
  have hstart : Found m [] ([], []) := ⟨rfl, List.nodup_nil, by simp⟩
  exact hstart.run _

/-- The names of the added externs. -/
theorem irRuntimeExterns_names (m : IRModule) :
    ∃ names : List String, irRuntimeExterns m = names.map irRuntimeExtern ∧ names.Nodup ∧
      ∀ name, name ∈ names ↔
        Missing m name ∧ ∃ f ∈ m.functions, ∃ i ∈ f.instructions, Calls i name := by
  have h := found m
  refine ⟨_, h.externs, h.nodup, fun name => ?_⟩
  rw [h.mem]
  constructor
  · rintro ⟨hm, i, hi, hcalls⟩
    obtain ⟨f, hf, hi⟩ := List.mem_flatMap.mp hi
    exact ⟨hm, f, hf, i, hi, hcalls⟩
  · rintro ⟨hm, f, hf, i, hi, hcalls⟩
    exact ⟨hm, i, List.mem_flatMap.mpr ⟨f, hf, hi⟩, hcalls⟩

/-- Each missing runtime symbol that is called is declared once, and nothing else is. -/
theorem irRuntimeExterns_once (m : IRModule) (name : String) :
    ((irRuntimeExterns m).filter (·.name == name)).length =
      if Missing m name ∧ ∃ f ∈ m.functions, ∃ i ∈ f.instructions, Calls i name then 1 else 0 := by
  obtain ⟨names, hexterns, hnodup, hmem⟩ := irRuntimeExterns_names m
  have hsame : ∀ x ∈ names, (irRuntimeExtern x).name = x := fun x hx => by
    rw [irRuntimeExtern_name, if_pos ((hmem x).mp hx).1.1]
  have hfilter : ((irRuntimeExterns m).filter (·.name == name)).length = names.count name := by
    rw [hexterns, List.filter_map, List.length_map, List.count_eq_length_filter]
    congr 1
    refine List.filter_congr fun x hx => ?_
    rw [Function.comp_apply, hsame x hx]
  rw [hfilter, hnodup.count]
  simp only [hmem]

/-! ## The module -/

/-- The strings of an instruction. -/
def instrTexts (i : IRInstruction) : List String := i.operands.map (·.nameText)

def functionTexts (f : IRFunction) : List String :=
  f.name :: f.params ++ f.paramTypes ++ f.instructions.flatMap instrTexts ++ f.registerTypes ++
    [f.returnType, f.routeMethod, f.routePath]

def modelTexts (m : IRModelDecl) : List String :=
  m.name :: m.fields.flatMap (fun f => [f.name, f.typeName]) ++ m.typeParams

def typeTexts (t : IRTypeDecl) : List String :=
  t.name :: t.kind :: t.variants ++ t.richVariants ++ t.methods

def globalTexts (g : IRGlobal) : List String := [g.name, g.value.nameText, g.typeName]

/-- Every string of the module. -/
def moduleTexts (m : IRModule) : List String :=
  m.functions.flatMap functionTexts ++ m.globals.flatMap globalTexts ++
    m.models.flatMap modelTexts ++ m.types.flatMap typeTexts ++ m.migrations ++ [m.sourceName]

/-- The modules that the grammar has a document for. -/
structure DocModule (m : IRModule) : Prop where
  instrs : ∀ f ∈ m.functions, ∀ i ∈ f.instructions, DocInstr m.runtimeModule i
  exports : ∀ f ∈ m.functions, f.isExport = true → m.runtimeModule = true
  globals : ∀ g ∈ m.globals, DocValue g.value
  texts : ∀ s ∈ moduleTexts m, Lib.Utf8.Valid s.toList

/-- The module that is read back: `unknown` types are `void*`, the called runtime symbols are
declared, and what is no member of the document has its default. -/
def readBack (m : IRModule) : IRModule :=
  { m with functions := m.functions.map docFunction ++ irRuntimeExterns m, configPort := 0 }

theorem docFunction_externDecl (name : String) (params types : List String) (ret : String) :
    docFunction (irExternDecl name params types ret) =
      irExternDecl name params (types.map irTypeName) (irTypeName ret) := rfl

/-- The declarations of the runtime symbols are written as they are. -/
theorem docFunction_symbol (name : String) :
    docFunction (irRuntimeExtern name) = irRuntimeExtern name := by
  have htypes : ∀ r ∈ runtimeSymbols, (∀ t ∈ r.2.2.1, t ≠ "unknown") ∧ r.2.2.2 ≠ "unknown" := by
    decide
  rw [irRuntimeExtern]
  cases hfind : runtimeSymbols.find? (·.1 == name) with
  | none => rfl
  | some r =>
    obtain ⟨hparams, hret⟩ := htypes r (List.mem_of_find?_eq_some hfind)
    have hmap : r.2.2.1.map irTypeName = r.2.2.1 := map_same fun t ht => if_neg (hparams t ht)
    have hres : irTypeName r.2.2.2 = r.2.2.2 := if_neg hret
    change docFunction (irExternDecl name r.2.1 r.2.2.1 r.2.2.2) = irExternDecl name _ _ _
    rw [docFunction_externDecl, hmap, hres]

theorem mem_irRuntimeExterns {m : IRModule} {f : IRFunction} (h : f ∈ irRuntimeExterns m) :
    ∃ name, f = irRuntimeExtern name := by
  obtain ⟨names, hexterns, -, -⟩ := irRuntimeExterns_names m
  rw [hexterns] at h
  obtain ⟨name, -, rfl⟩ := List.mem_map.mp h
  exact ⟨name, rfl⟩

theorem irRuntimeExtern_isExport (name : String) : (irRuntimeExtern name).isExport = false := by
  rw [irRuntimeExtern]
  split <;> rfl

theorem readModule_moduleJson {m : IRModule} (h : DocModule m) :
    readModule (moduleJson m) = some (readBack m) := by
  have hfun : ∀ f ∈ m.functions ++ irRuntimeExterns m,
      readFunction m.runtimeModule (functionJson f) = some (docFunction f) := by
    intro f hf
    rcases List.mem_append.mp hf with hf | hf
    · exact readFunction_functionJson (h.instrs f hf) (h.exports f hf)
    · obtain ⟨name, rfl⟩ := mem_irRuntimeExterns hf
      refine readFunction_functionJson ?_ ?_
      · simp [irRuntimeExtern_instructions]
      · simp [irRuntimeExtern_isExport]
  have hfuns := asList_listJson hfun
  have hexterns : (irRuntimeExterns m).map docFunction = irRuntimeExterns m := by
    refine map_same fun f hf => ?_
    obtain ⟨name, rfl⟩ := mem_irRuntimeExterns hf
    exact docFunction_symbol name
  have hglobals := asList_same fun g hg => readGlobal_globalJson (h.globals g hg)
  have hmodels := asList_same fun t (_ : t ∈ m.models) => readModel_modelJson t
  have htypes := asList_same fun t (_ : t ∈ m.types) => readType_typeDeclJson t
  rw [List.map_append, hexterns] at hfuns
  obtain ⟨fs, hfs⟩ : ∃ fs : Fields, fs =
      .cons (chars "functions") (listJson functionJson (m.functions ++ irRuntimeExterns m))
      (.cons (chars "globals") (listJson globalJson m.globals)
      (.cons (chars "models") (listJson modelJson m.models)
      (.cons (chars "types") (listJson typeDeclJson m.types)
      (.cons (chars "migrations") (listJson strJson m.migrations)
      (.cons (chars "sourceName") (strJson m.sourceName) .nil))))) := ⟨_, rfl⟩
  have hobj : asObject (moduleJson m) = some
      (if m.runtimeModule then .cons (chars "runtimeModule") (.bool true) fs else fs) := by
    rw [moduleJson, hfs]
    split <;> rfl
  have hflag : ∀ next : Bool → Fields → Option IRModule, flag "runtimeModule" next
      (if m.runtimeModule then .cons (chars "runtimeModule") (.bool true) fs else fs) =
        next m.runtimeModule fs := by
    intro next
    cases m.runtimeModule with
    | false =>
      rw [if_neg (by decide), hfs]
      exact flag_other (k := "runtimeModule") (l := "functions") (by decide) _
    | true => exact flag_self fs
  rw [readModule, hobj, Option.bind_some, hflag, hfs, member_self hfuns, member_self hglobals,
    member_self hmodels, member_self htypes, member_self (asList_strings m.migrations),
    member_self (asString_strJson m.sourceName)]
  rfl

theorem readRoot_rootJson {m : IRModule} (h : DocModule m) :
    readRoot (rootJson m) = some (readBack m) := by
  change member "irVersion" asString _ (.cons (chars "irVersion") (strJson "1")
    (.cons (chars "module") (moduleJson m) .nil)) = some (readBack m)
  rw [member_self (asString_strJson "1"), member_self (readModule_moduleJson h)]
  rfl

/-! ## The text of the module -/

/-- The members of a module after `runtimeModule`. -/
def moduleTail (m : IRModule) : List (String × Value) :=
  [("functions", listJson functionJson (m.functions ++ irRuntimeExterns m)),
    ("globals", listJson globalJson m.globals), ("models", listJson modelJson m.models),
    ("types", listJson typeDeclJson m.types), ("migrations", listJson strJson m.migrations),
    ("sourceName", strJson m.sourceName)]

theorem DocInstr.noFloats {runtime : Bool} {f : IRFunction}
    (h : ∀ i ∈ f.instructions, DocInstr runtime i) : NoFloats f :=
  fun i hi v hv => ((h i hi).operands v hv).noFloat

section
variable (floatText : BitVec 64 → Text)

theorem moduleTail_text {m : IRModule} (h : DocModule m) :
    commaList memberText (moduleTail m) =
      chars "\"functions\":[" ++ commaList (irAppendFunctionText floatText) m.functions ++
        externsText floatText m.functions.length 0 (irRuntimeExterns m) ++
        chars "],\"globals\":[" ++ commaList (irGlobalText floatText) m.globals ++
        chars "],\"models\":[" ++ commaList irAppendModelText m.models ++
        chars "],\"types\":[" ++ commaList irAppendTypeText m.types ++
        chars "],\"migrations\":" ++ irAppendStringList m.migrations ++
        chars ",\"sourceName\":\"" ++ irJsonEscape m.sourceName.toList ++ ['"'] := by
  have hfun : ∀ f ∈ m.functions ++ irRuntimeExterns m,
      irAppendFunctionText floatText f = write irJsonEscape (functionJson f) := by
    intro f hf
    rcases List.mem_append.mp hf with hf | hf
    · exact irAppendFunctionText_eq floatText (DocInstr.noFloats (h.instrs f hf))
    · obtain ⟨name, rfl⟩ := mem_irRuntimeExterns hf
      apply irAppendFunctionText_eq floatText
      rw [NoFloats, irRuntimeExtern_instructions]
      exact fun i hi => absurd hi List.not_mem_nil
  have hfuns := write_listJson hfun
  have hglobals := write_listJson fun g hg =>
    irGlobalText_eq floatText (h.globals g hg).noFloat
  have hmodels := write_listJson fun t (_ : t ∈ m.models) => irAppendModelText_eq t
  have htypes := write_listJson fun t (_ : t ∈ m.types) => irAppendTypeText_eq t
  rw [List.append_assoc (chars "\"functions\":["), commaList_externs, irAppendStringList_eq]
  simp [moduleTail, commaList, memberText, hfuns, hglobals, hmodels, htypes, strJson, chars]

theorem moduleTail_plain (m : IRModule) : ∀ x ∈ moduleTail m, plainKey x.1 = true := by
  simp [moduleTail, plainKey, chars]

theorem write_moduleJson (m : IRModule) : write irJsonEscape (moduleJson m) = '\x7b' ::
    ((if m.runtimeModule then chars "\"runtimeModule\":true," else []) ++
      (commaList memberText (moduleTail m) ++ ['\x7d'])) := by
  obtain ⟨y, ys, hys⟩ : ∃ y ys, moduleTail m = y :: ys := ⟨_, _, rfl⟩
  change write irJsonEscape (object ((if m.runtimeModule then
    [("runtimeModule", .bool true)] else []) ++ moduleTail m)) = _
  rw [write_object]
  · cases m.runtimeModule with
    | false => simp
    | true =>
      rw [if_pos rfl, if_pos rfl, hys, List.singleton_append, commaList]
      simp [memberText, Lib.Json.boolText, chars]
  · intro x hx
    rcases List.mem_append.mp hx with hx | hx
    · split at hx
      · rw [List.mem_singleton] at hx
        rw [hx]
        simp [plainKey, chars]
      · cases hx
    · exact moduleTail_plain m x hx

theorem write_rootJson (m : IRModule) : write irJsonEscape (rootJson m) =
    chars "\x7b\"irVersion\":\"1\",\"module\":" ++
      (write irJsonEscape (moduleJson m) ++ ['\x7d']) := by
  rw [rootJson, write_object (by simp [plainKey, chars])]
  simp [commaList, memberText, strJson, chars, irJsonEscape, irJsonEscape.escape]

/-- The document is the JSON text of the module, and a line end. -/
theorem emitIRv1_eq {m : IRModule} (h : DocModule m) :
    emitIRv1 floatText m = write irJsonEscape (rootJson m) ++ ['\n'] := by
  have hopen : chars "\x7b\"irVersion\":\"1\",\"module\":\x7b" =
      chars "\x7b\"irVersion\":\"1\",\"module\":" ++ ['\x7b'] := by
    simp [chars]
  have hclose : chars "\"\x7d\x7d\n" = ['"'] ++ ['\x7d', '\x7d', '\n'] := by
    simp [chars]
  rw [write_rootJson, write_moduleJson, moduleTail_text floatText h]
  delta emitIRv1
  simp only [hopen, hclose, List.append_assoc, List.cons_append, List.nil_append]

end

/-! ## UTF-8 -/

open Lib.Utf8 (Valid)

theorem textual_valid : Lib.Json.Textual Valid := ⟨Lib.Utf8.Valid.append, Lib.Utf8.valid_ascii⟩

theorem all_ofList {Q : Text → Prop} {vs : List Value} (h : ∀ v ∈ vs, v.All Q) :
    (Elems.ofList vs).All Q := by
  induction vs with
  | nil => trivial
  | cons v vs ih =>
    exact ⟨h v List.mem_cons_self, ih fun w hw => h w (List.mem_cons_of_mem v hw)⟩

theorem all_listJson {Q : Text → Prop} {α : Type} {f : α → Value} {xs : List α}
    (h : ∀ x ∈ xs, (f x).All Q) : (listJson f xs).All Q := by
  refine all_ofList fun v hv => ?_
  obtain ⟨x, hx, rfl⟩ := List.mem_map.mp hv
  exact h x hx

theorem valid_key {k : String} (h : plainKey k = true) : Valid (chars k) := by
  refine Lib.Utf8.valid_ascii fun c hc => ?_
  have := code_alphanum (List.all_eq_true.mp h c hc)
  omega

theorem all_object {fs : List (String × Value)} (hkeys : ∀ f ∈ fs, plainKey f.1 = true)
    (h : ∀ f ∈ fs, f.2.All Valid) : (object fs).All Valid := by
  change (Fields.ofList _).All Valid
  induction fs with
  | nil => trivial
  | cons f fs ih =>
    exact ⟨valid_key (hkeys f List.mem_cons_self), h f List.mem_cons_self,
      ih (fun g hg => hkeys g (List.mem_cons_of_mem f hg))
        fun g hg => h g (List.mem_cons_of_mem f hg)⟩

/-- The strings are UTF-8. -/
def ValidTexts (ss : List String) : Prop := ∀ s ∈ ss, Valid s.toList

theorem ValidTexts.of_subset {ss ts : List String} (h : ValidTexts ts) (hsub : ss ⊆ ts) :
    ValidTexts ss := fun s hs => h s (hsub hs)

theorem all_strJson {s : String} (h : Valid s.toList) : (strJson s).All Valid := h

theorem all_typeJson {s : String} (h : Valid s.toList) : (typeJson s).All Valid := by
  rw [typeJson, irTypeName]
  split
  · exact (by decide : Valid "void*".toList)
  · exact h

theorem all_strings {ss : List String} (h : ValidTexts ss) : (listJson strJson ss).All Valid :=
  all_listJson h

theorem all_types {ss : List String} (h : ValidTexts ss) : (listJson typeJson ss).All Valid :=
  all_listJson fun s hs => all_typeJson (h s hs)

theorem all_num (n : Int) : (Value.num n).All Valid := trivial

theorem all_bool (b : Bool) : (Value.bool b).All Valid := trivial

theorem all_valueJson {v : IRValue} (h : Valid v.nameText.toList) : (valueJson v).All Valid := by
  have hkind : ∀ k ∈ ["Int", "String", "Sym", "Bool", "Register", "Label", "None"],
      (strJson k).All Valid := by
    intro k hk
    refine all_strJson (Lib.Utf8.valid_ascii ?_)
    fin_cases hk <;> simp
  cases v with
  | float b => trivial
  | _ =>
    refine all_object (by simp [plainKey, chars]) ?_
    simp only [List.forall_mem_cons, List.not_mem_nil, false_implies, implies_true, and_true]
    first
      | exact hkind _ (by simp)
      | exact ⟨hkind _ (by simp), trivial⟩
      | exact ⟨hkind _ (by simp), all_strJson h⟩

theorem ascii_opcodes : ((opcodes ++ runtimeOpcodes).all fun op =>
    (irOpcodeName op).toList.all (·.toNat < 128)) = true := by
  decide

theorem all_instrJson {i : IRInstruction} (h : ValidTexts (instrTexts i)) :
    (instrJson i).All Valid := by
  have hname : ∀ op, (strJson (irOpcodeName op)).All Valid := by
    intro op
    refine all_strJson (Lib.Utf8.valid_ascii fun c hc => ?_)
    have hascii := List.all_eq_true.mp ascii_opcodes op (mem_opcodes op)
    exact of_decide_eq_true (List.all_eq_true.mp hascii c hc)
  have h1 := all_valueJson (h i.operand1.nameText (by simp [instrTexts, IRInstruction.operands]))
  have h2 := all_valueJson (h i.operand2.nameText (by simp [instrTexts, IRInstruction.operands]))
  have h3 := all_valueJson (h i.operand3.nameText (by simp [instrTexts, IRInstruction.operands]))
  have hline : ∀ f ∈ (if 0 < i.line then [("line", Value.num i.line)] else []),
      plainKey f.1 = true ∧ f.2.All Valid := by
    intro f hf
    split at hf
    · rw [List.mem_singleton] at hf
      rw [hf]
      exact ⟨by simp [plainKey, chars], trivial⟩
    · cases hf
  refine all_object (List.forall_mem_append.mpr ⟨?_, fun f hf => (hline f hf).1⟩)
    (List.forall_mem_append.mpr ⟨?_, fun f hf => (hline f hf).2⟩)
  · simp [plainKey, chars]
  · simp only [List.forall_mem_cons]
    exact ⟨hname _, all_num _, h1, h2, h3, all_num _, by simp⟩

theorem all_functionJson {f : IRFunction} (h : ValidTexts (functionTexts f)) :
    (functionJson f).All Valid := by
  have hname : Valid f.name.toList := h _ (by simp [functionTexts])
  have hparams : ValidTexts f.params := h.of_subset fun s hs => by simp [functionTexts, hs]
  have htypes : ValidTexts f.paramTypes := h.of_subset fun s hs => by simp [functionTexts, hs]
  have hregs : ValidTexts f.registerTypes := h.of_subset fun s hs => by simp [functionTexts, hs]
  have hret : Valid f.returnType.toList := h _ (by simp [functionTexts])
  have hmethod : Valid f.routeMethod.toList := h _ (by simp [functionTexts])
  have hpath : Valid f.routePath.toList := h _ (by simp [functionTexts])
  have hbody : ∀ i ∈ f.instructions, (instrJson i).All Valid := fun i hi =>
    all_instrJson (h.of_subset fun s hs => by
      have := List.mem_flatMap.mpr ⟨i, hi, hs⟩
      simp [functionTexts, this])
  refine all_object (functionKeys_plain f) (List.forall_mem_append.mpr
    ⟨?_, List.forall_mem_append.mpr ⟨?_, ?_⟩⟩)
  · simp only [functionHead, List.forall_mem_cons]
    exact ⟨hname, all_strings hparams, all_types htypes, all_listJson hbody, all_num _,
      all_types hregs, all_typeJson hret, all_bool _, by simp⟩
  · intro x hx
    split at hx
    · rw [List.mem_singleton] at hx
      rw [hx]
      trivial
    · cases hx
  · simp only [functionTail, List.forall_mem_cons]
    exact ⟨hmethod, hpath, all_bool _, all_num _, all_num _, all_num _, by simp⟩

theorem all_fieldJson {f : IRModelField} (h : ValidTexts [f.name, f.typeName]) :
    (fieldJson f).All Valid := by
  refine all_object (by simp [plainKey, chars]) ?_
  simp only [List.forall_mem_cons]
  exact ⟨h _ (by simp), h _ (by simp), by simp⟩

theorem all_modelJson {m : IRModelDecl} (h : ValidTexts (modelTexts m)) :
    (modelJson m).All Valid := by
  have hfields : ∀ f ∈ m.fields, (fieldJson f).All Valid := fun f hf =>
    all_fieldJson (h.of_subset fun s hs => by
      have : s ∈ m.fields.flatMap (fun f => [f.name, f.typeName]) :=
        List.mem_flatMap.mpr ⟨f, hf, hs⟩
      simp only [modelTexts, List.cons_append, List.mem_cons, List.mem_append, this, true_or,
        or_true])
  have hparams : ValidTexts m.typeParams := h.of_subset fun s hs => by simp [modelTexts, hs]
  refine all_object (by simp [plainKey, chars]) ?_
  simp only [List.forall_mem_cons]
  exact ⟨h m.name (by simp [modelTexts]), all_listJson hfields, all_strings hparams, by simp⟩

theorem all_typeDeclJson {t : IRTypeDecl} (h : ValidTexts (typeTexts t)) :
    (typeDeclJson t).All Valid := by
  refine all_object (by simp [plainKey, chars]) ?_
  simp only [List.forall_mem_cons]
  exact ⟨h t.name (by simp [typeTexts]), h t.kind (by simp [typeTexts]),
    all_strings (h.of_subset fun s hs => by simp [typeTexts, hs]),
    all_strings (h.of_subset fun s hs => by simp [typeTexts, hs]),
    all_strings (h.of_subset fun s hs => by simp [typeTexts, hs]), by simp⟩

theorem all_globalJson {g : IRGlobal} (h : ValidTexts (globalTexts g)) :
    (globalJson g).All Valid := by
  refine all_object (by simp [plainKey, chars]) ?_
  simp only [List.forall_mem_cons]
  exact ⟨h g.name (by simp [globalTexts]), all_valueJson (h _ (by simp [globalTexts])),
    h g.typeName (by simp [globalTexts]), by simp⟩

/-- The texts of the table are ASCII. -/
theorem ascii_runtimeSymbols : (runtimeSymbols.all fun r =>
    (r.2.1 ++ r.2.2.1 ++ [r.2.2.2, r.1]).all fun s => s.toList.all (·.toNat < 128)) = true := by
  decide

theorem functionTexts_symbol (name : String) :
    ValidTexts (functionTexts (irRuntimeExtern name)) := by
  rw [irRuntimeExtern]
  cases hfind : runtimeSymbols.find? (·.1 == name) with
  | none =>
    intro s hs
    simp only [functionTexts, initIRFunction, List.flatMap_nil, List.append_nil, List.mem_append,
      List.mem_cons, List.not_mem_nil, or_false] at hs
    rcases hs with rfl | rfl | rfl | rfl <;> decide
  | some r =>
    have hkey : r.1 = name := by simpa using List.find?_some hfind
    have hascii := List.all_eq_true.mp ascii_runtimeSymbols r (List.mem_of_find?_eq_some hfind)
    have hword : ∀ s ∈ r.2.1 ++ r.2.2.1 ++ [r.2.2.2, r.1], Valid s.toList := fun s hs =>
      Lib.Utf8.valid_ascii fun c hc => by
        simpa using List.all_eq_true.mp (List.all_eq_true.mp hascii s hs) c hc
    have hempty : Valid "".toList := by decide
    intro s hs
    change s ∈ functionTexts (irExternDecl name r.2.1 r.2.2.1 r.2.2.2) at hs
    simp only [functionTexts, irExternDecl, initIRFunction, List.flatMap_nil, List.append_nil,
      List.mem_append, List.mem_cons, List.not_mem_nil, or_false, List.cons_append] at hs
    rcases hs with rfl | (hs | hs) | rfl | rfl | rfl
    · exact hword _ (by simp [hkey])
    · exact hword _ (by simp [hs])
    · exact hword _ (by simp [hs])
    · exact hword _ (by simp)
    · exact hempty
    · exact hempty

theorem all_rootJson {m : IRModule} (h : DocModule m) : (rootJson m).All Valid := by
  have htexts : ValidTexts (moduleTexts m) := h.texts
  have hfun : ∀ f ∈ m.functions ++ irRuntimeExterns m, (functionJson f).All Valid := by
    intro f hf
    rcases List.mem_append.mp hf with hf | hf
    · refine all_functionJson (htexts.of_subset fun s hs => ?_)
      have := List.mem_flatMap.mpr ⟨f, hf, hs⟩
      simp only [moduleTexts, List.mem_append, this, true_or]
    · obtain ⟨name, rfl⟩ := mem_irRuntimeExterns hf
      exact all_functionJson (functionTexts_symbol name)
  have hglobals : ∀ g ∈ m.globals, (globalJson g).All Valid := fun g hg =>
    all_globalJson (htexts.of_subset fun s hs => by
      have := List.mem_flatMap.mpr ⟨g, hg, hs⟩
      simp only [moduleTexts, List.mem_append, this, true_or, or_true])
  have hmodels : ∀ t ∈ m.models, (modelJson t).All Valid := fun t ht =>
    all_modelJson (htexts.of_subset fun s hs => by
      have := List.mem_flatMap.mpr ⟨t, ht, hs⟩
      simp only [moduleTexts, List.mem_append, this, true_or, or_true])
  have htypes : ∀ t ∈ m.types, (typeDeclJson t).All Valid := fun t ht =>
    all_typeDeclJson (htexts.of_subset fun s hs => by
      have := List.mem_flatMap.mpr ⟨t, ht, hs⟩
      simp only [moduleTexts, List.mem_append, this, true_or, or_true])
  have hmigrations : ValidTexts m.migrations := htexts.of_subset fun s hs => by
    simp only [moduleTexts, List.mem_append, hs, true_or, or_true]
  have hsource : Valid m.sourceName.toList := htexts _ (by
    simp only [moduleTexts, List.mem_append, List.mem_singleton, or_true])
  have hmodule : (moduleJson m).All Valid := by
    change (object ((if m.runtimeModule then [("runtimeModule", .bool true)] else []) ++
      moduleTail m)).All Valid
    have hflag : ∀ x ∈ (if m.runtimeModule then [("runtimeModule", Value.bool true)] else []),
        plainKey x.1 = true ∧ x.2.All Valid := by
      intro x hx
      split at hx
      · rw [List.mem_singleton] at hx
        rw [hx]
        exact ⟨by simp [plainKey, chars], trivial⟩
      · cases hx
    refine all_object
      (List.forall_mem_append.mpr ⟨fun x hx => (hflag x hx).1, moduleTail_plain m⟩)
      (List.forall_mem_append.mpr ⟨fun x hx => (hflag x hx).2, ?_⟩)
    simp only [moduleTail, List.forall_mem_cons]
    exact ⟨all_listJson hfun, all_listJson hglobals, all_listJson hmodels, all_listJson htypes,
      all_strings hmigrations, hsource, by simp⟩
  refine all_object (by simp [plainKey, chars]) ?_
  simp only [List.forall_mem_cons]
  exact ⟨all_strJson (by decide), hmodule, by simp⟩

/-! ## The round trip -/

/-- A module of the grammar is read back from its document. -/
theorem readDocument_emitIRv1 (floatText : BitVec 64 → Text) {m : IRModule} (h : DocModule m) :
    readDocument (emitIRv1 floatText m) = some (readBack m) := by
  have hvalid : Valid (emitIRv1 floatText m) := by
    rw [emitIRv1_eq floatText h]
    exact (Lib.Json.write_textual textual_valid (fun s hs => valid_escape hs) _
      (all_rootJson h)).append (by decide)
  have hlast : (emitIRv1 floatText m).getLast? = some '\n' := by
    rw [emitIRv1_eq floatText h, List.getLast?_concat]
  have hread : Lib.Json.read (emitIRv1 floatText m) = some (rootJson m) := by
    rw [emitIRv1_eq floatText h]
    exact Lib.Json.read_write escapes _ (by decide) (Lib.Json.ends_cons (by decide) [])
  rw [readDocument, if_pos ⟨hvalid, hlast⟩, hread, Option.bind_some, readRoot_rootJson h]

/-- **The document is faithful.** A module of the grammar is read back from its document, `unknown`
types as `void*` and with the declarations of the runtime symbols it calls; each of them is added
once. -/
theorem emitIRv1_faithful (floatText : BitVec 64 → Text) (m : IRModule) (h : DocModule m) :
    readDocument (emitIRv1 floatText m) = some (readBack m) ∧
      ∀ name, ((irRuntimeExterns m).filter (·.name == name)).length =
        if Missing m name ∧ ∃ f ∈ m.functions, ∃ i ∈ f.instructions, Calls i name then 1
        else 0 :=
  ⟨readDocument_emitIRv1 floatText h, irRuntimeExterns_once m⟩

/-- A module of one function with one instruction. -/
def moduleOf (i : IRInstruction) : IRModule :=
  { initIRModule with functions := [{ initIRFunction "main" with instructions := [i] }] }

/-- A call of a runtime symbol is read back with its declaration. -/
theorem emitIRv1_call : readDocument (emitIRv1 (fun _ => [])
      (moduleOf { irInitInstr .call with operand1 := .string "system_pid", dest := 0 })) =
    some (readBack
      (moduleOf { irInitInstr .call with operand1 := .string "system_pid", dest := 0 })) := by
  refine (emitIRv1_faithful _ _ ⟨?_, ?_, ?_, ?_⟩).1
  · intro f hf i hi
    rw [List.mem_singleton.mp hf] at hi
    rw [List.mem_singleton.mp hi]
    exact ⟨by decide, by decide, by simp [IRInstruction.operands, irInitInstr, irNone, DocValue],
      by decide, by decide⟩
  · decide
  · exact fun g hg => absurd hg List.not_mem_nil
  · decide

/-- The module itself is read back: only the `unknown` types and the externs differ. -/
def ReadsBack (m : IRModule) : Prop :=
  readDocument (emitIRv1 (fun _ => []) m) =
    some { m with functions := m.functions.map (fun f =>
      { f with
        paramTypes := f.paramTypes.map irTypeName
        registerTypes := f.registerTypes.map irTypeName
        returnType := irTypeName f.returnType }) ++ irRuntimeExterns m }

instance (m : IRModule) : Decidable (ReadsBack m) := inferInstanceAs (Decidable (_ = _))

/-- A module without calls needs no extern. -/
theorem irRuntimeExterns_nil {m : IRModule}
    (h : ∀ f ∈ m.functions, ∀ i ∈ f.instructions, i.opcode ≠ .call) : irRuntimeExterns m = [] := by
  obtain ⟨names, hexterns, -, hmem⟩ := irRuntimeExterns_names m
  have hnone : ∀ name, name ∉ names := by
    intro name hname
    obtain ⟨-, f, hf, i, hi, hcall, -⟩ := (hmem name).mp hname
    exact h f hf i hi hcall
  rw [hexterns, List.eq_nil_iff_forall_not_mem.mpr hnone, List.map_nil]

/-- What the grammar has no place for: a port, the kind of an object field, a byte that is not
UTF-8, a negative register or label, a destination below `-1`, an element kind past 5, the line of
an addition; and outside a runtime module its opcodes and exports. -/
theorem emitIRv1_grammar :
    ¬ ReadsBack { initIRModule with configPort := 8080 } ∧
      ¬ ReadsBack (moduleOf { irInitInstr .loadField with fieldKind := 1 }) ∧
      ¬ ReadsBack { initIRModule with sourceName := String.ofList ['\xff'] } ∧
      ¬ ReadsBack (moduleOf { irInitInstr .ret with operand1 := .register (-1) }) ∧
      ¬ ReadsBack (moduleOf { irInitInstr .jump with operand1 := .label (-1) }) ∧
      ¬ ReadsBack (moduleOf { irInitInstr .copy with dest := -2 }) ∧
      ¬ ReadsBack (moduleOf { irInitInstr .listGet with elemKind := 6 }) ∧
      ¬ ReadsBack (moduleOf { irInitInstr .add with line := 1 }) ∧
      ¬ ReadsBack (moduleOf (irInitInstr .strLen)) ∧
      ¬ ReadsBack { initIRModule with functions :=
        [{ initIRFunction "f" with isExport := true }] } := by
  refine ⟨?_, ?_, ?_, ?_, ?_, ?_, ?_, ?_, ?_, ?_⟩
  all_goals
    rw [ReadsBack, emitIRv1, irRuntimeExterns_nil (by decide)]
    decide +kernel

end Emit.Document
