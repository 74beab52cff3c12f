import Orbit.Emit.Document

/-!
# The text of the IR document

The text of each entry is the JSON text of a value (`irAppendFunctionText_eq` and its like), the
added externs continue the list of functions (`commaList_externs`), and escaping can be undone
(`escapes`) and keeps UTF-8 (`valid_escape`).
-/

namespace Emit.Document

open IR
open Lib.Json (Value Elems Fields write writeElems writeFields Escapes)
open Lib.Text (chars intToString)

/-! ## The JSON value of a module -/

def strJson (s : String) : Value := .str s.toList

def listJson {α : Type} (f : α → Value) (xs : List α) : Value := .arr (Elems.ofList (xs.map f))

def typeJson (s : String) : Value := strJson (irTypeName s)

/-- An object with literal keys. -/
def object (fs : List (String × Value)) : Value :=
  .obj (Fields.ofList (fs.map fun f => (chars f.1, f.2)))

def valueJson : IRValue → Value
  | .int v => object [("kind", strJson "Int"), ("value", .num v.toInt)]
  | .float _ => .null
  | .string v => object [("kind", strJson "String"), ("value", strJson v)]
  | .sym v => object [("kind", strJson "Sym"), ("value", strJson v)]
  | .bool v => object [("kind", strJson "Bool"), ("value", .bool v)]
  | .register v => object [("kind", strJson "Register"), ("value", .num v)]
  | .label v => object [("kind", strJson "Label"), ("value", .num v)]
  | .none => object [("kind", strJson "None")]

def instrJson (i : IRInstruction) : Value :=
  object ([("opcode", strJson (irOpcodeName i.opcode)), ("dest", .num i.dest),
    ("operand1", valueJson i.operand1), ("operand2", valueJson i.operand2),
    ("operand3", valueJson i.operand3), ("elemKind", .num i.elemKind)] ++
    if 0 < i.line then [("line", .num i.line)] else [])

/-- The members of a function before `export`. -/
def functionHead (f : IRFunction) : List (String × Value) :=
  [("name", strJson f.name), ("params", listJson strJson f.params),
    ("paramTypes", listJson typeJson f.paramTypes),
    ("instructions", listJson instrJson f.instructions), ("registerCount", .num f.registerCount),
    ("registerTypes", listJson typeJson f.registerTypes), ("returnType", typeJson f.returnType),
    ("isExtern", .bool f.isExtern)]

/-- The members of a function after `export`. -/
def functionTail (f : IRFunction) : List (String × Value) :=
  [("routeMethod", strJson f.routeMethod), ("routePath", strJson f.routePath),
    ("routeHasLimit", .bool f.routeHasLimit), ("routeLimitRate", .num f.routeLimitRate),
    ("routeLimitWindowMs", .num f.routeLimitWindowMs),
    ("routeLimitBurst", .num f.routeLimitBurst)]

def functionJson (f : IRFunction) : Value :=
  object (functionHead f ++ ((if f.isExport then [("export", .bool true)] else []) ++
    functionTail f))

def fieldJson (f : IRModelField) : Value :=
  object [("name", strJson f.name), ("typeName", strJson f.typeName)]

def modelJson (m : IRModelDecl) : Value :=
  object [("name", strJson m.name), ("fields", listJson fieldJson m.fields),
    ("typeParams", listJson strJson m.typeParams)]

def typeDeclJson (t : IRTypeDecl) : Value :=
  object [("name", strJson t.name), ("kind", strJson t.kind),
    ("variants", listJson strJson t.variants), ("richVariants", listJson strJson t.richVariants),
    ("methods", listJson strJson t.methods)]

def globalJson (g : IRGlobal) : Value :=
  object [("name", strJson g.name), ("value", valueJson g.value), ("typeName", strJson g.typeName)]

def moduleJson (m : IRModule) : Value :=
  object ((if m.runtimeModule then [("runtimeModule", .bool true)] else []) ++
    [("functions", listJson functionJson (m.functions ++ irRuntimeExterns m)),
    ("globals", listJson globalJson m.globals), ("models", listJson modelJson m.models),
    ("types", listJson typeDeclJson m.types), ("migrations", listJson strJson m.migrations),
    ("sourceName", strJson m.sourceName)])

def rootJson (m : IRModule) : Value :=
  object [("irVersion", strJson "1"), ("module", moduleJson m)]

/-! ## The text is the JSON text -/

/-- The keys of the document are words of letters and digits. -/
def plainKey (k : String) : Bool := (chars k).all Char.isAlphanum

theorem code_alphanum {c : Char} (h : c.isAlphanum = true) : 32 ≤ c.toNat ∧ c.toNat < 127 := by
  delta Char.isAlphanum Char.isAlpha Char.isUpper Char.isLower Char.isDigit at h
  simp only [Bool.or_eq_true, Bool.and_eq_true, decide_eq_true_eq, ge_iff_le,
    UInt32.le_iff_toNat_le] at h
  have hcodes : 'A'.val.toNat = 65 ∧ 'Z'.val.toNat = 90 ∧ 'a'.val.toNat = 97 ∧
      'z'.val.toNat = 122 ∧ '0'.val.toNat = 48 ∧ '9'.val.toNat = 57 := by decide
  rw [Char.toNat]
  omega

theorem escape_alphanum {c : Char} (h : c.isAlphanum = true) : irJsonEscape.escape c = [c] := by
  have hne : ∀ d : Char, d.isAlphanum = false → c ≠ d := by
    rintro d hd rfl
    rw [h] at hd
    cases hd
  have hcode := code_alphanum h
  have hlow : ¬ (c.toNat < 32 ∨ c.toNat = 127) := by omega
  rw [irJsonEscape.escape, if_neg (hne _ (by decide)), if_neg (hne _ (by decide)),
    if_neg (hne _ (by decide)), if_neg (hne _ (by decide)), if_neg (hne _ (by decide)),
    if_neg hlow]

theorem irJsonEscape_plain {s : Text} (h : s.all Char.isAlphanum = true) : irJsonEscape s = s := by
  induction s with
  | nil => rfl
  | cons c s ih =>
    rw [List.all_cons, Bool.and_eq_true] at h
    rw [irJsonEscape, escape_alphanum h.1, ih h.2]
    rfl

/-- A member of an object, as it is written. -/
def memberText (f : String × Value) : Text :=
  '"' :: (chars f.1 ++ '"' :: ':' :: write irJsonEscape f.2)

section
variable (floatText : BitVec 64 → Text)

theorem commaList_cons {α : Type} (text : α → Text) (x : α) (xs : List α) :
    commaList text (x :: xs) = text x ++ xs.flatMap fun y => ',' :: text y := by
  induction xs generalizing x with
  | nil => simp [commaList]
  | cons y ys ih => rw [commaList, ih, List.flatMap_cons, List.cons_append]

theorem writeElems_ofList (vs : List Value) :
    writeElems irJsonEscape (Elems.ofList vs) = commaList (write irJsonEscape) vs := by
  induction vs with
  | nil => rfl
  | cons v vs ih =>
    cases vs with
    | nil => rfl
    | cons w ws =>
      rw [Elems.ofList, Elems.ofList, writeElems, commaList, ← ih]
      rfl

theorem commaList_map {α : Type} {text : α → Text} {f : α → Value} {xs : List α}
    (h : ∀ x ∈ xs, text x = write irJsonEscape (f x)) :
    commaList text xs = commaList (write irJsonEscape) (xs.map f) := by
  cases xs with
  | nil => rfl
  | cons x xs =>
    rw [List.map_cons, commaList_cons, commaList_cons, h x List.mem_cons_self, List.flatMap_map]
    congr 1
    refine List.flatMap_congr fun y hy => ?_
    rw [h y (List.mem_cons_of_mem x hy)]

theorem write_object {fs : List (String × Value)} (h : ∀ f ∈ fs, plainKey f.1 = true) :
    write irJsonEscape (object fs) = '\x7b' :: (commaList memberText fs ++ ['\x7d']) := by
  have hfields : ∀ fs : List (String × Value), (∀ f ∈ fs, plainKey f.1 = true) →
      writeFields irJsonEscape (Fields.ofList (fs.map fun f => (chars f.1, f.2))) =
        commaList memberText fs := by
    intro fs h
    induction fs with
    | nil => rfl
    | cons f fs ih =>
      have hkey := irJsonEscape_plain (h f List.mem_cons_self)
      have ih := ih fun g hg => h g (List.mem_cons_of_mem f hg)
      cases fs with
      | nil => simp [Fields.ofList, hkey, commaList, memberText]
      | cons g gs =>
        rw [List.map_cons, List.map_cons, Fields.ofList, Fields.ofList, writeFields, commaList,
          ← ih, hkey, memberText]
        simp [Fields.ofList]
  rw [object, write, hfields fs h]

/-- A list of the document. -/
theorem write_listJson {α : Type} {text : α → Text} {f : α → Value} {xs : List α}
    (h : ∀ x ∈ xs, text x = write irJsonEscape (f x)) :
    write irJsonEscape (listJson f xs) = '[' :: (commaList text xs ++ [']']) := by
  rw [listJson, write, writeElems_ofList, commaList_map h]

theorem write_strJson (s : String) : write irJsonEscape (strJson s) = quoted s := rfl

theorem irAppendStringList_eq (xs : List String) :
    irAppendStringList xs = write irJsonEscape (listJson strJson xs) := by
  rw [write_listJson fun x _ => (write_strJson x).symm, irAppendStringList]

theorem irAppendTypeList_eq (xs : List String) :
    irAppendTypeList xs = write irJsonEscape (listJson typeJson xs) := by
  have h : ∀ x ∈ xs, quoted (irTypeName x) = write irJsonEscape (typeJson x) := fun x _ => rfl
  rw [write_listJson h, irAppendTypeList]

theorem externsText_later {n ei : Nat} (h : 0 < n ∨ 0 < ei) (es : List IRFunction) :
    externsText floatText n ei es =
      es.flatMap fun e => ',' :: irAppendFunctionText floatText e := by
  induction es generalizing ei with
  | nil => rfl
  | cons e es ih =>
    have hcomma : (decide (n > 0) || decide (ei > 0)) = true := by simpa using h
    have hchars : chars "," = [','] := by simp [chars]
    rw [externsText, if_pos hcomma, ih (.inr (Nat.succ_pos ei)), List.flatMap_cons, hchars]
    simp

/-- The functions and the added externs are one list. -/
theorem commaList_externs (fs es : List IRFunction) :
    commaList (irAppendFunctionText floatText) fs ++ externsText floatText fs.length 0 es =
      commaList (irAppendFunctionText floatText) (fs ++ es) := by
  cases fs with
  | nil =>
    cases es with
    | nil => rfl
    | cons e es =>
      rw [List.nil_append, commaList_cons, externsText,
        externsText_later floatText (.inr (Nat.succ_pos 0))]
      simp [commaList]
  | cons f fs =>
    have hpos : 0 < (f :: fs).length := Nat.succ_pos _
    rw [externsText_later floatText (.inl hpos), List.cons_append, commaList_cons, commaList_cons,
      List.flatMap_append, List.append_assoc]

theorem irValueText_eq {v : IRValue} (h : ∀ b, v ≠ .float b) :
    irValueText floatText v = write irJsonEscape (valueJson v) := by
  cases v with
  | float b => exact absurd rfl (h b)
  | bool b =>
    rw [valueJson, write_object (by simp [plainKey, chars])]
    cases b <;> simp [irValueText, commaList, memberText, strJson, chars, irJsonEscape,
      irJsonEscape.escape, irJsonBool, Lib.Json.boolText]
  | _ =>
    rw [valueJson, write_object (by simp [plainKey, chars])]
    simp [irValueText, commaList, memberText, strJson, chars, irJsonEscape, irJsonEscape.escape]

theorem mem_opcodes (op : IROpcode) : op ∈ opcodes ++ runtimeOpcodes := by
  cases op <;> decide

theorem escape_opcode (op : IROpcode) :
    irJsonEscape (irOpcodeName op).toList = (irOpcodeName op).toList := by
  cases op <;> rfl

/-- No operand is a float constant. -/
def NoFloat (v : IRValue) : Prop := ∀ b, v ≠ .float b

theorem irInstructionText_eq {i : IRInstruction} (h1 : NoFloat i.operand1)
    (h2 : NoFloat i.operand2) (h3 : NoFloat i.operand3) :
    irInstructionText floatText i = write irJsonEscape (instrJson i) := by
  delta irInstructionText
  simp only [irValueText_eq floatText h1, irValueText_eq floatText h2, irValueText_eq floatText h3]
  by_cases hline : 0 < i.line
  · rw [instrJson, if_pos hline, if_pos hline, write_object (by simp [plainKey, chars])]
    simp [commaList, memberText, strJson, chars, escape_opcode]
  · rw [instrJson, if_neg hline, if_neg hline, write_object (by simp [plainKey, chars])]
    simp [commaList, memberText, strJson, chars, escape_opcode]

theorem irJsonBool_eq (b : Bool) : irJsonBool b = write irJsonEscape (.bool b) := by
  cases b <;> simp [irJsonBool, Lib.Json.boolText, chars]

/-- The operands of the function hold no float constant. -/
def NoFloats (f : IRFunction) : Prop := ∀ i ∈ f.instructions, ∀ v ∈ i.operands, NoFloat v

theorem commaList_append {α : Type} (text : α → Text) (xs : List α) (y : α) (ys : List α) :
    commaList text (xs ++ y :: ys) =
      (xs.flatMap fun x => text x ++ [',']) ++ commaList text (y :: ys) := by
  induction xs with
  | nil => rfl
  | cons x xs ih =>
    cases xs with
    | nil => simp [commaList]
    | cons z zs =>
      rw [List.cons_append, List.cons_append, commaList, ← List.cons_append, ih]
      simp

theorem functionHead_text {f : IRFunction}
    (h : ∀ i ∈ f.instructions, irInstructionText floatText i = write irJsonEscape (instrJson i)) :
    ((functionHead f).flatMap fun x => memberText x ++ [',']) =
      chars "\"name\":\"" ++ irJsonEscape f.name.toList ++ chars "\"," ++
        chars "\"params\":" ++ irAppendStringList f.params ++
        chars ",\"paramTypes\":" ++ irAppendTypeList f.paramTypes ++
        chars ",\"instructions\":[" ++ commaList (irInstructionText floatText) f.instructions ++
        chars "]," ++ chars "\"registerCount\":" ++ intToString f.registerCount ++ chars "," ++
        chars "\"registerTypes\":" ++ irAppendTypeList f.registerTypes ++
        chars ",\"returnType\":\"" ++ irJsonEscape (irTypeName f.returnType).toList ++
        chars "\"," ++ chars "\"isExtern\":" ++ irJsonBool f.isExtern ++ chars "," := by
  simp only [irAppendStringList_eq, irAppendTypeList_eq, irJsonBool_eq]
  simp [write_listJson h, functionHead, memberText, strJson, typeJson, chars]

theorem functionTail_text (f : IRFunction) :
    commaList memberText (functionTail f) =
      chars "\"routeMethod\":\"" ++ irJsonEscape f.routeMethod.toList ++ chars "\"," ++
        chars "\"routePath\":\"" ++ irJsonEscape f.routePath.toList ++ chars "\"," ++
        chars "\"routeHasLimit\":" ++ irJsonBool f.routeHasLimit ++ chars "," ++
        chars "\"routeLimitRate\":" ++ intToString f.routeLimitRate ++ chars "," ++
        chars "\"routeLimitWindowMs\":" ++ intToString f.routeLimitWindowMs ++ chars "," ++
        chars "\"routeLimitBurst\":" ++ intToString f.routeLimitBurst := by
  rw [irJsonBool_eq]
  simp [functionTail, commaList, memberText, strJson, chars]

theorem functionKeys_plain (f : IRFunction) :
    ∀ x ∈ functionHead f ++ ((if f.isExport then [("export", .bool true)] else []) ++
      functionTail f), plainKey x.1 = true := by
  have hhead : ∀ x ∈ functionHead f, plainKey x.1 = true := by
    simp [functionHead, plainKey, chars]
  have htail : ∀ x ∈ functionTail f, plainKey x.1 = true := by
    simp [functionTail, plainKey, chars]
  intro x hx
  simp only [List.mem_append] at hx
  rcases hx with hx | hx | hx
  · exact hhead x hx
  · split at hx
    · rw [List.mem_singleton] at hx
      rw [hx]
      simp [plainKey, chars]
    · cases hx
  · exact htail x hx

theorem irAppendFunctionText_eq {f : IRFunction} (h : NoFloats f) :
    irAppendFunctionText floatText f = write irJsonEscape (functionJson f) := by
  have hinstr : ∀ i ∈ f.instructions,
      irInstructionText floatText i = write irJsonEscape (instrJson i) := by
    intro i hi
    have hops := h i hi
    simp only [IRInstruction.operands, List.mem_cons, List.not_mem_nil, or_false, forall_eq_or_imp,
      forall_eq] at hops
    exact irInstructionText_eq floatText hops.1 hops.2.1 hops.2.2
  have hexport : chars "\"export\":true," = memberText ("export", .bool true) ++ [','] := by
    simp [memberText, Lib.Json.boolText, chars]
  have hname : chars "\x7b\"name\":\"" = '\x7b' :: chars "\"name\":\"" := by simp [chars]
  obtain ⟨y, ys, hys⟩ : ∃ y ys, functionTail f = y :: ys := ⟨_, _, rfl⟩
  have hhead := functionHead_text floatText hinstr
  have htail := functionTail_text f
  rw [functionJson, write_object (functionKeys_plain f)]
  delta irAppendFunctionText
  simp only [hname]
  cases f.isExport with
  | false =>
    simp only [Bool.false_eq_true, if_false, List.nil_append]
    rw [hys, commaList_append, ← hys, hhead, htail]
    simp only [List.append_assoc, List.cons_append, List.nil_append]
  | true =>
    simp only [if_true, List.singleton_append]
    rw [commaList_append, hys, commaList, ← hys, hhead, htail, hexport]
    simp only [List.append_assoc, List.cons_append, List.nil_append]

theorem irFieldText_eq (f : IRModelField) :
    irFieldText f = write irJsonEscape (fieldJson f) := by
  rw [fieldJson, write_object (by simp [plainKey, chars])]
  simp [irFieldText, commaList, memberText, strJson, chars]

theorem irAppendModelText_eq (m : IRModelDecl) :
    irAppendModelText m = write irJsonEscape (modelJson m) := by
  have hlist := write_listJson fun f (_ : f ∈ m.fields) => irFieldText_eq f
  rw [irAppendModelText, modelJson, irAppendStringList_eq,
    write_object (by simp [plainKey, chars])]
  simp [hlist, commaList, memberText, strJson, chars]

theorem irAppendTypeText_eq (t : IRTypeDecl) :
    irAppendTypeText t = write irJsonEscape (typeDeclJson t) := by
  rw [typeDeclJson, write_object (by simp [plainKey, chars])]
  simp only [irAppendTypeText, irAppendStringList_eq]
  simp [commaList, memberText, strJson, chars]

theorem irGlobalText_eq {g : IRGlobal} (h : NoFloat g.value) :
    irGlobalText floatText g = write irJsonEscape (globalJson g) := by
  rw [irGlobalText, globalJson, irValueText_eq floatText h,
    write_object (by simp [plainKey, chars])]
  simp [commaList, memberText, strJson, chars]

end

/-! ## Strings -/

open Lib.Json (readBody)

theorem readBody_plain {c : Char} (hq : c ≠ '"') (hb : c ≠ '\\') (hlow : ¬ c.toNat < 32) (t : Text) :
    readBody (c :: t) = (readBody t).map fun r => (c :: r.1, r.2) := by
  have hno : ¬ (c.toNat < 32 ∨ c = '\\') := by simp [hlow, hb]
  rw [readBody, if_neg hno]
  · exact fun h => absurd h hq
  · intro x y t h
    exact absurd h hb
  · intro e t h
    exact absurd h hb

theorem unicode_hex2 : ∀ n < 128, Lib.Json.unicode (hexDigits.getD (n / 16) '0')
    (hexDigits.getD (n - n / 16 * 16) '0') = some (Char.ofNat n) := by
  decide

theorem readBody_escape (c : Char) (t : Text) :
    readBody (irJsonEscape.escape c ++ t) = (readBody t).map fun r => (c :: r.1, r.2) := by
  rw [irJsonEscape.escape]
  split_ifs with h1 h2 h3 h4 h5 h6
  · rw [h1]
    rfl
  · rw [h2]
    rfl
  · rw [h3]
    rfl
  · rw [h4]
    rfl
  · rw [h5]
    rfl
  · have hcode := unicode_hex2 c.toNat (by omega)
    rw [Char.ofNat_toNat] at hcode
    simp only [irJsonHex2, List.cons_append, List.nil_append, readBody, hcode]
  · exact readBody_plain h2 h1 (fun h => h6 (.inl h)) t

theorem escapes : Escapes irJsonEscape := by
  intro s rest
  induction s with
  | nil => rfl
  | cons c s ih =>
    rw [irJsonEscape, List.append_assoc, readBody_escape, ih]
    rfl

theorem ascii_hexDigit (k : Nat) : (hexDigits.getD k '0').toNat < 128 := by
  have hall : ∀ d ∈ hexDigits, d.toNat < 128 := by simp [hexDigits]
  rw [List.getD_eq_getElem?_getD]
  cases hk : hexDigits[k]? with
  | none => decide
  | some d => exact hall d (List.mem_of_getElem? hk)

theorem ascii_escape {c : Char} (h : c.toNat < 128) :
    ∀ d ∈ irJsonEscape.escape c, d.toNat < 128 := by
  rw [irJsonEscape.escape]
  split_ifs <;> simp [irJsonHex2, -List.getD_eq_getElem?_getD, ascii_hexDigit, h]

theorem escape_ne_nil (c : Char) : irJsonEscape.escape c ≠ [] := by
  rw [irJsonEscape.escape]
  split_ifs <;> simp

theorem escape_high {c : Char} (h : ¬ c.toNat < 128) : irJsonEscape.escape c = [c] := by
  have hne : ∀ d : Char, d.toNat < 128 → c ≠ d := by
    rintro d hd rfl
    exact h hd
  rw [irJsonEscape.escape, if_neg (hne _ (by decide)), if_neg (hne _ (by decide)),
    if_neg (hne _ (by decide)), if_neg (hne _ (by decide)), if_neg (hne _ (by decide)),
    if_neg (by omega)]

open Lib.Utf8 in
/-- Escaping keeps a text UTF-8. -/
theorem valid_escape {s : Text} (h : Valid s) : Valid (irJsonEscape s) := by
  have key : ∀ (s : Text) (p : Owed), p.Ok → run p (irJsonEscape s) = run p s := by
    intro s
    induction s with
    | nil => intro p _; rfl
    | cons c s ih =>
      intro p hp
      have hone : run p (irJsonEscape.escape c) = step p c := by
        by_cases hc : c.toNat < 128
        · exact run_replace hp hc (ascii_escape hc) (escape_ne_nil c)
        · rw [escape_high hc]
          rfl
      rw [irJsonEscape, run_append, hone, ih _ (hp.step c)]
      rfl
  rw [Valid, key s .none trivial]
  exact h

end Emit.Document
