import Orbit.Runtime.Proof.JsonDocument

/-!
# What the writer writes

The text of an object without floats and nulls is a document of it, for a reader with any stride,
as long as no string needs the escape of a code unit (`written_document`).
-/

namespace Runtime.Json

open Lib.Decimal (isDigit digitsValue)
open Lib.Text (chars intToString)

variable {F : Type}

/-! ## Data -/

section
variable (P : Char → Prop)

mutual

/-- Every byte of every key and string satisfies `P`. -/
def OrbitValue.Strings : OrbitValue F → Prop
  | .string s => ∀ c ∈ s, P c
  | .object o => OrbitObject.Strings o
  | .list l => OrbitList.Strings l
  | _ => True

def OrbitObject.Strings : OrbitObject F → Prop
  | .nil => True
  | .cons k v rest => (∀ c ∈ k, P c) ∧ OrbitValue.Strings v ∧ OrbitObject.Strings rest

def OrbitList.Strings : OrbitList F → Prop
  | .nil => True
  | .cons v rest => OrbitValue.Strings v ∧ OrbitList.Strings rest

end

end

def OrbitObject.keys : OrbitObject F → List Text
  | .nil => []
  | .cons k _ rest => k :: rest.keys

mutual

/-- Ints, bools, strings, objects and lists of one kind; an object has no key twice. -/
def OrbitValue.IsData : OrbitValue F → Prop
  | .null => False
  | .float _ => False
  | .int _ => True
  | .bool _ => True
  | .string _ => True
  | .object o => OrbitObject.IsData o
  | .list l => OrbitList.IsData none l

def OrbitObject.IsData : OrbitObject F → Prop
  | .nil => True
  | .cons k v rest => k ∉ rest.keys ∧ OrbitValue.IsData v ∧ OrbitObject.IsData rest

def OrbitList.IsData : Option Kind → OrbitList F → Prop
  | _, .nil => True
  | kind, .cons v rest =>
    IsElement kind v ∧ OrbitValue.IsData v ∧ OrbitList.IsData (some v.kind) rest

end

mutual

/-- How deep the deepest value in a value is, the value itself at depth zero. -/
def OrbitValue.depth : OrbitValue F → Nat
  | .object o => OrbitObject.depth o
  | .list l => OrbitList.depth l
  | _ => 0

def OrbitObject.depth : OrbitObject F → Nat
  | .nil => 0
  | .cons _ v rest => max (OrbitValue.depth v + 1) (OrbitObject.depth rest)

def OrbitList.depth : OrbitList F → Nat
  | .nil => 0
  | .cons v rest => max (OrbitValue.depth v + 1) (OrbitList.depth rest)

end

/-- The bytes that the writer spells as an escape of a code unit. -/
def isCodeEscaped (c : Char) : Prop := c.toNat < 0x20 ∧ c ≠ '\n' ∧ c ≠ '\r' ∧ c ≠ '\t'

/-! ## Strings and numbers -/

section
variable {stride : Nat → Except Stop Nat}

theorem Body.put {c : Char} {t s r : Text} (hc : ¬ isCodeEscaped c) (h : Body stride t s r) :
    Body stride (jsonPutChar c ++ t) (c :: s) r := by
  have hshort : ∀ e : Char, shortEscape e = some c → Body stride ('\\' :: e :: t) (c :: s) r :=
    fun e he => .escape (.short he) h
  rw [jsonPutChar]
  by_cases hq : c = '"' ∨ c = '\\'
  · rw [if_pos hq]
    apply hshort c
    rcases hq with rfl | rfl <;> rfl
  rw [if_neg hq]
  by_cases hn : c = '\n'
  · rw [if_pos hn]
    exact hshort 'n' (hn ▸ rfl)
  rw [if_neg hn]
  by_cases hr : c = '\r'
  · rw [if_pos hr]
    exact hshort 'r' (hr ▸ rfl)
  rw [if_neg hr]
  by_cases ht : c = '\t'
  · rw [if_pos ht]
    exact hshort 't' (ht ▸ rfl)
  rw [if_neg ht]
  have hlow : ¬ c.toNat < 0x20 := fun hlow => hc ⟨hlow, hn, hr, ht⟩
  rw [if_neg hlow]
  exact .plain (Nat.le_of_not_lt hlow) (fun h => hq (.inl h)) (fun h => hq (.inr h)) h

theorem Body.written {s : Text} (hs : ∀ c ∈ s, ¬ isCodeEscaped c) (r : Text) :
    Body stride (s.flatMap jsonPutChar ++ r) s r := by
  induction s with
  | nil => exact .done
  | cons c s ih =>
    have := (ih fun d hd => hs d (List.mem_cons_of_mem _ hd)).put (hs c List.mem_cons_self)
    rwa [← List.append_assoc] at this

variable (stride) in
/-- A string is read back. -/
theorem ReadsString.written {s : Text} (hnul : ∀ c ∈ s, c ≠ nul)
    (hs : ∀ c ∈ s, ¬ isCodeEscaped c) (r : Text) :
    ∃ t, jsonPutString s ++ r = '"' :: t ∧ ReadsString stride t s r := by
  have hself : cString s = s := cString_self fun h => hnul nul h rfl
  refine ⟨s.flatMap jsonPutChar ++ '"' :: r, ?_, s, Body.written hs _, hself.symm⟩
  simp [jsonPutString, hself]

end

theorem isInt_digits (n : Nat) : IsInt (Nat.toDigits 10 n) := by
  refine ⟨⟨Nat.toDigits_ne_nil, fun c hc => Lib.Decimal.isDigit_of_mem_digits hc⟩, fun h => ?_⟩
  rw [Lib.Decimal.head_digits h]
  rfl

theorem intToString_sign (i : Int) : ∃ sign ds, intToString i = sign ++ ds ∧
    (sign = [] ∨ sign = ['-']) ∧ IsInt ds := by
  rw [intToString]
  by_cases hi : i < 0
  · exact ⟨['-'], _, by rw [if_pos hi]; rfl, .inr rfl, isInt_digits _⟩
  · exact ⟨[], _, by rw [if_neg hi]; rfl, .inl rfl, isInt_digits _⟩

theorem decimalValue_intToString (i : Int) : decimalValue (intToString i) = i := by
  rw [intToString]
  by_cases hi : i < 0
  · have hval := Lib.Decimal.digitsValue_digits i.natAbs
    rw [if_pos hi]
    simp only [decimalValue, hval]
    omega
  · rw [if_neg hi, decimalValue.eq_2]
    · rw [Lib.Decimal.digitsValue_digits]
      omega
    · intro ds h
      exact Lib.Decimal.head_digits_ne_minus _ (by rw [h]; rfl)

/-- An int is read back. -/
theorem isNumber_written (fl : Floats F) (i : BitVec 64) :
    IsNumber fl (intToString i.toInt) (.int i) := by
  obtain ⟨sign, ds, heq, hsign, hds⟩ := intToString_sign i.toInt
  have hval := decimalValue_intToString i.toInt
  rw [heq] at hval ⊢
  have hlow := BitVec.le_toInt i
  have hhigh := BitVec.toInt_lt (x := i)
  have h : IsNumber fl _ _ := .int hsign hds (by rw [hval]; omega) (by rw [hval]; omega)
  rwa [hval, BitVec.ofInt_toInt] at h

/-! ## Values -/

def OrbitObject.append : OrbitObject F → OrbitObject F → OrbitObject F
  | .nil, p => p
  | .cons k v rest, p => .cons k v (rest.append p)

theorem append_assoc (o p q : OrbitObject F) :
    (o.append p).append q = o.append (p.append q) := by
  induction o using OrbitObject.keys.induct with
  | case1 => rfl
  | case2 k v rest ih => simp only [OrbitObject.append, ih]

theorem keys_append (o p : OrbitObject F) : (o.append p).keys = o.keys ++ p.keys := by
  induction o using OrbitObject.keys.induct with
  | case1 => rfl
  | case2 k v rest ih => simp only [OrbitObject.append, OrbitObject.keys, ih, List.cons_append]

/-- A new key goes to the end. -/
theorem orbitObjectSet_new {o : OrbitObject F} {k : Text} (v : OrbitValue F) (h : k ∉ o.keys) :
    orbitObjectSet o k v = o.append (.cons k v .nil) := by
  induction o using OrbitObject.keys.induct with
  | case1 => rfl
  | case2 l w rest ih =>
    rw [OrbitObject.keys, List.mem_cons, not_or] at h
    rw [orbitObjectSet, if_neg (Ne.symm h.1), ih h.2, OrbitObject.append]

theorem keys_orbitObjectSet (o : OrbitObject F) (k : Text) (v : OrbitValue F) :
    (orbitObjectSet o k v).keys = if k ∈ o.keys then o.keys else o.keys ++ [k] := by
  by_cases h : k ∈ o.keys
  · rw [if_pos h]
    induction o using OrbitObject.keys.induct with
    | case1 => cases h
    | case2 l w rest ih =>
      rw [orbitObjectSet]
      split
      · rfl
      · rename_i hne
        rw [OrbitObject.keys, OrbitObject.keys,
          ih ((List.mem_cons.mp h).resolve_left (Ne.symm hne))]
  · rw [if_neg h, orbitObjectSet_new v h, keys_append]
    rfl

/-- An object that is built member by member has no key twice. -/
theorem isData_orbitObjectSet {o : OrbitObject F} {v : OrbitValue F} (k : Text) (ho : o.IsData)
    (hv : v.IsData) : (orbitObjectSet o k v).IsData := by
  induction o using OrbitObject.keys.induct with
  | case1 => exact ⟨List.not_mem_nil, hv, trivial⟩
  | case2 l w rest ih =>
    obtain ⟨hl, hw, hrest⟩ := ho
    rw [orbitObjectSet]
    split
    · exact ⟨hl, hv, hrest⟩
    · rename_i hne
      refine ⟨?_, hw, ih hrest⟩
      rw [keys_orbitObjectSet]
      split
      · exact hl
      · rw [List.mem_append, List.mem_singleton, not_or]
        exact ⟨hl, hne⟩

theorem storeMember_data {o : OrbitObject F} {k : Text} {v : OrbitValue F} (hv : v.IsData)
    (h : k ∉ o.keys) : storeMember o k v = o.append (.cons k v .nil) := by
  rw [← orbitObjectSet_new v h]
  cases v with
  | null => exact hv.elim
  | _ => rfl

section
variable (fl : Floats F) (printFloat : F → Text) (stride : Nat → Except Stop Nat)

mutual

theorem written_value : (v : OrbitValue F) → v.IsData → v.Strings (· ≠ nul) →
    v.Strings (¬ isCodeEscaped ·) → ∀ {n : Nat}, v.depth < n → ∀ r,
      IsValue fl (ReadsString stride) n (jsonPutValue printFloat v ++ r) v r
  | .null, hv, _, _, _, _, _ => hv.elim
  | .float _, hv, _, _, _, _, _ => hv.elim
  | .int i, _, _, _, n, hn, r => by
    obtain ⟨n, rfl⟩ := Nat.exists_eq_succ_of_ne_zero (Nat.ne_zero_of_lt hn)
    rw [jsonPutValue]
    exact .number (isNumber_written fl i)
  | .bool b, _, _, _, n, hn, r => by
    obtain ⟨n, rfl⟩ := Nat.exists_eq_succ_of_ne_zero (Nat.ne_zero_of_lt hn)
    rw [jsonPutValue]
    cases b with
    | true => exact .true
    | false => exact .false
  | .string s, _, hnul, hs, n, hn, r => by
    obtain ⟨n, rfl⟩ := Nat.exists_eq_succ_of_ne_zero (Nat.ne_zero_of_lt hn)
    obtain ⟨t, ht, hread⟩ := ReadsString.written stride hnul hs r
    rw [jsonPutValue, ht]
    exact .string hread
  | .object .nil, _, _, _, n, hn, r => by
    obtain ⟨n, rfl⟩ := Nat.exists_eq_succ_of_ne_zero (Nat.ne_zero_of_lt hn)
    rw [jsonPutValue, jsonPutMembers]
    exact .emptyObject .nil
  | .object (.cons k v rest), hv, hnul, hs, n, hn, r => by
    obtain ⟨n, rfl⟩ := Nat.exists_eq_succ_of_ne_zero (Nat.ne_zero_of_lt hn)
    have hacc : ∀ l ∈ (OrbitObject.cons k v rest).keys, l ∉ (.nil : OrbitObject F).keys := by
      simp [OrbitObject.keys]
    have hm := written_members (.cons k v rest) hv hnul hs (Nat.le_of_lt_succ hn) (by simp) hacc r
    rw [jsonPutValue, List.cons_append, List.append_assoc]
    exact .object .nil hm
  | .list .nil, _, _, _, n, hn, r => by
    obtain ⟨n, rfl⟩ := Nat.exists_eq_succ_of_ne_zero (Nat.ne_zero_of_lt hn)
    rw [jsonPutValue, jsonPutElements]
    exact .emptyArray .nil
  | .list (.cons v rest), hv, hnul, hs, n, hn, r => by
    obtain ⟨n, rfl⟩ := Nat.exists_eq_succ_of_ne_zero (Nat.ne_zero_of_lt hn)
    have hl := written_elements (.cons v rest) hv hnul hs (Nat.le_of_lt_succ hn) (by simp) r
    rw [jsonPutValue, List.cons_append, List.append_assoc]
    exact .array hl

theorem written_members : (o : OrbitObject F) → o.IsData → o.Strings (· ≠ nul) →
    o.Strings (¬ isCodeEscaped ·) → ∀ {n : Nat}, o.depth ≤ n → o ≠ .nil →
      ∀ {acc : OrbitObject F}, (∀ k ∈ o.keys, k ∉ acc.keys) → ∀ r,
        IsMembers (ReadsString stride) (IsValue fl (ReadsString stride) n) acc
          (jsonPutMembers printFloat o ++ '\x7d' :: r) (acc.append o) r
  | .nil, _, _, _, _, _, hne, _, _, _ => absurd rfl hne
  | .cons k v .nil, ho, hnul, hs, n, hn, _, acc, hacc, r => by
    obtain ⟨-, hdata, -⟩ := ho
    have hdepth : v.depth < n := Nat.lt_of_lt_of_le (by simp [OrbitObject.depth]) hn
    obtain ⟨t, ht, hread⟩ := ReadsString.written stride hnul.1 hs.1
      (':' :: (jsonPutValue printFloat v ++ '\x7d' :: r))
    have hval := written_value v hdata hnul.2.1 hs.2.1 hdepth ('\x7d' :: r)
    rw [jsonPutMembers, List.append_assoc, List.cons_append, ht,
      ← storeMember_data hdata (hacc k List.mem_cons_self)]
    exact .last hread .nil .nil hval .nil
  | .cons k v (.cons l w rest), ho, hnul, hs, n, hn, _, acc, hacc, r => by
    obtain ⟨hk, hdata, ho⟩ := ho
    rw [OrbitObject.depth] at hn
    have hdepth : v.depth < n := by omega
    have hkey : k ∉ acc.keys := hacc k List.mem_cons_self
    obtain ⟨t, ht, hread⟩ := ReadsString.written stride hnul.1 hs.1
      (':' :: (jsonPutValue printFloat v ++
        ',' :: (jsonPutMembers printFloat (.cons l w rest) ++ '\x7d' :: r)))
    have hval := written_value v hdata hnul.2.1 hs.2.1 hdepth
      (',' :: (jsonPutMembers printFloat (.cons l w rest) ++ '\x7d' :: r))
    have hacc' : ∀ j ∈ (OrbitObject.cons l w rest).keys, j ∉ (storeMember acc k v).keys := by
      intro j hj hmem
      rw [storeMember_data hdata hkey, keys_append, List.mem_append] at hmem
      rcases hmem with hmem | hmem
      · exact hacc j (List.mem_cons_of_mem _ hj) hmem
      · rw [OrbitObject.keys, OrbitObject.keys, List.mem_singleton] at hmem
        exact hk (hmem ▸ hj)
    have hm := written_members (.cons l w rest) ho hnul.2.2 hs.2.2 (n := n) (by omega) (by simp)
      hacc' r
    have happ : acc.append (.cons k v (.cons l w rest)) =
        (storeMember acc k v).append (.cons l w rest) := by
      rw [storeMember_data hdata hkey, append_assoc]
      rfl
    rw [jsonPutMembers, List.append_assoc, List.append_assoc, List.cons_append, List.cons_append,
      ht, happ]
    exact .more hread .nil .nil hval .nil .nil hm

theorem written_elements : (l : OrbitList F) → {kind : Option Kind} → l.IsData kind →
    l.Strings (· ≠ nul) → l.Strings (¬ isCodeEscaped ·) → ∀ {n : Nat}, l.depth ≤ n → l ≠ .nil →
      ∀ r, IsElements (IsValue fl (ReadsString stride) n) kind
        (jsonPutElements printFloat l ++ ']' :: r) l r
  | .nil, _, _, _, _, _, _, hne, _ => absurd rfl hne
  | .cons v .nil, _, hl, hnul, hs, n, hn, _, r => by
    obtain ⟨helem, hdata, -⟩ := hl
    have hdepth : v.depth < n := Nat.lt_of_lt_of_le (by simp [OrbitList.depth]) hn
    have hval := written_value v hdata hnul.1 hs.1 hdepth (']' :: r)
    rw [jsonPutElements]
    exact .last .nil hval helem .nil
  | .cons v (.cons w rest), _, hl, hnul, hs, n, hn, _, r => by
    obtain ⟨helem, hdata, hl⟩ := hl
    rw [OrbitList.depth] at hn
    have hdepth : v.depth < n := by omega
    have hval := written_value v hdata hnul.1 hs.1 hdepth
      (',' :: (jsonPutElements printFloat (.cons w rest) ++ ']' :: r))
    have hrest := written_elements (.cons w rest) hl hnul.2 hs.2 (n := n) (by omega) (by simp) r
    rw [jsonPutElements, List.append_assoc, List.cons_append]
    exact .more .nil hval helem .nil hrest

end

/-- The text of an object without code escapes is a document of the object. -/
theorem written_document {o : OrbitObject F} (ho : o.IsData) (hnul : o.Strings (· ≠ nul))
    (hs : o.Strings (¬ isCodeEscaped ·)) (hdepth : o.depth ≤ ORBIT_JSON_MAX_DEPTH) :
    IsDocument fl (ReadsString stride) (orbitObjectToJson printFloat o) o := by
  refine ⟨_, [], .nil, ?_, .nil⟩
  have := written_value fl printFloat stride (.object o) ho hnul hs (Nat.lt_succ_of_le hdepth) []
  rwa [List.append_nil] at this

end

/-! ## No NUL is written -/

theorem jsonPutChar_ne_nul {c d : Char} (hc : c ≠ nul) (h : d ∈ jsonPutChar c) : d ≠ nul := by
  have hdigit : ∀ n, n < 16 → Nat.digitChar n ≠ nul := by decide
  rintro rfl
  rw [jsonPutChar] at h
  split_ifs at h with h1 h2 h3 h4 h5
  · rw [List.mem_pair] at h
    exact h.elim (by decide) (Ne.symm hc)
  · exact absurd h (by decide)
  · exact absurd h (by decide)
  · exact absurd h (by decide)
  · rw [List.mem_append, hex2, List.mem_pair] at h
    rcases h with h | h | h
    · exact absurd h (by decide)
    · exact hdigit _ (by omega) h.symm
    · exact hdigit _ (by omega) h.symm
  · exact hc (List.mem_singleton.mp h).symm

theorem jsonPutString_ne_nul {s : Text} (hs : ∀ c ∈ s, c ≠ nul) : nul ∉ jsonPutString s := by
  have hself : cString s = s := cString_self fun h => hs nul h rfl
  rw [jsonPutString, hself, List.mem_cons, List.mem_append, List.mem_flatMap]
  rintro (h | ⟨c, hc, h⟩ | h)
  · exact absurd h (by decide)
  · exact jsonPutChar_ne_nul (hs c hc) h rfl
  · exact absurd h (by decide)

theorem intToString_ne_nul (i : Int) : nul ∉ intToString i := by
  obtain ⟨sign, ds, heq, hsign, hds⟩ := intToString_sign i
  rw [heq, List.mem_append]
  rintro (h | h)
  · rcases hsign with rfl | rfl <;> exact absurd h (by decide)
  · exact absurd (hds.1.2 nul h) (by decide)

section
variable (printFloat : F → Text)

mutual

theorem put_ne_nul : (v : OrbitValue F) → v.IsData → v.Strings (· ≠ nul) →
    nul ∉ jsonPutValue printFloat v
  | .null, hv, _ => hv.elim
  | .float _, hv, _ => hv.elim
  | .int i, _, _ => by
    rw [jsonPutValue]
    exact intToString_ne_nul _
  | .bool b, _, _ => by cases b <;> simp [jsonPutValue, chars, nul]
  | .string s, _, hnul => by
    rw [jsonPutValue]
    exact jsonPutString_ne_nul hnul
  | .object o, hv, hnul => by
    have := putMembers_ne_nul o hv hnul
    simpa [jsonPutValue, nul] using this
  | .list l, hv, hnul => by
    have := putElements_ne_nul l hv hnul
    simpa [jsonPutValue, nul] using this

theorem putMembers_ne_nul : (o : OrbitObject F) → o.IsData → o.Strings (· ≠ nul) →
    nul ∉ jsonPutMembers printFloat o
  | .nil, _, _ => by simp [jsonPutMembers]
  | .cons k v .nil, ho, hnul => by
    have hk := jsonPutString_ne_nul hnul.1
    have hv := put_ne_nul v ho.2.1 hnul.2.1
    simpa [jsonPutMembers, nul] using And.intro hk hv
  | .cons k v (.cons l w rest), ho, hnul => by
    have hk := jsonPutString_ne_nul hnul.1
    have hv := put_ne_nul v ho.2.1 hnul.2.1
    have hrest := putMembers_ne_nul (.cons l w rest) ho.2.2 hnul.2.2
    simpa [jsonPutMembers, nul, and_assoc] using And.intro (And.intro hk hv) hrest

theorem putElements_ne_nul : (l : OrbitList F) → {kind : Option Kind} → l.IsData kind →
    l.Strings (· ≠ nul) → nul ∉ jsonPutElements printFloat l
  | .nil, _, _, _ => by simp [jsonPutElements]
  | .cons v .nil, _, hl, hnul => by
    have hv := put_ne_nul v hl.2.1 hnul.1
    simpa [jsonPutElements] using hv
  | .cons v (.cons w rest), _, hl, hnul => by
    have hv := put_ne_nul v hl.2.1 hnul.1
    have hrest := putElements_ne_nul (.cons w rest) hl.2.2 hnul.2
    simpa [jsonPutElements, nul] using And.intro hv hrest

end

/-- The written text has no NUL, so the reader sees the whole of it. -/
theorem cString_written {o : OrbitObject F} (ho : o.IsData) (hnul : o.Strings (· ≠ nul)) :
    cString (orbitObjectToJson printFloat o) = orbitObjectToJson printFloat o :=
  cString_self (put_ne_nul printFloat (.object o) ho hnul)

end

end Runtime.Json
