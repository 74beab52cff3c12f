import Orbit.Runtime.Proof.JsonWritten

/-!
# The round trip

What the writer writes is read back exactly when no string needs the escape of a code unit
(`orbitJsonParse_toJson_iff`). The reader takes one byte more for such an escape than the writer
spends on it. With the letters that have a short escape of their own weighed apart, no text that
reads as an object is lighter than `cost`, and the written text of an object with such a byte is.
-/

namespace Runtime.Json

open Lib.Decimal (isDigit digitsValue)
open Lib.Text (chars intToString)

variable {F : Type}

/-! ## Weights -/

instance (c : Char) : Decidable (isCodeEscaped c) := inferInstanceAs (Decidable (_ ∧ _))

/-- `\b` and `\f` weigh more than the escapes that the writer puts for them. -/
def letterWeight (c : Char) : Nat := if c = 'b' ∨ c = 'B' ∨ c = 'f' ∨ c = 'F' then 6 else 1

def weight (t : Text) : Nat := (t.map letterWeight).sum

@[simp] theorem weight_nil : weight [] = 0 := rfl

@[simp] theorem weight_cons (c : Char) (t : Text) : weight (c :: t) = letterWeight c + weight t :=
  rfl

@[simp] theorem weight_append (t u : Text) : weight (t ++ u) = weight t + weight u := by
  simp [weight]

theorem letterWeight_pos (c : Char) : 1 ≤ letterWeight c := by
  rw [letterWeight]
  split <;> decide

theorem letterWeight_le (c : Char) : letterWeight c ≤ 6 := by
  rw [letterWeight]
  split <;> decide

theorem length_le_weight (t : Text) : t.length ≤ weight t := by
  induction t with
  | nil => exact Nat.le_refl _
  | cons c t ih =>
    have := letterWeight_pos c
    rw [weight_cons, List.length_cons]
    omega

theorem weight_le_of_suffix {r t : Text} (h : r <:+ t) : weight r ≤ weight t := by
  obtain ⟨w, rfl⟩ := h
  rw [weight_append]
  omega

/-- What reading a byte of a string takes, at least. -/
def byteCost (c : Char) : Nat := weight (jsonPutChar c) + if isCodeEscaped c then 1 else 0

def stringCost (s : Text) : Nat := (s.map byteCost).sum

@[simp] theorem stringCost_nil : stringCost [] = 0 := rfl

@[simp] theorem stringCost_cons (c : Char) (s : Text) :
    stringCost (c :: s) = byteCost c + stringCost s := rfl

@[simp] theorem stringCost_append (s u : Text) :
    stringCost (s ++ u) = stringCost s + stringCost u := by
  simp [stringCost]

/-! ## Strings -/

/-- A byte that is written as it is. -/
theorem byteCost_plain {c : Char} (hlow : 0x20 ≤ c.toNat) (hq : c ≠ '"') (hb : c ≠ '\\') :
    byteCost c = letterWeight c := by
  have hne : c ≠ '\n' ∧ c ≠ '\r' ∧ c ≠ '\t' := by
    refine ⟨?_, ?_, ?_⟩ <;>
    · rintro rfl
      exact absurd hlow (by decide)
  have hesc : ¬ isCodeEscaped c := fun h => absurd h.1 (Nat.not_lt_of_le hlow)
  rw [byteCost, jsonPutChar, if_neg (by simp [hq, hb]), if_neg hne.1, if_neg hne.2.1,
    if_neg hne.2.2, if_neg (Nat.not_lt_of_le hlow), if_neg hesc]
  rfl

theorem byteCost_le {c : Char} (h : ¬ isCodeEscaped c) : byteCost c ≤ 6 := by
  by_cases hq : c = '"' ∨ c = '\\'
  · rcases hq with rfl | rfl <;> decide
  by_cases hn : c = '\n' ∨ c = '\r' ∨ c = '\t'
  · rcases hn with rfl | rfl | rfl <;> decide
  rw [not_or] at hq
  simp only [not_or] at hn
  have hlow : 0x20 ≤ c.toNat := Nat.le_of_not_lt fun hlow => h ⟨hlow, hn⟩
  rw [byteCost_plain hlow hq.1 hq.2]
  exact letterWeight_le c

theorem byteCost_short {e c : Char} (h : shortEscape e = some c) :
    byteCost c ≤ 1 + letterWeight e := by
  rw [shortEscape] at h
  split_ifs at h with h1 h2 h3 h4 h5 h6 <;> rw [Option.some.injEq] at h
  · rcases h1 with rfl | rfl | rfl <;> subst h <;> decide
  all_goals
    subst h
    simp only [*]
    decide

/-- A hexadecimal digit is not lighter than the lower-case one of its value. -/
theorem letterWeight_hex {c : Char} {n : Nat} (h : jsonHexval c = some n) :
    letterWeight (Nat.digitChar n) ≤ letterWeight c := by
  have hlt := jsonHexval_lt h
  have hpos := letterWeight_pos c
  have hself : ∀ m, m < 16 → m = 11 ∨ m = 15 ∨ letterWeight (Nat.digitChar m) = 1 := by decide
  have hcase : ∀ a b : Char, c.toNat = a.toNat ∨ c.toNat = b.toNat → c = a ∨ c = b :=
    fun a b h => h.imp (fun h => Char.toNat_inj.mp h) fun h => Char.toNat_inj.mp h
  have h9 : '9'.toNat = 57 ∧ '0'.toNat = 48 ∧ 'f'.toNat = 102 ∧ 'a'.toNat = 97 ∧ 'F'.toNat = 70 ∧
    'A'.toNat = 65 ∧ 'b'.toNat = 98 ∧ 'B'.toNat = 66 := by decide
  have hval : n ≤ 9 ∨ c.toNat = n + 87 ∨ c.toNat = n + 55 := by
    rw [jsonHexval] at h
    simp only [Char.le_def, UInt32.le_iff_toNat_le] at h
    simp only [Char.toNat] at h h9 ⊢
    split_ifs at h <;> (rw [Option.some.injEq] at h; omega)
  rcases hself n hlt with rfl | rfl | h1
  · rcases hcase 'b' 'B' (by omega) with rfl | rfl <;> decide
  · rcases hcase 'f' 'F' (by omega) with rfl | rfl <;> decide
  · omega

theorem stringCost_emit {cp : Nat} (h : 0x80 ≤ cp) (hlt : cp < 0x110000) :
    stringCost (jsonUtf8Emit cp) ≤ 4 := by
  have hbyte : ∀ n, 0x80 ≤ n → n < 0x100 → byteCost (Char.ofNat n) = 1 := by
    have hall : ∀ n < 0x100, 0x80 ≤ n → byteCost (Char.ofNat n) = 1 := by decide +kernel
    exact fun n h h' => hall n h' h
  rw [jsonUtf8Emit, if_neg (by omega)]
  split_ifs <;> simp (disch := omega) only [stringCost_cons, stringCost_nil, hbyte] <;> omega

/-- What a code point costs is less than its escape and the byte after it. -/
theorem stringCost_unit {a b c d : Char} {cp : Nat} (h : hexUnit a b c d = some cp) :
    stringCost (jsonUtf8Emit cp) ≤ 3 + weight [a, b, c, d] := by
  have hlt := hexUnit_lt h
  have ha := letterWeight_pos a
  have hb := letterWeight_pos b
  have hc := letterWeight_pos c
  have hd := letterWeight_pos d
  simp only [weight_cons, weight_nil]
  by_cases hbig : 0x80 ≤ cp
  · have := stringCost_emit hbig (by omega)
    omega
  have hnat : (Char.ofNat cp).toNat = cp := by
    rw [Char.toNat_ofNat, if_pos (by rw [Nat.isValidChar]; omega)]
  rw [jsonUtf8Emit, if_pos (by omega), stringCost_cons, stringCost_nil]
  by_cases hesc : isCodeEscaped (Char.ofNat cp)
  · simp only [hexUnit, Option.bind_eq_bind, Option.bind_eq_some_iff, Option.pure_def,
      Option.some.injEq] at h
    obtain ⟨h0, e0, h1, e1, h2, e2, h3, e3, hcp⟩ := h
    have := jsonHexval_lt e2
    have := jsonHexval_lt e3
    have hlow := hesc.1
    rw [hnat] at hlow
    have hhigh : cp / 16 = h2 := by omega
    have hrest : cp % 16 = h3 := by omega
    have h2w := letterWeight_hex e2
    have h3w := letterWeight_hex e3
    have hquote : ¬ (Char.ofNat cp = '"' ∨ Char.ofNat cp = '\\') := by
      rintro (h | h) <;> rw [h] at hesc <;> exact absurd hesc (by decide)
    rw [byteCost, if_pos hesc, jsonPutChar, if_neg hquote, if_neg hesc.2.1, if_neg hesc.2.2.1,
      if_neg hesc.2.2.2, if_pos hesc.1, hnat, hex2, hhigh, hrest]
    have hlead : letterWeight '\\' = 1 ∧ letterWeight 'u' = 1 ∧ letterWeight '0' = 1 := by decide
    simp only [List.cons_append, List.nil_append, weight_cons, weight_nil, hlead]
    omega
  · have := byteCost_le hesc
    omega

theorem Escape.weight {q b q' : Text} (h : Escape jsonStride q b q') :
    weight q' + stringCost b ≤ 1 + weight q := by
  cases h with
  | short he =>
    have := byteCost_short he
    simp only [stringCost_cons, stringCost_nil, weight_cons]
    omega
  | unit hcp _ _ hk hle =>
    rename_i w _ _
    cases hk
    obtain ⟨x, w, rfl⟩ : ∃ x v, w = x :: v := by
      cases w with
      | nil => exact absurd hle (by simp)
      | cons x v => exact ⟨x, v, rfl⟩
    have hcost := stringCost_unit hcp
    have hx := letterWeight_pos x
    have hu : letterWeight 'u' = 1 := by decide
    simp only [List.drop_succ_cons, List.drop_zero, weight_cons, weight_nil, hu] at hcost ⊢
    omega
  | pair hhi hhigh hlo hlow =>
    rename_i a b c d hi e f g h lo
    have hpair : 0x10000 ≤ surrogatePair hi lo := by
      unfold surrogatePair
      omega
    have hmax : surrogatePair hi lo < 0x110000 := by
      rcases isScalar_pair hhigh hlow with h | h <;> omega
    have hcost := stringCost_emit (by omega) hmax
    have hlen := length_le_weight ['u', a, b, c, d, '\\', 'u', e, f, g, h]
    simp only [weight_cons, weight_nil, List.length_cons, List.length_nil] at hlen ⊢
    omega

theorem Body.weight {t s r : Text} (h : Body jsonStride t s r) :
    weight r + stringCost s ≤ weight t := by
  induction h with
  | done => exact Nat.le_refl _
  | plain hlow hq hb _ ih =>
    have := byteCost_plain hlow hq hb
    rw [stringCost_cons, weight_cons]
    omega
  | escape he _ ih =>
    have := he.weight
    have hslash : letterWeight '\\' = 1 := by decide
    rw [stringCost_append, weight_cons, hslash]
    omega

theorem stringCost_cString (s : Text) : stringCost (cString s) ≤ stringCost s :=
  List.Sublist.sum_le_sum ((List.takeWhile_sublist _).map byteCost) fun _ _ => Nat.zero_le _

theorem ReadsString.weight {t s r : Text} (h : ReadsString jsonStride t s r) :
    weight r + stringCost s + 1 ≤ weight t := by
  obtain ⟨s0, hs0, rfl⟩ := h
  have h := hs0.weight
  have hcost := stringCost_cString s0
  have hquote : letterWeight '"' = 1 := by decide
  rw [weight_cons, hquote] at h
  omega

/-! ## What reading takes -/

mutual

/-- The least weight of a text that reads as a value. -/
def OrbitValue.cost : OrbitValue F → Nat
  | .null => 0
  | .float _ => 0
  | .int i => weight (intToString i.toInt)
  | .bool b => weight (if b then chars "true" else chars "false")
  | .string s => 2 + stringCost s
  | .object o => 1 + max 1 (OrbitObject.cost o)
  | .list l => 1 + max 1 (OrbitList.cost l)

def OrbitObject.cost : OrbitObject F → Nat
  | .nil => 0
  | .cons k v rest => 4 + stringCost k + OrbitValue.cost v + OrbitObject.cost rest

def OrbitList.cost : OrbitList F → Nat
  | .nil => 0
  | .cons v rest => 1 + OrbitValue.cost v + OrbitList.cost rest

end

theorem orbitObjectSet_cost (o : OrbitObject F) (k : Text) (v : OrbitValue F) :
    (orbitObjectSet o k v).cost ≤ o.cost + (4 + stringCost k + v.cost) := by
  induction o using OrbitObject.keys.induct with
  | case1 => simp [orbitObjectSet, OrbitObject.cost]
  | case2 l w rest ih =>
    rw [orbitObjectSet]
    split <;> simp only [OrbitObject.cost]
    · subst l
      omega
    · omega

theorem storeMember_cost (o : OrbitObject F) (k : Text) (v : OrbitValue F) :
    (storeMember o k v).cost ≤ o.cost + (4 + stringCost k + v.cost) := by
  cases v with
  | null => exact Nat.le_add_right _ _
  | _ => exact orbitObjectSet_cost o k _

theorem Ws.weight {t r : Text} (h : Ws t r) : weight r ≤ weight t := weight_le_of_suffix h.suffix

section
variable {val : Text → OrbitValue F → Text → Prop}
variable (hval : ∀ {t v r}, val t v r → weight r + v.cost ≤ weight t)
include hval

theorem IsMembers.weight {o o' : OrbitObject F} {p r : Text}
    (h : IsMembers (ReadsString jsonStride) val o p o' r) :
    weight r + o'.cost ≤ weight p + o.cost ∧ weight r + 1 ≤ weight p := by
  induction h with
  | last hk hw hx hv hz =>
    rename_i o u k w x v y z r
    have h1 := hk.weight
    have h2 := hw.weight
    have h3 := hx.weight
    have h4 := hval hv
    have h5 := hz.weight
    have h6 := storeMember_cost o k v
    have hp1 := letterWeight_pos ':'
    have hp2 := letterWeight_pos '\x7d'
    have hp3 := letterWeight_pos '"'
    simp only [weight_cons] at h2 h5 ⊢
    omega
  | more hk hw hx hv hz ha hm ih =>
    rename_i o u k w x v y z a b o' r
    have h1 := hk.weight
    have h2 := hw.weight
    have h3 := hx.weight
    have h4 := hval hv
    have h5 := hz.weight
    have h6 := ha.weight
    have h7 := storeMember_cost o k v
    have hp1 := letterWeight_pos ':'
    have hp2 := letterWeight_pos ','
    have hp3 := letterWeight_pos '"'
    simp only [weight_cons] at h2 h5 ⊢
    omega

theorem IsElements.weight {kind : Option Kind} {l : OrbitList F} {p r : Text}
    (h : IsElements val kind p l r) : weight r + l.cost ≤ weight p ∧ weight r + 1 ≤ weight p := by
  induction h with
  | last hx hv _ hz =>
    have h1 := hx.weight
    have h2 := hval hv
    have h3 := hz.weight
    have hp := letterWeight_pos ']'
    simp only [weight_cons, OrbitList.cost] at h3 ⊢
    omega
  | more hx hv _ hz _ ih =>
    have h1 := hx.weight
    have h2 := hval hv
    have h3 := hz.weight
    have hp := letterWeight_pos ','
    simp only [weight_cons, OrbitList.cost] at h3 ⊢
    omega

end

theorem weight_intToString (i : Int) : weight (intToString i) = (intToString i).length := by
  have hlight : ∀ t : Text, (∀ c ∈ t, c = '-' ∨ isDigit c = true) → weight t = t.length := by
    intro t ht
    induction t with
    | nil => rfl
    | cons c t ih =>
      have hc : letterWeight c = 1 := by
        rw [letterWeight, if_neg]
        rintro (rfl | rfl | rfl | rfl) <;> exact absurd (ht _ List.mem_cons_self) (by decide)
      rw [weight_cons, hc, ih fun d hd => ht d (List.mem_cons_of_mem _ hd), List.length_cons,
        Nat.add_comm]
  obtain ⟨sign, ds, heq, hsign, hds⟩ := intToString_sign i
  rw [heq]
  refine hlight _ fun c hc => ?_
  rcases List.mem_append.mp hc with hc | hc
  · rcases hsign with rfl | rfl
    · cases hc
    · exact .inl (List.mem_singleton.mp hc)
  · exact .inr (hds.1.2 c hc)

/-- No spelling of an int is shorter than the decimal one. -/
theorem intToString_length {sign i : Text} (hsign : sign = [] ∨ sign = ['-']) (hi : IsInt i) :
    (intToString (decimalValue (sign ++ i))).length ≤ (sign ++ i).length := by
  obtain ⟨h0, hlt⟩ := Lib.Decimal.digitsValue_bounds hi.1.2
  have hpos : 0 < i.length := List.length_pos_iff.mpr hi.1.1
  have hdigits : (Nat.toDigits 10 (digitsValue i).natAbs).length ≤ i.length := by
    rw [Nat.length_toDigits_le_iff (by decide) hpos]
    zify
    rwa [abs_of_nonneg h0]
  rcases hsign with rfl | rfl
  · have hval : decimalValue ([] ++ i) = digitsValue i := by
      rw [List.nil_append, decimalValue.eq_2]
      rintro ds rfl
      exact absurd (hi.1.2 '-' List.mem_cons_self) (by decide)
    rwa [hval, intToString, if_neg (by omega)]
  · have hval : decimalValue (['-'] ++ i) = -digitsValue i := rfl
    have hone : (['-'] : Text).length = 1 := rfl
    rw [hval, intToString, Int.natAbs_neg, List.length_append, hone]
    split
    · rw [List.length_cons]
      omega
    · omega

theorem IsNumber.weight {fl : Floats F} {t : Text} {v : OrbitValue F} (h : IsNumber fl t v) :
    v.cost ≤ weight t := by
  cases h with
  | int hsign hi hlow hhigh =>
    rename_i sign i
    have hlen := intToString_length hsign hi
    have hweight := length_le_weight (sign ++ i)
    have htoInt : (BitVec.ofInt 64 (decimalValue (sign ++ i))).toInt = decimalValue (sign ++ i) := by
      rw [BitVec.toInt_ofInt, Int.bmod_eq_of_le] <;> omega
    rw [OrbitValue.cost, htoInt, weight_intToString]
    omega
  | float => exact Nat.zero_le _

/-- **What a text reads as costs no more than the text weighs.** -/
theorem IsValue.weight {fl : Floats F} (n : Nat) : ∀ {t v r},
    IsValue fl (ReadsString jsonStride) n t v r → weight r + v.cost ≤ weight t := by
  induction n with
  | zero => exact fun h => h.elim
  | succ n ih =>
    intro t v r h
    have hb : letterWeight '\x7b' = 1 ∧ letterWeight '\x7d' = 1 ∧ letterWeight '[' = 1 ∧
      letterWeight ']' = 1 ∧ letterWeight '"' = 1 := by decide
    cases h with
    | null => simp [OrbitValue.cost]
    | true =>
      rw [weight_append, OrbitValue.cost, if_pos rfl]
      omega
    | false =>
      rw [weight_append, OrbitValue.cost, if_neg (by decide)]
      omega
    | number hn =>
      have := hn.weight
      rw [weight_append]
      omega
    | string hs =>
      have := hs.weight
      rw [weight_cons, OrbitValue.cost]
      omega
    | emptyObject hw =>
      have := hw.weight
      rw [weight_cons] at *
      simp only [OrbitValue.cost, OrbitObject.cost]
      omega
    | object hw hm =>
      have h1 := hw.weight
      have h2 := hm.weight ih
      rw [weight_cons, OrbitValue.cost]
      simp only [OrbitObject.cost] at h2
      omega
    | emptyArray hw =>
      have := hw.weight
      rw [weight_cons] at *
      simp only [OrbitValue.cost, OrbitList.cost]
      omega
    | array hl =>
      have h2 := hl.weight ih
      rw [weight_cons, OrbitValue.cost]
      omega

/-! ## What writing takes -/

theorem jsonPutString_weight {s : Text} (hnul : ∀ c ∈ s, c ≠ nul) :
    weight (jsonPutString s) ≤ 2 + stringCost s ∧
      (2 + stringCost s ≤ weight (jsonPutString s) → ∀ c ∈ s, ¬ isCodeEscaped c) := by
  have hself : cString s = s := cString_self fun h => hnul nul h rfl
  have hquote : letterWeight '"' = 1 := by decide
  have key : ∀ u : Text, weight (u.flatMap jsonPutChar) ≤ stringCost u ∧
      (stringCost u ≤ weight (u.flatMap jsonPutChar) → ∀ c ∈ u, ¬ isCodeEscaped c) := by
    intro u
    induction u with
    | nil => exact ⟨Nat.le_refl _, fun _ _ h => by cases h⟩
    | cons c u ih =>
      rw [List.flatMap_cons, weight_append, stringCost_cons, byteCost]
      refine ⟨by omega, fun h d hd => ?_⟩
      rcases List.mem_cons.mp hd with rfl | hd
      · intro hesc
        rw [if_pos hesc] at h
        omega
      · exact ih.2 (by omega) d hd
  rw [jsonPutString, hself, weight_cons, weight_append, weight_cons, weight_nil, hquote]
  exact ⟨by have := (key s).1; omega, fun h => (key s).2 (by omega)⟩

section
variable (printFloat : F → Text)

mutual

theorem put_weight : (v : OrbitValue F) → v.IsData → v.Strings (· ≠ nul) →
    weight (jsonPutValue printFloat v) ≤ v.cost ∧
      (v.cost ≤ weight (jsonPutValue printFloat v) → v.Strings (¬ isCodeEscaped ·))
  | .null, hv, _ => hv.elim
  | .float _, hv, _ => hv.elim
  | .int i, _, _ => ⟨by rw [jsonPutValue, OrbitValue.cost], fun _ => trivial⟩
  | .bool b, _, _ => ⟨by rw [jsonPutValue, OrbitValue.cost], fun _ => trivial⟩
  | .string s, _, hnul => by
    rw [jsonPutValue, OrbitValue.cost]
    exact jsonPutString_weight hnul
  | .object o, hv, hnul => by
    obtain ⟨hle, hclean⟩ := putMembers_weight o hv hnul
    have hb : letterWeight '\x7b' = 1 ∧ letterWeight '\x7d' = 1 := by decide
    rw [jsonPutValue, OrbitValue.cost, weight_cons, weight_append, weight_cons, weight_nil, hb.1,
      hb.2]
    exact ⟨by omega, fun h => hclean (by omega)⟩
  | .list l, hv, hnul => by
    obtain ⟨hle, hclean⟩ := putElements_weight l hv hnul
    have hb : letterWeight '[' = 1 ∧ letterWeight ']' = 1 := by decide
    rw [jsonPutValue, OrbitValue.cost, weight_cons, weight_append, weight_cons, weight_nil, hb.1,
      hb.2]
    exact ⟨by omega, fun h => hclean (by omega)⟩

theorem putMembers_weight : (o : OrbitObject F) → o.IsData → o.Strings (· ≠ nul) →
    weight (jsonPutMembers printFloat o) + 1 ≤ max 1 o.cost ∧
      (max 1 o.cost ≤ weight (jsonPutMembers printFloat o) + 1 → o.Strings (¬ isCodeEscaped ·))
  | .nil, _, _ => ⟨by simp [jsonPutMembers], fun _ => trivial⟩
  | .cons k v .nil, ho, hnul => by
    obtain ⟨hk, hkc⟩ := jsonPutString_weight hnul.1
    obtain ⟨hv, hvc⟩ := put_weight v ho.2.1 hnul.2.1
    have hcolon : letterWeight ':' = 1 := by decide
    rw [jsonPutMembers, weight_append, weight_cons, hcolon, OrbitObject.cost, OrbitObject.cost]
    exact ⟨by omega, fun h => ⟨hkc (by omega), hvc (by omega), trivial⟩⟩
  | .cons k v (.cons l w rest), ho, hnul => by
    obtain ⟨hk, hkc⟩ := jsonPutString_weight hnul.1
    obtain ⟨hv, hvc⟩ := put_weight v ho.2.1 hnul.2.1
    obtain ⟨hr, hrc⟩ := putMembers_weight (.cons l w rest) ho.2.2 hnul.2.2
    have hp : letterWeight ':' = 1 ∧ letterWeight ',' = 1 := by decide
    have hpos : 1 ≤ (OrbitObject.cons l w rest).cost := by
      rw [OrbitObject.cost]
      omega
    rw [jsonPutMembers, weight_append, weight_append, weight_cons, weight_cons, hp.1, hp.2,
      OrbitObject.cost]
    exact ⟨by omega, fun h => ⟨hkc (by omega), hvc (by omega), hrc (by omega)⟩⟩

theorem putElements_weight : (l : OrbitList F) → {kind : Option Kind} → l.IsData kind →
    l.Strings (· ≠ nul) → weight (jsonPutElements printFloat l) + 1 ≤ max 1 l.cost ∧
      (max 1 l.cost ≤ weight (jsonPutElements printFloat l) + 1 → l.Strings (¬ isCodeEscaped ·))
  | .nil, _, _, _ => ⟨by simp [jsonPutElements], fun _ => trivial⟩
  | .cons v .nil, _, hl, hnul => by
    obtain ⟨hv, hvc⟩ := put_weight v hl.2.1 hnul.1
    rw [jsonPutElements, OrbitList.cost, OrbitList.cost]
    exact ⟨by omega, fun h => ⟨hvc (by omega), trivial⟩⟩
  | .cons v (.cons w rest), _, hl, hnul => by
    obtain ⟨hv, hvc⟩ := put_weight v hl.2.1 hnul.1
    obtain ⟨hr, hrc⟩ := putElements_weight (.cons w rest) hl.2.2 hnul.2
    have hcomma : letterWeight ',' = 1 := by decide
    have hpos : 1 ≤ (OrbitList.cons w rest).cost := by
      rw [OrbitList.cost]
      omega
    rw [jsonPutElements, weight_append, weight_cons, hcomma, OrbitList.cost]
    exact ⟨by omega, fun h => ⟨hvc (by omega), hrc (by omega)⟩⟩

end

end

/-! ## The round trip -/

/-- **The round trip.** An object of at most 64 levels, without floats, nulls and NULs, is read back
from its text exactly when no key and no string holds a control byte that is written as a code
escape. -/
theorem orbitJsonParse_toJson_iff (fl : Floats F) (printFloat : F → Text) {o : OrbitObject F}
    (ho : o.IsData) (hnul : o.Strings (· ≠ nul)) (hdepth : o.depth ≤ ORBIT_JSON_MAX_DEPTH) :
    orbitJsonParse fl (orbitObjectToJson printFloat o) = .ok o ↔
      o.Strings (¬ isCodeEscaped ·) := by
  rw [orbitJsonParse, jsonDocument_iff (followsString forward_jsonStride) (nul_not_mem_cString _),
    cString_written printFloat ho hnul]
  constructor
  · rintro ⟨u, r, hu, hval, -⟩
    have h1 := hu.weight
    have h2 := IsValue.weight _ hval
    have h3 : (OrbitValue.object o).cost ≤ weight (orbitObjectToJson printFloat o) := by omega
    exact (put_weight printFloat (.object o) ho hnul).2 h3
  · intro hs
    exact written_document fl printFloat jsonStride ho hnul hs hdepth

/-- The quote after a code escape is skipped. -/
theorem orbitJsonParse_toJson_control :
    orbitJsonParse textFloats (orbitObjectToJson id (.cons ['k'] (.string ['\x01']) .nil)) ≠
      .ok (.cons ['k'] (.string ['\x01']) .nil) := by
  intro h
  have hcode : orbitJsonParse textFloats
      (orbitObjectToJson id (.cons ['k'] (.string ['\x01']) .nil)) =
        .error (.fail "json: unterminated string") := rfl
  rw [hcode] at h
  cases h

/-- Line ends, tabs and quotes are read back. -/
theorem orbitJsonParse_toJson_lines :
    orbitJsonParse textFloats (orbitObjectToJson id
        (.cons ['k'] (.list (.cons (.string ['\n', '"']) (.cons (.string []) .nil))) .nil)) =
      .ok (.cons ['k'] (.list (.cons (.string ['\n', '"']) (.cons (.string []) .nil))) .nil) ↔
      OrbitObject.Strings (F := Text) (¬ isCodeEscaped ·)
        (.cons ['k'] (.list (.cons (.string ['\n', '"']) (.cons (.string []) .nil))) .nil) :=
  orbitJsonParse_toJson_iff textFloats id
    ⟨by decide, by simp [OrbitValue.IsData, OrbitList.IsData, IsElement, OrbitValue.kind],
      trivial⟩
    (by simp [OrbitObject.Strings, OrbitValue.Strings, OrbitList.Strings, nul])
    (by simp [OrbitObject.depth, OrbitValue.depth, OrbitList.depth, ORBIT_JSON_MAX_DEPTH])

end Runtime.Json
