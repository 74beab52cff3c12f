import Mathlib
import Orbit.Runtime.Proof.JsonValue

/-!
# Documents

The reader that goes on by five bytes from the `u` of an escape, and refuses an escaped NUL, follows
the documented grammar (`followsString_strict`). The source goes on by six; as long as it comes to
no escape of a code unit it reads the grammar too (`orbitJsonParse_iff`).
-/

namespace Runtime.Json

/-! ## UTF-8 -/

theorem jsonHexval_lt {c : Char} {n : Nat} (h : jsonHexval c = some n) : n < 16 := by
  have h9 : '9'.toNat = 57 ∧ '0'.toNat = 48 ∧ 'f'.toNat = 102 ∧ 'a'.toNat = 97 ∧ 'F'.toNat = 70 ∧
    'A'.toNat = 65 := by decide
  rw [jsonHexval] at h
  simp only [Char.le_def, UInt32.le_iff_toNat_le] at h
  simp only [Char.toNat] at h h9
  split_ifs at h <;> (rw [Option.some.injEq] at h; omega)

theorem hexUnit_lt {a b c d : Char} {cp : Nat} (h : hexUnit a b c d = some cp) : cp < 0x10000 := by
  simp only [hexUnit, Option.bind_eq_bind, Option.bind_eq_some_iff, Option.pure_def,
    Option.some.injEq] at h
  obtain ⟨h0, e0, h1, e1, h2, e2, h3, e3, rfl⟩ := h
  have := jsonHexval_lt e0
  have := jsonHexval_lt e1
  have := jsonHexval_lt e2
  have := jsonHexval_lt e3
  omega

/-- A Unicode scalar value. -/
def isScalar (cp : Nat) : Prop := cp < 0xd800 ∨ 0xe000 ≤ cp ∧ cp < 0x110000

theorem isScalar_unit {a b c d : Char} {cp : Nat} (h : hexUnit a b c d = some cp)
    (hhi : ¬ isHigh cp) (hlow : ¬ isLow cp) : isScalar cp := by
  have := hexUnit_lt h
  rw [isHigh] at hhi
  rw [isLow] at hlow
  rw [isScalar]
  omega

theorem isScalar_pair {hi lo : Nat} (hhi : isHigh hi) (hlow : isLow lo) :
    isScalar (surrogatePair hi lo) := by
  obtain ⟨h1, h2⟩ := hhi
  obtain ⟨h3, h4⟩ := hlow
  right
  unfold surrogatePair
  omega

/-- The bytes of the reader are those of UTF-8. -/
theorem jsonUtf8Emit_eq {cp : Nat} (h : isScalar cp) : jsonUtf8Emit cp = utf8 cp := by
  have hvalid : cp.isValidChar := by
    rw [isScalar] at h
    rw [Nat.isValidChar]
    omega
  have hval : (Char.ofNat cp).val.toNat = cp := by
    have := Char.toNat_ofNat cp
    rwa [if_pos hvalid] at this
  have hmax : cp < 0x110000 := by
    rcases h with h | ⟨-, h⟩ <;> omega
  rw [jsonUtf8Emit, utf8, String.utf8EncodeChar]
  simp only [hval]
  have hbyte : ∀ n < 256, Char.ofNat (UInt8.ofNat n).toNat = Char.ofNat n := by
    intro n hn
    rw [UInt8.toNat_ofNat', Nat.mod_eq_of_lt hn]
  by_cases h1 : cp < 0x80
  · rw [if_pos h1, if_pos (by omega)]
    simp only [List.map_cons, List.map_nil]
    rw [hbyte _ (by omega)]
  by_cases h2 : cp < 0x800
  · rw [if_neg h1, if_pos h2, if_neg (by omega), if_pos (by omega)]
    simp only [List.map_cons, List.map_nil]
    rw [hbyte _ (by omega), hbyte _ (by omega)]
    congr 2
    · omega
    · congr 1
      omega
  by_cases h3 : cp < 0x10000
  · rw [if_neg h1, if_neg h2, if_pos h3, if_neg (by omega), if_neg (by omega), if_pos (by omega)]
    simp only [List.map_cons, List.map_nil]
    rw [hbyte _ (by omega), hbyte _ (by omega), hbyte _ (by omega)]
    simp only [List.cons.injEq, and_true]
    refine ⟨congrArg _ ?_, congrArg _ ?_, congrArg _ ?_⟩ <;> omega
  · rw [if_neg h1, if_neg h2, if_neg h3, if_neg (by omega), if_neg (by omega), if_neg (by omega)]
    simp only [List.map_cons, List.map_nil]
    rw [hbyte _ (by omega), hbyte _ (by omega), hbyte _ (by omega), hbyte _ (by omega)]
    simp only [List.cons.injEq, and_true]
    refine ⟨congrArg _ ?_, congrArg _ ?_, congrArg _ ?_, congrArg _ ?_⟩ <;> omega

/-! ## Strings of the grammar -/

/-- The stride of the grammar: the `u` and four digits. -/
def strictStride (cp : Nat) : Except Stop Nat :=
  if cp = 0 then .error (.fail "json: NUL in string") else .ok 5

theorem strictStride_ok {cp k : Nat} (h : strictStride cp = .ok k) : cp ≠ 0 ∧ k = 5 := by
  rw [strictStride] at h
  split at h
  · cases h
  · rename_i hne
    cases h
    exact ⟨hne, rfl⟩

theorem forward_strict : Forward strictStride := by
  intro cp k h
  rw [(strictStride_ok h).2]
  decide

theorem utf8_ne_nul {cp : Nat} (h : isScalar cp) (hne : cp ≠ 0) : nul ∉ utf8 cp := by
  have hbyte : ∀ n, 0 < n → n < 256 → nul ≠ Char.ofNat n := by
    intro n h0 hn heq
    have hcode := congrArg Char.toNat heq
    rw [Char.toNat_ofNat n, if_pos (by rw [Nat.isValidChar]; omega)] at hcode
    have : nul.toNat = 0 := rfl
    omega
  have hmax : cp < 0x110000 := by
    rcases h with h | ⟨-, h⟩ <;> omega
  rw [← jsonUtf8Emit_eq h, jsonUtf8Emit]
  split_ifs <;> simp only [List.mem_cons, List.not_mem_nil, or_false, not_or]
  · exact hbyte _ (by omega) (by omega)
  · exact ⟨hbyte _ (by omega) (by omega), hbyte _ (by omega) (by omega)⟩
  · exact ⟨hbyte _ (by omega) (by omega), hbyte _ (by omega) (by omega),
      hbyte _ (by omega) (by omega)⟩
  · exact ⟨hbyte _ (by omega) (by omega), hbyte _ (by omega) (by omega),
      hbyte _ (by omega) (by omega), hbyte _ (by omega) (by omega)⟩

theorem shortEscape_ne_nul {e c : Char} (h : shortEscape e = some c) : c ≠ nul := by
  rintro rfl
  rw [shortEscape] at h
  split_ifs at h with h1
  · rw [Option.some.injEq] at h
    rw [h] at h1
    revert h1
    decide
  all_goals cases h

/-- A string of the grammar is read along its body. -/
theorem IsString.body {t s r : Text} (h : IsString t s r) :
    Body strictStride t s ('"' :: r) ∧ nul ∉ s := by
  induction h with
  | close => exact ⟨.done, List.not_mem_nil⟩
  | plain hlow hq hb _ ih =>
    refine ⟨.plain hlow hq hb ih.1, ?_⟩
    rw [List.mem_cons, not_or]
    refine ⟨?_, ih.2⟩
    rintro rfl
    exact absurd hlow (by decide)
  | short hc _ ih =>
    refine ⟨.escape (.short hc) ih.1, ?_⟩
    rw [List.mem_cons, not_or]
    exact ⟨(shortEscape_ne_nul hc).symm, ih.2⟩
  | unit hcp hhi hlow hne _ ih =>
    have hs := isScalar_unit hcp hhi hlow
    rw [← jsonUtf8Emit_eq hs]
    refine ⟨.escape (.unit hcp hhi hlow (if_neg hne) (by simp)) ih.1, ?_⟩
    rw [jsonUtf8Emit_eq hs, List.mem_append, not_or]
    exact ⟨utf8_ne_nul hs hne, ih.2⟩
  | pair hcp hhi hlo hlow _ ih =>
    have hs := isScalar_pair hhi hlow
    have hne : ∀ hi lo, surrogatePair hi lo ≠ 0 := fun hi lo => by unfold surrogatePair; omega
    rw [← jsonUtf8Emit_eq hs]
    refine ⟨.escape (.pair hcp hhi hlo hlow) ih.1, ?_⟩
    rw [jsonUtf8Emit_eq hs, List.mem_append, not_or]
    exact ⟨utf8_ne_nul hs (hne _ _), ih.2⟩

theorem Body.isString {t s q : Text} (h : Body strictStride t s q) :
    ∀ {r}, q = '"' :: r → IsString t s r := by
  induction h with
  | done =>
    rintro r rfl
    exact .close
  | plain hlow hq hb _ ih => exact fun hr => .plain hlow hq hb (ih hr)
  | escape he _ ih =>
    intro r hr
    cases he with
    | short hc => exact .short hc (ih hr)
    | unit hcp hhi hlow hk =>
      obtain ⟨hne, rfl⟩ := strictStride_ok hk
      rw [jsonUtf8Emit_eq (isScalar_unit hcp hhi hlow)]
      exact .unit hcp hhi hlow hne (ih hr)
    | pair hcp hhi hlo hlow =>
      rw [jsonUtf8Emit_eq (isScalar_pair hhi hlow)]
      exact .pair hcp hhi hlo hlow (ih hr)

theorem cString_self {s : Text} (h : nul ∉ s) : cString s = s := by
  refine List.takeWhile_eq_self_iff.mpr fun c hc => ?_
  have : c ≠ nul := fun hn => h (hn ▸ hc)
  simpa using this

theorem IsString.suffix {t s r : Text} (h : IsString t s r) : r <:+ t ∧ r.length < t.length := by
  induction h with
  | close => exact ⟨List.suffix_cons _ _, Nat.lt_succ_self _⟩
  | plain _ _ _ _ ih => exact ⟨ih.1.trans (List.suffix_cons _ _), Nat.lt_succ_of_lt ih.2⟩
  | short _ _ ih =>
    exact ⟨ih.1.trans ⟨[_, _], rfl⟩, by simp only [List.length_cons]; omega⟩
  | unit _ _ _ _ _ ih =>
    exact ⟨ih.1.trans ⟨[_, _, _, _, _, _], rfl⟩, by simp only [List.length_cons]; omega⟩
  | pair _ _ _ _ _ ih =>
    exact ⟨ih.1.trans ⟨[_, _, _, _, _, _, _, _, _, _, _, _], rfl⟩,
      by simp only [List.length_cons]; omega⟩

/-- The strict reader reads the strings of the grammar. -/
theorem followsString_strict : FollowsString (jsonParseString strictStride) IsString where
  iff := by
    intro t s r
    rw [jsonParseString_iff forward_strict]
    constructor
    · rintro ⟨s0, hs0, rfl⟩
      have hstr := hs0.isString rfl
      rwa [cString_self hstr.body.2]
    · intro h
      exact ⟨s, h.body.1, (cString_self h.body.2).symm⟩
  length := fun h => h.suffix.2
  suffix := fun h => h.suffix.1

/-! ## Readers that agree up to a string -/

variable {F : Type} {fl : Floats F}

section
variable {A C : Text → Text → Text → Prop} {openStr : Text → Prop}
variable (hstr : ∀ t s r, A t s r → C t s r ∨ openStr t)
include hstr

section
variable {valA valC : Text → OrbitValue F → Text → Prop} {openVal : Text → Prop}
variable (hval : ∀ t u v r, Ws t u → valA u v r → valC u v r ∨ openVal t)
include hval

theorem IsMembers.transfer {o o' : OrbitObject F} {p r : Text} (h : IsMembers A valA o p o' r) :
    IsMembers C valC o p o' r ∨ OpensMembers C valC openStr openVal p := by
  induction h with
  | last hk hw hx hv hz =>
    rcases hstr _ _ _ hk with hk | hk
    · rcases hval _ _ _ _ hx hv with hv | hv
      · exact .inl (.last hk hw hx hv hz)
      · exact .inr (.value hk hw hv)
    · exact .inr (.key hk)
  | more hk hw hx hv hz ha _ ih =>
    rcases hstr _ _ _ hk with hk | hk
    · rcases hval _ _ _ _ hx hv with hv | hv
      · rcases ih with ih | ih
        · exact .inl (.more hk hw hx hv hz ha ih)
        · exact .inr (.later hk hw hx hv hz ha ih)
      · exact .inr (.value hk hw hv)
    · exact .inr (.key hk)

omit hstr in
theorem IsElements.transfer {kind : Option Kind} {l : OrbitList F} {p r : Text}
    (h : IsElements valA kind p l r) :
    IsElements valC kind p l r ∨ OpensElements valC openVal kind p := by
  induction h with
  | last hx hv he hz =>
    rcases hval _ _ _ _ hx hv with hv | hv
    · exact .inl (.last hx hv he hz)
    · exact .inr (.value hv)
  | more hx hv he hz _ ih =>
    rcases hval _ _ _ _ hx hv with hv | hv
    · rcases ih with ih | ih
      · exact .inl (.more hx hv he hz ih)
      · exact .inr (.later hx hv he hz ih)
    · exact .inr (.value hv)

end

/-- A value whose strings are read alike, up to the first one of `openStr`. -/
theorem IsValue.transfer (n : Nat) : ∀ t u v r, Ws t u → IsValue fl A n u v r →
    IsValue fl C n u v r ∨ Opens fl C openStr n t := by
  induction n with
  | zero => exact fun _ _ _ _ _ h => h.elim
  | succ n ih =>
    intro t u v r ht h
    cases h with
    | null => exact .inl .null
    | true => exact .inl .true
    | false => exact .inl .false
    | number hn => exact .inl (.number hn)
    | string hs =>
      rcases hstr _ _ _ hs with hs | hs
      · exact .inl (.string hs)
      · exact .inr (.inl ⟨_, ht, hs⟩)
    | emptyObject hw => exact .inl (.emptyObject hw)
    | object hw hm =>
      rcases hm.transfer hstr ih with hm | hm
      · exact .inl (.object hw hm)
      · exact .inr (.inr (.inl ⟨_, _, ht, hw, hm⟩))
    | emptyArray hw => exact .inl (.emptyArray hw)
    | array hl =>
      rcases hl.transfer ih with hl | hl
      · exact .inl (.array hl)
      · exact .inr (.inr (.inr ⟨_, ht, hl⟩))

theorem IsDocument.transfer {t : Text} {o : OrbitObject F} (h : IsDocument fl A t o) :
    IsDocument fl C t o ∨ Opens fl C openStr (ORBIT_JSON_MAX_DEPTH + 1) t := by
  obtain ⟨u, r, hu, hv, hr⟩ := h
  rcases IsValue.transfer hstr _ _ _ _ _ hu hv with hv | hv
  · exact .inl ⟨u, r, hu, hv, hr⟩
  · exact .inr hv

end

/-- A text comes to no string when there is none to come to. -/
theorem not_opens {str : Text → Text → Text → Prop} (n : Nat) (t : Text) :
    ¬ Opens fl str (fun _ => False) n t := by
  induction n generalizing t with
  | zero => exact id
  | succ n ih =>
    rintro (⟨u, -, h⟩ | ⟨u, w, -, -, h⟩ | ⟨u, -, h⟩)
    · exact h
    · induction h with
      | key h => exact h
      | value _ _ h => exact ih _ h
      | later _ _ _ _ _ _ _ ih' => exact ih'
    · generalize (none : Option Kind) = kind at h
      induction h with
      | value h => exact ih _ h
      | later _ _ _ _ _ ih' => exact ih'

theorem IsDocument.mono {A C : Text → Text → Text → Prop} (h : ∀ t s r, A t s r → C t s r)
    {t : Text} {o : OrbitObject F} (ho : IsDocument fl A t o) : IsDocument fl C t o := by
  have hstr : ∀ t s r, A t s r → C t s r ∨ False := fun t s r hs => .inl (h t s r hs)
  rcases ho.transfer hstr with ho | ho
  · exact ho
  · exact (not_opens _ _ ho).elim

/-! ## The documented grammar -/

/-- Strings as a reader with this stride reads them. -/
def ReadsString (stride : Nat → Except Stop Nat) (t s r : Text) : Prop :=
  ∃ s0, Body stride t s0 ('"' :: r) ∧ s = cString s0

theorem forward_jsonStride : Forward jsonStride := by
  intro cp k h
  cases h
  decide

theorem nul_not_mem_cString (s : Text) : nul ∉ cString s := by
  intro h
  have := List.mem_takeWhile_imp h
  simp at this

/-- The scan of a string comes to an escape of a code unit, in a document that follows the grammar
up to there. -/
def ComesToUnit (fl : Floats F) (t : Text) : Prop :=
  Opens fl (ReadsString noUnit) MeetsUnit (ORBIT_JSON_MAX_DEPTH + 1) t

theorem Body.suffix {stride : Nat → Except Stop Nat} {t s r : Text} (h : Body stride t s r) :
    r <:+ t := by
  induction h with
  | done => exact List.suffix_refl _
  | plain _ _ _ _ ih => exact ih.trans (List.suffix_cons _ _)
  | escape he _ ih =>
    refine (ih.trans ?_).trans (List.suffix_cons _ _)
    cases he with
    | short => exact List.suffix_cons _ _
    | unit => exact List.drop_suffix _ _
    | pair => exact ⟨[_, _, _, _, _, _, _, _, _, _, _], rfl⟩

/-- The reader of strings reads what `ReadsString` says. -/
theorem followsString {stride : Nat → Except Stop Nat} (hf : Forward stride) :
    FollowsString (jsonParseString stride) (ReadsString stride) where
  iff := jsonParseString_iff hf
  length := by
    rintro t s r ⟨s0, hs0, -⟩
    have := hs0.length_le hf
    rwa [List.length_cons] at this
  suffix := by
    rintro t s r ⟨s0, hs0, -⟩
    exact (List.suffix_cons _ _).trans hs0.suffix

/-- **The documented grammar is read.** A text that does not come to an escape of a code unit is
accepted exactly when it is a document of the grammar, with the object it denotes. -/
theorem orbitJsonParse_iff (fl : Floats F) (memory : Text)
    (h : ¬ ComesToUnit fl (cString memory)) (o : OrbitObject F) :
    orbitJsonParse fl memory = .ok o ↔ IsDocument fl IsString (cString memory) o := by
  have hread : ∀ t s r, ReadsString jsonStride t s r → ReadsString noUnit t s r ∨ MeetsUnit t := by
    rintro t s r ⟨s0, hs0, hs⟩
    exact hs0.cases_unit.imp_left fun hs0 => ⟨s0, hs0, hs⟩
  have hstrict : ∀ t s r, IsString t s r → ReadsString noUnit t s r ∨ MeetsUnit t := by
    intro t s r hs
    obtain ⟨hbody, hnul⟩ := hs.body
    exact hbody.cases_unit.imp_left fun hs0 => ⟨s, hs0, (cString_self hnul).symm⟩
  have hread' : ∀ t s r, ReadsString noUnit t s r → ReadsString jsonStride t s r := by
    rintro t s r ⟨s0, hs0, hs⟩
    exact ⟨s0, hs0.of_noUnit _, hs⟩
  have hstrict' : ∀ t s r, ReadsString noUnit t s r → IsString t s r := by
    rintro t s r ⟨s0, hs0, rfl⟩
    have hstr := (hs0.of_noUnit strictStride).isString rfl
    rwa [cString_self hstr.body.2]
  rw [orbitJsonParse, jsonDocument_iff (followsString forward_jsonStride) (nul_not_mem_cString _)]
  constructor
  · intro ho
    exact ((ho.transfer hread).resolve_right h).mono hstrict'
  · intro ho
    exact ((ho.transfer hstrict).resolve_right h).mono hread'

/-- The floats of a document, as they are spelled. -/
def textFloats : Floats Text := ⟨id, fun _ => true⟩

/-- `{"a":"\\u0041b"}` denotes the string `Ab`; the reader skips the `b`. -/
theorem orbitJsonParse_skips :
    ¬ (orbitJsonParse textFloats ['\x7b', '"', 'a', '"', ':', '"', '\\', 'u', '0', '0', '4', '1', 'b',
        '"', '\x7d'] = .ok (.cons ['a'] (.string ['A', 'b']) .nil) ↔
      IsDocument textFloats IsString ['\x7b', '"', 'a', '"', ':', '"', '\\', 'u', '0', '0', '4', '1',
        'b', '"', '\x7d'] (.cons ['a'] (.string ['A', 'b']) .nil)) := by
  intro h
  have hread := h.mpr ((jsonDocument_iff followsString_strict (by decide)).mp rfl)
  have hcode : orbitJsonParse textFloats ['\x7b', '"', 'a', '"', ':', '"', '\\', 'u', '0', '0', '4',
      '1', 'b', '"', '\x7d'] = .ok (.cons ['a'] (.string ['A']) .nil) := rfl
  rw [hcode] at hread
  cases hread

/-- A text without a backslash comes to no escape. -/
theorem Opens.mem_backslash {n : Nat} {t : Text}
    (h : Opens fl (ReadsString noUnit) MeetsUnit n t) : '\\' ∈ t := by
  have hf : Forward noUnit := fun _ _ h => by cases h
  have hmeets : ∀ {t : Text}, MeetsUnit t → '\\' ∈ t := by
    rintro t ⟨s, q, cp, hb, -⟩
    exact hb.suffix.subset List.mem_cons_self
  induction n generalizing t with
  | zero => exact h.elim
  | succ n ih =>
    have hv := follows fl (followsString hf) n
    rcases h with ⟨u, ht, hu⟩ | ⟨u, w, ht, hw, hm⟩ | ⟨u, ht, hl⟩
    · exact ht.suffix_tail.subset (hmeets hu)
    · refine ht.suffix_tail.subset (hw.suffix.subset ?_)
      clear hw
      induction hm with
      | key hu => exact List.mem_cons_of_mem _ (hmeets hu)
      | value hk hw hu =>
        have hsuffix := hw.suffix_tail.trans ((followsString hf).suffix hk)
        exact List.mem_cons_of_mem _ (hsuffix.subset (ih hu))
      | later hk hw hx hval hz ha _ ih' =>
        have h1 := (ha.suffix.trans hz.suffix_tail).trans (hv.suffix hval)
        have h2 := (h1.trans hx.suffix).trans hw.suffix_tail
        have h3 := h2.trans ((followsString hf).suffix hk)
        exact List.mem_cons_of_mem _ (h3.subset ih')
    · apply ht.suffix_tail.subset
      clear ht
      generalize (none : Option Kind) = kind at hl
      induction hl with
      | value hu => exact ih hu
      | later hx hval _ hz _ ih' =>
        have := (hz.suffix_tail.trans (hv.suffix hval)).trans hx.suffix
        exact this.subset ih'

/-- A document without an escape is read. -/
theorem orbitJsonParse_plain :
    orbitJsonParse textFloats ['\x7b', '"', 'a', '"', ':', '1', '\x7d'] =
        .ok (.cons ['a'] (.int 1) .nil) ↔
      IsDocument textFloats IsString ['\x7b', '"', 'a', '"', ':', '1', '\x7d']
        (.cons ['a'] (.int 1) .nil) :=
  orbitJsonParse_iff textFloats _ (fun h => absurd h.mem_backslash (by decide)) _

end Runtime.Json
