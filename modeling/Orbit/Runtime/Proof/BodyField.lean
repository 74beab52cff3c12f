import Orbit.Runtime.JsonField
import Orbit.Runtime.Proof.JsonField
import Orbit.Runtime.Proof.JsonMembers

/-!
# When the search for a field agrees with the reader

`orbit_json_field` copies the value that its key reads as, and nothing for a key of no member,
exactly when the document is `Searchable` for the key (`orbitJsonField_iff`).
-/

namespace Runtime.BodyField

open Json
open JsonField (behind strstr)
open Lib.Text (intToString)

variable {F : Type}

/-! ## Members and their places -/

section
variable {fl : Floats F} {str : Text → Text → Text → Prop} {wr : Text → Written F → Text → Prop}

theorem writtenMembers_iff {u r : Text} {l : List (Text × Written F)} :
    WrittenMembers str wr u l r ↔ ∃ ms, PlacedMembers str wr u ms r ∧ written ms = l := by
  constructor
  · intro h
    induction h with
    | last hk hw hx hv hz => exact ⟨_, .last hk hw hx hv hz, rfl⟩
    | more hk hw hx hv hz ha _ ih =>
      obtain ⟨ms, hms, rfl⟩ := ih
      exact ⟨_, .more hk hw hx hv hz ha hms, rfl⟩
  · rintro ⟨ms, h, rfl⟩
    induction h with
    | last hk hw hx hv hz => exact .last hk hw hx hv hz
    | more hk hw hx hv hz ha _ ih => exact .more hk hw hx hv hz ha ih

/-- The members of a document have their places in it. -/
theorem isWrittenDocument_iff {t : Text} {l : List (Text × Written F)} :
    IsWrittenDocument fl str t l ↔ ∃ ms, PlacedDocument fl str t ms ∧ written ms = l := by
  constructor
  · rintro ⟨u, r, hu, hw, hr⟩
    cases hw with
    | emptyObject hempty => exact ⟨[], .empty hu hempty hr, rfl⟩
    | object hv hmembers =>
      obtain ⟨ms, hms, rfl⟩ := writtenMembers_iff.mp hmembers
      exact ⟨ms, .members hu hv hms hr, rfl⟩
  · rintro ⟨ms, h, rfl⟩
    cases h with
    | empty hu hempty hr => exact ⟨_, _, hu, .emptyObject hempty, hr⟩
    | members hu hv hms hr =>
      exact ⟨_, _, hu, .object hv (writtenMembers_iff.mpr ⟨ms, hms, rfl⟩), hr⟩

theorem PlacedMembers.mem {u r : Text} {ms : List (Placed F)} (h : PlacedMembers str wr u ms r) :
    ∀ m ∈ ms, wr m.start m.value m.stop := by
  induction h with
  | last _ _ _ hv _ =>
    intro m hm
    rw [List.mem_singleton.mp hm]
    exact hv
  | more _ _ _ hv _ _ _ ih =>
    intro m hm
    rcases List.mem_cons.mp hm with rfl | hm
    · exact hv
    · exact ih m hm

theorem PlacedDocument.mem {t : Text} {ms : List (Placed F)} (h : PlacedDocument fl str t ms) :
    ∀ m ∈ ms, IsWritten fl str ORBIT_JSON_MAX_DEPTH m.start m.value m.stop := by
  cases h with
  | empty => exact fun m hm => absurd hm List.not_mem_nil
  | members _ _ hms _ => exact hms.mem

/-- The place of a string. -/
theorem string_place {n : Nat} {t r s : Text} {w : Written F} (h : IsWritten fl str n t w r)
    (hw : w.value = .string s) : ∃ u, t = '"' :: u ∧ str u s r := by
  cases n with
  | zero => exact h.elim
  | succ n =>
    cases h with
    | @scalar t v r _ _ hvalue =>
      obtain rfl : v = .string s := hw
      cases hvalue with
      | number hn => cases hn
      | string hs => exact ⟨_, rfl, hs⟩
    | emptyObject => cases hw
    | object => cases hw
    | emptyArray => cases hw
    | array => cases hw

/-- The place of an integer. -/
theorem int_place {n : Nat} {t r : Text} {i : BitVec 64} {w : Written F}
    (h : IsWritten fl str n t w r) (hw : w.value = .int i) :
    ∃ d, t = d ++ r ∧ IsNumber fl d (.int i) := by
  cases n with
  | zero => exact h.elim
  | succ n =>
    cases h with
    | @scalar t v r _ _ hvalue =>
      obtain rfl : v = .int i := hw
      cases hvalue with
      | number hn => exact ⟨_, rfl, hn⟩
    | emptyObject => cases hw
    | object => cases hw
    | emptyArray => cases hw
    | array => cases hw

end

/-- What a key reads as is the value of its member. -/
theorem orbitObjectGet_memberOf (key : Text) (ms : List (Placed F)) :
    orbitObjectGet (objectOf (written ms)) key =
      ((memberOf key ms).map fun m => m.value.value).getD .null := by
  have hvalues : values (named key (written ms)) =
      (ms.filter fun m => m.name = key ∧ m.value.value.kind ≠ .null).map
        fun m => m.value.value := by
    induction ms with
    | nil => rfl
    | cons m ms ih =>
      have hcons : named key (written (m :: ms)) =
          if m.name = key then m.value :: named key (written ms) else named key (written ms) :=
        named_cons key m.name m.value (written ms)
      rw [hcons]
      by_cases hname : m.name = key
      · by_cases hnull : m.value.value.kind = .null
        · rw [if_pos hname, List.filter_cons_of_neg (by simp [hnull]), ← ih]
          simp [values, hnull]
        · rw [if_pos hname, List.filter_cons_of_pos (by simp [hname, hnull]), List.map_cons, ← ih]
          simp [values, hnull]
      · rw [if_neg hname, List.filter_cons_of_neg (by simp [hname]), ih]
  rw [objectOf, orbitObjectGet_storeMembers, hvalues, List.getLast?_map]
  rfl

/-! ## Strings and numbers as they are written -/

theorem jsonUtf8Emit_le (cp : Nat) : (jsonUtf8Emit cp).length ≤ 4 := by
  rw [jsonUtf8Emit_length, jsonUtf8Len]
  split_ifs <;> omega

/-- An escape has no fewer bytes behind its backslash than it stands for. -/
theorem Escape.length_add {q b q' : Text} (h : Escape jsonStride q b q') :
    b.length + q'.length ≤ q.length := by
  cases h with
  | short => simp [Nat.add_comm]
  | @unit a b c d cp k q _ _ _ hk hle =>
    cases hk
    have := jsonUtf8Emit_le cp
    simp only [List.length_drop, List.length_cons]
    omega
  | @pair a b c d hi e f g h lo q =>
    have := jsonUtf8Emit_le (surrogatePair hi lo)
    simp only [List.length_cons]
    omega

theorem Body.length_add {t s r : Text} (h : Body jsonStride t s r) :
    s.length + r.length ≤ t.length := by
  induction h with
  | done => simp
  | plain _ _ _ _ ih =>
    rw [List.length_cons, List.length_cons]
    omega
  | escape he _ ih =>
    have := Escape.length_add he
    rw [List.length_append, List.length_cons]
    omega

/-- A body without a backslash is its own text; any other one is longer. -/
theorem Body.plain_or_longer {t s r : Text} (h : Body jsonStride t s r) :
    (t = s ++ r ∧ ∀ c ∈ s, 0x20 ≤ c.toNat ∧ c ≠ '"' ∧ c ≠ '\\') ∨
      (s.length + r.length < t.length ∧ ∃ b, t = b ++ r ∧ '\\' ∈ b) := by
  induction h with
  | done => exact .inl ⟨rfl, fun c hc => absurd hc List.not_mem_nil⟩
  | @plain c q s r hlow hquote hback _ ih =>
    rcases ih with ⟨rfl, hplain⟩ | ⟨hlonger, b, rfl, hb⟩
    · exact .inl ⟨rfl, List.forall_mem_cons.mpr ⟨⟨hlow, hquote, hback⟩, hplain⟩⟩
    · refine .inr ⟨?_, c :: b, rfl, List.mem_cons_of_mem _ hb⟩
      rw [List.length_cons, List.length_cons]
      omega
  | @escape q b q' s r he hbody _ =>
    have hlength := Body.length_add (.escape he hbody)
    have hescape := Escape.length_add he
    have hrest := Body.length_add hbody
    have hlonger : (b ++ s).length + r.length < ('\\' :: q).length := by
      rw [List.length_append, List.length_cons]
      omega
    obtain ⟨w, hw⟩ := Body.suffix (.escape he hbody)
    refine .inr ⟨hlonger, w, hw.symm, ?_⟩
    cases w with
    | nil =>
      rw [List.nil_append] at hw
      rw [hw] at hlonger
      omega
    | cons c w =>
      rw [← List.head_eq_of_cons_eq hw]
      exact List.mem_cons_self

theorem decimalValue_digits {ds : Text} (h : IsInt ds) :
    decimalValue ds = Lib.Decimal.digitsValue ds ∧ decimalValue ('-' :: ds) =
      -Lib.Decimal.digitsValue ds := by
  refine ⟨?_, rfl⟩
  rw [decimalValue.eq_2]
  rintro ds' rfl
  exact absurd (h.1.2 '-' List.mem_cons_self) (by decide)

/-- An integer is written as it is printed, unless it is written as minus zero. -/
theorem int_text {fl : Floats F} {d : Text} {i : BitVec 64} (h : IsNumber fl d (.int i)) :
    intToString i.toInt = d ↔ d ≠ ['-', '0'] := by
  cases h with
  | @int sign ds hsign hds hlow hhigh =>
    rw [BitVec.toInt_ofInt_eq_self (by decide) (by norm_num; omega) (by norm_num; omega)]
    obtain ⟨hpos, hneg⟩ := decimalValue_digits hds
    have hdigits := Lib.Decimal.digits_digitsValue hds.1.1 hds.1.2 hds.2
    obtain ⟨hnonneg, -⟩ := Lib.Decimal.digitsValue_bounds hds.1.2
    rcases hsign with rfl | rfl
    · have hne : ds ≠ ['-', '0'] := by
        rintro rfl
        exact absurd (hds.1.2 '-' List.mem_cons_self) (by decide)
      rw [List.nil_append, hpos, intToString, if_neg (by omega),
        show (Lib.Decimal.digitsValue ds).natAbs = (Lib.Decimal.digitsValue ds).toNat by omega,
        hdigits]
      exact iff_of_true rfl hne
    · rw [List.singleton_append, hneg, intToString]
      by_cases hzero : Lib.Decimal.digitsValue ds = 0
      · rw [hzero] at hdigits ⊢
        rw [← hdigits]
        decide
      · have hne : ds ≠ ['0'] := by
          rintro rfl
          exact hzero rfl
        rw [if_pos (by omega), show (-Lib.Decimal.digitsValue ds).natAbs =
          (Lib.Decimal.digitsValue ds).toNat by omega, hdigits]
        exact iff_of_true rfl fun h => hne (List.tail_eq_of_cons_eq h)

/-! ## The search -/

section
variable {json key pos : Text}

theorem fieldPlace_eq (h : key.length + 4 < searchSize) : fieldPlace json key =
    match behind json (quotedPattern key) with
    | some pos => if '"' ∈ pos then some (.string pos)
      else (behind json (barePattern key)).map .bare
    | none => (behind json (barePattern key)).map .bare := by
  have hbare : barePlace json key = (behind json (barePattern key)).map .bare :=
    if_neg (by omega)
  rw [← hbare]
  exact if_neg (by omega)

theorem fieldPlace_string : fieldPlace json key = some (.string pos) ↔
    key.length + 4 < searchSize ∧ behind json (quotedPattern key) = some pos ∧ '"' ∈ pos := by
  by_cases hsize : key.length + 4 < searchSize
  · rw [fieldPlace_eq hsize]
    cases behind json (quotedPattern key) with
    | none => simp
    | some p =>
      by_cases hp : '"' ∈ p
      · simp only [if_pos hp, Option.some.injEq, FieldPlace.string.injEq, hsize, true_and]
        exact ⟨fun h => ⟨h, h ▸ hp⟩, fun h => h.1⟩
      · simp only [if_neg hp, hsize, true_and, Option.some.injEq]
        refine iff_of_false (by simp) ?_
        rintro ⟨rfl, hpos⟩
        exact hp hpos
  · rw [fieldPlace, if_pos (by omega)]
    simp [hsize]

theorem fieldPlace_bare : fieldPlace json key = some (.bare pos) ↔
    key.length + 4 < searchSize ∧ (∀ p ∈ behind json (quotedPattern key), '"' ∉ p) ∧
      behind json (barePattern key) = some pos := by
  by_cases hsize : key.length + 4 < searchSize
  · rw [fieldPlace_eq hsize]
    cases behind json (quotedPattern key) with
    | none => simp [hsize]
    | some p =>
      by_cases hp : '"' ∈ p
      · simp [hp]
      · simp [hp, hsize]
  · rw [fieldPlace, if_pos (by omega)]
    simp [hsize]

theorem strstr_none {pat t : Text} (h : strstr pat t = none) :
    ∀ u, u <:+ t → ¬ pat <+: u := by
  induction t with
  | nil =>
    intro u hu hpat
    rw [List.suffix_nil.mp hu] at hpat
    rw [strstr, if_pos (List.prefix_nil.mp hpat)] at h
    cases h
  | cons c t ih =>
    rw [strstr] at h
    split at h
    next => cases h
    next hno =>
      intro u hu
      rcases List.suffix_cons_iff.mp hu with rfl | hu
      · exact mt List.isPrefixOf_iff_prefix.mpr hno
      · exact ih h u hu

/-- Where the key has no colon behind it, it has no string behind it. -/
theorem behind_quoted_none (h : behind json (barePattern key) = none) :
    behind json (quotedPattern key) = none := by
  rw [behind, Option.map_eq_none_iff] at h ⊢
  cases hquoted : strstr (quotedPattern key) json with
  | none => rfl
  | some u =>
    obtain ⟨hpre, hsuf⟩ := JsonField.strstr_some hquoted
    have hbare : barePattern key <+: quotedPattern key :=
      ⟨['"'], by simp [barePattern, quotedPattern]⟩
    exact absurd (hbare.trans hpre) (strstr_none h u hsuf)

theorem fieldPlace_none : fieldPlace json key = none ↔
    searchSize ≤ key.length + 4 ∨ behind json (barePattern key) = none := by
  by_cases hsize : key.length + 4 < searchSize
  · rw [fieldPlace_eq hsize]
    cases hbare : behind json (barePattern key) with
    | none =>
      rw [behind_quoted_none hbare]
      simp
    | some p =>
      cases behind json (quotedPattern key) with
      | none => simp [Nat.not_le.mpr hsize]
      | some q => by_cases hq : '"' ∈ q <;> simp [hq, Nat.not_le.mpr hsize]
  · rw [fieldPlace, if_pos (by omega)]
    simp [Nat.not_lt.mp hsize]

end

/-! ## Agreement -/

section
variable {fl : Floats F} {json : Text} {ms : List (Placed F)} {key : Text}

theorem memberOf_mem {m : Placed F} (h : m ∈ memberOf key ms) : m ∈ ms :=
  List.mem_of_mem_filter (List.mem_of_getLast? h)

theorem orbitObjectGet_iff {v : OrbitValue F} (hv : v.kind ≠ .null) :
    orbitObjectGet (objectOf (written ms)) key = v ↔
      ∃ m ∈ memberOf key ms, m.value.value = v := by
  rw [orbitObjectGet_memberOf]
  cases memberOf key ms with
  | none =>
    refine iff_of_false (fun h => hv ?_) (by simp)
    rw [← h]
    rfl
  | some m => simp

/-- The text of a member, in front of what is behind it. -/
theorem text_eq {m : Placed F} {w : Text} (h : m.start = w ++ m.stop) : m.text = w := by
  rw [Placed.text, h, List.length_append, Nat.add_sub_cancel]
  exact List.take_left' rfl

/-- A string is copied from its place exactly when it is written without escapes. -/
theorem string_iff {m : Placed F} {s u : Text} (hstart : m.start = '"' :: u)
    (hs : ReadsString jsonStride u s m.stop) :
    (fieldPlace json key = some (.string u) ∧ u.dropWhile inString = '"' :: m.stop) ∧
        orbitJsonField json key = s ↔
      key.length + 4 < searchSize ∧ behind json (quotedPattern key) = some u ∧ '\\' ∉ m.text := by
  obtain ⟨s0, hbody, rfl⟩ := hs
  constructor
  · rintro ⟨⟨hplace, hdrop⟩, hfield⟩
    obtain ⟨hsize, hbehind, -⟩ := fieldPlace_string.mp hplace
    rw [orbitJsonField, hplace] at hfield
    have hu : u = cString s0 ++ '"' :: m.stop := by
      rw [← hdrop, ← hfield, List.takeWhile_append_dropWhile]
    refine ⟨hsize, hbehind, ?_⟩
    rcases Body.plain_or_longer hbody with ⟨hs0, hplain⟩ | ⟨hlonger, -⟩
    · rw [text_eq (w := '"' :: s0 ++ ['"']) (by rw [hstart, hs0]; simp)]
      intro hmem
      rw [List.mem_append, List.mem_cons, List.mem_singleton] at hmem
      rcases hmem with (h | h) | h
      · exact absurd h (by decide)
      · exact (hplain _ h).2.2 rfl
      · exact absurd h (by decide)
    · have hlength := congrArg List.length hu
      have hcut : (cString s0).length ≤ s0.length := (List.takeWhile_prefix _).length_le
      rw [List.length_append] at hlength
      omega
  · rintro ⟨hsize, hbehind, hback⟩
    rcases Body.plain_or_longer hbody with ⟨rfl, hplain⟩ | ⟨-, b, rfl, hb⟩
    · have hall : ∀ c ∈ s0, inString c = true := fun c hc => by simp [inString, (hplain c hc).2.1]
      have hself : cString s0 = s0 := cString_self fun h => absurd (hplain _ h).1 (by decide)
      have hplace := fieldPlace_string.mpr
        ⟨hsize, hbehind, List.mem_append_right _ List.mem_cons_self⟩
      refine ⟨⟨hplace, ?_⟩, ?_⟩
      · rw [List.dropWhile_append_of_pos hall, List.dropWhile_cons_of_neg (by decide)]
      · rw [orbitJsonField, hplace, hself]
        change (s0 ++ '"' :: m.stop).takeWhile inString = s0
        rw [List.takeWhile_append_of_pos hall, List.takeWhile_cons_of_neg (by decide),
          List.append_nil]
    · rw [text_eq (w := '"' :: b ++ ['"']) (by rw [hstart]; simp)] at hback
      exact absurd (List.mem_append_left _ (List.mem_cons_of_mem _ hb)) hback

theorem int_bare {d : Text} {i : BitVec 64} (h : IsNumber fl d (.int i)) :
    ∀ c ∈ d, inBareField c = true := by
  cases h with
  | @int sign ds hsign hds =>
    intro c hc
    rcases List.mem_append.mp hc with hc | hc
    · rcases hsign with rfl | rfl
      · exact absurd hc List.not_mem_nil
      · rw [List.mem_singleton.mp hc]
        decide
    · have hdigit := hds.1.2 c hc
      have hne : ∀ e, Lib.Decimal.isDigit e = false → c ≠ e := by
        rintro e he rfl
        rw [hdigit] at he
        cases he
      simp [inBareField, hne ',' (by decide), hne '\x7d' (by decide), hne '\n' (by decide)]

/-- An integer is copied from its place exactly when it ends there and is written as it is
printed. -/
theorem int_iff {m : Placed F} {i : BitVec 64} {d : Text} (hstart : m.start = d ++ m.stop)
    (hd : IsNumber fl d (.int i)) :
    (fieldPlace json key = some (.bare m.start) ∧ m.start.dropWhile inBareField = m.stop) ∧
        orbitJsonField json key = intToString i.toInt ↔
      key.length + 4 < searchSize ∧ (∀ pos ∈ behind json (quotedPattern key), '"' ∉ pos) ∧
        behind json (barePattern key) = some m.start ∧ m.text ≠ ['-', '0'] ∧
        ∀ c ∈ m.stop.head?, inBareField c = false := by
  rw [text_eq hstart, ← int_text hd]
  constructor
  · rintro ⟨⟨hplace, hdrop⟩, hfield⟩
    obtain ⟨hsize, hquoted, hbare⟩ := fieldPlace_bare.mp hplace
    rw [orbitJsonField, hplace] at hfield
    have hsplit : intToString i.toInt ++ m.stop = d ++ m.stop := by
      rw [← hstart, ← hdrop, ← hfield, List.takeWhile_append_dropWhile]
    refine ⟨hsize, hquoted, hbare, List.append_cancel_right hsplit, fun c hc => ?_⟩
    rw [← hdrop] at hc
    have hnot := List.head?_dropWhile_not inBareField m.start
    rw [hc] at hnot
    simpa using hnot
  · rintro ⟨hsize, hquoted, hbare, htext, hends⟩
    have hplace := fieldPlace_bare.mpr ⟨hsize, hquoted, hbare⟩
    have hall := int_bare hd
    have hstop : m.stop.takeWhile inBareField = [] ∧ m.stop.dropWhile inBareField = m.stop := by
      cases hs : m.stop with
      | nil => exact ⟨rfl, rfl⟩
      | cons c r =>
        have hc := hends c (by rw [hs]; rfl)
        rw [List.takeWhile_cons_of_neg (by rw [hc]; decide),
          List.dropWhile_cons_of_neg (by rw [hc]; decide)]
        exact ⟨rfl, rfl⟩
    refine ⟨⟨hplace, ?_⟩, ?_⟩
    · rw [hstart, List.dropWhile_append_of_pos hall, hstop.2]
    · rw [orbitJsonField, hplace, htext]
      change m.start.takeWhile inBareField = d
      rw [hstart, List.takeWhile_append_of_pos hall, hstop.1, List.append_nil]

/-- The search agrees with the reader, from the places of the values, exactly on a searchable
document. -/
theorem agrees_iff (h : PlacedDocument fl (ReadsString jsonStride) json ms) :
    Agrees json ms key ∧ FromValue json ms key ↔ Searchable json ms key := by
  have hstring : ∀ m ∈ memberOf key ms, ∀ s, m.value.value = .string s →
      ∃ u, m.start = '"' :: u ∧ ReadsString jsonStride u s m.stop := fun m hm s hs =>
    string_place (h.mem m (memberOf_mem hm)) hs
  have hint : ∀ m ∈ memberOf key ms, ∀ i, m.value.value = .int i →
      ∃ d, m.start = d ++ m.stop ∧ IsNumber fl d (.int i) := fun m hm i hi =>
    int_place (h.mem m (memberOf_mem hm)) hi
  constructor
  · rintro ⟨hagrees, hfrom⟩
    refine ⟨fun m hm s hs => ?_, fun m hm i hi => ?_, fun habsent => ?_⟩
    · obtain ⟨u, hstart, hreads⟩ := hstring m hm s hs
      have hplace := (hfrom.value m hm).1 s hs
      have hfield :=
        hagrees.string s ((orbitObjectGet_iff (by simp [OrbitValue.kind])).mpr ⟨m, hm, hs⟩)
      rw [hstart] at hplace ⊢
      exact (string_iff hstart hreads).mp ⟨hplace, hfield⟩
    · obtain ⟨d, hstart, hd⟩ := hint m hm i hi
      have hfield :=
        hagrees.int i ((orbitObjectGet_iff (by simp [OrbitValue.kind])).mpr ⟨m, hm, hi⟩)
      exact (int_iff hstart hd).mp ⟨(hfrom.value m hm).2 i hi, hfield⟩
    · exact fieldPlace_none.mp (hfrom.absent habsent)
  · intro hsearch
    have hs : ∀ m ∈ memberOf key ms, ∀ s, m.value.value = .string s →
        (fieldPlace json key = some (.string (m.start.drop 1)) ∧
          (m.start.drop 1).dropWhile inString = '"' :: m.stop) ∧ orbitJsonField json key = s := by
      intro m hm s hs
      obtain ⟨u, hstart, hreads⟩ := hstring m hm s hs
      have hfound := hsearch.string m hm s hs
      rw [hstart] at hfound ⊢
      exact (string_iff hstart hreads).mpr hfound
    have hi : ∀ m ∈ memberOf key ms, ∀ i, m.value.value = .int i →
        (fieldPlace json key = some (.bare m.start) ∧ m.start.dropWhile inBareField = m.stop) ∧
          orbitJsonField json key = intToString i.toInt := by
      intro m hm i hi
      obtain ⟨d, hstart, hd⟩ := hint m hm i hi
      exact (int_iff hstart hd).mpr (hsearch.int m hm i hi)
    refine ⟨⟨fun s hget => ?_, fun i hget => ?_, fun habsent => ?_⟩,
      ⟨fun m hm => ⟨fun s hv => (hs m hm s hv).1, fun i hv => (hi m hm i hv).1⟩, fun habsent => ?_⟩⟩
    · obtain ⟨m, hm, hv⟩ := (orbitObjectGet_iff (by simp [OrbitValue.kind])).mp hget
      exact (hs m hm s hv).2
    · obtain ⟨m, hm, hv⟩ := (orbitObjectGet_iff (by simp [OrbitValue.kind])).mp hget
      exact (hi m hm i hv).2
    · rw [orbitJsonField, fieldPlace_none.mpr (hsearch.absent habsent)]
    · exact fieldPlace_none.mpr (hsearch.absent habsent)

end

/-- **The search for a field agrees with the reader on every accepted document and every key, from
the places of the values, exactly when the document is searchable for the key.** -/
theorem orbitJsonField_iff (fl : Floats F) (memory : Text) :
    (∀ o, orbitJsonParse fl memory = .ok o →
      ∃ ms, PlacedDocument fl (ReadsString jsonStride) (cString memory) ms ∧
        objectOf (written ms) = o) ∧
    ∀ ms, PlacedDocument fl (ReadsString jsonStride) (cString memory) ms →
      orbitJsonParse fl memory = .ok (objectOf (written ms)) ∧
      ∀ key, (Agrees (cString memory) ms key ∧ FromValue (cString memory) ms key ↔
        Searchable (cString memory) ms key) := by
  constructor
  · intro o ho
    obtain ⟨l, hl, rfl⟩ := (orbitJsonParse_iff_written _ _ _).mp ho
    obtain ⟨ms, hms, rfl⟩ := isWrittenDocument_iff.mp hl
    exact ⟨ms, hms, rfl⟩
  · intro ms hms
    exact ⟨(orbitJsonParse_iff_written _ _ _).mpr
      ⟨_, isWrittenDocument_iff.mpr ⟨ms, hms, rfl⟩, rfl⟩, fun key => agrees_iff hms⟩

/-- `{"a": 1}`. -/
def blankBefore : Text := ['\x7b', '"', 'a', '"', ':', ' ', '1', '\x7d']

def blankBeforeMembers : List (Placed Text) :=
  [⟨['a'], .scalar (.int 1), ['1', '\x7d'], ['\x7d']⟩]

theorem blankBefore_placed :
    PlacedDocument textFloats (ReadsString jsonStride) blankBefore blankBeforeMembers := by
  have hkey : ReadsString jsonStride ['a', '"', ':', ' ', '1', '\x7d'] ['a']
      [':', ' ', '1', '\x7d'] :=
    ⟨['a'], .plain (by decide) (by decide) (by decide) .done, rfl⟩
  have hone : IsNumber textFloats ['1'] (.int 1) := isNumber_written textFloats 1
  have hvalue : IsWritten textFloats (ReadsString jsonStride) ORBIT_JSON_MAX_DEPTH ['1', '\x7d']
      (.scalar (.int 1)) ['\x7d'] :=
    WrittenOf.scalar (by decide) (by decide) (.number hone)
  exact .members .nil .nil (.last hkey .nil (.cons (.inl rfl) .nil) hvalue .nil) .nil

/-- With a blank behind the colon the field comes with the blank. -/
theorem orbitJsonField_blank :
    orbitJsonParse textFloats blankBefore = .ok (objectOf (written blankBeforeMembers)) ∧
      orbitJsonField blankBefore ['a'] = [' ', '1'] ∧
      ¬ Agrees blankBefore blankBeforeMembers ['a'] := by
  have hwritten := isWrittenDocument_iff.mpr ⟨_, blankBefore_placed, rfl⟩
  refine ⟨(orbitJsonParse_iff_written _ _ _).mpr ⟨_, hwritten, rfl⟩, by decide, fun h => ?_⟩
  exact absurd (h.int 1 rfl) (by decide)

end Runtime.BodyField
