import Orbit.Runtime.JsonGrammar
import Orbit.Runtime.Proof.JsonWritten

/-!
# Repeated keys of a document

An accepted document is a written one with its repetitions resolved (`isDocument_iff`). What a key
reads as is the last member of its name that is not `null` (`orbitObjectGet_storeMembers`), so a
repeated key reads as if its last member stood alone unless that member is a `null` behind a value
(`orbitJsonParse_repeated_iff`).
-/

namespace Runtime.Json

variable {F : Type}

/-! ## What is written and what is kept -/

section
variable {fl : Floats F} {str : Text → Text → Text → Prop}

section
variable {val : Text → OrbitValue F → Text → Prop} {wr : Text → Written F → Text → Prop}
variable (hval : ∀ t v r, val t v r ↔ ∃ w, wr t w r ∧ w.value = v)
include hval

theorem isMembers_iff {o o' : OrbitObject F} {p r : Text} :
    IsMembers str val o p o' r ↔ ∃ ms, WrittenMembers str wr p ms r ∧ storeMembers o ms = o' := by
  constructor
  · intro h
    induction h with
    | last hk hw hx hv hz =>
      obtain ⟨w, hwr, rfl⟩ := (hval _ _ _).mp hv
      exact ⟨_, .last hk hw hx hwr hz, rfl⟩
    | more hk hw hx hv hz ha _ ih =>
      obtain ⟨w, hwr, rfl⟩ := (hval _ _ _).mp hv
      obtain ⟨ms, hms, rfl⟩ := ih
      exact ⟨_, .more hk hw hx hwr hz ha hms, rfl⟩
  · intro ⟨ms, h, ho⟩
    induction h generalizing o with
    | last hk hw hx hwr hz =>
      obtain rfl := ho
      exact .last hk hw hx ((hval _ _ _).mpr ⟨_, hwr, rfl⟩) hz
    | more hk hw hx hwr hz ha _ ih =>
      exact .more hk hw hx ((hval _ _ _).mpr ⟨_, hwr, rfl⟩) hz ha (ih ho)

theorem isElements_iff {kind : Option Kind} {l : OrbitList F} {p r : Text} :
    IsElements val kind p l r ↔ ∃ ws, WrittenElements wr kind p ws r ∧ listOf ws = l := by
  constructor
  · intro h
    induction h with
    | last hx hv he hz =>
      obtain ⟨w, hwr, rfl⟩ := (hval _ _ _).mp hv
      exact ⟨_, .last hx hwr he hz, rfl⟩
    | more hx hv he hz _ ih =>
      obtain ⟨w, hwr, rfl⟩ := (hval _ _ _).mp hv
      obtain ⟨ws, hws, rfl⟩ := ih
      exact ⟨_, .more hx hwr he hz hws, rfl⟩
  · intro ⟨ws, h, hl⟩
    induction h generalizing l with
    | last hx hwr he hz =>
      obtain rfl := hl
      exact .last hx ((hval _ _ _).mpr ⟨_, hwr, rfl⟩) he hz
    | more hx hwr he hz _ ih =>
      obtain rfl := hl
      exact .more hx ((hval _ _ _).mpr ⟨_, hwr, rfl⟩) he hz (ih rfl)

end

/-- A value of the grammar is a written one with its repetitions resolved. -/
theorem isValue_iff (n : Nat) (t : Text) (v : OrbitValue F) (r : Text) :
    IsValue fl str n t v r ↔ ∃ w, IsWritten fl str n t w r ∧ w.value = v := by
  induction n generalizing t v r with
  | zero => exact ⟨fun h => h.elim, fun ⟨_, h, _⟩ => h.elim⟩
  | succ n ih =>
    constructor
    · intro h
      cases h with
      | null =>
        refine ⟨.scalar .null, .scalar ?_ ?_ .null, rfl⟩ <;> simp [OrbitValue.kind]
      | true =>
        refine ⟨.scalar (.bool true), .scalar ?_ ?_ .true, rfl⟩ <;> simp [OrbitValue.kind]
      | false =>
        refine ⟨.scalar (.bool false), .scalar ?_ ?_ .false, rfl⟩ <;> simp [OrbitValue.kind]
      | number hn =>
        refine ⟨.scalar v, .scalar ?_ ?_ (.number hn), rfl⟩ <;> cases hn <;> simp [OrbitValue.kind]
      | string hs =>
        refine ⟨.scalar (.string _), .scalar ?_ ?_ (.string hs), rfl⟩ <;> simp [OrbitValue.kind]
      | emptyObject hw => exact ⟨_, .emptyObject hw, rfl⟩
      | object hw hm =>
        obtain ⟨ms, hms, rfl⟩ := (isMembers_iff ih).mp hm
        exact ⟨_, .object hw hms, rfl⟩
      | emptyArray hw => exact ⟨_, .emptyArray hw, rfl⟩
      | array hl =>
        obtain ⟨ws, hws, rfl⟩ := (isElements_iff ih).mp hl
        exact ⟨_, .array hws, rfl⟩
    · intro ⟨w, h, hv⟩
      subst hv
      cases h with
      | scalar hobject hlist h =>
        cases h with
        | null => exact .null
        | true => exact .true
        | false => exact .false
        | number hn => exact .number hn
        | string hs => exact .string hs
        | emptyObject => exact absurd rfl hobject
        | object => exact absurd rfl hobject
        | emptyArray => exact absurd rfl hlist
        | array => exact absurd rfl hlist
      | emptyObject hw => exact .emptyObject hw
      | object hw hms => exact .object hw ((isMembers_iff ih).mpr ⟨_, hms, rfl⟩)
      | emptyArray hw => exact .emptyArray hw
      | array hws => exact .array ((isElements_iff ih).mpr ⟨_, hws, rfl⟩)

/-- A scalar is no object. -/
theorem IsWritten.object_members {n : Nat} {t r : Text} {w : Written F} {o : OrbitObject F}
    (h : IsWritten fl str n t w r) (hw : w.value = .object o) :
    ∃ ms, w = .object ms ∧ objectOf ms = o := by
  cases w with
  | scalar v =>
    cases n with
    | zero => exact h.elim
    | succ n =>
      cases h with
      | scalar hobject _ _ => exact absurd (congrArg OrbitValue.kind hw) hobject
  | object ms => exact ⟨ms, rfl, by cases hw; rfl⟩
  | array l => cases hw

theorem isDocument_iff {t : Text} {o : OrbitObject F} :
    IsDocument fl str t o ↔ ∃ ms, IsWrittenDocument fl str t ms ∧ objectOf ms = o := by
  constructor
  · rintro ⟨u, r, hu, hv, hr⟩
    obtain ⟨w, hw, hvalue⟩ := (isValue_iff _ _ _ _).mp hv
    obtain ⟨ms, rfl, ho⟩ := hw.object_members hvalue
    exact ⟨ms, ⟨u, r, hu, hw, hr⟩, ho⟩
  · rintro ⟨ms, ⟨u, r, hu, hw, hr⟩, rfl⟩
    exact ⟨u, r, hu, (isValue_iff _ _ _ _).mpr ⟨_, hw, rfl⟩, hr⟩

end

/-! ## What a key reads as -/

theorem orbitObjectGet_set (k : Text) (v : OrbitValue F) (key : Text) : (o : OrbitObject F) →
    orbitObjectGet (orbitObjectSet o k v) key = if k = key then v else orbitObjectGet o key
  | .nil => rfl
  | .cons l w rest => by
    have ih := orbitObjectGet_set k v key rest
    by_cases hl : l = k
    · subst hl
      simp only [orbitObjectSet, if_true, orbitObjectGet]
      split <;> rfl
    · simp only [orbitObjectSet, if_neg hl, orbitObjectGet, ih]
      by_cases hkey : k = key
      · subst hkey
        simp [hl]
      · simp [hkey]

theorem kind_eq_null {v : OrbitValue F} : v.kind = .null ↔ v = .null := by
  cases v <;> simp [OrbitValue.kind]

theorem orbitObjectGet_storeMember (o : OrbitObject F) (k : Text) (v : OrbitValue F)
    (key : Text) :
    orbitObjectGet (storeMember o k v) key =
      if k = key ∧ v.kind ≠ .null then v else orbitObjectGet o key := by
  by_cases hv : v.kind = .null
  · obtain rfl := kind_eq_null.mp hv
    simp [storeMember, OrbitValue.kind]
  · have hstore : storeMember o k v = orbitObjectSet o k v := by
      cases v <;> simp_all [storeMember, OrbitValue.kind]
    simp [hstore, orbitObjectGet_set, hv]

/-- The values among written ones: those that are not `null`. -/
def values (l : List (Written F)) : List (OrbitValue F) :=
  (l.map Written.value).filter (·.kind ≠ .null)

theorem named_cons (key k : Text) (w : Written F) (ms : List (Text × Written F)) :
    named key ((k, w) :: ms) = if k = key then w :: named key ms else named key ms := by
  by_cases hk : k = key <;> simp [named, hk]

theorem mem_names_iff {key : Text} {ms : List (Text × Written F)} :
    key ∈ ms.map Prod.fst ↔ named key ms ≠ [] := by
  induction ms with
  | nil => simp [named]
  | cons m ms ih =>
    obtain ⟨k, w⟩ := m
    by_cases hk : k = key
    · simp [named_cons, hk]
    · simp only [List.map_cons, List.mem_cons, named_cons, if_neg hk, ih]
      simp [Ne.symm hk]

/-- **The last value of a name is what its key reads as**, `null`s aside. -/
theorem orbitObjectGet_storeMembers (o : OrbitObject F) (ms : List (Text × Written F))
    (key : Text) :
    orbitObjectGet (storeMembers o ms) key =
      (values (named key ms)).getLast?.getD (orbitObjectGet o key) := by
  induction ms generalizing o with
  | nil => rfl
  | cons m ms ih =>
    obtain ⟨k, w⟩ := m
    rw [storeMembers, ih, orbitObjectGet_storeMember, named_cons]
    by_cases hk : k = key
    · by_cases hw : w.value.kind = .null
      · simp [hk, hw, values]
      · simp only [hk, hw, values, if_true, List.map_cons, ne_eq, not_false_eq_true, and_self,
          decide_true, List.filter_cons_of_pos, List.getLast?_cons, Option.getD_some]
    · simp [hk]

theorem named_onlyLast (key : Text) (ms : List (Text × Written F)) :
    named key (onlyLast key ms) = (named key ms).getLast?.toList := by
  induction ms with
  | nil => rfl
  | cons m ms ih =>
    obtain ⟨k, w⟩ := m
    rw [onlyLast, named_cons]
    by_cases hk : k = key
    · cases hms : named key ms with
      | nil => simp [mem_names_iff, hk, named_cons, ih, hms]
      | cons w' ws => simp [mem_names_iff, hk, ih, hms]
    · simp [hk, named_cons, ih]

/-- No value is `null`, so reading one tells it from none. -/
theorem values_getD_inj {l l' : List (Written F)}
    (h : (values l).getLast?.getD .null = (values l').getLast?.getD .null) :
    (values l).getLast? = (values l').getLast? := by
  have hkind : ∀ {l : List (Written F)} {v}, (values l).getLast? = some v → v ≠ .null := by
    rintro l v hv rfl
    have := List.mem_of_getLast? hv
    simp [values, OrbitValue.kind] at this
  cases hl : (values l).getLast? with
  | none =>
    cases hl' : (values l').getLast? with
    | none => rfl
    | some v =>
      rw [hl, hl'] at h
      exact absurd h.symm (hkind hl')
  | some v =>
    cases hl' : (values l').getLast? with
    | none =>
      rw [hl, hl'] at h
      exact absurd h (hkind hl)
    | some v' =>
      rw [hl, hl'] at h
      exact congrArg some h

theorem values_getLast? (l : List (Written F)) :
    (values l.getLast?.toList).getLast? = (values l).getLast? ↔
      ¬ (l.getLast?.map (·.value.kind) = some .null ∧ ∃ w ∈ l, w.value.kind ≠ .null) := by
  induction l using List.reverseRecOn with
  | nil => simp [values]
  | append_singleton l w _ =>
    by_cases hw : w.value.kind = .null
    · have hnone : (values l).getLast? = none ↔ ∀ x ∈ l, x.value.kind = .null := by
        simp [values]
      have hvalues : values (l ++ [w]) = values l := by simp [values, hw]
      simp only [List.getLast?_append, List.getLast?_singleton, Option.some_or, hvalues,
        Option.toList_some, Option.map_some, hw]
      rw [show values [w] = [] by simp [values, hw], List.getLast?_nil, eq_comm, hnone]
      simp [hw]
    · simp [values, hw]

/-- The accepted texts are those of the written documents. -/
theorem orbitJsonParse_iff_written (fl : Floats F) (memory : Text) (o : OrbitObject F) :
    orbitJsonParse fl memory = .ok o ↔
      ∃ ms, IsWrittenDocument fl (ReadsString jsonStride) (cString memory) ms ∧
        objectOf ms = o := by
  rw [← isDocument_iff]
  exact jsonDocument_iff (followsString forward_jsonStride) (nul_not_mem_cString memory)

/-- **A repeated key reads as if its last member stood alone**, in every object of an accepted
document, exactly when that member is no `null` behind a value. -/
theorem orbitJsonParse_repeated_iff (fl : Floats F) (memory : Text) :
    (∀ o, orbitJsonParse fl memory = .ok o →
      ∃ ms, IsWrittenDocument fl (ReadsString jsonStride) (cString memory) ms) ∧
    ∀ ms, IsWrittenDocument fl (ReadsString jsonStride) (cString memory) ms →
      orbitJsonParse fl memory = .ok (objectOf ms) ∧
      ∀ ms', Written.HasObject (.object ms) ms' → ∀ key,
        (orbitObjectGet (objectOf ms') key = orbitObjectGet (objectOf (onlyLast key ms')) key ↔
          ¬ NullAfterValue key ms') := by
  constructor
  · intro o ho
    obtain ⟨ms, hms, -⟩ := (orbitJsonParse_iff_written _ _ _).mp ho
    exact ⟨ms, hms⟩
  · intro ms hms
    refine ⟨(orbitJsonParse_iff_written _ _ _).mpr ⟨ms, hms, rfl⟩, fun ms' _ key => ?_⟩
    rw [objectOf, objectOf, orbitObjectGet_storeMembers, orbitObjectGet_storeMembers,
      named_onlyLast, NullAfterValue, ← values_getLast?]
    constructor
    · exact fun h => (values_getD_inj h).symm
    · exact fun h => by rw [h]

/-- `{"a":1,"a":null}`. -/
def nullAfterOne : Text :=
  ['\x7b', '"', 'a', '"', ':', '1', ',', '"', 'a', '"', ':', 'n', 'u', 'l', 'l', '\x7d']

theorem nullAfterOne_written :
    IsWrittenDocument textFloats (ReadsString jsonStride) nullAfterOne
      [(['a'], .scalar (.int 1)), (['a'], .scalar .null)] := by
  have hkey (r : Text) : ReadsString jsonStride ('a' :: '"' :: r) ['a'] r :=
    ⟨['a'], .plain (by decide) (by decide) (by decide) .done, rfl⟩
  have hone : IsNumber textFloats ['1'] (.int 1) :=
    isNumber_written textFloats 1
  have hfirst (r : Text) : IsWritten textFloats (ReadsString jsonStride) ORBIT_JSON_MAX_DEPTH
      ('1' :: r) (.scalar (.int 1)) r :=
    WrittenOf.scalar (by decide) (by decide) (.number hone)
  have hsecond (r : Text) : IsWritten textFloats (ReadsString jsonStride) ORBIT_JSON_MAX_DEPTH
      ('n' :: 'u' :: 'l' :: 'l' :: r) (.scalar .null) r := by
    have hnull : Lib.Text.chars "null" ++ r = 'n' :: 'u' :: 'l' :: 'l' :: r := by
      rw [Lib.Text.chars]
      rfl
    rw [← hnull]
    exact WrittenOf.scalar (by decide) (by decide) .null
  refine ⟨nullAfterOne, [], .nil, .object .nil ?_, .nil⟩
  exact .more (hkey _) .nil .nil (hfirst _) .nil .nil (.last (hkey _) .nil .nil (hsecond _) .nil)

/-- In `{"a":1,"a":null}` the key `a` reads as 1, and as `null` if its last member stands alone. -/
theorem orbitJsonParse_null_repeated :
    ¬ ∀ (memory : Text) (ms : List (Text × Written Text)),
      IsWrittenDocument textFloats (ReadsString jsonStride) (cString memory) ms →
      orbitJsonParse textFloats memory = .ok (objectOf ms) →
      ∀ ms', Written.HasObject (.object ms) ms' → ∀ key, 1 < (named key ms').length →
        orbitObjectGet (objectOf ms') key = orbitObjectGet (objectOf (onlyLast key ms')) key := by
  intro h
  have hparse := (orbitJsonParse_iff_written textFloats nullAfterOne _).mpr
    ⟨_, nullAfterOne_written, rfl⟩
  have hread := h nullAfterOne _ nullAfterOne_written hparse _ .here ['a'] (by decide)
  have hone : orbitObjectGet (objectOf [(['a'], .scalar (.int 1)), (['a'], .scalar .null)]) ['a'] =
      (.int 1 : OrbitValue Text) := rfl
  rw [hone] at hread
  cases hread

end Runtime.Json
