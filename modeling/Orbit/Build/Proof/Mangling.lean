import Orbit.Build.Generic

/-!
# Mangled names tell types apart when the type names do

Mangling a type leaves its names in the order of its Polish word, each with an underscore behind it
(`mangleTypeArg_spelling`); brackets and commas are gone. So two types that differ have different
names if the word can be read back from them, and if it cannot there are two types with one name
(`distinct_iff`).
-/

namespace Build.Mangling

open Lib Front

/-! ## The spelling -/

/-- The text behind a type name: no more of the name, and no arguments. -/
def Ended (r : Text) : Prop := ∀ c ∈ r.head?, isTypeNameChar c = false ∧ c ≠ '<'

def IsName (name : Text) : Prop := name ≠ [] ∧ ∀ c ∈ name, isTypeNameChar c = true

/-- The names of a type are names. -/
def Named (w : List (Text × Nat)) : Prop := ∀ s ∈ w, IsName s.1

theorem takeWhile_name {name r : Text} (hname : IsName name)
    (hr : ∀ c ∈ r.head?, isTypeNameChar c = false) :
    (name ++ r).takeWhile isTypeNameChar = name := by
  rw [List.takeWhile_append_of_pos hname.2]
  cases r with
  | nil => exact List.append_nil _
  | cons c r => rw [List.takeWhile_cons_of_neg (by rw [hr c rfl]; decide), List.append_nil]

/-- A name ends where its characters do. -/
theorem name_append_inj {n n' r r' : Text} (hn : IsName n) (hn' : IsName n')
    (hr : ∀ c ∈ r.head?, isTypeNameChar c = false) (hr' : ∀ c ∈ r'.head?, isTypeNameChar c = false)
    (h : n ++ r = n' ++ r') : n = n' ∧ r = r' := by
  have hnames := congrArg (List.takeWhile isTypeNameChar) h
  rw [takeWhile_name hn hr, takeWhile_name hn' hr'] at hnames
  subst hnames
  exact ⟨rfl, List.append_cancel_left h⟩

theorem not_name_lt (r : Text) : ∀ c ∈ ('<' :: r).head?, isTypeNameChar c = false := by
  intro c hc
  obtain rfl := Option.some.inj hc
  decide

theorem Ended.not_name {r : Text} (h : Ended r) : ∀ c ∈ r.head?, isTypeNameChar c = false :=
  fun c hc => (h c hc).1

theorem ended_rest (ts : List TypeText) (r : Text) : Ended (spellingRest ts ++ r) := by
  intro c hc
  cases ts with
  | nil =>
    obtain rfl := Option.some.inj hc
    decide
  | cons t ts =>
    rw [spellingRest] at hc
    obtain rfl := Option.some.inj hc
    decide

mutual

/-- A type can be read from its spelling, and the text behind it is left. -/
theorem spelling_append_inj : ∀ (t t' : TypeText) (r r' : Text), Named t.word → Named t'.word →
    Ended r → Ended r' → spelling t ++ r = spelling t' ++ r' → t = t' ∧ r = r'
  | .node n [], .node n' [], r, r', hw, hw', hr, hr', h => by
    obtain ⟨rfl, hrest⟩ := name_append_inj (hw _ List.mem_cons_self) (hw' _ List.mem_cons_self)
      hr.not_name hr'.not_name h
    exact ⟨rfl, hrest⟩
  | .node n [], .node n' (t' :: ts'), r, r', hw, hw', hr, hr', h => by
    rw [spelling, spelling, List.append_assoc, List.cons_append] at h
    obtain ⟨-, rfl⟩ := name_append_inj (hw _ List.mem_cons_self) (hw' _ List.mem_cons_self)
      hr.not_name (not_name_lt _) h
    exact absurd rfl (hr '<' rfl).2
  | .node n (t :: ts), .node n' [], r, r', hw, hw', hr, hs, h => by
    rw [spelling, spelling, List.append_assoc, List.cons_append] at h
    obtain ⟨-, rfl⟩ := name_append_inj (hw _ List.mem_cons_self) (hw' _ List.mem_cons_self)
      (not_name_lt _) hs.not_name h
    exact absurd rfl (hs '<' rfl).2
  | .node n (t :: ts), .node n' (t' :: ts'), r, r', hw, hw', hr, hr', h => by
    rw [spelling, spelling, List.append_assoc, List.append_assoc, List.cons_append,
      List.cons_append] at h
    obtain ⟨rfl, hargs⟩ := name_append_inj (hw _ List.mem_cons_self) (hw' _ List.mem_cons_self)
      (not_name_lt _) (not_name_lt _) h
    have hnamed : Named (RoseTree.words (t :: ts)) := fun s hs => hw s (List.mem_cons_of_mem _ hs)
    have hnamed' : Named (RoseTree.words (t' :: ts')) :=
      fun s hs => hw' s (List.mem_cons_of_mem _ hs)
    have hfirst := List.tail_eq_of_cons_eq hargs
    rw [List.append_assoc, List.append_assoc] at hfirst
    obtain ⟨rfl, hrest⟩ := spelling_append_inj t t' _ _
      (fun s hs => hnamed s (List.mem_append_left _ hs))
      (fun s hs => hnamed' s (List.mem_append_left _ hs)) (ended_rest ts r) (ended_rest ts' r')
      hfirst
    obtain ⟨rfl, hbehind⟩ := spellingRest_append_inj ts ts' r r'
      (fun s hs => hnamed s (List.mem_append_right _ hs))
      (fun s hs => hnamed' s (List.mem_append_right _ hs)) hrest
    exact ⟨rfl, hbehind⟩

theorem spellingRest_append_inj : ∀ (ts ts' : List TypeText) (r r' : Text),
    Named (RoseTree.words ts) → Named (RoseTree.words ts') →
    spellingRest ts ++ r = spellingRest ts' ++ r' → ts = ts' ∧ r = r'
  | [], [], r, r', hw, hw', h => ⟨rfl, List.append_cancel_left h⟩
  | [], t' :: ts', r, r', hw, hw', h => by
    rw [spellingRest, spellingRest] at h
    exact absurd (List.head_eq_of_cons_eq h) (by decide)
  | t :: ts, [], r, r', hw, hw', h => by
    rw [spellingRest, spellingRest] at h
    exact absurd (List.head_eq_of_cons_eq h) (by decide)
  | t :: ts, t' :: ts', r, r', hw, hw', h => by
    simp only [spellingRest, List.cons_append, List.append_assoc, List.cons.injEq, true_and] at h
    obtain ⟨rfl, hrest⟩ := spelling_append_inj t t' _ _
      (fun s hs => hw s (List.mem_append_left _ hs))
      (fun s hs => hw' s (List.mem_append_left _ hs)) (ended_rest ts r) (ended_rest ts' r') h
    obtain ⟨rfl, hbehind⟩ := spellingRest_append_inj ts ts' r r'
      (fun s hs => hw s (List.mem_append_right _ hs))
      (fun s hs => hw' s (List.mem_append_right _ hs)) hrest
    exact ⟨rfl, hbehind⟩

end

/-- Different types are spelled differently. -/
theorem spelling_inj {t t' : TypeText} (hw : Named t.word) (hw' : Named t'.word)
    (h : spelling t = spelling t') : t = t' := by
  refine (spelling_append_inj t t' [] [] hw hw' ?_ ?_ (by rw [h])).1
  · exact fun c hc => absurd hc (Option.not_mem_none c)
  · exact fun c hc => absurd hc (Option.not_mem_none c)

/-! ## Mangling -/

/-- One character of the loop. -/
def mangleStep (out : Text) (c : Char) : Text :=
  if isTypeNameChar c then out ++ [c]
  else if out ≠ [] ∧ out.getLast? ≠ some '_' then out ++ ['_'] else out

theorem foldl_name {name : Text} (h : ∀ c ∈ name, isTypeNameChar c = true) (out : Text) :
    name.foldl mangleStep out = out ++ name := by
  induction name generalizing out with
  | nil => rw [List.foldl_nil, List.append_nil]
  | cons c name ih =>
    rw [List.foldl_cons, mangleStep, if_pos (h c List.mem_cons_self),
      ih fun c hc => h c (List.mem_cons_of_mem _ hc), List.append_assoc, List.singleton_append]

theorem mangleStep_closed {out : Text} {c : Char} (hout : out ≠ [])
    (hc : isTypeNameChar c = false) : mangleStep out c = closed out := by
  rw [mangleStep, if_neg (by rw [hc]; decide), closed]
  split
  next h => rw [if_neg h.2]
  next h => rw [if_pos (by_contra fun hlast => h ⟨hout, hlast⟩)]

theorem getLast?_closed (out : Text) : (closed out).getLast? = some '_' := by
  rw [closed]
  split
  next h => exact h
  next => exact List.getLast?_concat

theorem closed_ne_nil (out : Text) : closed out ≠ [] := fun h => by
  have hlast := getLast?_closed out
  rw [h] at hlast
  exact absurd hlast (by decide)

@[simp] theorem closed_closed (out : Text) : closed (closed out) = closed out :=
  if_pos (getLast?_closed out)

theorem closed_append (out : Text) {name : Text} (h : name ≠ []) :
    closed (out ++ name) = out ++ closed name := by
  rw [closed, closed, List.getLast?_append_of_ne_nil _ h]
  split
  next => rfl
  next => exact List.append_assoc _ _ _

@[simp] theorem joined_nil : joined [] = [] := rfl

@[simp] theorem joined_cons (s : Text × Nat) (w : List (Text × Nat)) :
    joined (s :: w) = closed s.1 ++ joined w := rfl

@[simp] theorem joined_append (w v : List (Text × Nat)) : joined (w ++ v) = joined w ++ joined v :=
  List.flatMap_append

mutual

/-- The loop over a type puts its names behind what is there. -/
theorem foldl_spelling : ∀ (t : TypeText) (out : Text), Named t.word →
    (spelling t).foldl mangleStep out ≠ [] ∧
      closed ((spelling t).foldl mangleStep out) = out ++ joined t.word
  | .node n [], out, hw => by
    obtain ⟨hne, hname⟩ := hw (n, 0) List.mem_cons_self
    rw [spelling, foldl_name hname, closed_append out hne]
    exact ⟨List.append_ne_nil_of_right_ne_nil _ hne, by rw [RoseTree.word]; simp⟩
  | .node n (t :: ts), out, hw => by
    obtain ⟨hne, hname⟩ := hw (n, ts.length + 1) List.mem_cons_self
    have hargs : Named (RoseTree.words (t :: ts)) := fun s hs => hw s (List.mem_cons_of_mem _ hs)
    obtain ⟨hfirst, hclosed⟩ := foldl_spelling t (closed (out ++ n)) fun s hs =>
      hargs s (List.mem_append_left _ hs)
    obtain ⟨hrest, hlast⟩ := foldl_spellingRest ts _
      (fun s hs => hargs s (List.mem_append_right _ hs)) hfirst
    rw [spelling, List.foldl_append, foldl_name hname, List.foldl_cons,
      mangleStep_closed (List.append_ne_nil_of_right_ne_nil _ hne) (by decide), List.foldl_append]
    refine ⟨by rw [← hlast]; exact closed_ne_nil _, ?_⟩
    rw [hlast, hrest, hclosed, closed_append out hne, RoseTree.word]
    simp

/-- The loop over the other arguments ends with an underscore. -/
theorem foldl_spellingRest : ∀ (ts : List TypeText) (out : Text), Named (RoseTree.words ts) →
    out ≠ [] → (spellingRest ts).foldl mangleStep out = closed out ++ joined (RoseTree.words ts) ∧
      closed ((spellingRest ts).foldl mangleStep out) = (spellingRest ts).foldl mangleStep out
  | [], out, hw, hout => by
    rw [spellingRest, List.foldl_cons, List.foldl_nil, mangleStep_closed hout (by decide)]
    simp
  | t :: ts, out, hw, hout => by
    obtain ⟨hfirst, hclosed⟩ := foldl_spelling t (closed out) fun s hs =>
      hw s (List.mem_append_left _ hs)
    obtain ⟨hrest, hlast⟩ := foldl_spellingRest ts _
      (fun s hs => hw s (List.mem_append_right _ hs)) hfirst
    rw [spellingRest, List.foldl_cons, mangleStep_closed hout (by decide), List.foldl_cons,
      mangleStep_closed (closed_ne_nil _) (by decide), closed_closed, List.foldl_append]
    refine ⟨?_, hlast⟩
    rw [hrest, hclosed, RoseTree.words_cons, joined_append, List.append_assoc]

end

theorem mangleTypeArg_eq (s : Text) : mangleTypeArg (String.ofList s) =
    String.ofList (if (s.foldl mangleStep []).getLast? = some '_'
      then (s.foldl mangleStep []).dropLast else s.foldl mangleStep []) := by
  rw [mangleTypeArg, String.toList_ofList]
  rfl

theorem dropLast_closed (out : Text) :
    (if out.getLast? = some '_' then out.dropLast else out) = (closed out).dropLast := by
  rw [closed]
  split
  next => rfl
  next => exact List.dropLast_concat.symm

/-- **A mangled name is the names of the type, with the last underscore left out.** -/
theorem mangleTypeArg_spelling {t : TypeText} (h : Named t.word) :
    mangleTypeArg (String.ofList (spelling t)) = String.ofList (joined t.word).dropLast := by
  rw [mangleTypeArg_eq, dropLast_closed, (foldl_spelling t [] h).2, List.nil_append]

/-- The underscore that was left out is the last character. -/
theorem dropLast_joined {t : TypeText} (h : Named t.word) :
    (joined t.word).dropLast ++ ['_'] = joined t.word := by
  have hclosed := (foldl_spelling t [] h).2
  rw [List.nil_append] at hclosed
  exact List.dropLast_append_getLast? '_' (by rw [← hclosed]; exact getLast?_closed _)

theorem fnInstanceName_spelling (generic : String) {ts : List TypeText}
    (h : Named (RoseTree.words ts)) :
    (fnInstanceName generic (ts.map fun t => String.ofList (spelling t))).toList ++ ['_'] =
      generic.toList ++ '_' :: joined (RoseTree.words ts) := by
  induction ts generalizing generic with
  | nil => rfl
  | cons t ts ih =>
    have ht : Named t.word := fun s hs => h s (List.mem_append_left _ hs)
    have hrest := ih (generic ++ "_" ++ mangleTypeArg (String.ofList (spelling t))) fun s hs =>
      h s (List.mem_append_right _ hs)
    rw [List.map_cons]
    refine hrest.trans ?_
    rw [mangleTypeArg_spelling ht, String.toList_append, String.toList_append, String.toList_ofList,
      RoseTree.words_cons, joined_append, ← dropLast_joined ht]
    simp

/-! ## Telling names apart -/

theorem isTypeNameChar_of_isAlphaNumeric {c : Char} (h : Lex.isAlphaNumeric c = true) :
    isTypeNameChar c = true := by
  simp only [Lex.isAlphaNumeric, Lex.isAlpha, Lex.isDigit, Bool.or_eq_true, Bool.and_eq_true,
    decide_eq_true_eq] at h
  delta isTypeNameChar Char.isAlphanum Char.isAlpha Char.isUpper Char.isLower Char.isDigit
  simp only [Bool.or_eq_true, Bool.and_eq_true, decide_eq_true_eq]
  tauto

theorem isName_of_isIdentifier {name : Text} (h : isIdentifier name = true) : IsName name := by
  cases name with
  | nil => exact absurd h (by decide)
  | cons c name =>
    simp only [isIdentifier, Bool.and_eq_true, List.all_eq_true] at h
    refine ⟨List.cons_ne_nil _ _, fun d hd => isTypeNameChar_of_isAlphaNumeric ?_⟩
    rcases List.mem_cons.mp hd with rfl | hd
    · rw [Lex.isAlphaNumeric, h.1, Bool.true_or]
    · exact h.2 d hd

theorem TypeNames.named (names : TypeNames) {w : List (Text × Nat)}
    (h : ∀ s ∈ w, s ∈ names.names) : Named w :=
  fun s hs => isName_of_isIdentifier (names.identifiers s (h s hs))

theorem TypeNames.writes_words (names : TypeNames) {ts : List TypeText}
    (h : ∀ t ∈ ts, names.Writes t) : ∀ s ∈ RoseTree.words ts, s ∈ names.names := by
  induction ts with
  | nil => exact fun s hs => absurd hs List.not_mem_nil
  | cons t ts ih =>
    intro s hs
    rcases List.mem_append.mp hs with hs | hs
    · exact h t List.mem_cons_self s hs
    · exact ih (fun t ht => h t (List.mem_cons_of_mem _ ht)) s hs

/-- Two rows of names that read the same differ first where they can be swapped. -/
theorem exists_swap {w w' : List (Text × Nat)} (hne : w ≠ w') (h : joined w = joined w') :
    ∃ u v v', w = u ++ v ∧ w' = u ++ v' ∧ v ++ v' ≠ v' ++ v ∧ joined v = joined v' := by
  induction w generalizing w' with
  | nil =>
    cases w' with
    | nil => exact absurd rfl hne
    | cons s' w' =>
      exact absurd (List.append_eq_nil_iff.mp h.symm).1 (closed_ne_nil _)
  | cons s w ih =>
    cases w' with
    | nil => exact absurd (List.append_eq_nil_iff.mp h).1 (closed_ne_nil _)
    | cons s' w' =>
      by_cases hs : s = s'
      · subst hs
        obtain ⟨u, v, v', hw, hw', hswap, hjoined⟩ := ih (fun hw => hne (by rw [hw]))
          (List.append_cancel_left h)
        exact ⟨s :: u, v, v', by rw [hw]; rfl, by rw [hw']; rfl, hswap, hjoined⟩
      · refine ⟨[], s :: w, s' :: w', rfl, rfl, fun hswap => hs ?_, h⟩
        exact List.head_eq_of_cons_eq hswap

section
variable (names : TypeNames)

/-- Names that cannot be told apart give two types of one name. -/
theorem TypeNames.Distinct.readable (h : names.Distinct) : names.Readable := by
  intro w w' hw hw' heq
  by_contra hne
  obtain ⟨u, v, v', rfl, rfl, hswap, hjoined⟩ := exists_swap hne heq
  obtain ⟨t, t', front, back, ht, ht', hfront, hback⟩ :=
    RoseTree.exists_words ['m', 'a', 'p'] ['i', 'n', 't'] v v'
  have hv : ∀ s ∈ v, s ∈ names.names := fun s hs => hw s (List.mem_append_right _ hs)
  have hv' : ∀ s ∈ v', s ∈ names.names := fun s hs => hw' s (List.mem_append_right _ hs)
  have hwrites : ∀ m, (∀ s ∈ m, s ∈ v ∨ s ∈ v') → ∀ s ∈ front ++ (m ++ back), s ∈ names.names := by
    intro m hm s hs
    rcases List.mem_append.mp hs with hs | hs
    · rw [hfront s hs]
      exact names.map_mem
    · rcases List.mem_append.mp hs with hs | hs
      · exact (hm s hs).elim (hv s) (hv' s)
      · rw [hback s hs]
        exact names.int_mem
  have hone : names.Writes t := by
    rw [TypeNames.Writes, ht]
    exact hwrites _ fun s hs => List.mem_append.mp hs
  have hother : names.Writes t' := by
    rw [TypeNames.Writes, ht']
    exact hwrites _ fun s hs => (List.mem_append.mp hs).symm
  have hsame : joined t.word = joined t'.word := by
    simp only [ht, ht', joined_append, hjoined]
  have htext := h.args t t' hone hother (by
    rw [mangleTypeArg_spelling (names.named hone), mangleTypeArg_spelling (names.named hother),
      hsame])
  have hword := congrArg RoseTree.word (spelling_inj (names.named hone) (names.named hother) htext)
  rw [ht, ht'] at hword
  exact hswap (List.append_cancel_right (List.append_cancel_left hword))

/-- Where the names can be told apart, so can the types. -/
theorem TypeNames.Readable.distinct (h : names.Readable) : names.Distinct := by
  have hwords : ∀ ts ts', (∀ t ∈ ts, names.Writes t) → (∀ t ∈ ts', names.Writes t) →
      joined (RoseTree.words ts) = joined (RoseTree.words ts') → ts = ts' := by
    intro ts ts' hts hts' heq
    exact RoseTree.words_injective (h _ _ (names.writes_words hts) (names.writes_words hts') heq)
  constructor
  · intro t t' ht ht' heq
    have hjoined : joined t.word = joined t'.word := by
      rw [mangleTypeArg_spelling (names.named ht), mangleTypeArg_spelling (names.named ht')] at heq
      rw [← dropLast_joined (names.named ht), ← dropLast_joined (names.named ht'),
        String.ofList_injective heq]
    have hrow := hwords [t] [t'] (by simpa using ht) (by simpa using ht') (by simpa using hjoined)
    rw [List.head_eq_of_cons_eq hrow]
  · intro generic ts ts' hts hts' heq
    have hjoined := fnInstanceName_spelling generic (names.named (names.writes_words hts))
    rw [heq, fnInstanceName_spelling generic (names.named (names.writes_words hts'))] at hjoined
    have hrest := List.tail_eq_of_cons_eq (List.append_cancel_left hjoined)
    rw [hwords ts ts' hts hts' hrest.symm]

end

/-- **Mangled names tell types apart exactly when the type names can be told apart one behind the
other.** -/
theorem distinct_iff (names : TypeNames) : names.Distinct ↔ names.Readable :=
  ⟨fun h => h.readable, fun h => h.distinct⟩

/-- A program with a model of the name `list_string`. -/
def listStringNames : TypeNames where
  names := [("int".toList, 0), ("map".toList, 2), ("list".toList, 1), ("string".toList, 0),
    ("list_string".toList, 0)]
  identifiers := by decide
  int_mem := by decide
  map_mem := by decide

theorem listStringNames_not_distinct : ¬ listStringNames.Distinct := fun h =>
  absurd (h.args (.node "list".toList [.node "string".toList []]) (.node "list_string".toList [])
    (by decide) (by decide) (by decide)) (by decide)

/-! ## Names without underscores -/

theorem closed_plain {name : Text} (h : '_' ∉ name) : closed name = name ++ ['_'] :=
  if_neg fun hlast => h (List.mem_of_getLast? hlast)

theorem takeWhile_plain {name : Text} (h : '_' ∉ name) (r : Text) :
    (name ++ '_' :: r).takeWhile (· ≠ '_') = name := by
  have hname : ∀ c ∈ name, decide (c ≠ '_') = true := by
    intro c hc
    refine decide_eq_true fun heq => h ?_
    rwa [← heq]
  rw [List.takeWhile_append_of_pos hname, List.takeWhile_cons_of_neg (by decide), List.append_nil]

theorem joined_plain {s s' : Text × Nat} {w w' : List (Text × Nat)} (hs : '_' ∉ s.1)
    (hs' : '_' ∉ s'.1) (h : joined (s :: w) = joined (s' :: w')) :
    s.1 = s'.1 ∧ joined w = joined w' := by
  rw [joined_cons, joined_cons, closed_plain hs, closed_plain hs', List.append_assoc,
    List.append_assoc] at h
  have hname := congrArg (List.takeWhile (· ≠ '_')) h
  rw [List.singleton_append, List.singleton_append, takeWhile_plain hs, takeWhile_plain hs']
    at hname
  rw [hname] at h
  exact ⟨hname, List.append_cancel_left (List.append_cancel_left h)⟩

/-- The names can be told apart if none contains an underscore and none is written with different
numbers of arguments. -/
theorem readable_of_plain {names : TypeNames} (hplain : ∀ s ∈ names.names, '_' ∉ s.1)
    (hcount : ∀ s ∈ names.names, ∀ s' ∈ names.names, s.1 = s'.1 → s = s') : names.Readable := by
  intro w w' hw hw' h
  induction w generalizing w' with
  | nil =>
    cases w' with
    | nil => rfl
    | cons s' w' => exact absurd (List.append_eq_nil_iff.mp h.symm).1 (closed_ne_nil _)
  | cons s w ih =>
    cases w' with
    | nil => exact absurd (List.append_eq_nil_iff.mp h).1 (closed_ne_nil _)
    | cons s' w' =>
      have hs := hw s List.mem_cons_self
      have hs' := hw' s' List.mem_cons_self
      obtain ⟨hname, hrest⟩ := joined_plain (hplain s hs) (hplain s' hs') h
      rw [hcount s hs s' hs' hname, ih w' (fun s hs => hw s (List.mem_cons_of_mem _ hs))
        (fun s hs => hw' s (List.mem_cons_of_mem _ hs)) hrest]

end Build.Mangling
