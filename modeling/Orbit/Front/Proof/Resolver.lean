import Orbit.Front.Resolver
import Orbit.Lib.Walk

/-!
# Each module of a program is included once

Paths are brought to a normal form (`normalizePath_normal`), and a path that stays inside the folder it
starts in to the spelling of the file it leads to, so that two of them have one normal form exactly
when they lead to one file (`normalizePath_eq_iff`). A path that goes up twice from where it starts
loses the way up, and a doubled slash is kept.

The resolver is a walk over the imports (`resolve_walk`), so each file that can be reached is included
once (`modules_once`). The entry program is not among the visited files: if an import comes to its
file, its declarations are included again.
-/

namespace Front

open Front.Lex (Text)

/-! ## Normal paths -/

theorem lastSlashFrom_eq (t : Text) : ∀ (i : Nat) (last : Option Nat),
    (lastSlashFrom i last t = last ∧ ∀ c ∈ t, c ≠ '/' ∧ c ≠ '\\') ∨
    ∃ a c b, t = a ++ c :: b ∧ (c = '/' ∨ c = '\\') ∧ '/' ∉ b ∧
      lastSlashFrom i last t = some (i + a.length) := by
  induction t with
  | nil => exact fun i last => .inl ⟨rfl, nofun⟩
  | cons x t ih =>
    intro i last
    rw [lastSlashFrom]
    rcases ih (i + 1) (if x = '/' ∨ x = '\\' then some i else last) with
      ⟨heq, hno⟩ | ⟨a, c, b, rfl, hc, hb, heq⟩
    · rw [heq]
      by_cases hx : x = '/' ∨ x = '\\'
      · exact .inr ⟨[], x, t, rfl, hx, fun hmem => (hno _ hmem).1 rfl, by rw [if_pos hx]; rfl⟩
      · rw [if_neg hx]
        exact .inl ⟨rfl, List.forall_mem_cons.mpr ⟨not_or.mp hx, hno⟩⟩
    · exact .inr ⟨x :: a, c, b, rfl, hc, hb, by rw [heq, List.length_cons]; congr 1; omega⟩

/-- The last slash of a text cuts it in two. -/
theorem lastIndexOfSlash_some {t : Text} {i : Nat} (h : lastIndexOfSlash t = some i) :
    ∃ a c b, t = a ++ c :: b ∧ (c = '/' ∨ c = '\\') ∧ '/' ∉ b ∧ i = a.length := by
  rcases lastSlashFrom_eq t 0 none with ⟨heq, -⟩ | ⟨a, c, b, ht, hc, hb, heq⟩
  · rw [lastIndexOfSlash, heq] at h
    cases h
  · rw [lastIndexOfSlash, heq, Option.some.injEq, Nat.zero_add] at h
    exact ⟨a, c, b, ht, hc, hb, h.symm⟩

theorem lastIndexOfSlash_none {t : Text} (h : lastIndexOfSlash t = none) : '/' ∉ t := by
  rcases lastSlashFrom_eq t 0 none with ⟨-, hno⟩ | ⟨a, c, b, -, -, -, heq⟩
  · exact fun hmem => (hno _ hmem).1 rfl
  · rw [lastIndexOfSlash, heq] at h
    cases h

/-- A path with its backslashes as slashes. -/
def slashed (p : Text) : Text := p.map fun c => if c = '\\' then '/' else c

/-- No backslash, no `/./`, and no `./` at the front. -/
structure Clean (s : Text) : Prop where
  slashes : '\\' ∉ s
  dots : ¬ ['/', '.', '/'] <:+: s
  lead : ¬ ['.', '/'] <+: s

/-- A path in normal form. -/
structure Normal (s : Text) : Prop extends Clean s where
  parents : ¬ ['/', '.', '.', '/'] <:+: s
  single : s ≠ ['.']

theorem infix_of_indexOf {needle s : Text} (h : Lib.Find.indexOf needle s ≠ none) :
    needle <:+: s := by
  obtain ⟨p, hp⟩ := Option.ne_none_iff_exists'.mp h
  exact (Lib.Find.indexOf_some hp).1.isInfix.trans (List.drop_suffix p s).isInfix

theorem indexOf_of_absent {needle s : Text} (h : ¬ needle <:+: s) :
    Lib.Find.indexOf needle s = none :=
  not_ne_iff.mp (mt infix_of_indexOf h)

theorem absent_of_indexOf {needle s : Text} (h : Lib.Find.indexOf needle s = none) :
    ¬ needle <:+: s := by
  rintro ⟨a, b, rfl⟩
  refine Lib.Find.indexOf_none h a.length (by simp) ?_
  rw [List.append_assoc, List.drop_left]
  exact List.prefix_append _ _

/-- The needle that was found stands between what is before it and what is behind it. -/
theorem cut_of_indexOf {needle s : Text} (hne : needle ≠ []) {p : Nat}
    (h : Lib.Find.indexOf needle s = some p) : ∃ a b, s = a ++ (needle ++ b) ∧ a.length = p := by
  obtain ⟨b, hb⟩ := (Lib.Find.indexOf_some h).1
  have hlen := congrArg List.length hb
  have hpos := List.length_pos_iff.mpr hne
  rw [List.length_append, List.length_drop] at hlen
  refine ⟨s.take p, b, by rw [hb, List.take_append_drop], ?_⟩
  rw [List.length_take]
  omega

/-- A round of the first loop, if there is one. -/
theorem dropDots_cases (fuel : Nat) (s : Text) :
    (dropDots (fuel + 1) s = s ∧ ¬ ['/', '.', '/'] <:+: s) ∨
    ∃ a b, s = a ++ '/' :: '.' :: '/' :: b ∧
      dropDots (fuel + 1) s = dropDots fuel (a ++ '/' :: b) := by
  rw [dropDots]
  cases hdot : Lib.Find.indexOf ['/', '.', '/'] s with
  | none => exact .inl ⟨rfl, absent_of_indexOf hdot⟩
  | some dot =>
    obtain ⟨a, b, rfl, rfl⟩ := cut_of_indexOf (List.cons_ne_nil _ _) hdot
    refine .inr ⟨a, b, rfl, ?_⟩
    dsimp only
    rw [List.take_left, ← List.drop_drop, List.drop_left]
    rfl

theorem dropDots_spec {s : Text} (hs : '\\' ∉ s) {fuel : Nat} (hfuel : s.length ≤ fuel) :
    '\\' ∉ dropDots fuel s ∧ ¬ ['/', '.', '/'] <:+: dropDots fuel s := by
  induction fuel generalizing s with
  | zero =>
    rw [List.length_eq_zero_iff.mp (Nat.le_zero.mp hfuel)]
    exact ⟨List.not_mem_nil, by decide⟩
  | succ fuel ih =>
    rcases dropDots_cases fuel s with ⟨heq, hno⟩ | ⟨a, b, rfl, heq⟩
    · rw [heq]
      exact ⟨hs, hno⟩
    · rw [heq]
      refine ih (fun hmem => hs ?_) ?_
      · simp only [List.mem_append, List.mem_cons] at hmem ⊢
        tauto
      · simp only [List.length_append, List.length_cons] at hfuel ⊢
        omega

theorem dropLead_spec (s : Text) : dropLead s <:+ s ∧ ¬ ['.', '/'] <+: dropLead s := by
  induction s using dropLead.induct with
  | case1 rest ih =>
    rw [dropLead]
    exact ⟨ih.1.trans ((List.suffix_cons _ _).trans (List.suffix_cons _ _)), ih.2⟩
  | case2 s hs =>
    rw [dropLead.eq_2 s hs]
    refine ⟨List.suffix_refl _, fun hlead => ?_⟩
    obtain ⟨r, hr⟩ := hlead
    exact hs r hr.symm

/-- Two parts that share a slash: what stands in neither does not stand in both together. -/
theorem absent_join {x r : Text} (hleft : ¬ ['/', '.', '/'] <:+: x ++ ['/'])
    (hright : ¬ ['/', '.', '/'] <:+: '/' :: r) : ¬ ['/', '.', '/'] <:+: x ++ '/' :: r := by
  rintro ⟨a, b, hab⟩
  rw [List.append_assoc] at hab
  rcases List.append_eq_append_iff.mp hab with ⟨as, rfl, has⟩ | ⟨bs, -, hbs⟩
  · -- how much of the needle stands in the left part
    rcases as with - | ⟨c, - | ⟨d, - | ⟨e, as⟩⟩⟩
    · exact hright ⟨[], b, has⟩
    · cases has
    · simp only [List.cons_append, List.nil_append, List.cons.injEq] at has
      obtain ⟨rfl, rfl, -⟩ := has
      exact hleft ⟨a, [], by simp⟩
    · simp only [List.cons_append, List.nil_append, List.cons.injEq] at has
      obtain ⟨rfl, rfl, rfl, -⟩ := has
      exact hleft ⟨a, as ++ ['/'], by simp⟩
  · exact hright ⟨bs, b, by rw [hbs, List.append_assoc]⟩

theorem not_infix_of_suffix {needle s t : Text} (h : ¬ needle <:+: s) (ht : t <:+ s) :
    ¬ needle <:+: t := fun hin => h (hin.trans ht.isInfix)

/-- What is left when the front is taken out. -/
theorem Clean.cut_front {x b : Text} (h : Clean (x ++ '/' :: '.' :: '.' :: '/' :: b)) : Clean b := by
  have hsuffix : '/' :: b <:+ x ++ '/' :: '.' :: '.' :: '/' :: b := ⟨x ++ ['/', '.', '.'], by simp⟩
  refine ⟨fun hb => h.slashes (hsuffix.subset (List.mem_cons_of_mem _ hb)),
    not_infix_of_suffix h.dots ((List.suffix_cons _ _).trans hsuffix), fun hlead => ?_⟩
  obtain ⟨t, rfl⟩ := hlead
  exact h.dots (List.IsInfix.trans ⟨[], t, rfl⟩ hsuffix.isInfix)

/-- What is left when a segment is taken out. -/
theorem Clean.cut {a x b : Text} (h : Clean (a ++ '/' :: (x ++ '/' :: '.' :: '.' :: '/' :: b))) :
    Clean (a ++ '/' :: b) := by
  have hsuffix : '/' :: b <:+ a ++ '/' :: (x ++ '/' :: '.' :: '.' :: '/' :: b) :=
    ⟨a ++ '/' :: (x ++ ['/', '.', '.']), by simp⟩
  have hprefix : a ++ ['/'] <+: a ++ '/' :: (x ++ '/' :: '.' :: '.' :: '/' :: b) :=
    ⟨x ++ '/' :: '.' :: '.' :: '/' :: b, by simp⟩
  refine ⟨fun hb => ?_, absent_join (fun hin => h.dots (hin.trans hprefix.isInfix))
    (not_infix_of_suffix h.dots hsuffix), fun hlead => ?_⟩
  · rcases List.mem_append.mp hb with hb | hb
    · exact h.slashes (List.mem_append_left _ hb)
    · exact h.slashes (hsuffix.subset hb)
  · -- the first two characters are those of the whole path
    refine h.lead ?_
    rcases Lib.Find.prefix_append_cases hlead with hlead | ⟨s, hs, -, t, ht⟩
    · exact hlead.trans (List.prefix_append _ _)
    · cases a with
      | nil =>
        rw [List.nil_append] at hs
        rw [← hs] at ht
        cases ht
      | cons c a =>
        obtain ⟨rfl, hrest⟩ := List.cons.inj hs
        rcases List.append_eq_singleton_iff.mp hrest.symm with ⟨rfl, -⟩ | ⟨rfl, -⟩
        · exact ⟨_, rfl⟩
        · exact ⟨_, rfl⟩

/-- A round of the last loop on a clean path, if there is one: a segment is taken out with the `..`
behind it, or the front of the path is. -/
theorem dropParents_cases (fuel : Nat) {s : Text} (hs : Clean s) :
    (dropParents (fuel + 1) s = s ∧ ¬ ['/', '.', '.', '/'] <:+: s) ∨
    (∃ x b, s = x ++ '/' :: '.' :: '.' :: '/' :: b ∧ '/' ∉ x ∧
      dropParents (fuel + 1) s = dropParents fuel b) ∨
    ∃ a x b, s = a ++ '/' :: (x ++ '/' :: '.' :: '.' :: '/' :: b) ∧ '/' ∉ x ∧ x ≠ ['.', '.'] ∧
      dropParents (fuel + 1) s = dropParents fuel (a ++ '/' :: b) := by
  rw [dropParents]
  cases hpos : Lib.Find.indexOf ['/', '.', '.', '/'] s with
  | none => exact .inl ⟨rfl, absent_of_indexOf hpos⟩
  | some pos =>
    obtain ⟨-, hfirst⟩ := Lib.Find.indexOf_some hpos
    obtain ⟨pre, b, rfl, rfl⟩ := cut_of_indexOf (List.cons_ne_nil _ _) hpos
    refine .inr ?_
    dsimp only
    rw [List.take_left, ← List.drop_drop, List.drop_left]
    cases hlast : lastIndexOfSlash pre with
    | none => exact .inl ⟨pre, b, rfl, lastIndexOfSlash_none hlast, rfl⟩
    | some lastSlash =>
      obtain ⟨a, c, x, rfl, hc, hx, rfl⟩ := lastIndexOfSlash_some hlast
      obtain rfl := hc.resolve_right fun hc => hs.slashes (by simp [hc])
      refine .inr ⟨a, x, b, by simp, hx, ?_, ?_⟩
      · rintro rfl
        refine hfirst a.length (by simp) ?_
        rw [List.append_assoc, List.drop_left]
        exact ⟨'.' :: '.' :: '/' :: b, rfl⟩
      · have hcut : (a ++ '/' :: x).take (a.length + 1) = a ++ ['/'] := by
          rw [← List.singleton_append, ← List.append_assoc]
          exact List.take_left' (by simp)
        dsimp only
        rw [hcut, List.append_assoc]
        rfl

theorem dropParents_spec {s : Text} (hs : Clean s) {fuel : Nat} (hfuel : s.length ≤ fuel) :
    Clean (dropParents fuel s) ∧ ¬ ['/', '.', '.', '/'] <:+: dropParents fuel s := by
  induction fuel generalizing s with
  | zero =>
    rw [List.length_eq_zero_iff.mp (Nat.le_zero.mp hfuel)] at hs ⊢
    exact ⟨hs, by decide⟩
  | succ fuel ih =>
    rcases dropParents_cases fuel hs with
      ⟨heq, hno⟩ | ⟨x, b, rfl, -, heq⟩ | ⟨a, x, b, rfl, -, -, heq⟩
    · rw [heq]
      exact ⟨hs, hno⟩
    · rw [heq]
      refine ih hs.cut_front ?_
      simp only [List.length_append, List.length_cons] at hfuel
      omega
    · rw [heq]
      refine ih hs.cut ?_
      simp only [List.length_append, List.length_cons] at hfuel ⊢
      omega

/-- What is made of a path before the last loop. -/
def loops (p : Text) : Text := dropLead (dropDots (slashed p).length (slashed p))

theorem normalizePath_loops (p : Text) : normalizePath p =
    if dropParents (loops p).length (loops p) = ['.'] then []
    else dropParents (loops p).length (loops p) := rfl

theorem loops_clean (p : Text) : Clean (loops p) := by
  have hslashes : '\\' ∉ slashed p := by
    intro hmem
    obtain ⟨c, -, hc⟩ := List.mem_map.mp hmem
    split_ifs at hc with h
    · cases hc
    · exact h hc
  obtain ⟨hno, hdots⟩ := dropDots_spec hslashes le_rfl
  obtain ⟨hsuffix, hlead⟩ := dropLead_spec (dropDots (slashed p).length (slashed p))
  exact ⟨fun h => hno (hsuffix.subset h), not_infix_of_suffix hdots hsuffix, hlead⟩

/-- A path in normal form is left as it is. -/
theorem Normal.kept {s : Text} (h : Normal s) : normalizePath s = s := by
  have hslashes : slashed s = s := by
    refine (List.map_congr_left fun c hc => if_neg ?_).trans (List.map_id' s)
    rintro rfl
    exact h.slashes hc
  have hdots : ∀ fuel, dropDots fuel s = s := fun fuel => by
    cases fuel with
    | zero => rfl
    | succ fuel => rw [dropDots, indexOf_of_absent h.dots]
  have hparents : ∀ fuel, dropParents fuel s = s := fun fuel => by
    cases fuel with
    | zero => rfl
    | succ fuel => rw [dropParents, indexOf_of_absent h.parents]
  rw [normalizePath_loops, loops, hslashes, hdots, dropLead.eq_2 s fun r hr => h.lead ⟨r, hr.symm⟩,
    hparents, if_neg h.single]

/-- **`normalizePath` brings every path to a normal form**, and leaves the paths that are in it. -/
theorem normalizePath_normal (p : Text) :
    Normal (normalizePath p) ∧ (normalizePath p = p ↔ Normal p) := by
  have hnormal : Normal (normalizePath p) := by
    obtain ⟨hclean, hparents⟩ := dropParents_spec (loops_clean p) le_rfl
    rw [normalizePath_loops]
    split_ifs with hdot
    · exact ⟨⟨List.not_mem_nil, by decide, by decide⟩, by decide, by decide⟩
    · exact ⟨hclean, hparents, hdot⟩
  exact ⟨hnormal, fun h => h ▸ hnormal, Normal.kept⟩

/-! ## The file that a path leads to -/

/-- There is no way up from where a path starts, nor from the root, the segment before a slash at the
front. -/
def goUp : List Text → Option (List Text)
  | [] => none
  | folder :: rest => if folder = [] then none else some rest

/-- Go on by a segment; `place` has the folders gone into, the last one first. -/
def goOn (place : List Text) (segment : Text) : Option (List Text) :=
  if segment = ['.'] then some place
  else if segment = ['.', '.'] then goUp place
  else some (segment :: place)

/-- Where the segments between slashes lead to from `start`. -/
def lead (start : List Text) (s : Text) : Option (List Text) := (s.splitOn '/').foldlM goOn start

/-- The segments of a path. An empty one is the root at the front, and nothing elsewhere. -/
def segments (p : Text) : List Text :=
  match (slashed p).splitOn '/' with
  | [] => []
  | front :: rest => front :: rest.filter (· ≠ [])

/-- The file that a path leads to, if it stays inside the folder it starts in. -/
def place (p : Text) : Option (List Text) := (segments p).foldlM goOn []

/-- The last segment is a name. -/
def Named (s : Text) : Prop :=
  (s.splitOn '/').getLast? ≠ some ['.'] ∧ (s.splitOn '/').getLast? ≠ some ['.', '.']

/-- A path to a file inside the folder that it starts in, with single slashes. -/
structure FilePath (p : Text) : Prop where
  inside : place p ≠ none
  named : Named (slashed p)
  single : ∀ segment ∈ ((slashed p).splitOn '/').tail, segment ≠ []

theorem FilePath.place_eq {p : Text} (h : FilePath p) : place p = lead [] (slashed p) := by
  have hsingle := h.single
  rw [place, segments, lead]
  cases hsplit : (slashed p).splitOn '/' with
  | nil => rfl
  | cons front rest =>
    rw [hsplit, List.tail_cons] at hsingle
    have hkept : rest.filter (· ≠ []) = rest :=
      List.filter_eq_self.mpr fun segment hmem => decide_eq_true (hsingle segment hmem)
    dsimp only
    rw [hkept]

theorem goOn_name {s : Text} (hdot : s ≠ ['.']) (hup : s ≠ ['.', '.']) (start : List Text) :
    goOn start s = some (s :: start) := by
  rw [goOn, if_neg hdot, if_neg hup]

theorem lead_append (start : List Text) (a b : Text) :
    lead start (a ++ '/' :: b) = (lead start a).bind fun mid => lead mid b := by
  rw [lead, List.splitOn_append_cons_self, List.foldlM_append]
  rfl

theorem lead_segment {s : Text} (h : '/' ∉ s) (start : List Text) : lead start s = goOn start s := by
  rw [lead, List.splitOn_eq_singleton h, List.foldlM_cons]
  exact bind_pure (goOn start s)

theorem named_append (a b : Text) : Named (a ++ '/' :: b) ↔ Named b := by
  have hne : b.splitOn '/' ≠ [] := List.splitOn_ne_nil _ _
  rw [Named, List.splitOn_append_cons_self, List.getLast?_append_of_ne_nil _ hne, Named]

theorem lead_dot (start : List Text) (b : Text) : lead start ('.' :: '/' :: b) = lead start b := by
  rw [← List.singleton_append, lead_append, lead_segment (by decide)]
  rfl

/-- Into a folder and up again. -/
theorem lead_up {s b : Text} (hs : '/' ∉ s) (hdot : s ≠ ['.']) (hup : s ≠ ['.', '.'])
    {start l : List Text} (h : lead start (s ++ '/' :: '.' :: '.' :: '/' :: b) = some l) :
    lead start b = some l := by
  rw [lead_append, lead_segment hs, goOn_name hdot hup, Option.bind_some,
    show '.' :: '.' :: '/' :: b = ['.', '.'] ++ '/' :: b from rfl, lead_append,
    lead_segment (by decide), goOn, if_neg (by decide), if_pos rfl, goUp] at h
  split_ifs at h with hroot
  · cases h
  · exact h

/-! ## What `normalizePath` keeps -/

/-- A text that leads where `l` says. -/
def LeadsTo (l : List Text) (s : Text) : Prop := lead [] s = some l ∧ Named s

theorem leadsTo_append {l : List Text} {a b b' : Text}
    (hlead : ∀ mid, lead mid b = some l → lead mid b' = some l) (hnamed : Named b → Named b')
    (h : LeadsTo l (a ++ '/' :: b)) : LeadsTo l (a ++ '/' :: b') := by
  obtain ⟨hto, hname⟩ := h
  rw [lead_append] at hto
  obtain ⟨mid, hmid, hrest⟩ := Option.bind_eq_some_iff.mp hto
  refine ⟨?_, (named_append a b').mpr (hnamed ((named_append a b).mp hname))⟩
  rw [lead_append, hmid]
  exact hlead mid hrest

theorem dropDots_leads {l : List Text} (fuel : Nat) {s : Text} (h : LeadsTo l s) :
    LeadsTo l (dropDots fuel s) := by
  induction fuel generalizing s with
  | zero => exact h
  | succ fuel ih =>
    rcases dropDots_cases fuel s with ⟨heq, -⟩ | ⟨a, b, rfl, heq⟩
    · rwa [heq]
    · rw [heq]
      refine ih (leadsTo_append (fun mid hmid => ?_) (fun hnamed => ?_) h)
      · rwa [lead_dot] at hmid
      · exact (named_append ['.'] b).mp hnamed

theorem dropLead_leads {l : List Text} {s : Text} (h : LeadsTo l s) : LeadsTo l (dropLead s) := by
  induction s using dropLead.induct with
  | case1 rest ih =>
    rw [dropLead]
    exact ih ⟨(lead_dot [] rest).symm.trans h.1, (named_append ['.'] rest).mp h.2⟩
  | case2 s hs => rwa [dropLead.eq_2 s hs]

theorem LeadsTo.behind_up {l : List Text} {a x b : Text} (hx : '/' ∉ x) (hdot : x ≠ ['.'])
    (hup : x ≠ ['.', '.']) (h : LeadsTo l (a ++ '/' :: (x ++ '/' :: '.' :: '.' :: '/' :: b))) :
    LeadsTo l (a ++ '/' :: b) := by
  refine leadsTo_append (fun mid hmid => lead_up hx hdot hup hmid) (fun hnamed => ?_) h
  exact (named_append ['.', '.'] b).mp ((named_append x _).mp hnamed)

theorem LeadsTo.front_up {l : List Text} {x b : Text} (hx : '/' ∉ x) (hdot : x ≠ ['.'])
    (h : LeadsTo l (x ++ '/' :: '.' :: '.' :: '/' :: b)) : LeadsTo l b := by
  obtain ⟨hto, hname⟩ := h
  refine ⟨lead_up hx hdot ?_ hto, (named_append ['.', '.'] b).mp ((named_append x _).mp hname)⟩
  rintro rfl
  rw [lead_append, lead_segment (by decide)] at hto
  cases hto

theorem dropParents_leads {l : List Text} (fuel : Nat) {s : Text} (hs : Clean s)
    (h : LeadsTo l s) : LeadsTo l (dropParents fuel s) := by
  induction fuel generalizing s with
  | zero => exact h
  | succ fuel ih =>
    rcases dropParents_cases fuel hs with
      ⟨heq, -⟩ | ⟨x, b, rfl, hx, heq⟩ | ⟨a, x, b, rfl, hx, hup, heq⟩
    · rwa [heq]
    · rw [heq]
      refine ih hs.cut_front (h.front_up hx ?_)
      rintro rfl
      exact hs.lead ⟨_, rfl⟩
    · rw [heq]
      refine ih hs.cut (h.behind_up hx ?_ hup)
      rintro rfl
      exact hs.dots ⟨a, '.' :: '.' :: '/' :: b, by simp⟩

/-! ## The name of a file -/

/-- Segments that are names lead into each other. -/
theorem goOn_names {segments : List Text} (h : ∀ s ∈ segments, s ≠ ['.'] ∧ s ≠ ['.', '.'])
    (start : List Text) : segments.foldlM goOn start = some (segments.reverse ++ start) := by
  induction segments generalizing start with
  | nil => rfl
  | cons s segments ih =>
    obtain ⟨hs, hrest⟩ := List.forall_mem_cons.mp h
    rw [List.foldlM_cons, goOn_name hs.1 hs.2]
    exact (ih hrest _).trans (by simp)

/-- A text with a slash before it has no dots between slashes. -/
theorem names_of_absent {s : Text} (hnamed : Named s) (hdots : ¬ ['/', '.', '/'] <:+: '/' :: s)
    (hparents : ¬ ['/', '.', '.', '/'] <:+: '/' :: s) :
    ∀ x ∈ s.splitOn '/', x ≠ ['.'] ∧ x ≠ ['.', '.'] := by
  induction hlen : s.length using Nat.strongRecOn generalizing s with
  | ind n ih =>
    by_cases hslash : '/' ∈ s
    · obtain ⟨x, b, rfl, hx⟩ := List.eq_append_cons_of_mem hslash
      rw [List.splitOn_append_cons_self_of_not_mem hx]
      have hsuffix : '/' :: b <:+ '/' :: (x ++ '/' :: b) := ⟨'/' :: x, rfl⟩
      refine List.forall_mem_cons.mpr ⟨⟨?_, ?_⟩, ih b.length ?_ ((named_append x b).mp hnamed)
        (not_infix_of_suffix hdots hsuffix) (not_infix_of_suffix hparents hsuffix) rfl⟩
      · rintro rfl
        exact hdots ⟨[], b, rfl⟩
      · rintro rfl
        exact hparents ⟨[], b, rfl⟩
      · rw [← hlen, List.length_append, List.length_cons]
        omega
    · rw [Named, List.splitOn_eq_singleton hslash] at hnamed
      rw [List.splitOn_eq_singleton hslash]
      simpa using hnamed

/-- A path in normal form that leads to a file spells its place. -/
theorem LeadsTo.spells {l : List Text} {s : Text} (h : LeadsTo l s) (hs : Clean s)
    (hparents : ¬ ['/', '.', '.', '/'] <:+: s) : s.splitOn '/' = l.reverse := by
  obtain ⟨hto, hnamed⟩ := h
  have hnames := names_of_absent hnamed ?_ ?_
  · rw [lead, goOn_names hnames, List.append_nil, Option.some.injEq] at hto
    rw [← hto, List.reverse_reverse]
  · rw [List.infix_cons_iff, List.cons_prefix_cons]
    exact not_or.mpr ⟨fun hfront => hs.lead hfront.2, hs.dots⟩
  · rw [List.infix_cons_iff, List.cons_prefix_cons]
    refine not_or.mpr ⟨?_, hparents⟩
    rintro ⟨-, b, rfl⟩
    have hup : lead [] (['.', '.'] ++ '/' :: b) = none := by
      rw [lead_append, lead_segment (by decide)]
      rfl
    cases hup.symm.trans hto

/-- **A path to a file is normalised to the spelling of its place.** -/
theorem normalizePath_eq {p : Text} {l : List Text} (hp : FilePath p) (h : place p = some l) :
    (normalizePath p).splitOn '/' = l.reverse := by
  have hleads : LeadsTo l (slashed p) := ⟨hp.place_eq.symm.trans h, hp.named⟩
  have hdone : LeadsTo l (dropParents (loops p).length (loops p)) :=
    dropParents_leads _ (loops_clean p) (dropLead_leads (dropDots_leads _ hleads))
  obtain ⟨hclean, hparents⟩ := dropParents_spec (loops_clean p) le_rfl
  have hdot : dropParents (loops p).length (loops p) ≠ ['.'] := fun h => hdone.2.1 (by rw [h]; rfl)
  rw [normalizePath_loops, if_neg hdot]
  exact hdone.spells hclean hparents

/-- **Modules are known by their files**: two paths with single slashes to files inside the folder they
start in are normalised to the same text exactly when they lead to the same file. -/
theorem normalizePath_eq_iff {p q : Text} (hp : FilePath p) (hq : FilePath q) :
    normalizePath p = normalizePath q ↔ place p = place q := by
  obtain ⟨l, hl⟩ := Option.ne_none_iff_exists'.mp hp.inside
  obtain ⟨m, hm⟩ := Option.ne_none_iff_exists'.mp hq.inside
  have hpl := normalizePath_eq hp hl
  have hqm := normalizePath_eq hq hm
  rw [hl, hm, Option.some.injEq]
  constructor
  · intro h
    rw [h, hqm] at hpl
    exact (List.reverse_injective hpl).symm
  · intro h
    have hp' : List.intercalate ['/'] ((normalizePath p).splitOn '/') = normalizePath p :=
      List.intercalate_splitOn '/'
    rw [← hp', hpl, h, ← hqm, List.intercalate_splitOn]

/-- Two spellings of a file. -/
theorem normalizePath_eq_iff_spelled :
    normalizePath "./lib/../a\\.\\x.orb".toList = normalizePath "a/x.orb".toList :=
  (normalizePath_eq_iff ⟨by decide, ⟨by decide, by decide⟩, by decide⟩
    ⟨by decide, ⟨by decide, by decide⟩, by decide⟩).mpr (by decide)

example : normalizePath "../../x.orb".toList = "x.orb".toList := by decide

example : normalizePath "a//x.orb".toList = "a//x.orb".toList := by decide

/-! ## The walk over the imports -/

section
variable (host : Host) (calls : Nat)

/-- The declarations of a program that are no imports. -/
def own (decls : List ASTNode) : List ASTNode := decls.filter fun d => (importPath? d).isNone

/-- The files that a program imports, in order. -/
def imported (decls : List ASTNode) (basePath : Text) : List Text :=
  decls.filterMap fun d => (importPath? d).map (importedFile host (getDir basePath))

/-- The declarations of a file and what its parser reports, if it can be read. -/
def moduleAt (path : Text) : Option (List ASTNode × List ParserDiagnostic) :=
  if host.read path = [] then none
  else
    match parseSource calls (host.read path) with
    | some (.program decls, parser) => some (decls, parser.diagnostics)
    | _ => none

def importsOf (path : Text) : Option (List Text) :=
  (moduleAt host calls path).map fun m => imported host m.1 path

def ownOf (path : Text) : List ASTNode :=
  ((moduleAt host calls path).map fun m => own m.1).getD []

/-- A file that can be read, of which the parser reports nothing. -/
def Sound (path : Text) : Prop := ∃ m, moduleAt host calls path = some m ∧ m.2 = []

/-- A file that the imports of a program come to. -/
def Reached (decls : List ASTNode) (basePath path : Text) : Prop :=
  ∃ file ∈ imported host decls basePath,
    Relation.ReflTransGen (Lib.Walk.Edge (importsOf host calls)) file path

end

theorem parseSource_program {calls : Nat} {source : Text} {r : ASTNode × Parser}
    (h : parseSource calls source = some r) : ∃ decls, r.1 = .program decls := by
  obtain ⟨⟨decls, p⟩, -, hr⟩ := Option.bind_eq_some_iff.mp h
  cases hr
  exact ⟨decls, rfl⟩

section
variable {host : Host} {calls : Nat}

/-- What `resolver` comes to be when the files `new` are visited: their declarations are `ds`, up to
their order, and it reports `errors`. -/
structure Visits (host : Host) (calls : Nat) (ds : List ASTNode) (new errors : List Text) : Prop where
  once : ds.Perm (new.flatMap (ownOf host calls))
  reports : errors = [] ↔ ∀ path ∈ new, Sound host calls path

theorem Visits.nil : Visits host calls [] [] [] := ⟨.nil, by simp⟩

theorem Visits.append {ds ds' : List ASTNode} {new new' errors errors' : List Text}
    (h : Visits host calls ds new errors) (h' : Visits host calls ds' new' errors') :
    Visits host calls (ds ++ ds') (new ++ new') (errors ++ errors') where
  once := List.flatMap_append ▸ h.once.append h'.once
  reports := by
    rw [List.append_eq_nil_iff, h.reports, h'.reports]
    exact List.forall_mem_append.symm

/-- A file that cannot be read. -/
theorem Visits.unread {path error : Text} (h : moduleAt host calls path = none) :
    Visits host calls [] [path] [error] where
  once := by simp [ownOf, h]
  reports := by simp [Sound, h]

theorem sound_iff {path : Text} {m : List ASTNode × List ParserDiagnostic}
    (h : moduleAt host calls path = some m) : Sound host calls path ↔ m.2 = [] := by
  refine ⟨fun hsound => ?_, fun hnone => ⟨m, h, hnone⟩⟩
  obtain ⟨m', hm', hnone⟩ := hsound
  rwa [← Option.some.inj (h.symm.trans hm')] at hnone

/-- A file that is read, before its imports. -/
theorem Visits.file {path : Text} {m : List ASTNode × List ParserDiagnostic}
    (h : moduleAt host calls path = some m) :
    Visits host calls (own m.1) [path] (m.2.map (diagnosticLine path)) where
  once := by simp [ownOf, h]
  reports := by simp [sound_iff h]

theorem moduleAt_none (hparse : ∀ path, host.read path ≠ [] →
      ∃ r, parseSource calls (host.read path) = some r) {path : Text}
    (h : moduleAt host calls path = none) : host.read path = [] := by
  by_contra hread
  obtain ⟨⟨ast, parser⟩, hr⟩ := hparse path hread
  obtain ⟨decls, rfl⟩ := parseSource_program hr
  rw [moduleAt, if_neg hread, hr] at h
  cases h

theorem moduleAt_some {path : Text} {m : List ASTNode × List ParserDiagnostic}
    (h : moduleAt host calls path = some m) : host.read path ≠ [] ∧
      ∃ parser, parseSource calls (host.read path) = some (.program m.1, parser) ∧
        parser.diagnostics = m.2 := by
  rw [moduleAt] at h
  split_ifs at h with hread
  split at h
  · next decls parser hr =>
    cases h
    exact ⟨hread, parser, hr, rfl⟩
  · cases h

theorem resolveDecl_none
    {inside : ModuleResolver → ASTNode → Text → Option (ASTNode × ModuleResolver)} {baseDir : Text}
    {acc : List ASTNode} {resolver : ModuleResolver} {decl : ASTNode}
    (h : importPath? decl = none) :
    resolveDecl host calls inside baseDir (acc, resolver) decl = some (acc ++ [decl], resolver) := by
  rw [resolveDecl, h]

/-- What the resolver does between two lists of visited files, if the walk goes from one to the
other. -/
def Resolves (host : Host) (calls depth : Nat) : Prop :=
  ∀ (resolver : ModuleResolver) (decls : List ASTNode) (basePath : Text) (visited : List Text),
    Lib.Walk.walk (importsOf host calls) depth resolver.visited (imported host decls basePath) =
      some visited →
    ∃ ds sub new errors, visited = resolver.visited ++ new ∧
      resolveModuleAST host calls depth resolver (.program decls) basePath =
        some (.program ds, ⟨visited, resolver.errors ++ errors⟩) ∧
      ds.Perm (own decls ++ sub) ∧ Visits host calls sub new errors

/-- An import is resolved as the walk enters its file. -/
theorem resolveDecl_enter (hparse : ∀ path, host.read path ≠ [] →
      ∃ r, parseSource calls (host.read path) = some r) {depth : Nat}
    (ih : Resolves host calls depth) {baseDir path : Text} {a : List ASTNode}
    {resolver : ModuleResolver} {decl : ASTNode} {visited : List Text}
    (hpath : importPath? decl = some path)
    (h : Lib.Walk.enter (importsOf host calls) (Lib.Walk.walk (importsOf host calls) depth)
      resolver.visited (importedFile host baseDir path) = some visited) :
    ∃ sub new errors, visited = resolver.visited ++ new ∧
      resolveDecl host calls (resolveModuleAST host calls depth) baseDir (a, resolver) decl =
        some (a ++ sub, ⟨visited, resolver.errors ++ errors⟩) ∧
      Visits host calls sub new errors := by
  rw [Lib.Walk.enter] at h
  rw [resolveDecl, hpath]
  dsimp only
  rw [isVisited, List.contains_eq_mem]
  split_ifs at h with hmem
  · cases h
    exact ⟨[], [], [], by simp, by simp [hmem], .nil⟩
  · rw [decide_eq_false hmem]
    cases hm : moduleAt host calls (importedFile host baseDir path) with
    | none =>
      rw [importsOf, hm] at h
      cases h
      refine ⟨[], _, ["Could not read imported module: ".toList ++ stripQuotes path], rfl, ?_,
        .unread hm⟩
      rw [if_pos (moduleAt_none hparse hm), List.append_nil]
      rfl
    | some m =>
      rw [importsOf, hm] at h
      obtain ⟨hread, parser, hr, hdiag⟩ := moduleAt_some hm
      obtain ⟨ds, sub, new, errors, hnew, hrun, hperm, hvisits⟩ :=
        ih ⟨_, resolver.errors ++ m.2.map (diagnosticLine (importedFile host baseDir path))⟩ _ _ _ h
      have hall := (Visits.file hm).append hvisits
      refine ⟨ds, _, _, hnew.trans (List.append_assoc _ _ _), ?_,
        ⟨hperm.trans hall.once, hall.reports⟩⟩
      rw [if_neg Bool.false_ne_true, if_neg hread, hr, ← List.append_assoc]
      simp only [Option.bind_eq_bind, Option.bind_some, hdiag]
      rw [hrun]
      rfl

/-- The declarations of a program are resolved as the walk enters the files of its imports. -/
theorem resolve_decls (hparse : ∀ path, host.read path ≠ [] →
      ∃ r, parseSource calls (host.read path) = some r) {depth : Nat}
    (ih : Resolves host calls depth) {basePath : Text} (decls : List ASTNode) :
    ∀ (acc : List ASTNode) (resolver : ModuleResolver) (visited : List Text),
      (imported host decls basePath).foldlM (Lib.Walk.enter (importsOf host calls)
        (Lib.Walk.walk (importsOf host calls) depth)) resolver.visited = some visited →
      ∃ ds sub new errors, visited = resolver.visited ++ new ∧
        decls.foldlM (resolveDecl host calls (resolveModuleAST host calls depth) (getDir basePath))
          (acc, resolver) = some (acc ++ ds, ⟨visited, resolver.errors ++ errors⟩) ∧
        ds.Perm (own decls ++ sub) ∧ Visits host calls sub new errors := by
  induction decls with
  | nil =>
    intro acc resolver visited h
    cases h
    exact ⟨[], [], [], [], by simp, by simp, .nil, .nil⟩
  | cons decl decls ihd =>
    intro acc resolver visited h
    cases hpath : importPath? decl with
    | none =>
      have hsame : imported host (decl :: decls) basePath = imported host decls basePath :=
        List.filterMap_cons_none (by rw [hpath]; rfl)
      rw [hsame] at h
      obtain ⟨ds, sub, new, errors, hnew, hrun, hperm, hvisits⟩ := ihd (acc ++ [decl]) resolver _ h
      refine ⟨decl :: ds, sub, new, errors, hnew, ?_, ?_, hvisits⟩
      · rw [List.foldlM_cons, resolveDecl_none hpath]
        exact hrun.trans (by rw [List.append_assoc]; rfl)
      · rw [own, List.filter_cons_of_pos (by rw [hpath]; rfl)]
        exact hperm.cons decl
    | some path =>
      have hnext : imported host (decl :: decls) basePath =
          importedFile host (getDir basePath) path :: imported host decls basePath :=
        List.filterMap_cons_some (by rw [hpath]; rfl)
      rw [hnext, List.foldlM_cons] at h
      obtain ⟨mid, henter, hrest⟩ := Option.bind_eq_some_iff.mp h
      obtain ⟨sub, new, errors, rfl, hstep, hvisits⟩ :=
        resolveDecl_enter hparse ih (a := acc) hpath henter
      obtain ⟨ds, sub', new', errors', rfl, hrun, hperm, hvisits'⟩ :=
        ihd (acc ++ sub) ⟨_, resolver.errors ++ errors⟩ _ hrest
      refine ⟨sub ++ ds, sub ++ sub', new ++ new', errors ++ errors', List.append_assoc _ _ _, ?_, ?_,
        hvisits.append hvisits'⟩
      · rw [List.foldlM_cons, hstep]
        exact hrun.trans (by simp only [List.append_assoc])
      · rw [own, List.filter_cons_of_neg (by rw [hpath]; simp)]
        exact (hperm.append_left sub).trans
          (by simpa only [List.append_assoc, own] using List.perm_append_comm_assoc sub _ sub')

/-- **The resolver walks over the imports.** -/
theorem resolve_walk (hparse : ∀ path, host.read path ≠ [] →
      ∃ r, parseSource calls (host.read path) = some r) (depth : Nat) :
    Resolves host calls depth := by
  induction depth with
  | zero =>
    intro resolver decls basePath visited h
    cases h
  | succ depth ih =>
    intro resolver decls basePath visited h
    rw [Lib.Walk.walk] at h
    obtain ⟨ds, sub, new, errors, hnew, hrun, hperm, hvisits⟩ :=
      resolve_decls hparse ih decls [] resolver visited h
    refine ⟨ds, sub, new, errors, hnew, ?_, hperm, hvisits⟩
    rw [resolveModuleAST, hrun]
    rfl

/-- A file that can be read is one of the files. -/
theorem Host.mem_files {host : Host} {path : Text} (h : host.read path ≠ []) :
    (path, host.read path) ∈ host.files := by
  cases hlookup : host.files.lookup path with
  | none => exact absurd (by rw [Host.read, hlookup]; rfl) h
  | some text =>
    obtain ⟨l, r, heq, -⟩ := List.lookup_eq_some_iff.mp hlookup
    rw [Host.read, hlookup, heq]
    exact List.mem_append_right _ List.mem_cons_self

/-- **Each file that the imports come to is included once**, and the resolver comes to its end whatever
they are: a cycle, the entry file or a file that is not there. It reports nothing exactly when every
file can be read and is parsed without a diagnostic. The entry program is included, and once more if
its file is among those that are reached. -/
theorem modules_once (host : Host) (calls depth : Nat) (decls : List ASTNode) (basePath : Text)
    (hparse : ∀ f ∈ host.files, ∃ r, parseSource calls f.2 = some r)
    (hdepth : host.files.length < depth) :
    ∃ ds resolver, resolveModuleAST host calls depth initModuleResolver (.program decls) basePath =
        some (.program ds, resolver) ∧
      resolver.visited.Nodup ∧
      (∀ path, path ∈ resolver.visited ↔ Reached host calls decls basePath path) ∧
      ds.Perm (own decls ++ resolver.visited.flatMap (ownOf host calls)) ∧
      (resolver.errors = [] ↔ ∀ path ∈ resolver.visited, Sound host calls path) := by
  have hnodes : ∀ path, importsOf host calls path ≠ none → path ∈ host.files.map Prod.fst := by
    intro path hne
    obtain ⟨m, hm⟩ := Option.ne_none_iff_exists'.mp (mt Option.map_eq_none_iff.mpr hne)
    exact List.mem_map_of_mem (Host.mem_files (moduleAt_some hm).1)
  have hahead : Lib.Walk.ahead (host.files.map Prod.fst) [] < depth := by
    refine Nat.lt_of_le_of_lt (List.length_filter_le _ _) ?_
    rwa [List.length_map]
  obtain ⟨visited, hwalk⟩ := Lib.Walk.walk_ends hnodes hahead (imported host decls basePath)
  have hread : ∀ path, host.read path ≠ [] → ∃ r, parseSource calls (host.read path) = some r :=
    fun path h => hparse (path, host.read path) (Host.mem_files h)
  obtain ⟨ds, sub, new, errors, hnew, hrun, hperm, hvisits⟩ :=
    resolve_walk hread depth initModuleResolver decls basePath visited hwalk
  rw [initModuleResolver, List.nil_append] at hnew
  subst hnew
  exact ⟨ds, _, hrun, (Lib.Walk.walked_walk hwalk).nodup .nil, Lib.Walk.mem_walk_iff hwalk,
    hperm.trans (hvisits.once.append_left _), hvisits.reports⟩

/-- Two files that import each other. -/
def cycleHost : Host where
  argv0 := []
  files :=
    [("a.orb".toList, "import \"./b.orb\"".toList), ("b.orb".toList, "import \"a.orb\"".toList)]

theorem modules_once_cycle : ∃ ds resolver, resolveModuleAST cycleHost 9 3 initModuleResolver
    (.program [.importStmt "\"./a.orb\"", .useStmt "m"]) "main.orb".toList =
      some (.program ds, resolver) ∧ resolver.visited.Nodup := by
  have hfiles : ∀ f ∈ cycleHost.files, (parseSource 9 f.2).isSome = true := by decide +kernel
  obtain ⟨ds, resolver, hrun, hnodup, -⟩ := modules_once cycleHost 9 3
    [.importStmt "\"./a.orb\"", .useStmt "m"] "main.orb".toList
    (fun f hf => Option.isSome_iff_exists.mp (hfiles f hf)) (by decide)
  exact ⟨ds, resolver, hrun, hnodup⟩

end

end Front
