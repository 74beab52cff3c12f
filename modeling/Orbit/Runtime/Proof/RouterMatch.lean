import Mathlib.Data.List.TakeWhile
import Orbit.Runtime.Router

/-!
# The matcher

`orbit_route_match` finds what the segments of its pattern say of the pieces of the path
(`matchFrom_spec`).
-/

namespace Runtime.Router

open Http (Text)

/-! ## Pieces -/

/-- A text that ends a piece. -/
def EndsPiece (t : Text) : Prop := t = [] ∨ ∃ u, t = '/' :: u

theorem parts_skip (b : Bool) {s : Text} (hs : ∀ c ∈ s, c ≠ '/') {t : Text} (ht : EndsPiece t) :
    parts false (s ++ t) = parts b t := by
  induction s with
  | nil =>
    rcases ht with rfl | ⟨u, rfl⟩
    · rfl
    · simp [parts]
  | cons c s ih =>
    rw [List.cons_append, parts, if_neg (hs c List.mem_cons_self)]
    exact ih fun d hd => hs d (List.mem_cons_of_mem _ hd)

theorem takeWhile_piece {s t : Text} (hs : ∀ c ∈ s, c ≠ '/') (ht : EndsPiece t) :
    (s ++ t).takeWhile (· ≠ '/') = s := by
  induction s with
  | nil => rcases ht with rfl | ⟨u, rfl⟩ <;> simp
  | cons c s ih =>
    rw [List.cons_append, List.takeWhile_cons_of_pos (by simpa using hs c List.mem_cons_self),
      ih fun d hd => hs d (List.mem_cons_of_mem _ hd)]

/-- A piece in front of a text. -/
theorem parts_piece {s t : Text} (hne : s ≠ []) (hs : ∀ c ∈ s, c ≠ '/') (ht : EndsPiece t) :
    parts true (s ++ t) = (s, trimSlashes (s ++ t)) :: parts true t := by
  cases s with
  | nil => exact absurd rfl hne
  | cons c s =>
    have hpiece := takeWhile_piece hs ht
    rw [List.cons_append] at hpiece ⊢
    rw [parts, if_neg (hs c List.mem_cons_self), if_pos rfl, hpiece,
      parts_skip true (fun d hd => hs d (List.mem_cons_of_mem _ hd)) ht]

theorem parts_skipSlashes (t : Text) : parts true (skipSlashes t) = parts true t := by
  induction t with
  | nil => rfl
  | cons c t ih =>
    rw [skipSlashes]
    by_cases hc : c = '/'
    · rw [List.dropWhile_cons_of_pos (by simpa using hc), parts, if_pos hc]
      exact ih
    · rw [List.dropWhile_cons_of_neg (by simpa using hc)]

/-- A text without slashes in front is empty, or a piece and what stands behind it. -/
theorem split_piece (t : Text) : skipSlashes t = [] ∨
    ∃ s u, skipSlashes t = s ++ u ∧ s ≠ [] ∧ (∀ c ∈ s, c ≠ '/') ∧ EndsPiece u ∧
      s = (skipSlashes t).takeWhile (· ≠ '/') ∧ u = (skipSlashes t).dropWhile (· ≠ '/') ∧
      u.length < t.length := by
  cases h : skipSlashes t with
  | nil => exact .inl rfl
  | cons c w =>
    have hne : t.dropWhile (fun c : Char => decide (c = '/')) ≠ [] := by
      rw [show t.dropWhile _ = _ from h]
      exact List.cons_ne_nil _ _
    have hc : c ≠ '/' := by
      have := List.head_dropWhile_not (fun c : Char => decide (c = '/')) hne
      simp only [show t.dropWhile _ = _ from h, List.head_cons, decide_eq_false_iff_not] at this
      exact this
    have hlen : (c :: w).length ≤ t.length := by
      rw [← h]
      exact (List.dropWhile_suffix _).length_le
    refine .inr ⟨(c :: w).takeWhile (· ≠ '/'), (c :: w).dropWhile (· ≠ '/'),
      List.takeWhile_append_dropWhile.symm, ?_, ?_, ?_, rfl, rfl, ?_⟩
    · rw [List.takeWhile_cons_of_pos (by simpa using hc)]
      exact List.cons_ne_nil _ _
    · intro d hd
      simpa using List.mem_takeWhile_imp hd
    · cases hd : (c :: w).dropWhile (· ≠ '/') with
      | nil => exact .inl rfl
      | cons d u =>
        have := List.head_dropWhile_not (fun c : Char => decide (c ≠ '/')) (l := c :: w)
          (by rw [hd]; exact List.cons_ne_nil _ _)
        simp only [hd, List.head_cons, decide_eq_false_iff_not, not_not] at this
        exact .inr ⟨u, by rw [this]⟩
    · rw [List.dropWhile_cons_of_pos (by simpa using hc)]
      have := (List.dropWhile_suffix (l := w) fun c : Char => decide (c ≠ '/')).length_le
      rw [List.length_cons] at hlen
      omega

theorem segments_nil {t : Text} (h : skipSlashes t = []) : segments t = [] := by
  rw [segments, ← parts_skipSlashes, h]
  rfl

theorem segments_cons {t s u : Text} (h : skipSlashes t = s ++ u) (hne : s ≠ [])
    (hs : ∀ c ∈ s, c ≠ '/') (hu : EndsPiece u) : segments t = Seg.of s :: segments u := by
  rw [segments, ← parts_skipSlashes, h, parts_piece hne hs hu]
  rfl

/-! ## Paths -/

theorem pathOf_skipSlashes (t : Text) : pathOf (skipSlashes t) = skipSlashes (pathOf t) := by
  induction t with
  | nil => rfl
  | cons c t ih =>
    by_cases hc : c = '/'
    · subst hc
      rw [skipSlashes, List.dropWhile_cons_of_pos (by decide), pathOf, pathOf,
        List.takeWhile_cons_of_pos (by decide), skipSlashes,
        List.dropWhile_cons_of_pos (by decide)]
      exact ih
    · by_cases hm : isQueryMark c = true
      · rw [skipSlashes, List.dropWhile_cons_of_neg (by simpa using hc), pathOf,
          List.takeWhile_cons_of_neg (by simpa using hm)]
        rfl
      · rw [skipSlashes, List.dropWhile_cons_of_neg (by simpa using hc), pathOf,
          List.takeWhile_cons_of_pos (by simpa using hm), skipSlashes,
          List.dropWhile_cons_of_neg (by simpa using hc)]

theorem pathOf_piece {t : Text} (ht : t.head? ≠ some '/') (hm : t.head?.any isQueryMark = false)
    (hne : t ≠ []) :
    ∃ q qe, t = q ++ qe ∧ q ≠ [] ∧ q = t.takeWhile (fun c => c ≠ '/' && !isQueryMark c) ∧
      qe = t.dropWhile (fun c => c ≠ '/' && !isQueryMark c) ∧ (∀ c ∈ q, c ≠ '/') ∧
      pathOf t = q ++ pathOf qe ∧ EndsPiece (pathOf qe) := by
  refine ⟨t.takeWhile fun c => c ≠ '/' && !isQueryMark c,
    t.dropWhile fun c => c ≠ '/' && !isQueryMark c,
    List.takeWhile_append_dropWhile.symm, ?_, rfl, rfl, ?_, ?_, ?_⟩
  · cases t with
    | nil => exact absurd rfl hne
    | cons c t =>
      rw [List.takeWhile_cons_of_pos]
      · exact List.cons_ne_nil _ _
      · have hc : c ≠ '/' := by simpa using ht
        have hq : isQueryMark c = false := by simpa using hm
        simp [hc, hq]
  · intro c hc
    have := List.mem_takeWhile_imp hc
    simp only [Bool.and_eq_true, decide_eq_true_eq] at this
    exact this.1
  · conv_lhs =>
      rw [← List.takeWhile_append_dropWhile (p := fun c => c ≠ '/' && !isQueryMark c) (l := t)]
    rw [pathOf, List.takeWhile_append_of_pos]
    · rfl
    · intro c hc
      have := List.mem_takeWhile_imp hc
      simp only [Bool.and_eq_true] at this
      exact this.2
  · cases hd : t.dropWhile fun c => c ≠ '/' && !isQueryMark c with
    | nil => exact .inl rfl
    | cons d u =>
      have hstop := List.head_dropWhile_not (fun c : Char => c ≠ '/' && !isQueryMark c) (l := t)
        (by rw [hd]; exact List.cons_ne_nil _ _)
      simp only [hd, List.head_cons, Bool.and_eq_false_iff, decide_eq_false_iff_not, not_not,
        Bool.not_eq_false'] at hstop
      rcases hstop with rfl | hq
      · exact .inr ⟨pathOf u, rfl⟩
      · refine .inl ?_
        rw [pathOf, List.takeWhile_cons_of_neg (by simp [hq])]

theorem trimSlashes_ne_nil {c : Char} (hc : c ≠ '/') (t : Text) : trimSlashes (c :: t) ≠ [] := by
  intro h
  rw [trimSlashes, List.reverse_eq_nil_iff, List.dropWhile_eq_nil_iff] at h
  exact hc (by simpa using h c (List.mem_reverse.mpr List.mem_cons_self))

/-- The pieces of a path from the next segment on. -/
theorem path_parts (qp : Text) :
    let t := if (skipSlashes qp).head?.any isQueryMark then [] else skipSlashes qp
    (t = [] ∧ parts true (pathOf qp) = []) ∨
      ∃ q qe, t = q ++ qe ∧ t ≠ [] ∧ q = t.takeWhile (fun c => c ≠ '/' && !isQueryMark c) ∧
        qe = t.dropWhile (fun c => c ≠ '/' && !isQueryMark c) ∧
        trimSlashes (pathOf t) ≠ [] ∧
        parts true (pathOf qp) = (q, trimSlashes (pathOf t)) :: parts true (pathOf qe) := by
  intro t
  have hparts : parts true (pathOf qp) = parts true (pathOf (skipSlashes qp)) := by
    rw [pathOf_skipSlashes, parts_skipSlashes]
  by_cases hm : (skipSlashes qp).head?.any isQueryMark = true
  · refine .inl ⟨if_pos hm, ?_⟩
    rw [hparts]
    cases ht : skipSlashes qp with
    | nil => rfl
    | cons c w =>
      have hc : isQueryMark c = true := by simpa [ht] using hm
      rw [pathOf, List.takeWhile_cons_of_neg (by simp [hc])]
      rfl
  · have ht : t = skipSlashes qp := if_neg hm
    by_cases hne : skipSlashes qp = []
    · exact .inl ⟨ht.trans hne, by rw [hparts, hne]; rfl⟩
    · have hhead : (skipSlashes qp).head? ≠ some '/' := by
        intro hs
        have := List.head_dropWhile_not (fun c : Char => decide (c = '/')) (l := qp) hne
        rw [List.head?_eq_some_head hne, Option.some_inj] at hs
        rw [decide_eq_false_iff_not] at this
        exact this hs
      obtain ⟨q, qe, heq, hq, htake, hdrop, hno, hpath, hends⟩ :=
        pathOf_piece hhead (Bool.eq_false_iff.mpr hm) hne
      rw [ht]
      refine .inr ⟨q, qe, heq, hne, htake, hdrop, ?_, ?_⟩
      · rw [hpath]
        cases q with
        | nil => exact absurd rfl hq
        | cons c q => exact trimSlashes_ne_nil (hno c List.mem_cons_self) _
      · rw [hparts, hpath, parts_piece hq hno hends]

/-! ## The matcher -/

/-- The slots hold the captures from the `n`-th on. -/
def Stored (n : Nat) (slots : Slots) (caps : List (Text × Text)) (slots' : Slots) : Prop :=
  ∀ i < ORBIT_MAX_PATH_PARAMS, slots' i = if n ≤ i then caps.getD (i - n) (slots i) else slots i

theorem Stored.nil (n : Nat) (slots : Slots) : Stored n slots [] slots := by
  intro i _
  split <;> rfl

theorem Stored.cons {n : Nat} {slots slots' : Slots} {name value : Text}
    {caps : List (Text × Text)} (h : Stored (n + 1) (store slots n name value) caps slots') :
    Stored n slots ((name, value) :: caps) slots' := by
  intro i hi
  have hstore : store slots n name value i = if i = n then (name, value) else slots i := by
    unfold store
    split
    · rfl
    · rw [if_neg (by omega)]
  rw [h i hi, hstore]
  by_cases hn : n + 1 ≤ i
  · obtain ⟨k, rfl⟩ := Nat.exists_eq_add_of_le hn
    rw [if_pos hn, if_neg (by omega), if_pos (by omega), show n + 1 + k - (n + 1) = k by omega,
      show n + 1 + k - n = k + 1 by omega, List.getD_cons_succ]
  · rw [if_neg hn]
    by_cases he : i = n
    · subst he
      rw [if_pos rfl, if_pos (Nat.le_refl _), Nat.sub_self, List.getD_cons_zero]
    · rw [if_neg he, if_neg (by omega)]

/-- What the matcher returns is what the segments of the pattern say of the pieces. -/
def Matched (result : Option Nat × Slots) (n : Nat) (slots : Slots)
    (caps : Option (List (Text × Text))) : Prop :=
  result.1 = caps.map (n + ·.length) ∧ ∀ l, caps = some l → Stored n slots l result.2

theorem Matched.none (n : Nat) (slots slots' : Slots) :
    Matched (none, slots') n slots none :=
  ⟨rfl, fun _ h => nomatch h⟩

theorem Matched.capture {result : Option Nat × Slots} {n : Nat} {slots : Slots}
    {name value : Text} {caps : Option (List (Text × Text))}
    (h : Matched result (n + 1) (store slots n name value) caps) :
    Matched result n slots (caps.map ((name, value) :: ·)) := by
  constructor
  · rw [h.1]
    cases caps with
    | none => rfl
    | some l => simp only [Option.map_some, List.length_cons]; congr 1; omega
  · intro l hl
    obtain ⟨l', rfl, rfl⟩ := Option.map_eq_some_iff.mp hl
    exact (h.2 l' rfl).cons

/-- One segment against one piece. -/
def matchStep (fuel : Nat) (u t q qe : Text) (n : Nat) (slots : Slots) : Seg → Option Nat × Slots
  | .rest name =>
    if u ≠ [] then (none, slots)
    else if trimSlashes (pathOf t) = [] then (none, slots)
    else (some (n + 1), store slots n name (trimSlashes (pathOf t)))
  | .nameless => (none, slots)
  | .capture name => matchFrom fuel u qe (n + 1) (store slots n name q)
  | .wildcard => matchFrom fuel u qe n slots
  | .literal s => if s ≠ q then (none, slots) else matchFrom fuel u qe n slots

theorem matchFrom_step {fuel : Nat} {pp qp p pe q qe t : Text} {n : Nat} {slots : Slots}
    (hpp : skipSlashes pp ≠ [])
    (hp : p = (skipSlashes pp).takeWhile (· ≠ '/'))
    (hpe : pe = (skipSlashes pp).dropWhile (· ≠ '/'))
    (ht : t = if (skipSlashes qp).head?.any isQueryMark then [] else skipSlashes qp)
    (hne : t ≠ []) (hq : q = t.takeWhile fun c => c ≠ '/' && !isQueryMark c)
    (hqe : qe = t.dropWhile fun c => c ≠ '/' && !isQueryMark c) :
    matchFrom (fuel + 1) pp qp n slots = matchStep fuel pe t q qe n slots (Seg.of p) := by
  rw [matchFrom]
  simp only [← ht, ← hp, ← hpe, ← hq, ← hqe]
  rw [if_neg (fun h => hpp h.1), if_neg (fun h => h.elim hpp hne), Seg.of]
  by_cases hrest : p.head? = some ':' ∧ p.length > 4 ∧ endsWithDots p
  · rw [if_pos hrest, if_pos hrest]
    rfl
  · rw [if_neg hrest, if_neg hrest]
    by_cases hcolon : p.head? = some ':'
    · rw [if_pos hcolon, if_pos hcolon]
      by_cases hlen : p.length < 2
      · rw [if_pos hlen, if_pos hlen]
        rfl
      · rw [if_neg hlen, if_neg hlen]
        rfl
    · rw [if_neg hcolon, if_neg hcolon]
      by_cases hbrace : p.length ≥ 2 ∧ p.head? = some '\x7b' ∧ p.getLast? = some '\x7d'
      · rw [if_pos hbrace, if_pos hbrace]
        by_cases hlen : p.length = 2
        · rw [if_pos hlen, if_pos hlen]
          rfl
        · rw [if_neg hlen, if_neg hlen]
          rfl
      · rw [if_neg hbrace, if_neg hbrace]
        by_cases hstar : p = ['*']
        · rw [if_pos hstar, if_pos hstar]
          rfl
        · rw [if_neg hstar, if_neg hstar]
          rfl

/-- What a pattern captures of a path: nothing where slashes stand behind a capture of the rest. -/
def patternCaptures (pattern path : Text) : Option (List (Text × Text)) :=
  if restThenSlash pattern then none else matchSegs (segments pattern) (parts true (pathOf path))

theorem getLast?_skipSlashes {t : Text} (h : skipSlashes t ≠ []) :
    (skipSlashes t).getLast? = t.getLast? := by
  obtain ⟨w, hw⟩ := List.dropWhile_suffix (l := t) fun c : Char => decide (c = '/')
  conv_rhs => rw [← hw]
  exact (List.getLast?_append_of_ne_nil w h).symm

theorem restThenSlash_nil {t : Text} (h : skipSlashes t = []) : restThenSlash t = false := by
  rw [restThenSlash, segments_nil h]
  rfl

/-- A segment that does not capture the rest leaves the question to what stands behind it. -/
theorem restThenSlash_cons {t s u : Text} (h : skipSlashes t = s ++ u) (hne : s ≠ [])
    (hs : ∀ c ∈ s, c ≠ '/') (hu : EndsPiece u) (hr : (Seg.of s).isRest = false) :
    restThenSlash t = restThenSlash u := by
  rw [restThenSlash, restThenSlash, segments_cons h hne hs hu, List.any_cons, hr, Bool.false_or]
  rcases eq_or_ne u [] with rfl | hune
  · rfl
  · have hskip : skipSlashes t ≠ [] := by
      rw [h]
      exact List.append_ne_nil_of_left_ne_nil hne _
    rw [← getLast?_skipSlashes hskip, h, List.getLast?_append_of_ne_nil _ hune]

theorem isRest_of_rest {s : Text} {name : Text} (h : Seg.of s = .rest name) :
    s.getLast? = some '.' := by
  rw [Seg.of] at h
  split at h
  · next hr =>
    obtain ⟨w, hw⟩ : ['.', '.', '.'] <:+ s := by simpa [endsWithDots] using hr.2.2
    rw [← hw, List.getLast?_append_of_ne_nil _ (by decide)]
    rfl
  · split at h
    · split at h <;> cases h
    · split at h
      · split at h <;> cases h
      · split at h <;> cases h

theorem matchSegs_nil_right (seg : Seg) (segs : List Seg) : matchSegs (seg :: segs) [] = none := by
  cases seg <;> cases segs <;> rfl

theorem matchSegs_rest_cons (name : Text) (seg : Seg) (segs : List Seg)
    (qs : List (Text × Text)) : matchSegs (.rest name :: seg :: segs) qs = none := by
  cases qs <;> rfl

theorem segments_ne_nil {u : Text} (hne : u ≠ []) (hl : u.getLast? ≠ some '/') :
    segments u ≠ [] := by
  intro h
  rcases split_piece u with hs | ⟨s, w, hs, hsne, hno, hw, -⟩
  · have hall : ∀ c ∈ u, c = '/' := by simpa [skipSlashes] using hs
    rw [List.getLast?_eq_some_getLast hne] at hl
    exact hl (by rw [hall _ (List.getLast_mem hne)])
  · rw [segments_cons hs hsne hno hw] at h
    exact List.cons_ne_nil _ _ h

/-- **The matcher finds what the segments of its pattern capture of the pieces of the path.** -/
theorem matchFrom_spec (fuel : Nat) (pp qp : Text) (n : Nat) (slots : Slots)
    (hf : pp.length < fuel) :
    Matched (matchFrom fuel pp qp n slots) n slots (patternCaptures pp qp) := by
  induction fuel generalizing pp qp n slots with
  | zero => exact absurd hf (Nat.not_lt_zero _)
  | succ fuel ih =>
    obtain ⟨t, ht⟩ : ∃ t, t = if (skipSlashes qp).head?.any isQueryMark then [] else
      skipSlashes qp := ⟨_, rfl⟩
    have hpath := path_parts qp
    simp only [← ht] at hpath
    rcases split_piece pp with hnil | ⟨s, u, hskip, hsne, hsno, hu, hs, hue, hlen⟩
    · -- the pattern is read: so must be the path
      rw [patternCaptures, restThenSlash_nil hnil, segments_nil hnil, matchFrom]
      simp only [← ht, hnil]
      rcases hpath with ⟨htn, hparts⟩ | ⟨q, qe, -, htne, -, -, -, hparts⟩
      · rw [if_pos ⟨trivial, htn⟩, hparts]
        exact ⟨rfl, fun l hl => by cases hl; exact Stored.nil n slots⟩
      · rw [if_neg (fun h => htne h.2), if_pos (.inl trivial), hparts]
        exact Matched.none n slots slots
    · have hpne : skipSlashes pp ≠ [] := by
        rw [hskip]
        exact List.append_ne_nil_of_left_ne_nil hsne _
      have hsegs := segments_cons hskip hsne hsno hu
      rcases hpath with ⟨htn, hparts⟩ | ⟨q, qe, -, htne, hq, hqe, hvalue, hparts⟩
      · rw [patternCaptures, hsegs, hparts, matchSegs_nil_right, ite_self, matchFrom]
        simp only [← ht]
        rw [if_neg (fun h => hpne h.1), if_pos (.inr htn)]
        exact Matched.none n slots slots
      · rw [matchFrom_step hpne hs hue ht htne hq hqe, patternCaptures, hsegs, hparts]
        have hrec := fun n slots => ih u qe n slots (by omega)
        have hnext : (Seg.of s).isRest = false → restThenSlash pp = restThenSlash u :=
          restThenSlash_cons hskip hsne hsno hu
        cases hseg : Seg.of s with
        | nameless =>
          rw [show matchSegs (.nameless :: segments u) _ = none from rfl, ite_self]
          exact Matched.none n slots slots
        | wildcard =>
          rw [hnext (by rw [hseg]; rfl)]
          exact hrec n slots
        | capture name =>
          have := (hrec (n + 1) (store slots n name q)).capture
          rw [patternCaptures, ← hnext (by rw [hseg]; rfl), apply_ite (Option.map _)] at this
          exact this
        | literal w =>
          rw [hnext (by rw [hseg]; rfl), matchStep, matchSegs]
          by_cases hw : w = q
          · rw [if_neg (not_not.mpr hw), if_pos hw]
            exact hrec n slots
          · rw [if_pos hw, if_neg hw, ite_self]
            exact Matched.none n slots slots
        | rest name =>
          rw [matchStep]
          by_cases hune : u = []
          · -- the capture of the rest ends the pattern
            have hends : restThenSlash pp = false := by
              rw [restThenSlash, ← getLast?_skipSlashes hpne, hskip, hune, List.append_nil,
                isRest_of_rest hseg, Bool.and_eq_false_iff]
              exact .inr (by decide)
            rw [if_neg (not_not.mpr hune), if_neg hvalue, hends, hune, if_neg Bool.false_ne_true]
            exact ⟨rfl, fun l hl => by cases hl; exact (Stored.nil _ _).cons⟩
          · rw [if_pos hune]
            have hnone : (if restThenSlash pp = true then none else
                matchSegs (.rest name :: segments u)
                  ((q, trimSlashes (pathOf t)) :: parts true (pathOf qe))) = none := by
              by_cases hl : u.getLast? = some '/'
              · have hends : restThenSlash pp = true := by
                  rw [restThenSlash, ← getLast?_skipSlashes hpne, hskip,
                    List.getLast?_append_of_ne_nil _ hune, hl, hsegs, hseg]
                  rfl
                exact if_pos hends
              · obtain ⟨seg, segs, hmore⟩ := List.exists_cons_of_ne_nil (segments_ne_nil hune hl)
                rw [hmore, matchSegs_rest_cons, ite_self]
            rw [hnone]
            exact Matched.none n slots slots

end Runtime.Router
