import Orbit.Runtime.Kynx
import Orbit.Runtime.Router

/-!
# Route limits and the router

The matcher of the route limits reads a pattern and a path slash by slash (`kynxPathMatch_eq`): the
path is to have the segments of the pattern in the same places, the empty ones included. The router
skips empty segments and lets a tail parameter take several, so a request that it routes is charged
if and only if its path is `lined` up with the pattern (`charged_iff`).
-/

namespace Runtime.Kynx

open Http (Text)
open Router (Request orbitRouteMatch)

/-! ## Segments in the same places -/

def isMark (c : Char) : Bool := c = ':' || c = '\x7b'

/-- What stands before the parameter of a segment. -/
def opening (p : Text) : Text := p.takeWhile fun c => !isMark c

/-- A segment of the pattern is the segment of the path, up to a parameter if it has one. -/
def agrees (p q : Text) : Bool := if opening p = p then p = q else (opening p).isPrefixOf q

/-- A last segment of the pattern that takes what is left of the path. -/
def starred (p : Text) : Bool := opening p = p && p.getLast? = some '*'

/-- The segments of a path stand where those of the pattern do. A parameter at the end needs a
text. -/
def lined : List Text → List Text → Bool
  | [p], q :: qs =>
    starred p && p.dropLast.isPrefixOf q ||
      decide (qs = []) && agrees p q && decide (opening p = q → opening p = p)
  | p :: ps, q :: qs => agrees p q && lined ps qs
  | _, _ => false

/-- The segments of a text, the empty ones included. -/
def slashed (t : Text) : List Text := t.splitOn '/'

theorem slashed_nil : slashed [] = [[]] := rfl

theorem slashed_slash (t : Text) : slashed ('/' :: t) = [] :: slashed t := by
  unfold slashed
  rw [List.splitOn_eq_splitOnP, List.splitOnP_cons_eq_if_modifyHead]
  rfl

theorem slashed_ne_nil (t : Text) : slashed t ≠ [] := by
  unfold slashed
  rw [List.splitOn_eq_splitOnP]
  exact List.splitOnP_ne_nil _ _

theorem slashed_cons {c : Char} (hc : c ≠ '/') (t : Text) :
    ∃ s ss, slashed t = s :: ss ∧ slashed (c :: t) = (c :: s) :: ss := by
  have hcons : slashed (c :: t) = (slashed t).modifyHead (c :: ·) := by
    unfold slashed
    rw [List.splitOn_eq_splitOnP, List.splitOn_eq_splitOnP, List.splitOnP_cons_eq_if_modifyHead,
      if_neg (by simp [hc])]
  cases h : slashed t with
  | nil => exact absurd h (slashed_ne_nil t)
  | cons s ss => exact ⟨s, ss, rfl, by rw [hcons, h, List.modifyHead_cons]⟩

/-- The first segment, and the text behind it. -/
theorem slashed_dropWhile (t : Text) :
    (t.dropWhile (· ≠ '/') = [] ∧ slashed t = [t]) ∨
      ∃ s u, t.dropWhile (· ≠ '/') = '/' :: u ∧ slashed t = s :: slashed u := by
  induction t with
  | nil => exact .inl ⟨rfl, rfl⟩
  | cons c t ih =>
    by_cases hc : c = '/'
    · subst hc
      exact .inr ⟨[], t, by rw [List.dropWhile_cons_of_neg (by decide)], slashed_slash t⟩
    · obtain ⟨s, ss, ht, hcons⟩ := slashed_cons hc t
      rw [List.dropWhile_cons_of_pos (by simp [hc]), hcons]
      rcases ih with ⟨hdrop, hone⟩ | ⟨s', u, hdrop, hmore⟩
      · rw [hone, List.cons.injEq] at ht
        obtain ⟨rfl, rfl⟩ := ht
        exact .inl ⟨hdrop, rfl⟩
      · rw [hmore, List.cons.injEq] at ht
        obtain ⟨rfl, rfl⟩ := ht
        exact .inr ⟨c :: s', u, hdrop, rfl⟩

theorem eq_of_slashed {t s : Text} (h : slashed t = [s]) : t = s := by
  rcases slashed_dropWhile t with ⟨-, hone⟩ | ⟨s', u, -, hmore⟩
  · rw [hone, List.cons.injEq] at h
    exact h.1
  · rw [hmore, List.cons.injEq] at h
    exact absurd h.2 (slashed_ne_nil u)

theorem lined_cons (p q : Text) {ps : List Text} (hps : ps ≠ []) (qs : List Text) :
    lined (p :: ps) (q :: qs) = (agrees p q && lined ps qs) := by
  cases ps with
  | nil => exact absurd rfl hps
  | cons p' ps => rfl

theorem lined_nil (ps : List Text) : lined ps [] = false := by
  cases ps with
  | nil => rfl
  | cons p ps => cases ps <;> rfl

theorem opening_mark {c : Char} (hc : isMark c = true) (p : Text) : opening (c :: p) = [] := by
  unfold opening
  rw [List.takeWhile_cons_of_neg (by simp [hc])]

theorem opening_cons {c : Char} (hc : isMark c = false) (p : Text) :
    opening (c :: p) = c :: opening p := by
  unfold opening
  rw [List.takeWhile_cons_of_pos (by simp [hc])]

theorem agrees_cons {c : Char} (hc : isMark c = false) (d : Char) (p q : Text) :
    agrees (c :: p) (d :: q) = (decide (c = d) && agrees p q) := by
  unfold agrees
  rw [opening_cons hc]
  by_cases hp : opening p = p
  · simp [hp]
  · simp [hp, List.isPrefixOf, Bool.beq_eq_decide_eq]

theorem agrees_nil {c : Char} (hc : isMark c = false) (p : Text) : agrees (c :: p) [] = false := by
  unfold agrees
  rw [opening_cons hc]
  split <;> simp [List.isPrefixOf]

/-- A character of the pattern is the character of the path. -/
theorem lined_char {c : Char} (hc : isMark c = false) {p : Text} {ps : List Text}
    (hstar : ¬ (c = '*' ∧ p = [] ∧ ps = [])) (d : Char) (q : Text) (qs : List Text) :
    lined ((c :: p) :: ps) ((d :: q) :: qs) = (decide (c = d) && lined (p :: ps) (q :: qs)) := by
  cases ps with
  | cons p' ps =>
    rw [lined_cons _ _ (List.cons_ne_nil _ _), lined_cons _ _ (List.cons_ne_nil _ _),
      agrees_cons hc, Bool.and_assoc]
  | nil =>
    unfold lined starred
    rw [agrees_cons hc, opening_cons hc]
    cases p with
    | nil =>
      have hc' : c ≠ '*' := fun h => hstar ⟨h, rfl, rfl⟩
      by_cases hcd : c = d
      · subst hcd
        simp [hc', opening]
      · simp [hc', hcd, opening]
    | cons b p =>
      by_cases hcd : c = d
      · subst hcd
        simp
      · simp [hcd, List.isPrefixOf]

/-- A parameter takes the rest of its segment. -/
theorem lined_mark {c : Char} (hc : isMark c = true) (p q : Text) (ps qs : List Text) :
    lined ((c :: p) :: ps) (q :: qs) =
      if ps = [] then decide (qs = []) && decide (q ≠ []) else lined ps qs := by
  have hagrees : agrees (c :: p) q = true := by
    unfold agrees
    rw [opening_mark hc, if_neg (List.cons_ne_nil _ _).symm]
    exact List.isPrefixOf_nil_left
  cases ps with
  | cons p' ps => rw [lined_cons _ _ (List.cons_ne_nil _ _), hagrees, if_neg (List.cons_ne_nil _ _),
      Bool.true_and]
  | nil =>
    unfold lined starred
    rw [hagrees, opening_mark hc, if_pos rfl]
    simp [eq_comm]

theorem lined_star (q : Text) (qs : List Text) : lined [['*']] (q :: qs) = true := by
  unfold lined
  rw [show starred ['*'] = true from rfl]
  rfl

theorem lined_slash {ps : List Text} (hps : ps ≠ []) (qs : List Text) :
    lined ([] :: ps) ([] :: qs) = lined ps qs := by
  rw [lined_cons _ _ hps]
  rfl

/-! ## The matcher of the limits -/

/-- The loop at the end of the path. -/
theorem lined_end (p : Text) : lined (slashed p) [[]] = (p = ['*'] || p = []) := by
  cases p with
  | nil => rfl
  | cons c p =>
    by_cases hc : c = '/'
    · subst hc
      rw [slashed_slash, lined_slash (slashed_ne_nil p), lined_nil]
      simp
    · obtain ⟨s, ss, hp, hcons⟩ := slashed_cons hc p
      rw [hcons]
      by_cases hmark : isMark c = true
      · rw [lined_mark hmark]
        have hstar : c ≠ '*' := by
          rintro rfl
          exact absurd hmark (by decide)
        cases ss <;> simp [hstar, lined_nil]
      · have hplain := Bool.eq_false_iff.mpr hmark
        cases ss with
        | cons s' ss =>
          have hne : p ≠ [] := by
            rintro rfl
            cases hp
          rw [lined_cons _ _ (List.cons_ne_nil _ _), agrees_nil hplain]
          simp [hne]
        | nil =>
          rw [eq_of_slashed hp]
          unfold lined starred
          rw [agrees_nil hplain, opening_cons hplain]
          cases s with
          | nil => simp [opening]
          | cons b s => simp

theorem not_isMark {c : Char} (h : ¬ (c = ':' ∨ c = '\x7b')) : isMark c = false := by
  unfold isMark
  rw [Bool.or_eq_false_iff, decide_eq_false_iff_not, decide_eq_false_iff_not, ← not_or]
  exact h

/-- A single segment that does not end the pattern in `*` needs a text. -/
theorem starred_ne {c : Char} (hc : isMark c = false) {p : Text}
    (hstar : ¬ (c = '*' ∧ p = [] ∧ ([] : List Text) = [])) :
    (starred (c :: p) && (c :: p).dropLast.isPrefixOf []) = false := by
  unfold starred
  rw [opening_cons hc]
  cases p with
  | nil =>
    have hc' : c ≠ '*' := fun h => hstar ⟨h, rfl, rfl⟩
    simp [hc', opening]
  | cons b p => simp

/-- The loop behind a parameter. -/
theorem lined_dropWhile {c : Char} (hmark : c = ':' ∨ c = '\x7b') (p : Text) (d : Char) (s : Text) :
    lined (slashed ((c :: p).dropWhile (· ≠ '/'))) (slashed ((d :: s).dropWhile (· ≠ '/'))) =
      lined (slashed (c :: p)) (slashed (d :: s)) := by
  have hc : c ≠ '/' := by
    rintro rfl
    exact absurd hmark (by decide)
  have hmark' : isMark c = true := by
    rcases hmark with rfl | rfl <;> rfl
  obtain ⟨p', ps, -, hcons⟩ := slashed_cons hc p
  have hrest : slashed ((c :: p).dropWhile (· ≠ '/')) = if ps = [] then [[]] else [] :: ps := by
    rcases slashed_dropWhile (c :: p) with ⟨hp, hone⟩ | ⟨s', u, hp, hmore⟩
    · rw [hcons, List.cons.injEq] at hone
      rw [hp, if_pos hone.2, slashed_nil]
    · rw [hcons, List.cons.injEq] at hmore
      rw [hp, slashed_slash, hmore.2, if_neg (slashed_ne_nil u)]
  rw [hrest, hcons]
  rcases slashed_dropWhile (d :: s) with ⟨hs, hone⟩ | ⟨q, u, hs, hmore⟩
  · rw [hs, hone, slashed_nil, lined_mark hmark']
    split_ifs with hps
    · simp [lined, starred, agrees, opening]
    · rw [lined_slash hps]
  · rw [hs, hmore, slashed_slash, lined_mark hmark']
    split_ifs with hps
    · simp [lined, starred, slashed_ne_nil]
    · rw [lined_slash hps]

/-- A character of the pattern that is not the path's. -/
theorem lined_ne {c d : Char} {p s : Text} (hmark : ¬ (c = ':' ∨ c = '\x7b'))
    (hstar : ¬ (c = '*' ∧ p = [])) (hne : c ≠ d) :
    lined (slashed (c :: p)) (slashed (d :: s)) = false := by
  by_cases hc : c = '/'
  · subst hc
    obtain ⟨q, qs, -, hcons⟩ := slashed_cons hne.symm s
    rw [slashed_slash, hcons, lined_cons _ _ (slashed_ne_nil p)]
    simp [agrees, opening]
  · have hplain := not_isMark hmark
    obtain ⟨p', ps, hp, hcons⟩ := slashed_cons hc p
    have hstar' : ¬ (c = '*' ∧ p' = [] ∧ ps = []) := by
      rintro ⟨hc', rfl, rfl⟩
      exact hstar ⟨hc', eq_of_slashed hp⟩
    rw [hcons]
    by_cases hd : d = '/'
    · subst hd
      rw [slashed_slash]
      cases ps with
      | cons p'' ps => rw [lined_cons _ _ (List.cons_ne_nil _ _), agrees_nil hplain, Bool.false_and]
      | nil => simp [lined, slashed_ne_nil, starred_ne hplain hstar']
    · obtain ⟨q, qs, -, hcons'⟩ := slashed_cons hd s
      rw [hcons', lined_char hplain hstar', decide_eq_false hne, Bool.false_and]

/-- A character of the pattern that is the path's. -/
theorem lined_same {c d : Char} {p : Text} (hmark : ¬ (c = ':' ∨ c = '\x7b'))
    (hstar : ¬ (c = '*' ∧ p = [])) (heq : c = d) (s : Text) :
    lined (slashed (c :: p)) (slashed (d :: s)) = lined (slashed p) (slashed s) := by
  subst heq
  by_cases hc : c = '/'
  · subst hc
    rw [slashed_slash, slashed_slash, lined_slash (slashed_ne_nil p)]
  · obtain ⟨p', ps, hp, hcons⟩ := slashed_cons hc p
    obtain ⟨q, qs, hs, hcons'⟩ := slashed_cons hc s
    have hstar' : ¬ (c = '*' ∧ p' = [] ∧ ps = []) := by
      rintro ⟨hc', rfl, rfl⟩
      exact hstar ⟨hc', eq_of_slashed hp⟩
    rw [hcons, hcons', lined_char (not_isMark hmark) hstar', decide_eq_true rfl, Bool.true_and, hp,
      hs]

theorem kynxPathMatchFrom_eq (fuel : Nat) (p s : Text) (hfuel : p.length < fuel) :
    kynxPathMatchFrom fuel p s = lined (slashed p) (slashed s) := by
  have hskip : ∀ (c : Char) (p : Text), (c = ':' ∨ c = '\x7b') → ∀ {n : Nat}, p.length + 1 < n + 1 →
      ((c :: p).dropWhile (· ≠ '/')).length < n := by
    intro c p hmark n hlt
    have hc : c ≠ '/' := by
      rintro rfl
      exact absurd hmark (by decide)
    rw [List.dropWhile_cons_of_pos (by simp [hc])]
    have := (List.dropWhile_sublist (l := p) (· ≠ '/')).length_le
    omega
  induction fuel generalizing p s with
  | zero => omega
  | succ fuel ih =>
    cases s with
    | nil =>
      rw [slashed_nil, lined_end]
      unfold kynxPathMatchFrom
      cases p <;> simp
    | cons d s =>
      cases p with
      | nil =>
        have hends : lined (slashed []) (slashed (d :: s)) = false := by
          by_cases hd : d = '/'
          · subst hd
            rw [slashed_slash, slashed_nil]
            simp [lined, starred, slashed_ne_nil]
          · obtain ⟨q, qs, -, hcons⟩ := slashed_cons hd s
            rw [hcons, slashed_nil]
            simp [lined, starred, agrees, opening]
        rw [hends]
        unfold kynxPathMatchFrom
        simp
      | cons c p =>
        rw [List.length_cons] at hfuel
        unfold kynxPathMatchFrom
        dsimp only
        split_ifs with hstar hmark hne
        · obtain ⟨rfl, rfl⟩ := hstar
          cases hs : slashed (d :: s) with
          | nil => exact absurd hs (slashed_ne_nil _)
          | cons q qs => exact (lined_star q qs).symm
        · exact (ih _ _ (hskip c p hmark hfuel)).trans (lined_dropWhile hmark p d s)
        · rw [lined_ne hmark hstar hne]
        · rw [ih p s (by omega)]
          exact (lined_same hmark hstar (not_not.mp hne) s).symm

theorem agrees_self (p : Text) : agrees p p = true := by
  unfold agrees
  split_ifs
  · exact decide_eq_true rfl
  · rw [List.isPrefixOf_iff_prefix]
    exact List.takeWhile_prefix _

theorem lined_self {ps : List Text} (h : ps ≠ []) : lined ps ps = true := by
  induction ps with
  | nil => exact absurd rfl h
  | cons p ps ih =>
    cases ps with
    | nil => simp [lined, agrees_self]
    | cons p' ps =>
      rw [lined_cons _ _ (List.cons_ne_nil _ _), agrees_self, ih (List.cons_ne_nil _ _),
        Bool.true_and]

/-- **The matcher of the limits** asks for the segments of the pattern in the same places. -/
theorem kynxPathMatch_eq (pattern path : Text) :
    kynxPathMatch pattern path = lined (slashed pattern) (slashed path) := by
  unfold kynxPathMatch
  rw [kynxPathMatchFrom_eq _ _ _ (Nat.lt_succ_self _)]
  by_cases h : pattern = path
  · subst h
    rw [decide_eq_true rfl, Bool.true_or, lined_self (slashed_ne_nil pattern)]
  · rw [decide_eq_false h, Bool.false_or]

/-- **A routed request is charged if and only if its path is lined up with the pattern.** -/
theorem charged_iff (req : Request) (method pattern : Text) :
    ((orbitRouteMatch req method pattern).1 = true → kynxPathMatch pattern req.path = true) ↔
      ((orbitRouteMatch req method pattern).1 = true →
        lined (slashed pattern) (slashed req.path) = true) := by
  rw [kynxPathMatch_eq]

/-- The router takes a slash at the end and the limit of the route does not, nor does it take a tail
parameter of two segments: no bucket is charged. -/
theorem uncharged :
    ((orbitRouteMatch (Request.fresh "GET".toList "/users/1/".toList) "GET".toList
        "/users/:id".toList).1 = true ∧
      kynxPathMatch "/users/:id".toList "/users/1/".toList = false ∧
      kynxLimitOf (orbitKynxRegisterRouteLimit [] "GET".toList "/users/:id".toList 5 1000 5)
        "GET".toList "/users/1/".toList = none) ∧
    ((orbitRouteMatch (Request.fresh "GET".toList "/files/a/b".toList) "GET".toList
        "/files/:path...".toList).1 = true ∧
      kynxPathMatch "/files/:path...".toList "/files/a/b".toList = false) := by
  decide

end Runtime.Kynx
