import Orbit.Build.Literal
import Orbit.Front.Sema

/-!
# The NUL check and the decoder

`unescapeStringBody` splits the body of a literal into escapes and plain bytes (`pieces`). The check
sees the bytes that are not hidden, that is not among the three behind a backslash that it sees
(`Hidden`, `stringLiteralHasNul_iff`). `nulCheck_iff`: when the two agree.
-/

namespace Front

open Build (Text escapeCode namedEscape unescapeStringBody)

abbrev nulByte : Char := '\x00'

/-! ## The split of the decoder -/

/-- The escapes and plain bytes of a body, as the decoder steps over them. -/
def pieces : Text → List Text
  | '\\' :: 'x' :: a :: b :: t =>
    if (escapeCode a b).isSome then ['\\', 'x', a, b] :: pieces t
    else ['\\', 'x'] :: pieces (a :: b :: t)
  | '\\' :: c :: t => ['\\', c] :: pieces t
  | c :: t => [c] :: pieces t
  | [] => []

/-- What the decoder writes for a piece, which its length tells apart. -/
def decodePiece : Text → Text
  | [_, _, a, b] => (escapeCode a b).toList
  | [s, c] => ((namedEscape c).map fun d => [d]).getD [s, c]
  | t => t

theorem pieces_flatten (body : Text) : (pieces body).flatten = body := by
  induction body using pieces.induct with
  | case1 a b t h ih => rw [pieces, if_pos h, List.flatten_cons, ih]; rfl
  | case2 a b t h ih => rw [pieces, if_neg h, List.flatten_cons, ih]; rfl
  | case3 c t h ih => rw [pieces, List.flatten_cons, ih]; rfl; exact h
  | case4 c t h1 h2 ih => rw [pieces, List.flatten_cons, ih]; rfl; exact h1; exact h2
  | case5 => rfl

theorem unescapeStringBody_eq (body : Text) :
    unescapeStringBody body = (pieces body).flatMap decodePiece := by
  induction body using pieces.induct with
  | case1 a b t h ih =>
    obtain ⟨c, hc⟩ := Option.isSome_iff_exists.mp h
    rw [pieces, if_pos h, List.flatMap_cons, ← ih, unescapeStringBody, hc, decodePiece, hc]
    rfl
  | case2 a b t h ih =>
    rw [Option.not_isSome_iff_eq_none] at h
    rw [pieces, h, if_neg (by simp), List.flatMap_cons, ← ih, unescapeStringBody, h]
    rfl
  | case3 c t h ih =>
    rw [pieces.eq_2 _ _ h, List.flatMap_cons, ← ih, unescapeStringBody.eq_2 _ _ h]
    rw [decodePiece, namedEscape]
    split_ifs <;> rfl
  | case4 c t h1 h2 ih =>
    rw [pieces.eq_3 _ _ h1 h2, List.flatMap_cons, ← ih, unescapeStringBody.eq_3 _ _ h1 h2]
    rfl
  | case5 => rfl

/-! ## What the check sees -/

/-- A raw zero byte or the text `\x00`. -/
def NulAt (s : Text) (p : Nat) : Prop := s[p]? = some nulByte ∨ ['\\', 'x', '0', '0'] <+: s.drop p

/-- Among the three bytes behind a backslash that is not hidden itself. -/
def Hidden (s : Text) (p : Nat) : Prop :=
  ∃ q, ∃ _ : q < p, p ≤ q + 3 ∧ s[q]? = some '\\' ∧ ¬ Hidden s q
termination_by p

theorem hidden_iff {s : Text} {p : Nat} :
    Hidden s p ↔ ∃ q < p, p ≤ q + 3 ∧ s[q]? = some '\\' ∧ ¬ Hidden s q := by
  rw [Hidden]
  simp only [exists_prop]

theorem not_hidden_zero (s : Text) : ¬ Hidden s 0 := by
  rw [hidden_iff]
  rintro ⟨q, hq, -⟩
  exact absurd hq (Nat.not_lt_zero q)

section
variable {s : Text} {p : Nat} (h : ¬ Hidden s p)
include h

theorem not_hidden_succ (hp : s[p]? ≠ some '\\') : ¬ Hidden s (p + 1) := by
  rw [hidden_iff]
  rintro ⟨q, hq, hle, hs, hno⟩
  rcases Nat.lt_or_eq_of_le (Nat.le_of_lt_succ hq) with hlt | rfl
  · exact h (hidden_iff.mpr ⟨q, hlt, by omega, hs, hno⟩)
  · exact hp hs

theorem hidden_behind (hp : s[p]? = some '\\') {q : Nat} (hlt : p < q) (hle : q ≤ p + 3) :
    Hidden s q :=
  hidden_iff.mpr ⟨p, hlt, hle, hp, h⟩

theorem not_hidden_step (hp : s[p]? = some '\\') : ¬ Hidden s (p + 4) := by
  rw [hidden_iff]
  rintro ⟨q, hq, hle, -, hno⟩
  exact hno (hidden_behind h hp (by omega) (by omega))

end

/-- The loop from a byte that is not hidden. -/
theorem hasNul_from {s : Text} {p : Nat} (h : ¬ Hidden s p) : stringLiteralHasNul (s.drop p) = true ↔
    ∃ q, p ≤ q ∧ ¬ Hidden s q ∧ NulAt s q := by
  cases hs : s.drop p with
  | nil =>
    have hlen : s.length ≤ p := List.drop_eq_nil_iff.mp hs
    rw [stringLiteralHasNul]
    refine ⟨fun h => absurd h (by simp), ?_⟩
    rintro ⟨q, hq, -, hzero | hesc⟩
    · rw [List.getElem?_eq_none (by omega)] at hzero
      cases hzero
    · rw [List.drop_eq_nil_of_le (by omega)] at hesc
      exact absurd (List.prefix_nil.mp hesc) (by simp)
  | cons c t =>
    have hp : s[p]? = some c := by rw [← List.head?_drop, hs]; rfl
    have htail : s.drop (p + 1) = t := by rw [← List.tail_drop, hs]; rfl
    have hlt : p < s.length := by
      by_contra hno
      rw [List.drop_eq_nil_of_le (by omega)] at hs
      cases hs
    by_cases hesc : ['\\', 'x', '0', '0'] <+: c :: t
    · have hat : NulAt s p := .inr (by rwa [hs])
      obtain ⟨rest, hrest⟩ := hesc
      rw [← hrest]
      refine ⟨fun _ => ⟨p, Nat.le_refl p, h, hat⟩, fun _ => ?_⟩
      simp [stringLiteralHasNul]
    have hstep : stringLiteralHasNul (c :: t) = if c = nulByte then true
        else if c = '\\' then stringLiteralHasNul (t.drop 3) else stringLiteralHasNul t := by
      rw [stringLiteralHasNul]
      rintro rest rfl rfl
      exact hesc ⟨rest, rfl⟩
    rw [hstep]
    by_cases hnul : c = nulByte
    · rw [if_pos hnul]
      exact ⟨fun _ => ⟨p, Nat.le_refl p, h, .inl (by rw [hp, hnul])⟩, fun _ => rfl⟩
    have hno : ¬ NulAt s p := by
      rintro (hzero | hpre)
      · rw [hp] at hzero
        exact hnul (Option.some.inj hzero)
      · rw [hs] at hpre
        exact hesc hpre
    rw [if_neg hnul]
    by_cases hslash : c = '\\'
    · rw [hslash] at hp
      have hdrop : t.drop 3 = s.drop (p + 4) := by rw [← htail, List.drop_drop]
      rw [if_pos hslash, hdrop, hasNul_from (not_hidden_step h hp)]
      constructor
      · rintro ⟨q, hq, hvis, hat⟩
        exact ⟨q, by omega, hvis, hat⟩
      · rintro ⟨q, hq, hvis, hat⟩
        refine ⟨q, ?_, hvis, hat⟩
        by_contra hlt'
        rcases Nat.eq_or_lt_of_le hq with rfl | hgt
        · exact hno hat
        · exact hvis (hidden_behind h hp hgt (by omega))
    · rw [if_neg hslash, ← htail,
        hasNul_from (not_hidden_succ h (by rw [hp]; simpa using hslash))]
      constructor
      · rintro ⟨q, hq, hvis, hat⟩
        exact ⟨q, by omega, hvis, hat⟩
      · rintro ⟨q, hq, hvis, hat⟩
        refine ⟨q, ?_, hvis, hat⟩
        by_contra hlt'
        obtain rfl : q = p := by omega
        exact hno hat
termination_by s.length - p

/-- **The check sees a NUL** where one stands that is not hidden. -/
theorem stringLiteralHasNul_iff (s : Text) :
    stringLiteralHasNul s = true ↔ ∃ p, ¬ Hidden s p ∧ NulAt s p := by
  have := hasNul_from (not_hidden_zero s)
  simpa using this

/-! ## Where the decoder has a NUL -/

/-- Of a piece `u` of the body and the text `rest` behind it, `Q u rest i` for position `i` in the
piece. -/
def InPiece (Q : Text → Text → Nat → Prop) (body : Text) (p : Nat) : Prop :=
  ∃ pre u post i, pieces body = pre ++ u :: post ∧ p = pre.flatten.length + i ∧ Q u post.flatten i

/-- A raw zero byte, or the backslash of `\x00`, which the decoder takes as `\x`. -/
def NulIn (u rest : Text) (i : Nat) : Prop :=
  u[i]? = some nulByte ∨ (u = ['\\', 'x'] ∧ ['0', '0'] <+: rest ∧ i = 0)

/-- The second backslash of an escaped one in front of `x00`. -/
def BackslashIn (u rest : Text) (i : Nat) : Prop :=
  u = ['\\', '\\'] ∧ ['x', '0', '0'] <+: rest ∧ i = 1

theorem inPiece_cons {Q : Text → Text → Nat → Prop} {body u rest : Text} {p : Nat}
    (h : pieces body = u :: pieces rest) :
    InPiece Q body p ↔ Q u rest p ∨ ∃ q, p = u.length + q ∧ InPiece Q rest q := by
  constructor
  · rintro ⟨pre, v, post, i, hsplit, rfl, hq⟩
    rw [h] at hsplit
    cases pre with
    | nil =>
      obtain ⟨rfl, hpost⟩ := List.cons.inj hsplit
      rw [← hpost, pieces_flatten] at hq
      exact .inl (by simpa using hq)
    | cons w pre =>
      obtain ⟨rfl, hrest⟩ := List.cons.inj hsplit
      refine .inr ⟨pre.flatten.length + i, ?_, pre, v, post, i, hrest, rfl, hq⟩
      rw [List.flatten_cons, List.length_append]
      omega
  · rintro (hq | ⟨q, rfl, pre, v, post, i, hrest, rfl, hq⟩)
    · exact ⟨[], u, pieces rest, p, h, by simp, by rwa [pieces_flatten]⟩
    · refine ⟨u :: pre, v, post, i, by rw [h, hrest, List.cons_append], ?_, hq⟩
      rw [List.flatten_cons, List.length_append]
      omega

theorem not_inPiece_nil {Q : Text → Text → Nat → Prop} {p : Nat} : ¬ InPiece Q [] p := by
  rintro ⟨pre, u, post, i, h, -⟩
  rw [pieces] at h
  cases pre <;> cases h

theorem nulAt_append {u rest : Text} {p : Nat} (hu : ∀ i < u.length, NulAt (u ++ rest) i ↔
    NulIn u rest i ∨ BackslashIn u rest i) : NulAt (u ++ rest) p ↔
      (NulIn u rest p ∨ BackslashIn u rest p) ∨ ∃ q, p = u.length + q ∧ NulAt rest q := by
  by_cases hp : p < u.length
  · rw [hu p hp]
    refine ⟨.inl, fun h => h.resolve_right ?_⟩
    rintro ⟨q, hq, -⟩
    omega
  · obtain ⟨q, rfl⟩ := Nat.exists_eq_add_of_le (Nat.le_of_not_lt hp)
    have hat : NulAt (u ++ rest) (u.length + q) ↔ NulAt rest q := by
      rw [NulAt, NulAt, List.getElem?_append_right (Nat.le_add_right _ _), Nat.add_sub_cancel_left,
        ← List.drop_drop, List.drop_left]
    rw [hat]
    constructor
    · exact fun h => .inr ⟨q, rfl, h⟩
    · rintro (((hnul | ⟨rfl, -, h0⟩) | ⟨rfl, -, h1⟩) | ⟨q', hq', h⟩)
      · rw [List.getElem?_eq_none (Nat.le_add_right _ _)] at hnul
        cases hnul
      · simp at h0
      · rw [List.length_cons, List.length_singleton] at h1
        omega
      · rwa [Nat.add_left_cancel hq']

theorem escapeCode_isSome {a b : Char} (h : (escapeCode a b).isSome) :
    a ≠ '\\' ∧ b ≠ '\\' ∧ ¬ (a = '0' ∧ b = '0') := by
  refine ⟨?_, ?_, ?_⟩
  · rintro rfl
    rw [escapeCode, if_neg] at h
    · cases h
    · rintro ⟨h0, -⟩
      exact absurd h0 (by decide)
  · rintro rfl
    rw [escapeCode, if_neg] at h
    · cases h
    · rintro ⟨-, h0, -⟩
      exact absurd h0 (by decide)
  · rintro ⟨rfl, rfl⟩
    exact absurd h (by decide)

/-- **Every zero byte and every `\x00` of a body** is a NUL of the decoder or the end of an escaped
backslash. -/
theorem nulAt_iff (body : Text) (p : Nat) :
    NulAt body p ↔ InPiece (fun u rest i => NulIn u rest i ∨ BackslashIn u rest i) body p := by
  induction body using pieces.induct generalizing p with
  | case1 a b t h ih =>
    have hp : pieces ('\\' :: 'x' :: a :: b :: t) = ['\\', 'x', a, b] :: pieces t := by
      rw [pieces, if_pos h]
    rw [inPiece_cons hp]
    simp only [← ih]
    refine nulAt_append (u := ['\\', 'x', a, b]) fun i hi => ?_
    obtain ⟨ha, hb, hab⟩ := escapeCode_isSome h
    have hi : i = 0 ∨ i = 1 ∨ i = 2 ∨ i = 3 := by
      simp only [List.length_cons, List.length_nil] at hi
      omega
    rcases hi with rfl | rfl | rfl | rfl
    · simp [NulAt, NulIn, BackslashIn, List.cons_prefix_cons]
      tauto
    · simp [NulAt, NulIn, BackslashIn, List.cons_prefix_cons]
    · simp [NulAt, NulIn, BackslashIn, List.cons_prefix_cons, Ne.symm ha]
    · simp [NulAt, NulIn, BackslashIn, List.cons_prefix_cons, Ne.symm hb]
  | case2 a b t h ih =>
    have hp : pieces ('\\' :: 'x' :: a :: b :: t) = ['\\', 'x'] :: pieces (a :: b :: t) := by
      rw [pieces, if_neg h]
    rw [inPiece_cons hp]
    simp only [← ih]
    refine nulAt_append (u := ['\\', 'x']) fun i hi => ?_
    have hi : i = 0 ∨ i = 1 := by
      simp only [List.length_cons, List.length_nil] at hi
      omega
    rcases hi with rfl | rfl
    · simp [NulAt, NulIn, BackslashIn, List.cons_prefix_cons]
    · simp [NulAt, NulIn, BackslashIn, List.cons_prefix_cons]
  | case3 c t h ih =>
    rw [inPiece_cons (pieces.eq_2 c t h)]
    simp only [← ih]
    refine nulAt_append (u := ['\\', c]) fun i hi => ?_
    have hi : i = 0 ∨ i = 1 := by
      simp only [List.length_cons, List.length_nil] at hi
      omega
    -- a `\x` with two bytes behind it is split otherwise
    have hx : c = 'x' → ¬ ['0', '0'] <+: t := by
      rintro rfl ⟨rest, rfl⟩
      exact h '0' '0' rest rfl rfl
    rcases hi with rfl | rfl
    · simp [NulAt, NulIn, BackslashIn, List.cons_prefix_cons]
      tauto
    · simp [NulAt, NulIn, BackslashIn, List.cons_prefix_cons]
      tauto
  | case4 c t h1 h2 ih =>
    rw [inPiece_cons (pieces.eq_3 c t h1 h2)]
    simp only [← ih]
    refine nulAt_append (u := [c]) fun i hi => ?_
    have hi : i = 0 := by simpa using hi
    subst hi
    have hslash : c = '\\' → t = [] := by
      rintro rfl
      cases t with
      | nil => rfl
      | cons d t => exact absurd rfl (h2 d t rfl)
    by_cases hc : c = '\\'
    · rw [hslash hc, hc]
      simp [NulAt, NulIn, BackslashIn, List.cons_prefix_cons]
    · simp [NulAt, NulIn, BackslashIn, List.cons_prefix_cons, Ne.symm hc]
  | case5 =>
    refine ⟨fun h => ?_, fun h => absurd h not_inPiece_nil⟩
    rcases h with h | h
    · simp at h
    · rw [List.drop_nil] at h
      exact absurd (List.prefix_nil.mp h) (by simp)

theorem nulAt_quoted (body : Text) (p : Nat) : NulAt ('"' :: (body ++ ['"'])) p ↔
    ∃ q, p = q + 1 ∧ NulAt body q := by
  cases p with
  | zero =>
    constructor
    · rintro (h | h)
      · exact absurd (Option.some.inj h) (by decide)
      · exact absurd (List.cons_prefix_cons.mp h).1 (by decide)
    · rintro ⟨q, hq, -⟩
      omega
  | succ p =>
    -- the closing quote is no part of a NUL
    have hprefix : ∀ t : Text, ['\\', 'x', '0', '0'] <+: t ++ ['"'] ↔ ['\\', 'x', '0', '0'] <+: t := by
      intro t
      refine ⟨fun h => ?_, fun h => h.trans (List.prefix_append t _)⟩
      rcases List.prefix_concat_iff.mp h with h | h
      · exact absurd (congrArg List.getLast? h) (by simp)
      · exact h
    have hat : NulAt ('"' :: (body ++ ['"'])) (p + 1) ↔ NulAt body p := by
      rw [NulAt, NulAt, List.getElem?_cons_succ, List.drop_succ_cons]
      rcases Nat.lt_or_ge p body.length with hlt | hge
      · rw [List.getElem?_append_left hlt, List.drop_append_of_le_length (Nat.le_of_lt hlt), hprefix]
      · rw [List.getElem?_append_right hge, List.getElem?_eq_none hge, List.drop_eq_nil_of_le hge]
        constructor
        · rintro (h | h)
          · rcases Nat.eq_zero_or_pos (p - body.length) with h0 | hpos
            · rw [h0] at h
              cases h
            · rw [List.getElem?_eq_none (by rw [List.length_singleton]; omega)] at h
              cases h
          · have := h.length_le
            simp only [List.length_drop, List.length_append, List.length_cons, List.length_nil] at this
            omega
        · rintro (h | h)
          · cases h
          · exact absurd (List.prefix_nil.mp h) (by simp)
    rw [hat]
    exact ⟨fun h => ⟨p, rfl, h⟩, fun ⟨q, hq, h⟩ => by rwa [Nat.succ.inj hq]⟩

/-! ## The check -/

/-- A position of the body that the check of the quoted text does not see. -/
def HiddenIn (body : Text) (p : Nat) : Prop := Hidden ('"' :: (body ++ ['"'])) (p + 1)

/-- The body holds a NUL for the decoder. -/
def HasNul (body : Text) : Prop := ∃ p, InPiece NulIn body p

theorem inPiece_or {Q R : Text → Text → Nat → Prop} {body : Text} {p : Nat} :
    InPiece (fun u rest i => Q u rest i ∨ R u rest i) body p ↔ InPiece Q body p ∨ InPiece R body p := by
  constructor
  · rintro ⟨pre, u, post, i, h, hp, hq | hr⟩
    · exact .inl ⟨pre, u, post, i, h, hp, hq⟩
    · exact .inr ⟨pre, u, post, i, h, hp, hr⟩
  · rintro (⟨pre, u, post, i, h, hp, hq⟩ | ⟨pre, u, post, i, h, hp, hr⟩)
    · exact ⟨pre, u, post, i, h, hp, .inl hq⟩
    · exact ⟨pre, u, post, i, h, hp, .inr hr⟩

/-- What the check of an ordinary literal sees: a NUL of the decoder that is not hidden, or the
second backslash of an escaped one in front of `x00`, not hidden. -/
theorem stringLiteralHasNul_quoted (body : Text) :
    stringLiteralHasNul ('"' :: (body ++ ['"'])) = true ↔
      ∃ p, ¬ HiddenIn body p ∧ (InPiece NulIn body p ∨ InPiece BackslashIn body p) := by
  rw [stringLiteralHasNul_iff]
  constructor
  · rintro ⟨p, hvis, hat⟩
    obtain ⟨q, rfl, hq⟩ := (nulAt_quoted body p).mp hat
    exact ⟨q, hvis, inPiece_or.mp ((nulAt_iff body q).mp hq)⟩
  · rintro ⟨q, hvis, hq⟩
    exact ⟨q + 1, hvis, (nulAt_quoted body _).mpr ⟨q, rfl, (nulAt_iff body q).mpr (inPiece_or.mpr hq)⟩⟩

/-- The literal token of a body. -/
def quoted (body : Text) : String := String.ofList ('"' :: (body ++ ['"']))

theorem nulError_iff (other : ASTNode → String × List String) (body : Text) :
    nulError ∈ (checkString other (.literal "string" (quoted body))).2 ↔
      stringLiteralHasNul ('"' :: (body ++ ['"'])) = true := by
  rw [checkString, if_neg (by decide), if_pos rfl, quoted, String.toList_ofList]
  split
  · simp [*]
  · simp [*]

/-- A chunk does not change what is reported. -/
theorem checkInterpolation_chunk (other : ASTNode → String × List String) (before : List ASTNode)
    (chunk : String) (after : List ASTNode) :
    checkInterpolation other (before ++ .literal "string_chunk" chunk :: after) =
      checkInterpolation other (before ++ after) := by
  induction before with
  | nil => rw [List.nil_append, checkInterpolation, if_pos (by simp [isStringChunk]), List.nil_append]
  | cons part before ih =>
    rw [List.cons_append, List.cons_append, checkInterpolation, checkInterpolation, ih]

/-- What is reported for a chunk: what its interpolated string is refused for and would not be
without it. -/
def RefusesChunk (other : ASTNode → String × List String) (before : List ASTNode) (chunk : Text)
    (after : List ASTNode) : Prop :=
  checkInterpolation other (before ++ .literal "string_chunk" (String.ofList chunk) :: after) ≠
    checkInterpolation other (before ++ after)

/-- **The NUL check reads escapes as the decoder does** exactly when, in an ordinary literal with a
NUL, a NUL or an escaped backslash in front of `x00` is not hidden, in one without, every such
backslash is hidden; and in a chunk exactly when it has no NUL. -/
theorem nulCheck_iff (other : ASTNode → String × List String) :
    (∀ body : Text,
      (nulError ∈ (checkString other (.literal "string" (quoted body))).2 ↔ HasNul body) ↔
      (HasNul body → ∃ p, ¬ HiddenIn body p ∧
        (InPiece NulIn body p ∨ InPiece BackslashIn body p)) ∧
      (¬ HasNul body → ∀ p, InPiece BackslashIn body p → HiddenIn body p)) ∧
    (∀ before chunk after,
      (RefusesChunk other before chunk after ↔ HasNul chunk) ↔ ¬ HasNul chunk) := by
  constructor
  · intro body
    rw [nulError_iff, stringLiteralHasNul_quoted]
    constructor
    · intro h
      refine ⟨h.mpr, fun hno p hp => ?_⟩
      by_contra hvis
      exact hno (h.mp ⟨p, hvis, .inr hp⟩)
    · rintro ⟨hsees, hhides⟩
      refine ⟨fun ⟨p, hvis, hp⟩ => ?_, hsees⟩
      by_contra hno
      rcases hp with hp | hp
      · exact hno ⟨p, hp⟩
      · exact hvis (hhides hno p hp)
  · intro before chunk after
    have hno : ¬ RefusesChunk other before chunk after :=
      fun h => h (checkInterpolation_chunk other before _ after)
    simp only [hno, false_iff]

/-- The zero byte of `\n\x00` is hidden behind the first backslash. -/
theorem nulCheck_misses : ¬ (nulError ∈ (checkString (fun _ => ("unknown", []))
      (.literal "string" (quoted ['\\', 'n', '\\', 'x', '0', '0']))).2 ↔
    HasNul ['\\', 'n', '\\', 'x', '0', '0']) := by
  have hnul : HasNul ['\\', 'n', '\\', 'x', '0', '0'] :=
    ⟨2, [['\\', 'n']], ['\\', 'x'], [['0'], ['0']], 0, by decide, rfl, .inr ⟨rfl, by simp, rfl⟩⟩
  rw [nulError_iff, iff_true_right hnul]
  simp [stringLiteralHasNul]

end Front
