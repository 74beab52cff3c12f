import Mathlib.Data.List.Chain
import Orbit.Front.Proof.Lexer
import Orbit.Front.Tiling

/-!
# Tokens tile the source

For every source the lexer ends, its tokens are slices of the source in order, and white space and
comments stand between them (`lexPlaced_tiles`). Lines and columns are those of the offsets if and
only if no number is followed by the letter of an exponent without digits (`tiled_iff`): the
exponent gives its offset back, but not its columns (`tiled_dangling`).
-/

namespace Front.Lex

variable {source : Text}

/-! ## Gaps -/

/-- The text that a block comment reads. -/
theorem skipBlock_body (fuel : Nat) (depth : Nat) (l : Lexer) (hf : l.rest.length ≤ fuel) :
    ∃ body, l.rest = body ++ (skipBlock fuel depth l).rest ∧
      BlockBody depth body (skipBlock fuel depth l).rest := by
  induction fuel generalizing depth l with
  | zero =>
    have hl : l.rest = [] := List.length_eq_zero_iff.mp (Nat.le_zero.mp hf)
    refine ⟨[], rfl, ?_⟩
    rw [skipBlock, hl]
    cases depth with
    | zero => exact .closed
    | succ depth => exact .atEnd
  | succ fuel ih =>
    rw [skipBlock]
    cases depth with
    | zero =>
      rw [if_pos (.inr rfl)]
      exact ⟨[], rfl, .closed⟩
    | succ depth =>
      cases hl : l.rest with
      | nil =>
        rw [if_pos (.inl rfl), hl]
        exact ⟨[], rfl, .atEnd⟩
      | cons c t =>
        rw [if_neg (by simp), peek_cons hl, peekNext_eq hl]
        have hstep : ∀ (d d' : Char) (u : Text) (depth' : Nat), l.rest = d :: d' :: u →
            ∃ body, u = body ++ (skipBlock fuel depth' l.advance.advance).rest ∧
              BlockBody depth' body (skipBlock fuel depth' l.advance.advance).rest := by
          intro d d' u depth' hu
          have hrest : l.advance.advance.rest = u := by rw [rest_advance, rest_advance, hu]; rfl
          rw [hu, List.length_cons, List.length_cons] at hf
          have hih := ih depth' l.advance.advance (by rw [hrest]; omega)
          rwa [hrest] at hih
        by_cases hopen : c = '/' ∧ t.headD nul = '*'
        · rw [if_pos hopen]
          obtain ⟨rfl, ht⟩ := hopen
          cases t with
          | nil => exact absurd ht (by decide)
          | cons d u =>
            obtain rfl : d = '*' := ht
            obtain ⟨body, hu, hbody⟩ := hstep '/' '*' u (depth + 2) hl
            exact ⟨'/' :: '*' :: body, by rw [List.cons_append, List.cons_append, ← hu], .opens hbody⟩
        · rw [if_neg hopen]
          by_cases hclose : c = '*' ∧ t.headD nul = '/'
          · rw [if_pos hclose, Nat.add_sub_cancel]
            obtain ⟨rfl, ht⟩ := hclose
            cases t with
            | nil => exact absurd ht (by decide)
            | cons d u =>
              obtain rfl : d = '/' := ht
              obtain ⟨body, hu, hbody⟩ := hstep '*' '/' u depth hl
              exact ⟨'*' :: '/' :: body, by rw [List.cons_append, List.cons_append, ← hu],
                .closes hbody⟩
          · rw [if_neg hclose]
            have hrest : l.advance.rest = t := by rw [rest_advance, hl]; rfl
            rw [hl, List.length_cons] at hf
            obtain ⟨body, ht, hbody⟩ := ih (depth + 1) l.advance (by rw [hrest]; omega)
            rw [hrest] at ht
            have hpair : ∀ d e : Char, [d, e] <+: c :: t → c = d ∧ t.headD nul = e := by
              intro d e h
              obtain ⟨r, hr⟩ := h
              obtain ⟨rfl, rfl⟩ := List.cons.inj hr
              exact ⟨rfl, rfl⟩
            refine ⟨c :: body, by rw [List.cons_append, ← ht], .other ?_ ?_ hbody⟩
            · rw [← ht]
              exact fun h => hopen (hpair _ _ h)
            · rw [← ht]
              exact fun h => hclose (hpair _ _ h)

/-- **White space and comments are what the lexer skips.** -/
theorem skipFrom_gap (fuel : Nat) (l : Lexer) (hf : l.rest.length ≤ fuel) :
    ∃ gap, l.rest = gap ++ (skipFrom fuel l).rest ∧ Gap gap (skipFrom fuel l).rest ∧
      Walks l (skipFrom fuel l) := by
  induction fuel generalizing l with
  | zero => exact ⟨[], rfl, .nil, Walks.refl l⟩
  | succ fuel ih =>
    cases hl : l.rest with
    | nil =>
      rw [skipFrom, if_pos hl, ← hl]
      exact ⟨[], rfl, .nil, Walks.refl l⟩
    | cons c t =>
      have hrest : l.advance.rest = t := by rw [rest_advance, hl]; rfl
      rw [hl, List.length_cons] at hf
      rw [skipFrom, if_neg (by rw [hl]; exact List.cons_ne_nil _ _), peek_cons hl, peekNext_eq hl]
      by_cases hw : isWhitespace c = true
      · rw [if_pos hw]
        obtain ⟨gap, hgap, hg, hwalk⟩ := ih l.advance (by rw [hrest]; omega)
        rw [hrest] at hgap
        exact ⟨c :: gap, by rw [List.cons_append, ← hgap], .space hw hg, hwalk.of_advance⟩
      · rw [if_neg hw]
        by_cases hline : c = '/' ∧ t.headD nul = '/'
        · rw [if_pos hline]
          obtain ⟨rfl, ht⟩ := hline
          cases t with
          | nil => exact absurd ht (by decide)
          | cons d u =>
            obtain rfl : d = '/' := ht
            have htwo : l.advance.advance.rest = u := by rw [rest_advance, hrest]; rfl
            have hend := rest_skipWhile l.advance.advance (· ≠ '\n')
            rw [htwo] at hend
            have hlen : (u.dropWhile (· ≠ '\n')).length ≤ u.length :=
              (List.dropWhile_suffix _).length_le
            rw [List.length_cons] at hf
            obtain ⟨gap, hgap, hg, hwalk⟩ :=
              ih (l.advance.advance.skipWhile (· ≠ '\n')) (by rw [hend]; omega)
            rw [hend] at hgap
            refine ⟨'/' :: '/' :: (u.takeWhile (· ≠ '\n') ++ gap), ?_, .line ?_ ?_ hg,
              ((walks_skipWhile _ _).trans hwalk).of_advance.of_advance⟩
            · rw [List.cons_append, List.cons_append, List.append_assoc, ← hgap,
                List.takeWhile_append_dropWhile]
            · intro h
              have := List.mem_takeWhile_imp h
              simp at this
            · rw [← hgap]
              intro e he
              have := List.head?_dropWhile_not (· ≠ '\n') u
              rw [Option.mem_def.mp he] at this
              simpa using this
        · rw [if_neg hline]
          by_cases hblock : c = '/' ∧ t.headD nul = '*'
          · rw [if_pos hblock]
            obtain ⟨rfl, ht⟩ := hblock
            cases t with
            | nil => exact absurd ht (by decide)
            | cons d u =>
              obtain rfl : d = '*' := ht
              have htwo : l.advance.advance.rest = u := by rw [rest_advance, hrest]; rfl
              have hlr : u.length ≤ l.rest.length := by
                rw [hl, List.length_cons, List.length_cons]
                omega
              obtain ⟨body, hu, hbody⟩ :=
                skipBlock_body l.rest.length 1 l.advance.advance (by rw [htwo]; exact hlr)
              rw [htwo] at hu
              have hlen := congrArg List.length hu
              rw [List.length_append] at hlen
              rw [List.length_cons] at hf
              obtain ⟨gap, hgap, hg, hwalk⟩ :=
                ih (skipBlock l.rest.length 1 l.advance.advance) (by omega)
              rw [hgap] at hbody
              refine ⟨'/' :: '*' :: (body ++ gap), ?_, .block hbody hg,
                ((walks_skipBlock _ _ _).trans hwalk).of_advance.of_advance⟩
              rw [List.cons_append, List.cons_append, List.append_assoc, ← hgap, ← hu]
          · rw [if_neg hblock, ← hl]
            exact ⟨[], rfl, .nil, Walks.refl l⟩

theorem skip_gap (l : Lexer) : ∃ gap, l.rest = gap ++ (skipWhitespaceAndComments l).rest ∧
    Gap gap (skipWhitespaceAndComments l).rest ∧ Walks l (skipWhitespaceAndComments l) :=
  skipFrom_gap _ _ (Nat.le_refl _)

/-! ## Steps -/

/-- A call returns the end of the source, or a token: a slice behind a gap. -/
theorem nextPlaced_spec {pre : Text} {l : Lexer} (hs : source = pre ++ l.rest)
    (hnul : nul ∉ l.rest) :
    ∃ gap k, Walks l k ∧ source = pre ++ gap ++ k.rest ∧ Gap gap k.rest ∧
      k = skipWhitespaceAndComments l ∧
      ((k.rest = [] ∧ nextPlaced source l = (⟨⟨.EOF, [], k.line, k.col⟩, source.length, 0⟩, k)) ∨
        ∃ w tag l', w ≠ [] ∧ tag ≠ .EOF ∧ k.rest = w ++ l'.rest ∧ nextToken l =
            (⟨tag, w, k.line, k.col⟩, l') ∧
          nextPlaced source l =
            (⟨⟨tag, w, k.line, k.col⟩, (pre ++ gap).length, w.length⟩, l')) := by
  obtain ⟨gap, hgap, hg, hwalk⟩ := skip_gap l
  refine ⟨gap, skipWhitespaceAndComments l, hwalk, ?_, hg, rfl, ?_⟩
  · rw [List.append_assoc, ← hgap, hs]
  · generalize hk : skipWhitespaceAndComments l = k at hgap hg hwalk
    have hlen : source.length - k.rest.length = (pre ++ gap).length := by
      rw [hs, hgap, ← List.append_assoc, List.length_append, Nat.add_sub_cancel]
    cases hr : k.rest with
    | nil =>
      refine .inl ⟨rfl, ?_⟩
      unfold nextPlaced nextToken
      dsimp only
      rw [hk, if_pos (peek_nil hr), advance_nil hr, hr]
      rfl
    | cons c t =>
      have hc : c ≠ nul := by
        rintro rfl
        apply hnul
        rw [hgap, hr]
        exact List.mem_append_right _ List.mem_cons_self
      obtain ⟨w, hw⟩ := lexToken_suffix hr
      have hwhole : k.rest = (c :: w) ++ (lexToken c k).2.rest := by rw [hr, ← hw]; rfl
      have hnext : nextToken l =
          (⟨(lexToken c k).1, c :: w, k.line, k.col⟩, (lexToken c k).2) := by
        unfold nextToken
        dsimp only
        rw [hk, if_neg (by rw [peek_cons hr]; exact hc), peek_cons hr, slice_append hwhole]
      refine .inr ⟨c :: w, (lexToken c k).1, (lexToken c k).2, List.cons_ne_nil _ _,
        lexToken_ne_EOF c k, hr ▸ hwhole, hnext, ?_⟩
      have hlong : k.rest.length - (lexToken c k).2.rest.length = (c :: w).length := by
        rw [hwhole, List.length_append, Nat.add_sub_cancel]
      unfold nextPlaced
      dsimp only
      rw [hk, hnext, hlen]
      dsimp only
      rw [hlong]

/-- What a run from the offset `start` returns. -/
structure TilesFrom (source : Text) (start : Nat) (toks : List Placed) : Prop where
  inside : ∀ p ∈ toks, start ≤ p.start ∧ p.stop ≤ source.length
  text : ∀ p ∈ toks, p.token.text = (source.drop p.start).take p.length
  increasing : toks.Pairwise fun p q => p.start < q.start ∧ p.stop ≤ q.start
  gaps : toks.IsChain fun p q =>
    Gap ((source.drop p.stop).take (q.start - p.stop)) (source.drop q.start)
  first : ∀ p ∈ toks.head?,
    Gap ((source.drop start).take (p.start - start)) (source.drop p.start)

/-- The gap in front of a token, in terms of the source. -/
theorem gap_slice {pre gap after : Text} (hs : source = pre ++ gap ++ after) (h : Gap gap after) :
    Gap ((source.drop pre.length).take ((pre ++ gap).length - pre.length))
      (source.drop (pre ++ gap).length) := by
  rw [hs, List.drop_left, List.append_assoc, List.drop_left, List.length_append,
    Nat.add_sub_cancel_left, List.take_left]
  exact h

/-- **The tokens of a run tile what is in front of it**, their places aside. -/
theorem lexPlaced_tiles (calls : Nat) {pre : Text} {l : Lexer} (hs : source = pre ++ l.rest)
    (hnul : nul ∉ l.rest) (hcalls : l.rest.length < calls) :
    ∃ toks, lexPlaced source calls l = some toks ∧ TilesFrom source pre.length toks := by
  induction calls generalizing pre l with
  | zero => exact absurd hcalls (Nat.not_lt_zero _)
  | succ calls ih =>
    obtain ⟨gap, k, hwalk, hsource, hgap, -, ⟨hk, hnext⟩ | ⟨w, tag, l', hw, htag, hk, -, hnext⟩⟩ :=
      nextPlaced_spec hs hnul
    · rw [hk, List.append_nil] at hsource
      refine ⟨[⟨⟨.EOF, [], k.line, k.col⟩, source.length, 0⟩], ?_, ?_⟩
      · rw [lexPlaced, hnext]
        rfl
      · have hend : source = pre ++ gap ++ [] := by rw [List.append_nil, hsource]
        have hfirst := gap_slice hend (hk ▸ hgap)
        rw [← hsource] at hfirst
        refine ⟨?_, ?_, List.pairwise_singleton _ _, List.isChain_singleton _, ?_⟩
        · intro p hp
          rw [List.mem_singleton.mp hp]
          refine ⟨?_, Nat.le_refl _⟩
          dsimp only
          rw [hsource, List.length_append]
          omega
        · intro p hp
          rw [List.mem_singleton.mp hp]
          rfl
        · intro p hp
          rw [← Option.some.inj hp]
          exact hfirst
    · have hrest : source = (pre ++ gap ++ w) ++ l'.rest := by
        rw [hsource, hk, List.append_assoc (pre ++ gap)]
      have hpos := List.length_pos_of_ne_nil hw
      have hsuffix := hwalk.suffix
      rw [hk] at hsuffix
      have hle := hsuffix.length_le
      rw [List.length_append] at hle
      obtain ⟨toks, htoks, htiles⟩ := ih hrest
        (fun h => hnul (hsuffix.subset (List.mem_append_right _ h))) (by omega)
      have hfirst := gap_slice hsource hgap
      have hlen : (pre ++ gap ++ w).length = (pre ++ gap).length + w.length := List.length_append
      have hall : source.length = (pre ++ gap ++ w).length + l'.rest.length := by
        rw [← List.length_append, ← hrest]
      generalize hp : (⟨⟨tag, w, k.line, k.col⟩, (pre ++ gap).length, w.length⟩ : Placed) = p
        at hnext
      have hstart : p.start = (pre ++ gap).length := hp ▸ rfl
      have hstop : p.stop = (pre ++ gap ++ w).length := by
        rw [hlen, ← hp]
        rfl
      refine ⟨p :: toks, ?_, ?_⟩
      · rw [lexPlaced, hnext]
        dsimp only
        rw [if_neg (hp ▸ htag), htoks]
        rfl
      · have hafter : ∀ q ∈ toks, p.stop ≤ q.start := fun q hq => by
          rw [hstop]
          exact (htiles.inside q hq).1
        refine ⟨?_, ?_, ?_, ?_, ?_⟩
        · rintro q (_ | ⟨_, hq⟩)
          · rw [hstart, hstop, hall, List.length_append]
            omega
          · have hin := htiles.inside q hq
            rw [hlen, List.length_append] at hin
            exact ⟨by omega, hin.2⟩
        · rintro q (_ | ⟨_, hq⟩)
          · rw [hstart, hsource, List.drop_left, hk, ← hp, List.take_left]
          · exact htiles.text q hq
        · refine List.pairwise_cons.mpr ⟨fun q hq => ⟨?_, hafter q hq⟩, htiles.increasing⟩
          have := hafter q hq
          rw [hstop, hlen] at this
          rw [hstart]
          omega
        · refine List.isChain_cons.mpr ⟨fun q hq => ?_, htiles.gaps⟩
          rw [hstop]
          exact htiles.first q hq
        · intro q hq
          rw [← Option.some.inj hq, hstart]
          exact hfirst

/-! ## Places -/

/-- The cursor has the line and the column of its offset. -/
def Stands (source : Text) (l : Lexer) : Prop :=
  ∃ pre, skipBom source = pre ++ l.rest ∧ l.line = lineOf pre ∧ l.col = colOf pre

theorem lineOf_append (pre : Text) (c : Char) :
    lineOf (pre ++ [c]) = if c = '\n' then lineOf pre + 1 else lineOf pre := by
  unfold lineOf
  rw [List.count_append, List.count_singleton]
  by_cases hc : c = '\n'
  · rw [if_pos hc, hc]
    rfl
  · rw [if_neg hc, beq_false_of_ne hc]
    rfl

theorem colOf_append (pre : Text) (c : Char) :
    colOf (pre ++ [c]) = if c = '\n' then 1 else colOf pre + 1 := by
  unfold colOf
  rw [List.reverse_append, List.reverse_singleton, List.singleton_append]
  by_cases hc : c = '\n'
  · rw [if_pos hc, List.takeWhile_cons_of_neg (by simp [hc])]
    rfl
  · rw [if_neg hc, List.takeWhile_cons_of_pos (by simp [hc])]
    rfl

theorem Stands.advance {l : Lexer} (h : Stands source l) : Stands source l.advance := by
  obtain ⟨pre, hs, hline, hcol⟩ := h
  cases hl : l.rest with
  | nil =>
    rw [advance_nil hl]
    exact ⟨pre, hs, hline, hcol⟩
  | cons c t =>
    refine ⟨pre ++ [c], ?_, ?_⟩
    · rw [rest_advance, hs, hl, List.append_assoc]
      rfl
    · rw [lineOf_append, colOf_append]
      unfold Lexer.advance
      rw [hl]
      dsimp only
      split
      · exact ⟨congrArg (· + 1) hline, rfl⟩
      · exact ⟨hline, congrArg (· + 1) hcol⟩

theorem Stands.walk {l l' : Lexer} (h : Stands source l) (hwalk : Walks l l') :
    Stands source l' := by
  obtain ⟨n, rfl⟩ := hwalk
  induction n generalizing l with
  | zero => exact h
  | succ n ih => exact ih h.advance

theorem Stands.init (source : Text) : Stands source (initLexer source) := ⟨[], rfl, rfl, rfl⟩

/-- The text before what a cursor has in front of it. -/
theorem textBefore_eq {pre rest : Text} (h : skipBom source = pre ++ rest) :
    textBefore source (source.length - rest.length) = pre := by
  have hbom : ∃ mark, source = mark ++ skipBom source := by
    unfold skipBom
    split
    · exact ⟨source.take 3, (List.take_append_drop 3 source).symm⟩
    · exact ⟨[], rfl⟩
  obtain ⟨mark, hs⟩ := hbom
  have hwhole : source = mark ++ pre ++ rest := by rw [List.append_assoc, ← h, ← hs]
  have hmark : source.length - (skipBom source).length = mark.length := by
    conv => lhs; arg 1; rw [hs]
    rw [List.length_append, Nat.add_sub_cancel]
  unfold textBefore
  rw [hmark]
  conv => lhs; rw [hwhole]
  rw [List.length_append, Nat.add_sub_cancel, List.take_left, List.drop_left]

/-- A token at a cursor is placed right if and only if the cursor stands where its text does. -/
theorem right_of_stands {l : Lexer} (h : Stands source l) {p : Placed}
    (hline : p.token.line = l.line) (hcol : p.token.col = l.col)
    (hstart : p.start = source.length - l.rest.length) : p.Right source := by
  obtain ⟨pre, hs, hl, hc⟩ := h
  unfold Placed.Right
  rw [hstart, textBefore_eq hs, hline, hcol]
  exact ⟨hl, hc⟩

/-! ## Exponents -/

theorem walks_radixDigits (radix fuel n : Nat) (after : Bool) (l : Lexer) :
    Walks l (radixDigits radix fuel n after l).2 := by
  induction fuel generalizing n after l with
  | zero => exact Walks.refl l
  | succ fuel ih =>
    rw [radixDigits]
    split
    · exact Walks.refl l
    · split
      · exact (ih _ _ _).of_advance
      · split
        · exact (ih _ _ _).of_advance
        · exact Walks.refl l

theorem walks_decimalDigits (fuel : Nat) (last : Bool) (l : Lexer) :
    Walks l (decimalDigits fuel last l) := by
  induction fuel generalizing last l with
  | zero => exact Walks.refl l
  | succ fuel ih =>
    rw [decimalDigits]
    split
    · exact (ih _ _).of_advance
    · exact Walks.refl l

/-- A number with a prefix has no exponent. -/
theorem walks_prefixed {first : Char} {l : Lexer} (h : mantissa first l = none) :
    Walks l (scanNumber first l).2 := by
  unfold mantissa at h
  unfold scanNumber
  have hwalk := walks_radixDigits (radixOf l.peek) l.rest.length 0 false l.advance
  generalize radixDigits (radixOf l.peek) l.rest.length 0 false l.advance = digits at h hwalk ⊢
  obtain ⟨n, radixEnd⟩ := digits
  dsimp only at h hwalk ⊢
  split
  · exact hwalk.of_advance
  · next hc =>
    rw [if_neg hc] at h
    cases h

theorem scanNumber_mantissa {first : Char} {l m : Lexer} (h : mantissa first l = some m) :
    Walks l m ∧ ∃ isFloat, scanNumber first l = scanExponent isFloat m := by
  unfold mantissa at h
  unfold scanNumber
  have hwalk := walks_radixDigits (radixOf l.peek) l.rest.length 0 false l.advance
  generalize radixDigits (radixOf l.peek) l.rest.length 0 false l.advance = digits at h hwalk ⊢
  obtain ⟨n, radixEnd⟩ := digits
  dsimp only at h hwalk ⊢
  split at h
  · cases h
  · next hc =>
    rw [if_neg hc]
    have hstart : Walks l (if first = '0' ∧ radixOf l.peek > 0 then radixEnd else l) := by
      split
      · exact hwalk.of_advance
      · exact Walks.refl l
    generalize (if first = '0' ∧ radixOf l.peek > 0 then radixEnd else l) = k at h hstart ⊢
    have hdigits := hstart.trans (walks_decimalDigits k.rest.length true k)
    generalize decimalDigits k.rest.length true k = d at h hdigits ⊢
    rw [← Option.some.inj h]
    split
    · exact ⟨hdigits.trans (walks_skipWhile _ _).of_advance, true, rfl⟩
    · exact ⟨hdigits, false, rfl⟩

theorem walks_exponentDigits (l : Lexer) : Walks l.advance (exponentDigits l) := by
  unfold exponentDigits
  split
  · exact Walks.advance _
  · exact Walks.refl _

/-- Whether an exponent has digits. -/
theorem skipDigits_length (l : Lexer) :
    (l.skipWhile isDigit).rest.length = l.rest.length ↔ isDigit l.peek = false := by
  rw [rest_skipWhile]
  cases hl : l.rest with
  | nil =>
    rw [peek_nil hl]
    exact ⟨fun _ => by decide, fun _ => rfl⟩
  | cons c t =>
    rw [peek_cons hl]
    have hle : (t.dropWhile isDigit).length ≤ t.length := (List.dropWhile_suffix _).length_le
    cases hc : isDigit c
    · rw [List.dropWhile_cons_of_neg (by rw [hc]; exact Bool.false_ne_true)]
      exact ⟨fun _ => rfl, fun _ => rfl⟩
    · rw [List.dropWhile_cons_of_pos hc, List.length_cons]
      exact ⟨fun h => by omega, fun h => by cases h⟩

/-- An exponent with digits is read, and where there is no letter nothing is. -/
theorem walks_scanExponent {m : Lexer} (isFloat : Bool)
    (h : ¬ ((m.peek = 'e' ∨ m.peek = 'E') ∧ isDigit (exponentDigits m).peek = false)) :
    Walks m (scanExponent isFloat m).2 := by
  unfold scanExponent
  split
  · next he =>
    dsimp only
    rw [← exponentDigits.eq_1]
    rw [if_neg fun hlen => h ⟨he, (skipDigits_length _).mp hlen⟩]
    exact ((walks_exponentDigits m).trans (walks_skipWhile _ _)).of_advance
  · exact Walks.refl m

/-- **An exponent without digits gives its offset back, but not its columns.** -/
theorem scanExponent_dangling {m : Lexer} (isFloat : Bool) (he : m.peek = 'e' ∨ m.peek = 'E')
    (hd : isDigit (exponentDigits m).peek = false) :
    (scanExponent isFloat m).2.rest = m.rest ∧ (scanExponent isFloat m).2.line = m.line ∧
      m.col < (scanExponent isFloat m).2.col := by
  have hcol : ∀ {l : Lexer} {c : Char}, l.peek = c → c ≠ nul → c ≠ '\n' →
      l.advance.line = l.line ∧ l.advance.col = l.col + 1 := by
    intro l c hc hnul hnl
    cases hl : l.rest with
    | nil => exact absurd (hc.symm.trans (peek_nil hl)) hnul
    | cons d t =>
      rw [peek_cons hl] at hc
      unfold Lexer.advance
      rw [hl]
      dsimp only
      rw [if_neg (hc ▸ hnl)]
      exact ⟨rfl, rfl⟩
  have hone : m.advance.line = m.line ∧ m.advance.col = m.col + 1 := by
    rcases he with he | he <;> exact hcol he (by decide) (by decide)
  have hsign : (exponentDigits m).line = m.line ∧ m.col < (exponentDigits m).col := by
    unfold exponentDigits
    split
    · next hs =>
      have htwo : m.advance.advance.line = m.advance.line ∧
          m.advance.advance.col = m.advance.col + 1 := by
        rcases hs with hs | hs <;> exact hcol hs (by decide) (by decide)
      omega
    · omega
  have hstay : (exponentDigits m).skipWhile isDigit = exponentDigits m := by
    refine (walks_skipWhile _ _).eq (Walks.refl _) ?_
    rw [rest_skipWhile]
    cases hl : (exponentDigits m).rest with
    | nil => rfl
    | cons c t =>
      rw [peek_cons hl] at hd
      rw [List.dropWhile_cons_of_neg (by rw [hd]; exact Bool.false_ne_true)]
  unfold scanExponent
  rw [if_pos he]
  dsimp only
  rw [← exponentDigits.eq_1, hstay, if_pos rfl]
  exact ⟨rfl, hsign⟩

/-! ## Runs -/

/-- A token that is not a number with a dangling exponent only advances the cursor. -/
theorem walks_nextToken {l : Lexer} (h : ¬ Dangling l) : Walks l (nextToken l).2 := by
  obtain ⟨-, -, -, hskip⟩ := skip_gap l
  unfold Dangling at h
  dsimp only at h
  unfold nextToken
  dsimp only
  generalize skipWhitespaceAndComments l = k at h hskip ⊢
  split
  · exact hskip.trans (Walks.advance k)
  · apply hskip.trans
    unfold lexToken
    split
    · exact (walks_skipWhile _ _).of_advance
    · split
      · next hd =>
        apply Walks.of_advance
        cases hm : mantissa k.peek k.advance with
        | none => exact walks_prefixed hm
        | some m =>
          obtain ⟨hwalk, isFloat, hscan⟩ := scanNumber_mantissa hm
          dsimp only
          rw [hscan]
          exact hwalk.trans (walks_scanExponent isFloat fun he => h ⟨hd, m, hm, he⟩)
      · split
        · exact (walks_lexString _).of_advance
        · split
          · exact (walks_lexChar _).of_advance
          · exact ⟨_, rfl⟩

theorem not_alpha_of_digit {c : Char} (h : isDigit c = true) : ¬ isAlpha c = true := by
  unfold isDigit at h
  rw [Bool.and_eq_true, decide_eq_true_eq, decide_eq_true_eq] at h
  unfold isAlpha
  simp only [Bool.or_eq_true, Bool.and_eq_true, decide_eq_true_eq]
  rintro ((hc | hc) | rfl)
  · exact absurd (Char.le_trans hc.1 h.2) (by decide)
  · exact absurd (Char.le_trans hc.1 h.2) (by decide)
  · exact absurd h.2 (by decide)

/-- Behind a number with a dangling exponent the lexer stands at the letter, with a column that is
too large. -/
theorem nextToken_dangling {l : Lexer} (hl : Stands source l) (h : Dangling l) :
    ∃ m, Stands source m ∧ (nextToken l).2.rest = m.rest ∧ (m.peek = 'e' ∨ m.peek = 'E') ∧
      m.col < (nextToken l).2.col := by
  obtain ⟨-, -, -, hskip⟩ := skip_gap l
  obtain ⟨hd, m, hm, he, hnone⟩ := h
  have hk := hl.walk hskip
  unfold nextToken
  dsimp only
  generalize skipWhitespaceAndComments l = k at hd hm hk ⊢
  have hnul : k.peek ≠ nul := fun h => by rw [h] at hd; exact absurd hd (by decide)
  obtain ⟨hwalk, isFloat, hscan⟩ := scanNumber_mantissa hm
  obtain ⟨hrest, -, hcol⟩ := scanExponent_dangling isFloat he hnone
  rw [if_neg hnul]
  unfold lexToken
  rw [if_neg (not_alpha_of_digit hd), if_pos hd]
  dsimp only
  rw [hscan]
  exact ⟨m, hk.walk hwalk.of_advance, hrest, he, hcol⟩

/-- In front of a letter there is no gap. -/
theorem skip_letter {l : Lexer} (h : l.peek = 'e' ∨ l.peek = 'E') :
    skipWhitespaceAndComments l = l := by
  have hother : ¬ isWhitespace l.peek = true ∧ ¬ (l.peek = '/' ∧ l.peekNext = '/') ∧
      ¬ (l.peek = '/' ∧ l.peekNext = '*') := by
    rcases h with h | h <;> rw [h] <;>
      exact ⟨by decide, fun hc => absurd hc.1 (by decide), fun hc => absurd hc.1 (by decide)⟩
  unfold skipWhitespaceAndComments
  cases hl : l.rest with
  | nil => rfl
  | cons c t =>
    rw [List.length_cons, skipFrom, if_neg (by rw [hl]; exact List.cons_ne_nil _ _),
      if_neg hother.1, if_neg hother.2.1, if_neg hother.2.2]

theorem nextPlaced_col (l : Lexer) :
    (nextPlaced source l).1.token.col = (skipWhitespaceAndComments l).col := by
  unfold nextPlaced nextToken
  dsimp only
  split <;> rfl

theorem nextPlaced_start (l : Lexer) : (nextPlaced source l).1.start =
    source.length - (skipWhitespaceAndComments l).rest.length := rfl

/-- A run returns the token of its first call. -/
theorem lexPlaced_head {calls : Nat} {l : Lexer} {toks : List Placed}
    (h : lexPlaced source calls l = some toks) : (nextPlaced source l).1 ∈ toks := by
  cases calls with
  | zero => cases h
  | succ calls =>
    rw [lexPlaced] at h
    dsimp only at h
    split at h
    · rw [← Option.some.inj h]
      exact List.mem_singleton_self _
    · obtain ⟨more, -, rfl⟩ := Option.map_eq_some_iff.mp h
      exact List.mem_cons_self

/-- **The tokens of a run are placed right if and only if** no number in it has a dangling
exponent. -/
theorem lexPlaced_right (calls : Nat) {pre : Text} {l : Lexer} (hs : source = pre ++ l.rest)
    (hl : Stands source l) (hnul : nul ∉ l.rest) {toks : List Placed}
    (htoks : lexPlaced source calls l = some toks) :
    (∀ p ∈ toks, p.Right source) ↔ ∀ k, Relation.ReflTransGen LexStep l k → ¬ Dangling k := by
  induction calls generalizing pre l toks with
  | zero => cases htoks
  | succ calls ih =>
    obtain ⟨gap, k, hwalk, hsource, -, hk, ⟨hend, hnext⟩ |
      ⟨w, tag, l', hw, htag, hrest, htoken, hnext⟩⟩ := nextPlaced_spec hs hnul
    · have htag : (nextToken l).1.tag = .EOF := by
        have : (nextPlaced source l).1.token = (nextToken l).1 := rfl
        rw [← this, hnext]
      rw [lexPlaced, hnext] at htoks
      rw [← Option.some.inj htoks]
      refine ⟨fun _ l' hreach => ?_, fun _ p hp => ?_⟩
      · rcases hreach.cases_head with rfl | ⟨k', hstep, -⟩
        · rintro ⟨hd, -⟩
          rw [← hk, peek_nil hend] at hd
          exact absurd hd (by decide)
        · exact absurd htag hstep.1
      · rw [List.mem_singleton.mp hp]
        exact right_of_stands (hl.walk hwalk) rfl rfl (by rw [hend]; rfl)
    · have hstep : LexStep l l' := by
        refine ⟨?_, ?_⟩
        · rw [htoken]
          exact htag
        · rw [htoken]
      have hnext' : (nextToken l).2 = l' := hstep.2.symm
      have hsource' : source = (pre ++ gap ++ w) ++ l'.rest := by
        rw [hsource, hrest, List.append_assoc (pre ++ gap)]
      rw [lexPlaced, hnext] at htoks
      dsimp only at htoks
      rw [if_neg htag, Option.map_eq_some_iff] at htoks
      obtain ⟨more, hmore, rfl⟩ := htoks
      by_cases hd : Dangling l
      · -- the next token is the letter, and its column is too large
        refine ⟨fun hright => ?_, fun h => absurd hd (h l .refl)⟩
        obtain ⟨m, ⟨pre', hm, -, hcol⟩, hmrest, he, hlt⟩ := nextToken_dangling hl hd
        rw [hnext'] at hmrest hlt
        rw [← peek_congr hmrest] at he
        have hplaced := (hright _ (List.mem_cons_of_mem _ (lexPlaced_head hmore))).2
        rw [nextPlaced_col, nextPlaced_start, skip_letter he, hmrest, textBefore_eq hm] at hplaced
        omega
      · have hl' : Stands source l' := hnext' ▸ hl.walk (walks_nextToken hd)
        have hsub : nul ∉ l'.rest := by
          intro h
          have hsuffix := hwalk.suffix
          rw [hrest] at hsuffix
          exact hnul (hsuffix.subset (List.mem_append_right _ h))
        have hih := ih hsource' hl' hsub hmore
        have hfirst : (⟨⟨tag, w, k.line, k.col⟩, (pre ++ gap).length, w.length⟩ : Placed).Right
            source := by
          have hlen : source.length = (pre ++ gap).length + k.rest.length := by
            rw [← List.length_append, ← hsource]
          exact right_of_stands (hl.walk hwalk) rfl rfl (by dsimp only; omega)
        rw [List.forall_mem_cons, hih]
        refine ⟨fun h j hj => ?_, fun h => ⟨hfirst, fun j hj => h j (.head hstep hj)⟩⟩
        rcases hj.cases_head with rfl | ⟨j', hj', hreach⟩
        · exact hd
        · rw [hj'.2, hnext'] at hreach
          exact h.2 j hreach

/-- **The tokens of a source tile it if and only if** no number in it is followed by the letter of
an exponent without digits. -/
theorem tiled_iff (source : Text) (hnul : nul ∉ source) :
    (∃ toks, lexPlaced source (source.length + 1) (initLexer source) = some toks ∧
      Tiled source toks) ↔ ∀ l, Lexes source l → ¬ Dangling l := by
  have hmark : ∃ mark, source = mark ++ (initLexer source).rest := by
    unfold initLexer skipBom
    dsimp only
    split
    · exact ⟨source.take 3, (List.take_append_drop 3 source).symm⟩
    · exact ⟨[], rfl⟩
  obtain ⟨mark, hs⟩ := hmark
  have hsub : nul ∉ (initLexer source).rest := fun h =>
    hnul (hs ▸ List.mem_append_right mark h)
  have hlen := congrArg List.length hs
  rw [List.length_append] at hlen
  obtain ⟨toks, htoks, htiles⟩ := lexPlaced_tiles (source.length + 1) hs hsub (by omega)
  have hright := lexPlaced_right (source.length + 1) hs (Stands.init source) hsub htoks
  rw [htoks]
  constructor
  · rintro ⟨toks', heq, htiled⟩
    rw [← Option.some.inj heq] at htiled
    exact hright.mp htiled.place
  · intro h
    exact ⟨toks, rfl, fun p hp => (htiles.inside p hp).2, htiles.text, htiles.increasing,
      htiles.gaps, hright.mpr h⟩

theorem tiled_iff_sum : nul ∉ ['1', '+', 'x'] ∧
    ((∃ toks, lexPlaced ['1', '+', 'x'] 4 (initLexer ['1', '+', 'x']) = some toks ∧
      Tiled ['1', '+', 'x'] toks) ↔ ∀ l, Lexes ['1', '+', 'x'] l → ¬ Dangling l) :=
  ⟨by decide, tiled_iff ['1', '+', 'x'] (by decide)⟩

/-- `2e` is the number 2 and the name `e`, in columns 1 and 3. -/
theorem tiled_dangling : ¬ ∃ toks,
    lexPlaced ['2', 'e'] 3 (initLexer ['2', 'e']) = some toks ∧ Tiled ['2', 'e'] toks := by
  rintro ⟨toks, htoks, htiled⟩
  rw [show lexPlaced ['2', 'e'] 3 (initLexer ['2', 'e']) =
    some [⟨⟨.IntegerLiteral, ['2'], 1, 1⟩, 0, 1⟩, ⟨⟨.Identifier, ['e'], 1, 3⟩, 1, 1⟩,
      ⟨⟨.EOF, [], 1, 4⟩, 2, 0⟩] from by decide +kernel] at htoks
  have hplace := htiled.place ⟨⟨.Identifier, ['e'], 1, 3⟩, 1, 1⟩ (by
    rw [← Option.some.inj htoks]
    exact List.mem_cons_of_mem _ List.mem_cons_self)
  exact absurd hplace.2 (by decide)

end Front.Lex
