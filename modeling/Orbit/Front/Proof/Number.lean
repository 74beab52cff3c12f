import Orbit.Front.Proof.Literal
import Orbit.Front.Proof.Tiling

/-!
# The text of an integer

The scan of a number reads a run of digits and single underscores (`digitRun`). The run is digits
with underscores only between them when every underscore in it stands before a digit
(`digitRun_digits`), so the token of an integer is a literal of the grammar exactly where its text is
`NumberOk` (`numberText_ok`), and then its value is the number the literal denotes
(`integers_ok_iff`).
-/

namespace Front.Lex

/-! ## Runs of digits -/

/-- Digits and single underscores, an underscore at the start only when `sep` holds. -/
def digitRun (p : Char → Bool) : (sep : Bool) → Text → Text
  | _, [] => []
  | sep, c :: t =>
    if p c then c :: digitRun p true t else if c = '_' ∧ sep = true then c :: digitRun p false t
    else []

theorem isRadixDigit_underscore (radix : Nat) : isRadixDigit '_' radix = false := by
  simp [isRadixDigit, isDigit]

theorem isRadixDigit_nul (radix : Nat) : isRadixDigit nul radix = false := by
  simp [isRadixDigit, isDigit, nul]

theorem decimalDigits_run (fuel : Nat) (sep : Bool) (l : Lexer) (hf : l.rest.length ≤ fuel) :
    l.rest = digitRun isDigit sep l.rest ++ (decimalDigits fuel sep l).rest := by
  induction fuel generalizing sep l with
  | zero =>
    have : l.rest = [] := List.length_eq_zero_iff.mp (Nat.le_zero.mp hf)
    rw [decimalDigits, this]
    rfl
  | succ fuel ih =>
    rw [decimalDigits]
    cases hl : l.rest with
    | nil =>
      rw [peek_nil hl, if_neg (by simp [isDigit, nul]), hl]
      rfl
    | cons c t =>
      have hrest : l.advance.rest = t := by rw [rest_advance, hl, List.tail_cons]
      have hlen : l.advance.rest.length ≤ fuel := by
        rw [hrest]
        rw [hl, List.length_cons] at hf
        omega
      rw [peek_cons hl, digitRun]
      by_cases hd : isDigit c = true
      · have hc : (isDigit c || decide (c = '_') && sep) = true := by rw [hd]; rfl
        rw [if_pos hc, if_pos hd, hd, List.cons_append, ← hrest, ← ih true _ hlen]
      · rw [if_neg hd]
        by_cases hu : c = '_' ∧ sep = true
        · have hc : (isDigit c || decide (c = '_') && sep) = true := by simp [hu.1, hu.2]
          rw [if_pos hc, if_pos hu, Bool.eq_false_iff.mpr hd, List.cons_append, ← hrest,
            ← ih false _ hlen]
        · have hc : ¬(isDigit c || decide (c = '_') && sep) = true := by simpa [hd] using hu
          rw [if_neg hc, if_neg hu, hl, List.nil_append]

theorem radixDigits_run (radix fuel n : Nat) (after : Bool) (l : Lexer) (hf : l.rest.length ≤ fuel)
    (ha : after = true → 0 < n) :
    l.rest = digitRun (fun c => isRadixDigit c radix) (!after && decide (0 < n)) l.rest ++
        (radixDigits radix fuel n after l).2.rest ∧
      (0 < (radixDigits radix fuel n after l).1 ↔ 0 < n ∨ isRadixDigit l.peek radix = true) := by
  induction fuel generalizing n after l with
  | zero =>
    have hnil : l.rest = [] := List.length_eq_zero_iff.mp (Nat.le_zero.mp hf)
    rw [radixDigits, peek_nil hnil, isRadixDigit_nul, hnil]
    exact ⟨rfl, by simp⟩
  | succ fuel ih =>
    rw [radixDigits]
    cases hl : l.rest with
    | nil =>
      rw [if_pos rfl, peek_nil hl, isRadixDigit_nul, hl]
      exact ⟨rfl, by simp⟩
    | cons c t =>
      have hrest : l.advance.rest = t := by rw [rest_advance, hl, List.tail_cons]
      have hlen : l.advance.rest.length ≤ fuel := by
        rw [hrest]
        rw [hl, List.length_cons] at hf
        omega
      rw [if_neg (List.cons_ne_nil c t), peek_cons hl, digitRun]
      by_cases hd : isRadixDigit c radix = true
      · obtain ⟨hrun, hn⟩ := ih (n + 1) false l.advance hlen (fun h => by cases h)
        rw [if_pos hd, if_pos hd, List.cons_append, ← hrest]
        refine ⟨?_, by rw [hn]; simp [hd]⟩
        simpa using congrArg (c :: ·) hrun
      · rw [if_neg hd, if_neg hd]
        by_cases hu : c = '_' ∧ (!after && decide (0 < n)) = true
        · have hu' : c = '_' ∧ after = false ∧ n > 0 := by simpa using hu
          obtain ⟨hrun, hn⟩ := ih n true l.advance hlen (fun _ => hu'.2.2)
          rw [if_pos hu', if_pos hu, List.cons_append, ← hrest]
          refine ⟨?_, by rw [hn]; simp [hu'.2.2]⟩
          simpa using congrArg (c :: ·) hrun
        · have hc : ¬(c = '_' ∧ after = false ∧ n > 0) := by simpa using hu
          rw [if_neg hc, if_neg hu, hl, List.nil_append]
          refine ⟨rfl, ?_⟩
          simp [hd]

section
variable {p : Char → Bool} (hu : p '_' = false) (hn : p nul = false)

include hu in
theorem ne_underscore {c : Char} (hc : p c = true) : c ≠ '_' := by
  rintro rfl
  rw [hu] at hc
  cases hc

include hu in
theorem separatorsOk_digit {c : Char} (hc : p c = true) (t : Text) :
    SeparatorsOk p (c :: t) ↔ SeparatorsOk p t := by
  have hne := ne_underscore hu hc
  unfold SeparatorsOk
  rw [List.takeWhile_cons_of_pos (by simp [hc])]
  constructor
  · intro h u v he
    exact h (c :: u) v (by rw [he, List.cons_append])
  · intro h u v he
    cases u with
    | nil => exact absurd (List.cons.inj he).1 hne
    | cons d u => exact h u v (List.cons.inj he).2

include hn in
theorem separatorsOk_underscore (t : Text) :
    SeparatorsOk p ('_' :: t) ↔ p (t.headD nul) = true ∧ SeparatorsOk p t := by
  have hhead : p ((t.takeWhile fun c => p c || c = '_').headD nul) = p (t.headD nul) := by
    cases t with
    | nil => rfl
    | cons d t =>
      by_cases hd : (p d || decide (d = '_')) = true
      · rw [List.takeWhile_cons_of_pos (p := fun c => p c || decide (c = '_')) hd]
        rfl
      · rw [List.takeWhile_cons_of_neg (p := fun c => p c || decide (c = '_')) hd,
          List.headD_nil, List.headD_cons, hn]
        simp only [Bool.or_eq_true, not_or, Bool.not_eq_true] at hd
        exact hd.1.symm
  unfold SeparatorsOk
  rw [List.takeWhile_cons_of_pos (by simp)]
  constructor
  · intro h
    refine ⟨hhead ▸ h [] _ rfl, fun u v he => h ('_' :: u) v (by rw [he, List.cons_append])⟩
  · rintro ⟨hd, h⟩ u v he
    cases u with
    | nil =>
      rw [← (List.cons.inj he).2, hhead]
      exact hd
    | cons d u => exact h u v (List.cons.inj he).2

theorem separatorsOk_other {c : Char} (hc : p c = false) (hne : c ≠ '_') (t : Text) :
    SeparatorsOk p (c :: t) := by
  intro u v he
  rw [List.takeWhile_cons_of_neg (by simp [hc, hne])] at he
  simp at he

include hn in
/-- At a digit it does not matter whether an underscore may stand there. -/
theorem digitRun_digit {t : Text} (h : p (t.headD nul) = true) (sep : Bool) :
    ∃ d t', t = d :: t' ∧ p d = true ∧ digitRun p sep t = d :: digitRun p true t' := by
  cases t with
  | nil =>
    rw [List.headD_nil, hn] at h
    cases h
  | cons d t =>
    have hd : p d = true := h
    exact ⟨d, t, rfl, hd, by rw [digitRun, if_pos hd]⟩

theorem digits_cons_iff {c d : Char} {w : Text} (hc : p c = true) (hd : d ≠ '_') :
    Digits p (c :: d :: w) ↔ Digits p (d :: w) := by
  constructor
  · intro h
    cases h with
    | more _ h => exact h
    | separated _ h => exact absurd rfl hd
  · exact fun h => Digits.more hc h

theorem digits_separated_iff {c : Char} {w : Text} (hc : p c = true) (hu : p '_' = false) :
    Digits p (c :: '_' :: w) ↔ Digits p w := by
  constructor
  · intro h
    cases h with
    | more _ h =>
      cases h with
      | one h => rw [hu] at h; cases h
      | more h _ => rw [hu] at h; cases h
      | separated h _ => rw [hu] at h; cases h
    | separated _ h => exact h
  · exact fun h => Digits.separated hc h

include hu hn in
/-- **A run is digits with underscores between them** when every underscore in it stands before a
digit. -/
theorem digitRun_digits {c : Char} (hc : p c = true) (t : Text) :
    Digits p (c :: digitRun p true t) ↔ SeparatorsOk p t := by
  induction hlen : t.length using Nat.strong_induction_on generalizing c t with
  | _ n ih =>
    subst hlen
    cases t with
    | nil => exact ⟨fun _ u v he => by simp at he, fun _ => Digits.one hc⟩
    | cons d t =>
      by_cases hd : p d = true
      · rw [digitRun, if_pos hd, digits_cons_iff hc (ne_underscore hu hd),
          ih t.length (Nat.lt_succ_self _) hd t rfl, separatorsOk_digit hu hd]
      · rw [digitRun, if_neg hd]
        by_cases hsep : d = '_'
        · subst hsep
          rw [if_pos ⟨rfl, rfl⟩, digits_separated_iff hc hu, separatorsOk_underscore hn]
          by_cases hnext : p (t.headD nul) = true
          · obtain ⟨e, t', rfl, he, hrun⟩ := digitRun_digit hn hnext false
            rw [hrun, ih t'.length (by simp only [List.length_cons]; omega) he t' rfl,
              separatorsOk_digit hu he]
            exact ⟨fun h => ⟨he, h⟩, fun h => h.2⟩
          · have hstop : digitRun p false t = [] := by
              cases t with
              | nil => rfl
              | cons e t => rw [digitRun, if_neg (by simpa using hnext), if_neg (by simp)]
            rw [hstop]
            refine ⟨fun h => ?_, fun h => absurd h.1 hnext⟩
            cases h
        · rw [if_neg (fun h => hsep h.1)]
          exact ⟨fun _ => separatorsOk_other (by simpa using hd) hsep t, fun _ => Digits.one hc⟩

end

/-! ## The scan -/

/-- What is read of a text that starts with a digit, when it is an integer. -/
def numberText : Text → Text
  | '0' :: m :: t =>
    if 0 < radixOf m then
      '0' :: m :: (if isRadixDigit (t.headD nul) (radixOf m) then
        digitRun (fun c => isRadixDigit c (radixOf m)) false t else digitRun isDigit true t)
    else '0' :: digitRun isDigit true (m :: t)
  | c :: t => c :: digitRun isDigit true t
  | [] => []

/-- An exponent that makes no float leaves the text where it is. -/
theorem scanExponent_integer {l : Lexer} (h : (scanExponent false l).1 = false) :
    (scanExponent false l).2.rest = l.rest := by
  unfold scanExponent at h ⊢
  split
  · rename_i he
    rw [if_pos he] at h
    dsimp only at h ⊢
    generalize (if l.advance.peek = '+' ∨ l.advance.peek = '-' then
      l.advance.advance else l.advance) = sign at h ⊢
    split
    · rfl
    · rename_i hd
      rw [if_neg hd] at h
      cases h
  · rfl

theorem scanExponent_float (l : Lexer) : (scanExponent true l).1 = true := by
  unfold scanExponent
  split
  · dsimp only
    generalize (if l.advance.peek = '+' ∨ l.advance.peek = '-' then
      l.advance.advance else l.advance) = sign
    split <;> rfl
  · rfl

/-- A number without digits behind its prefix, or without a prefix: its decimal digits are read. -/
theorem scanDecimal {l : Lexer}
    (h : (let k := decimalDigits l.rest.length true l
      let r := if k.peek = '.' ∧ isDigit k.peekNext then (true, k.advance.skipWhile isDigit)
        else (false, k)
      scanExponent r.1 r.2).1 = false) :
    l.rest = digitRun isDigit true l.rest ++
      (let k := decimalDigits l.rest.length true l
      let r := if k.peek = '.' ∧ isDigit k.peekNext then (true, k.advance.skipWhile isDigit)
        else (false, k)
      scanExponent r.1 r.2).2.rest := by
  have hrun := decimalDigits_run l.rest.length true l (Nat.le_refl _)
  dsimp only at h ⊢
  split at h
  · rw [scanExponent_float] at h
    cases h
  · rename_i hd
    rw [if_neg hd, scanExponent_integer h]
    exact hrun

/-- **The text of an integer.** -/
theorem scanNumber_text {l : Lexer} {c : Char} {t : Text} (hl : l.rest = c :: t)
    (h : (scanNumber c l.advance).1 = false) :
    slice l (scanNumber c l.advance).2 = numberText (c :: t) := by
  have hrest : l.advance.rest = t := by rw [rest_advance, hl, List.tail_cons]
  apply slice_append
  unfold scanNumber at h ⊢
  by_cases hp : c = '0' ∧ radixOf l.advance.peek > 0
  · obtain ⟨rfl, hm⟩ := hp
    cases ht : t with
    | nil =>
      rw [peek_nil (hrest.trans ht)] at hm
      exact absurd hm (by decide)
    | cons m t' =>
      have hpeek : l.advance.peek = m := peek_cons (hrest.trans ht)
      have hrest' : l.advance.advance.rest = t' := by
        rw [rest_advance, hrest, ht, List.tail_cons]
      have hlen : l.advance.advance.rest.length ≤ l.advance.rest.length := by
        rw [hrest', hrest, ht, List.length_cons]
        omega
      have hhead : l.advance.advance.peek = t'.headD nul := by rw [Lexer.peek, hrest']
      rw [hpeek] at hm h ⊢
      obtain ⟨hrun, hn⟩ := radixDigits_run (radixOf m) l.advance.rest.length 0 false
        l.advance.advance hlen (fun h => by cases h)
      rw [hhead] at hn
      rw [hrest'] at hrun
      generalize radixDigits (radixOf m) l.advance.rest.length 0 false l.advance.advance = digits
        at h hrun hn ⊢
      obtain ⟨n, radixEnd⟩ := digits
      dsimp only at h hrun hn ⊢
      have hnum : numberText ('0' :: m :: t') = '0' :: m ::
          (if isRadixDigit (t'.headD nul) (radixOf m) then
            digitRun (fun c => isRadixDigit c (radixOf m)) false t' else digitRun isDigit true t') :=
        if_pos hm
      rw [hnum]
      by_cases hd : isRadixDigit (t'.headD nul) (radixOf m) = true
      · have hpos : 0 < n := hn.mpr (.inr hd)
        have hc : '0' = '0' ∧ radixOf m > 0 ∧ n > 0 := ⟨rfl, hm, hpos⟩
        rw [if_pos hd, if_pos hc, hl, ht]
        simpa using hrun
      · have hzero : ¬0 < n := fun hpos => (hn.mp hpos).elim (Nat.lt_irrefl 0) hd
        have hstop : digitRun (fun c => isRadixDigit c (radixOf m)) false t' = [] := by
          cases t' with
          | nil => rfl
          | cons e t' => rw [digitRun, if_neg (by simpa using hd), if_neg (by simp)]
        have hend : radixEnd.rest = t' := by simpa [hstop] using hrun.symm
        have hc : ¬('0' = '0' ∧ radixOf m > 0 ∧ n > 0) := fun hc => hzero hc.2.2
        have hc' : '0' = '0' ∧ radixOf m > 0 := ⟨rfl, hm⟩
        rw [if_neg hd, hl, ht]
        rw [if_neg hc, if_pos hc'] at h ⊢
        have hdec := scanDecimal h
        subst hend
        exact congrArg (fun t => '0' :: m :: t) hdec
  · have hnum : numberText (c :: t) = c :: digitRun isDigit true t := by
      cases t with
      | nil => unfold numberText; split <;> simp_all
      | cons m t =>
        rw [peek_cons hrest] at hp
        by_cases hc : c = '0'
        · subst hc
          exact if_neg fun hm => hp ⟨rfl, hm⟩
        · unfold numberText
          split <;> simp_all
    generalize radixDigits (radixOf l.advance.peek) l.advance.rest.length 0 false l.advance.advance =
      digits at h ⊢
    obtain ⟨n, radixEnd⟩ := digits
    dsimp only at h ⊢
    have hc : ¬(c = '0' ∧ radixOf l.advance.peek > 0 ∧ n > 0) := fun hc => hp ⟨hc.1, hc.2.1⟩
    rw [if_neg hc, if_neg hp] at h ⊢
    rw [hnum, hl, ← hrest]
    exact congrArg (c :: ·) (scanDecimal h)

/-! ## Literals of the grammar -/

theorem isDigit_underscore : isDigit '_' = false := by decide

theorem isDigit_nul : isDigit nul = false := by decide

/-- The letter of a prefix is no part of a decimal literal. -/
theorem marker_not_decimal {m : Char} (hm : 0 < radixOf m) : isDigit m = false ∧ m ≠ '_' := by
  rcases mem_markers hm with rfl | rfl | rfl | rfl | rfl | rfl <;> decide

theorem intLiteral_prefixed {m : Char} (hm : 0 < radixOf m) (w : Text) :
    IntLiteral ('0' :: m :: w) ↔ Digits (fun c => isRadixDigit c (radixOf m)) w := by
  obtain ⟨hd, hu⟩ := marker_not_decimal hm
  constructor
  · rintro (h | ⟨-, h⟩)
    · cases h with
      | more _ h =>
        cases h with
        | one h => rw [hd] at h; cases h
        | more h _ => rw [hd] at h; cases h
        | separated h _ => rw [hd] at h; cases h
      | separated _ _ => exact absurd rfl hu
    · exact h
  · exact fun h => .prefixed hm h

/-- Without a prefix a literal is decimal. -/
theorem intLiteral_decimal {c : Char} {w : Text} (h : c = '0' → radixOf (w.headD nul) = 0) :
    IntLiteral (c :: w) ↔ Digits isDigit (c :: w) := by
  constructor
  · intro hl
    generalize hw : c :: w = v at hl
    cases hl with
    | decimal hd => exact hd
    | prefixed hm _ =>
      obtain ⟨rfl, rfl⟩ := List.cons.inj hw
      rw [List.headD_cons] at h
      rw [h rfl] at hm
      cases hm
  · exact .decimal

theorem radixOf_run (t : Text) : radixOf ((digitRun isDigit true t).headD nul) = 0 := by
  cases t with
  | nil => rfl
  | cons d t =>
    rw [digitRun]
    by_contra h
    split at h
    · rename_i hd
      rw [(marker_not_decimal (m := d) (Nat.pos_of_ne_zero h)).1] at hd
      cases hd
    · split at h
      · rename_i hu
        exact (marker_not_decimal (Nat.pos_of_ne_zero h)).2 hu.1
      · exact h rfl

theorem digits_head {p : Char → Bool} {w : Text} (h : Digits p w) : p (w.headD nul) = true := by
  cases h with
  | one hc => exact hc
  | more hc _ => exact hc
  | separated hc _ => exact hc

/-- The first character of a run stands at the start of the text. -/
theorem run_head {p : Char → Bool} {sep : Bool} {t : Text} {q : Char → Bool} (hn : q nul = false)
    (h : q ((digitRun p sep t).headD nul) = true) : q (t.headD nul) = true := by
  cases t with
  | nil => exact h
  | cons d t =>
    rw [digitRun] at h
    split at h
    · exact h
    · split at h
      · exact h
      · rw [List.headD_nil, hn] at h
        cases h

theorem decimal_ok {c : Char} (hc : isDigit c = true) (t : Text) :
    IntLiteral (c :: digitRun isDigit true t) ↔ SeparatorsOk isDigit (c :: t) := by
  rw [intLiteral_decimal fun _ => radixOf_run t,
    digitRun_digits isDigit_underscore isDigit_nul hc, separatorsOk_digit isDigit_underscore hc]

/-- **An integer is read as a literal of the grammar** exactly where its text is right. -/
theorem numberText_ok {c : Char} (hc : isDigit c = true) (t : Text) :
    IntLiteral (numberText (c :: t)) ↔ NumberOk (c :: t) := by
  by_cases h0 : c = '0'
  · subst h0
    cases t with
    | nil => exact decimal_ok hc []
    | cons m t =>
      have hu := isRadixDigit_underscore (radixOf m)
      have hn := isRadixDigit_nul (radixOf m)
      by_cases hm : 0 < radixOf m
      · have hok : NumberOk ('0' :: m :: t) ↔ isRadixDigit (t.headD nul) (radixOf m) = true ∧
            SeparatorsOk (fun c => isRadixDigit c (radixOf m)) t := iff_of_eq (if_pos hm)
        rw [hok]
        by_cases hd : isRadixDigit (t.headD nul) (radixOf m) = true
        · obtain ⟨d, t', rfl, hd', hrun⟩ :=
            digitRun_digit (p := fun c => isRadixDigit c (radixOf m)) hn hd false
          have htext : numberText ('0' :: m :: d :: t') =
              '0' :: m :: d :: digitRun (fun c => isRadixDigit c (radixOf m)) true t' := by
            rw [← hrun]
            exact (if_pos hm).trans (congrArg (fun w => '0' :: m :: w) (if_pos hd))
          rw [htext, intLiteral_prefixed hm,
            digitRun_digits (p := fun c => isRadixDigit c (radixOf m)) hu hn hd',
            separatorsOk_digit (p := fun c => isRadixDigit c (radixOf m)) hu hd']
          exact ⟨fun h => ⟨hd, h⟩, fun h => h.2⟩
        · have htext : numberText ('0' :: m :: t) = '0' :: m :: digitRun isDigit true t :=
            (if_pos hm).trans (congrArg (fun w => '0' :: m :: w) (if_neg hd))
          rw [htext, intLiteral_prefixed hm]
          refine ⟨fun h => absurd ?_ hd, fun h => absurd h.1 hd⟩
          exact run_head (q := fun c => isRadixDigit c (radixOf m)) hn (digits_head h)
      · have hok : NumberOk ('0' :: m :: t) ↔ SeparatorsOk isDigit ('0' :: m :: t) :=
          iff_of_eq (if_neg hm)
        have htext : numberText ('0' :: m :: t) = '0' :: digitRun isDigit true (m :: t) := if_neg hm
        rw [hok, htext]
        exact decimal_ok hc (m :: t)
  · have hok : NumberOk (c :: t) ↔ SeparatorsOk isDigit (c :: t) := by
      unfold NumberOk
      split
      · simp_all
      · rfl
    have htext : numberText (c :: t) = c :: digitRun isDigit true t := by
      unfold numberText
      split <;> simp_all
    rw [hok, htext]
    exact decimal_ok hc t

/-! ## Tokens -/

theorem lexString_ne_integer (l : Lexer) : (lexString l).1 ≠ .IntegerLiteral := by
  rw [lexString]
  split
  · dsimp only
    split
    · split <;> exact TokType.noConfusion
    · exact TokType.noConfusion
  · dsimp only
    split <;> exact TokType.noConfusion

/-- An integer token starts with a digit and is what is read of the text there. -/
theorem nextToken_integer {l : Lexer} (h : (nextToken l).1.tag = .IntegerLiteral) :
    ∃ c t, (skipWhitespaceAndComments l).rest = c :: t ∧ isDigit c = true ∧
      (nextToken l).1.text = numberText (c :: t) := by
  unfold nextToken at h ⊢
  dsimp only at h ⊢
  generalize skipWhitespaceAndComments l = k at h ⊢
  split at h
  · cases h
  · rename_i hnul
    rw [if_neg hnul]
    cases hk : k.rest with
    | nil => exact absurd (peek_nil hk) hnul
    | cons c t =>
      rw [peek_cons hk] at h ⊢
      unfold lexToken at h ⊢
      split at h
      · exact absurd h (matchKeyword_ne (.inl rfl) _)
      · rename_i halpha
        rw [if_neg halpha]
        split at h
        · rename_i hd
          rw [if_pos hd]
          dsimp only at h ⊢
          split at h
          · cases h
          · rename_i hint
            exact ⟨c, t, rfl, hd, scanNumber_text hk (by simpa using hint)⟩
        · split at h
          · exact absurd h (lexString_ne_integer _)
          · split at h
            · cases h
            · exact absurd h (lexOperator_ne (.inl rfl) _ _)

/-- A literal of the grammar whose value is computed, when `orbit_int` can hold it. -/
structure IntegerOk (w : Text) : Prop where
  literal : IntLiteral w
  value : literalValue w ≤ intMax → (parseIntSelfhost (String.ofList w)).toInt = literalValue w

theorem parseInt_value {w : Text} (h : literalValue w ≤ intMax) :
    (parseIntSelfhost (String.ofList w)).toInt = literalValue w := by
  have hw : literalValue (String.ofList w).toList ≤ intMax := by rwa [String.toList_ofList]
  have hnat := parseIntSelfhost_toNat hw
  rw [String.toList_ofList] at hnat
  unfold intMax at h
  rw [BitVec.toInt_eq_toNat_of_lt (by omega), hnat]

/-- **Every integer of a source is a literal of the grammar with its value** if and only if, wherever
one starts, a digit of the base follows its prefix and every underscore stands before a digit. -/
theorem integers_ok_iff (source : Text) :
    (∀ l, Lexes source l → (nextToken l).1.tag = .IntegerLiteral → IntegerOk (nextToken l).1.text) ↔
      ∀ l, Lexes source l → (nextToken l).1.tag = .IntegerLiteral →
        NumberOk (skipWhitespaceAndComments l).rest := by
  refine forall_congr' fun l => forall_congr' fun _ => forall_congr' fun hint => ?_
  obtain ⟨c, t, hrest, hc, htext⟩ := nextToken_integer hint
  rw [hrest, htext, ← numberText_ok hc]
  exact ⟨fun h => h.literal, fun h => ⟨h, parseInt_value⟩⟩

/-- `0x` is read as an integer. -/
theorem bareprefix_integer : ¬ ∀ l, Lexes ['0', 'x'] l → (nextToken l).1.tag = .IntegerLiteral →
    IntegerOk (nextToken l).1.text := by
  intro h
  have htext : (nextToken (initLexer ['0', 'x'])).1 = ⟨.IntegerLiteral, ['0', 'x'], 1, 1⟩ := by
    decide
  have hok := (h _ Relation.ReflTransGen.refl (by rw [htext])).literal
  rw [htext, intLiteral_prefixed (by decide)] at hok
  cases hok

end Front.Lex
