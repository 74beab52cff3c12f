import Orbit.Front.Proof.Cursor

/-!
# What a token reads

Each token leaves a proper end of the text in front of it (`lexToken_suffix`); words and numbers read
characters that mean nothing to a scanner of quotes and comments (`lexToken_word`), an operator one
or two characters (`lexOperator_snd`).
-/

namespace Front.Lex

/-- The text between two cursors has a property. -/
def Eats (p : Char → Prop) (l l' : Lexer) : Prop := ∃ w, l.rest = w ++ l'.rest ∧ ∀ c ∈ w, p c

theorem Eats.refl {p : Char → Prop} (l : Lexer) : Eats p l l := ⟨[], rfl, by simp⟩

theorem Eats.trans {p : Char → Prop} {l l' l'' : Lexer} (h : Eats p l l') (h' : Eats p l' l'') :
    Eats p l l'' := by
  obtain ⟨w, hw, hp⟩ := h
  obtain ⟨w', hw', hp'⟩ := h'
  refine ⟨w ++ w', by rw [hw, hw', List.append_assoc], fun c hc => ?_⟩
  rcases List.mem_append.mp hc with h | h
  · exact hp c h
  · exact hp' c h

theorem Eats.advance {p : Char → Prop} {l : Lexer} {c : Char} {t : Text} (h : l.rest = c :: t)
    (hc : p c) : Eats p l l.advance := by
  refine ⟨[c], ?_, fun d hd => ?_⟩
  · rw [rest_advance, h]
    rfl
  · rw [List.mem_singleton.mp hd]
    exact hc

/-- A character other than NUL is read if it is seen. -/
theorem Eats.of_peek {p : Char → Prop} {l : Lexer} {c : Char} (h : l.peek = c) (hc : p c)
    (hn : c ≠ nul) : Eats p l l.advance := by
  cases hl : l.rest with
  | nil => exact absurd (h.symm.trans (peek_nil hl)) hn
  | cons d t =>
    rw [peek_cons hl] at h
    exact Eats.advance hl (h ▸ hc)

theorem Eats.suffix {p : Char → Prop} {l l' : Lexer} (h : Eats p l l') : l'.rest <:+ l.rest := by
  obtain ⟨w, hw, -⟩ := h
  exact ⟨w, hw.symm⟩

theorem eats_skipWhile {p : Char → Prop} {q : Char → Bool} (h : ∀ c, q c = true → p c)
    (l : Lexer) : Eats p l (l.skipWhile q) := by
  refine ⟨l.rest.takeWhile q, ?_, fun c hc => h c (List.mem_takeWhile_imp hc)⟩
  rw [rest_skipWhile]
  exact List.takeWhile_append_dropWhile.symm

/-! ## Words and numbers -/

/-- The characters of words and numbers. -/
def WordChar (c : Char) : Prop := c ≠ '"' ∧ c ≠ '\'' ∧ c ≠ '/' ∧ c ≠ nul

instance (c : Char) : Decidable (WordChar c) :=
  inferInstanceAs (Decidable (c ≠ '"' ∧ c ≠ '\'' ∧ c ≠ '/' ∧ c ≠ nul))

theorem wordChar_of_digit {c : Char} (h : isDigit c = true) : WordChar c := by
  refine ⟨?_, ?_, ?_, ?_⟩ <;> rintro rfl <;> exact absurd h (by decide)

theorem wordChar_of_radixDigit {c : Char} {radix : Nat} (h : isRadixDigit c radix = true) :
    WordChar c := by
  refine ⟨?_, ?_, ?_, ?_⟩ <;> rintro rfl <;> simp [isRadixDigit, isDigit, nul] at h

theorem eats_radixDigits (radix fuel n : Nat) (after : Bool) (l : Lexer) :
    Eats WordChar l (radixDigits radix fuel n after l).2 := by
  induction fuel generalizing n after l with
  | zero => exact Eats.refl l
  | succ fuel ih =>
    rw [radixDigits]
    split
    · exact Eats.refl l
    · split
      · next hd =>
        have hw := wordChar_of_radixDigit hd
        exact (Eats.of_peek rfl hw hw.2.2.2).trans (ih _ _ _)
      · split
        · next hu => exact (Eats.of_peek hu.1 (by decide) (by decide)).trans (ih _ _ _)
        · exact Eats.refl l

theorem eats_decimalDigits (fuel : Nat) (last : Bool) (l : Lexer) :
    Eats WordChar l (decimalDigits fuel last l) := by
  induction fuel generalizing last l with
  | zero => exact Eats.refl l
  | succ fuel ih =>
    rw [decimalDigits]
    split
    · next hd =>
      rw [Bool.or_eq_true, Bool.and_eq_true, decide_eq_true_eq] at hd
      rcases hd with hd | hu
      · have hw := wordChar_of_digit hd
        exact (Eats.of_peek rfl hw hw.2.2.2).trans (ih _ _)
      · exact (Eats.of_peek hu.1 (by decide) (by decide)).trans (ih _ _)
    · exact Eats.refl l

theorem wordChar_of_radixOf {c : Char} (h : radixOf c > 0) : WordChar c := by
  refine ⟨?_, ?_, ?_, ?_⟩ <;> rintro rfl <;> exact absurd h (by decide)

theorem eats_scanNumber (first : Char) (l : Lexer) : Eats WordChar l (scanNumber first l).2 := by
  have hradix : radixOf l.peek > 0 → Eats WordChar l
      (radixDigits (radixOf l.peek) l.rest.length 0 false l.advance).2 := by
    intro hr
    have hw := wordChar_of_radixOf hr
    exact (Eats.of_peek rfl hw hw.2.2.2).trans (eats_radixDigits _ _ _ _ _)
  have hdot : ∀ l : Lexer, Eats WordChar l
      (if l.peek = '.' ∧ isDigit l.peekNext then (true, l.advance.skipWhile isDigit)
        else (false, l)).2 := by
    intro l
    split
    · next hd =>
      exact (Eats.of_peek hd.1 (by decide) (by decide)).trans
        (eats_skipWhile (fun _ => wordChar_of_digit) _)
    · exact Eats.refl l
  have hexp : ∀ (b : Bool) (l : Lexer), Eats WordChar l (scanExponent b l).2 := by
    intro b l
    rw [scanExponent]
    split
    · next he =>
      have hsign : Eats WordChar l (if l.advance.peek = '+' ∨ l.advance.peek = '-' then
          l.advance.advance else l.advance) := by
        have hl : Eats WordChar l l.advance := by
          rcases he with he | he <;> exact Eats.of_peek he (by decide) (by decide)
        split
        · next hs =>
          apply hl.trans
          rcases hs with hs | hs <;> exact Eats.of_peek hs (by decide) (by decide)
        · exact hl
      dsimp only
      generalize (if l.advance.peek = '+' ∨ l.advance.peek = '-' then
        l.advance.advance else l.advance) = sign at hsign ⊢
      split
      · exact ⟨[], rfl, by simp⟩
      · exact hsign.trans (eats_skipWhile (fun _ => wordChar_of_digit) _)
    · exact Eats.refl l
  rw [scanNumber]
  rcases hdigits : radixDigits (radixOf l.peek) l.rest.length 0 false l.advance with ⟨n, radixEnd⟩
  rw [hdigits] at hradix
  dsimp only
  split
  · next hr => exact hradix hr.2.1
  · refine Eats.trans ?_ ((eats_decimalDigits _ true _).trans ((hdot _).trans (hexp _ _)))
    split
    · next hr => exact hradix hr.2
    · exact Eats.refl l

/-! ## Operators -/

/-- The second characters of operators. -/
def seconds : List Char := ['.', '=', '>', '<', '|', '&']

/-- One character, or two of which the second is one of a few. -/
def Short (d : Char) (op : TokType × Nat) : Prop :=
  op.1 ≠ .EOF ∧ (op.2 = 1 ∨ (op.2 = 2 ∧ d ∈ seconds))

theorem Short.one (d : Char) {tag : TokType} (h : tag ≠ .EOF) : Short d (tag, 1) := ⟨h, .inl rfl⟩

theorem Short.two {d : Char} (e : Char) (tag : TokType) {op : TokType × Nat} (he : e ∈ seconds)
    (ht : tag ≠ .EOF) (h : Short d op) : Short d (if d = e then (tag, 2) else op) := by
  split
  · next hd => exact ⟨ht, .inr ⟨rfl, hd ▸ he⟩⟩
  · exact h

theorem Short.ite {d : Char} {p : Prop} [Decidable p] {op op' : TokType × Nat} (h : Short d op)
    (h' : Short d op') : Short d (if p then op else op') := by
  split
  · exact h
  · exact h'

theorem lexOperator_short (c d : Char) : Short d (lexOperator c d) := by
  unfold lexOperator
  repeat' first
    | exact Short.one d (by decide)
    | refine Short.two _ _ (by decide) (by decide) ?_
    | refine Short.ite ?_ ?_

/-! ## Strings and characters -/

theorem walks_skipQuoted (quote : Char) (fuel : Nat) (l : Lexer) :
    Walks l (skipQuoted quote fuel l) := by
  induction fuel generalizing l with
  | zero => exact Walks.refl l
  | succ fuel ih =>
    rw [skipQuoted]
    split
    · exact Walks.refl l
    · split
      · exact (ih _).of_advance.of_advance
      · split
        · exact Walks.advance l
        · exact (ih _).of_advance

theorem walks_skipHoleFrom (fuel depth : Nat) (l : Lexer) :
    Walks l (skipHoleFrom fuel depth l) := by
  induction fuel generalizing depth l with
  | zero => exact Walks.refl l
  | succ fuel ih =>
    rw [skipHoleFrom]
    split
    · exact Walks.refl l
    · split
      · exact ((walks_skipQuoted _ _ _).trans (ih _ _)).of_advance
      · split
        · exact (ih _ _).of_advance
        · split
          · split
            · exact Walks.advance l
            · exact (ih _ _).of_advance
          · exact (ih _ _).of_advance

theorem walks_skipInterpHole (l : Lexer) : Walks l (skipInterpHole l) :=
  (walks_skipHoleFrom _ _ _).of_advance.of_advance

theorem walks_scanString (fuel : Nat) (saw : Bool) (l : Lexer) :
    Walks l (scanString fuel saw l).2 := by
  induction fuel generalizing saw l with
  | zero => exact Walks.refl l
  | succ fuel ih =>
    rw [scanString]
    split
    · exact Walks.refl l
    · have hb : Walks l (if l.peek = '\\' then l.advance else l) := by
        split
        · exact Walks.advance l
        · exact Walks.refl l
      dsimp only
      generalize (if l.peek = '\\' then l.advance else l) = k at hb ⊢
      split
      · exact hb.trans ((walks_skipInterpHole k).trans (ih _ _))
      · exact hb.trans (ih _ _).of_advance

theorem walks_lexString (l : Lexer) : Walks l (lexString l).2 := by
  rw [lexString]
  split
  · dsimp only
    rcases scanRaw l.advance.advance.rest.length false 0 l.advance.advance.rest with ⟨_, _, n⟩
    exact (Walks.of_advance ⟨n, rfl⟩).of_advance
  · have hs := walks_scanString l.rest.length false l
    rcases hscan : scanString l.rest.length false l with ⟨saw, k⟩
    rw [hscan] at hs
    dsimp only at hs ⊢
    split
    · exact hs.trans (Walks.advance k)
    · exact hs

theorem walks_lexChar (l : Lexer) : Walks l (lexChar l) := by
  have hlast : ∀ k : Lexer, Walks k (if k.peek = '\'' then k.advance else k) := by
    intro k
    split
    · exact Walks.advance k
    · exact Walks.refl k
  rw [lexChar]
  refine Walks.trans ?_ (hlast _)
  split
  · split
    · exact (Walks.advance l).trans (Walks.advance _)
    · exact Walks.advance l
  · split
    · exact Walks.advance l
    · exact Walks.refl l

/-! ## Tokens -/

/-- **A token reads its first character and what else it is made of.** -/
theorem lexToken_suffix {l : Lexer} {c : Char} {t : Text} (h : l.rest = c :: t) :
    (lexToken c l).2.rest <:+ t := by
  have ht : l.advance.rest = t := by rw [rest_advance, h, List.tail_cons]
  rw [← ht, lexToken]
  split
  · exact (walks_skipWhile _ _).suffix
  · split
    · have hn := (eats_scanNumber c l.advance).suffix
      rcases hnum : scanNumber c l.advance with ⟨_, k⟩
      rw [hnum] at hn
      exact hn
    · split
      · exact (walks_lexString _).suffix
      · split
        · exact (walks_lexChar _).suffix
        · rcases hop : lexOperator c l.peekNext with ⟨tag, n⟩
          have hn := lexOperator_short c l.peekNext
          rw [hop] at hn
          rcases hn.2 with hn | ⟨hn, -⟩
          · cases hn
            exact (Walks.refl _).suffix
          · cases hn
            exact (Walks.advance _).suffix

theorem matchKeyword_ne_EOF (text : Text) : matchKeyword text ≠ .EOF := by
  have hall : ∀ k ∈ keywords, k.2 ≠ .EOF := by decide
  rw [matchKeyword]
  cases hk : keywords.find? fun k => Lib.Text.chars k.1 = text with
  | none => exact TokType.noConfusion
  | some k => exact hall k (List.mem_of_find?_eq_some hk)

/-- No word is a number or a literal with holes. -/
theorem matchKeyword_ne {tag : TokType} (ht : tag = .IntegerLiteral ∨ tag = .InterpStringLiteral)
    (text : Text) : matchKeyword text ≠ tag := by
  have hall : ∀ k ∈ keywords, k.2 ≠ .IntegerLiteral ∧ k.2 ≠ .InterpStringLiteral := by decide
  rw [matchKeyword]
  cases hk : keywords.find? fun k => Lib.Text.chars k.1 = text with
  | none => rcases ht with rfl | rfl <;> exact TokType.noConfusion
  | some k =>
    have hne := hall k (List.mem_of_find?_eq_some hk)
    rcases ht with rfl | rfl
    · exact hne.1
    · exact hne.2

theorem ite_tag_ne {p : Prop} [Decidable p] {tag : TokType} {op op' : TokType × Nat}
    (h : op.1 ≠ tag) (h' : op'.1 ≠ tag) : (if p then op else op').1 ≠ tag := by
  split
  · exact h
  · exact h'

theorem lexOperator_ne {tag : TokType} (ht : tag = .IntegerLiteral ∨ tag = .InterpStringLiteral)
    (c d : Char) : (lexOperator c d).1 ≠ tag := by
  unfold lexOperator
  rcases ht with rfl | rfl <;>
    repeat' first
      | exact TokType.noConfusion
      | refine ite_tag_ne ?_ ?_

theorem lexString_ne_EOF (l : Lexer) : (lexString l).1 ≠ .EOF := by
  rw [lexString]
  split
  · dsimp only
    split
    · split <;> exact TokType.noConfusion
    · exact TokType.noConfusion
  · dsimp only
    split <;> exact TokType.noConfusion

theorem lexToken_ne_EOF (c : Char) (l : Lexer) : (lexToken c l).1 ≠ .EOF := by
  rw [lexToken]
  split
  · exact matchKeyword_ne_EOF _
  · split
    · dsimp only
      split <;> exact TokType.noConfusion
    · split
      · exact lexString_ne_EOF _
      · split
        · exact TokType.noConfusion
        · exact (lexOperator_short c l.peekNext).1

/-- A literal with holes starts with a quote and is what `lexString` reads behind it. -/
theorem nextToken_interp {l : Lexer} (h : (nextToken l).1.tag = .InterpStringLiteral) :
    ∃ t, (skipWhitespaceAndComments l).rest = '"' :: t ∧
      (lexString (skipWhitespaceAndComments l).advance).1 = .InterpStringLiteral ∧
      (nextToken l).1.text = slice (skipWhitespaceAndComments l)
        (lexString (skipWhitespaceAndComments l).advance).2 := by
  unfold nextToken at h ⊢
  dsimp only at h ⊢
  generalize skipWhitespaceAndComments l = k at h ⊢
  split at h
  · cases h
  · rename_i hnul
    rw [if_neg hnul]
    cases hk : k.rest with
    | nil => exact absurd (peek_nil hk) hnul
    | cons c t =>
      rw [peek_cons hk] at h ⊢
      unfold lexToken at h ⊢
      split at h
      · exact absurd h (matchKeyword_ne (.inr rfl) _)
      · rename_i halpha
        rw [if_neg halpha]
        split at h
        · dsimp only at h
          split at h <;> cases h
        · rename_i hdigit
          rw [if_neg hdigit]
          split at h
          · rename_i hquote
            rw [if_pos hquote]
            exact ⟨t, by rw [hquote], h, rfl⟩
          · split at h
            · cases h
            · exact absurd h (lexOperator_ne (.inr rfl) _ _)

end Front.Lex
