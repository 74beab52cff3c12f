import Mathlib
import Orbit.Lib.C.Syntax

/-!
# Texts that spell an expression

A text that is built from the texts of its parts is lexed and parsed part by part. `Inner t ts`:
between other tokens the text `t` is read as the tokens `ts`. `Spells t e`: these tokens are the
cast expression `e`; `SpellsBin t e`: they are the expression `e` up to a closing token. The rules
follow the grammar: a constant, a name, a cast, parentheses, a unary and a binary operator, a call.
-/

namespace Lib.C

open Lib.Decimal

/-! ## Tokens of a part -/

/-- A character that a part can start with. -/
def opensText (c : Char) : Bool :=
  isDigit c || isIdentStart c || c == '(' || c == '-' || c == '~' || c == '!' || c == '"'

/-- A character that can follow a part. -/
def closesText (c : Char) : Bool := c == ')' || c == ' ' || c == ';' || c == ','

/-- A part can stand after the pending token, which then is `ts`. -/
def Opens (p : Pending) (ts : List Tok) : Prop := ∀ c, opensText c = true → step p c = (ts, start c)

/-- Between other tokens, `t` is read as `ts`. -/
structure Inner (t : Text) (ts : List Tok) : Prop where
  head : ∃ c w, t = c :: w ∧ opensText c = true
  tokens : ∀ p pre, (∀ c ∈ t.head?, step p c = (pre, start c)) → ∀ c, closesText c = true → ∀ rest,
    scan p (t ++ c :: rest) = (pre ++ (ts ++ (scan (start c) rest).1), (scan (start c) rest).2)

theorem Inner.opened {t : Text} {ts pre : List Tok} {p : Pending} (h : Inner t ts)
    (hp : Opens p pre) {c : Char} (hc : closesText c = true) (rest : Text) :
    scan p (t ++ c :: rest) = (pre ++ (ts ++ (scan (start c) rest).1), (scan (start c) rest).2) := by
  refine h.tokens p pre (fun d hd => ?_) c hc rest
  obtain ⟨x, w, rfl, hx⟩ := h.head
  rw [List.head?_cons, Option.mem_def, Option.some.injEq] at hd
  exact hp d (hd ▸ hx)

theorem opens_none : Opens .none [] := fun _ _ => rfl

/-- An operator that no operator extends ends where a part starts. -/
theorem opens_op {o : Char} {p : Punct} (hp : punctOf [o] = some p) (ho : o ≠ '/')
    (hext : ∀ c, opensText c = true → punctOf [o, c] = none) : Opens (.op [o]) [.punct p] := by
  intro c hc
  have hno : ¬ (punctOf ([o] ++ [c])).isSome = true := by simp [hext c hc]
  have hslash : ¬ ([o] = ['/'] ∧ (c = '/' ∨ c = '*')) := by simp [ho]
  rw [step_op, if_neg hno, if_neg hslash, hp]
  rfl

/-- A character that starts no operator of two characters. -/
theorem punctOf_pair {o : Char}
    (h : ∀ e ∈ punctuators, e.1.head? = some o → e.1.length ≠ 2) (c : Char) :
    punctOf [o, c] = none := by
  rw [punctOf, Option.map_eq_none_iff, List.find?_eq_none]
  intro e he heq
  rw [decide_eq_true_eq] at heq
  exact h e he (by rw [heq, List.head?_cons]) (by rw [heq]; rfl)

theorem punctOf_lpar : ∀ c, punctOf ['(', c] = none := punctOf_pair (by decide)
theorem punctOf_rpar : ∀ c, punctOf [')', c] = none := punctOf_pair (by decide)
theorem punctOf_tilde : ∀ c, punctOf ['~', c] = none := punctOf_pair (by decide)

theorem opens_lpar : Opens (.op ['(']) [.punct .lpar] :=
  opens_op (by decide) (by decide) fun c _ => punctOf_lpar c

theorem opens_rpar : Opens (.op [')']) [.punct .rpar] :=
  opens_op (by decide) (by decide) fun c _ => punctOf_rpar c

theorem opens_bang : Opens (.op ['!']) [.punct .bang] := by
  refine opens_op (by decide) (by decide) fun c hc => ?_
  have hne : c ≠ '=' := by
    rintro rfl
    exact absurd hc (by decide)
  simp [punctOf, punctuators, hne.symm]

/-- An operator of one character that ends before a closing character. -/
theorem step_close {o : Char} {p : Punct} (hp : punctOf [o] = some p) (ho : o ≠ '/') {c : Char}
    (hext : punctOf [o, c] = none) : step (.op [o]) c = ([.punct p], start c) := by
  have hno : ¬ (punctOf ([o] ++ [c])).isSome = true := by simp [hext]
  have hslash : ¬ ([o] = ['/'] ∧ (c = '/' ∨ c = '*')) := by simp [ho]
  rw [step_op, if_neg hno, if_neg hslash, hp]
  rfl

theorem not_identChar_of_closes {c : Char} (h : closesText c = true) : isIdentChar c = false := by
  simp only [closesText, Bool.or_eq_true, beq_iff_eq] at h
  rcases h with ((rfl | rfl) | rfl) | rfl <;> decide

theorem closes_ne_dot {c : Char} (h : closesText c = true) : (c == '.') = false := by
  simp only [closesText, Bool.or_eq_true, beq_iff_eq] at h
  rcases h with ((rfl | rfl) | rfl) | rfl <;> decide

theorem start_identStart {c : Char} (h : isIdentStart c = true) (hd : isDigit c = false) :
    start c = .word [c] := by
  have hblank : ¬ (c = ' ' ∨ c = '\n' ∨ c = '\t') := by
    rintro (rfl | rfl | rfl) <;> exact absurd h (by decide)
  exact (if_neg hblank).trans ((if_neg (by simp [hd])).trans (if_pos h))

theorem start_digit {c : Char} (h : isDigit c = true) : start c = .num [c] := by
  have hblank : ¬ (c = ' ' ∨ c = '\n' ∨ c = '\t') := by
    rintro (rfl | rfl | rfl) <;> exact absurd h (by decide)
  exact (if_neg hblank).trans (if_pos h)

theorem inner_ident {c : Char} {w : Text} (hc : isIdentStart c = true) (hd : isDigit c = false)
    (hw : ∀ x ∈ w, isIdentChar x = true) : Inner (c :: w) [.ident (c :: w)] := by
  refine ⟨⟨c, w, rfl, by simp [opensText, hc]⟩, fun p pre hp d hclose rest => ?_⟩
  have hend : step (.word (c :: w)) d = ([.ident (c :: w)], start d) := by
    rw [step_word, if_neg (by simp [not_identChar_of_closes hclose])]
  rw [List.cons_append, scan_cons, hp c rfl, start_identStart hc hd, scan_append, scan_word hw]
  simp only [List.singleton_append, scan_cons, hend, List.nil_append]

theorem inner_number {c : Char} {w : Text} (hc : isDigit c = true)
    (hw : ∀ x ∈ w, isIdentChar x = true) : Inner (c :: w) [.number (c :: w)] := by
  refine ⟨⟨c, w, rfl, by simp [opensText, hc]⟩, fun p pre hp d hclose rest => ?_⟩
  have hend : step (.num (c :: w)) d = ([.number (c :: w)], start d) := by
    rw [step_num, if_neg (by simp [not_identChar_of_closes hclose, closes_ne_dot hclose])]
  rw [List.cons_append, scan_cons, hp c rfl, start_digit hc, scan_append, scan_num hw]
  simp only [List.singleton_append, scan_cons, hend, List.nil_append]

theorem inner_digits (n : Nat) : Inner (Nat.toDigits 10 n) [.number (Nat.toDigits 10 n)] := by
  obtain ⟨d, ds, hd⟩ := List.exists_cons_of_ne_nil (Nat.toDigits_ne_nil (b := 10) (n := n))
  have hmem : ∀ c ∈ d :: ds, c ∈ Nat.toDigits 10 n := fun c hc => hd ▸ hc
  rw [hd]
  exact inner_number (isDigit_of_mem_digits (hmem d List.mem_cons_self))
    fun c hc => isIdentChar_of_mem_digits (hmem c (List.mem_cons_of_mem d hc))

/-- A part after an operator that it does not extend. -/
theorem Inner.after_op {o : Char} {p : Punct} {t : Text} {ts : List Tok} (h : Inner t ts)
    (hopen : opensText o = true) (hstart : start o = .op [o])
    (ho : ∀ c ∈ t.head?, step (.op [o]) c = ([.punct p], start c)) :
    Inner (o :: t) (.punct p :: ts) := by
  refine ⟨⟨o, t, rfl, hopen⟩, fun q pre hq c hclose rest => ?_⟩
  rw [List.cons_append, scan_cons, hq o rfl, hstart, h.tokens _ _ ho c hclose rest]
  simp

theorem Inner.tilde {t : Text} {ts : List Tok} (h : Inner t ts) :
    Inner ('~' :: t) (.punct .tilde :: ts) := by
  refine h.after_op (by decide) (by decide) fun c hc => ?_
  exact step_close (by decide) (by decide) (punctOf_tilde c)

theorem Inner.bang {t : Text} {ts : List Tok} (h : Inner t ts) :
    Inner ('!' :: t) (.punct .bang :: ts) := by
  refine h.after_op (by decide) (by decide) fun c hc => ?_
  obtain ⟨d, w, rfl, hd⟩ := h.head
  rw [List.head?_cons, Option.mem_def, Option.some.injEq] at hc
  exact opens_bang c (hc ▸ hd)

/-- A minus sign is one only in front of a part that does not start with another. -/
theorem Inner.minus {t : Text} {ts : List Tok} (h : Inner t ts) (hne : t.head? ≠ some '-') :
    Inner ('-' :: t) (.punct .minus :: ts) := by
  refine h.after_op (by decide) (by decide) fun c hc => ?_
  obtain ⟨d, w, rfl, hd⟩ := h.head
  rw [List.head?_cons, Option.mem_def, Option.some.injEq] at hc
  subst hc
  have h1 : d ≠ '-' := fun h => hne (by rw [h, List.head?_cons])
  have h2 : d ≠ '=' := by
    rintro rfl
    exact absurd hd (by decide)
  have h3 : d ≠ '>' := by
    rintro rfl
    exact absurd hd (by decide)
  refine step_close (by decide) (by decide) ?_
  simp [punctOf, punctuators, h1.symm, h2.symm, h3.symm]

/-- Two minus signs are one operator. -/
theorem Inner.minusMinus {t : Text} {ts : List Tok} (h : Inner t ts) :
    Inner ('-' :: '-' :: t) (.punct .minusMinus :: ts) := by
  refine ⟨⟨'-', _, rfl, by decide⟩, fun q pre hq c hclose rest => ?_⟩
  have hstart : start '-' = .op ['-'] := by decide
  have hsecond : step (.op ['-']) '-' = ([], .op ['-', '-']) := by decide
  have hopens : Opens (.op ['-', '-']) [.punct .minusMinus] := by
    intro c _
    have hno : punctOf (['-', '-'] ++ [c]) = none := by simp [punctOf, punctuators]
    rw [step_op, hno]
    rfl
  rw [List.cons_append, scan_cons, hq '-' rfl, hstart, List.cons_append, scan_cons, hsecond,
    h.opened hopens hclose rest]
  simp

theorem Inner.paren {t : Text} {ts : List Tok} (h : Inner t ts) :
    Inner ('(' :: (t ++ [')'])) (.punct .lpar :: (ts ++ [.punct .rpar])) := by
  refine ⟨⟨'(', _, rfl, by decide⟩, fun q pre hq c hclose rest => ?_⟩
  have hend : step (.op [')']) c = ([.punct .rpar], start c) :=
    step_close (by decide) (by decide) (punctOf_rpar c)
  have hstart : start '(' = .op ['('] := by decide
  have hrpar : start ')' = .op [')'] := by decide
  rw [List.cons_append, scan_cons, hq '(' rfl, hstart, List.append_assoc, List.singleton_append,
    h.opened opens_lpar (by decide), hrpar, scan_cons, hend]
  simp

/-- Two parts with a text between them that starts and ends with a blank. -/
theorem Inner.between {a b : Text} {as bs : List Tok} (ha : Inner a as) (hb : Inner b bs)
    {mid : Text} {ms : List Tok} (hmid : scan .none mid = (ms, .none)) :
    Inner (a ++ (' ' :: (mid ++ b))) (as ++ (ms ++ bs)) := by
  obtain ⟨x, w, hx, hopen⟩ := ha.head
  refine ⟨⟨x, _, by rw [hx, List.cons_append], hopen⟩, fun q pre hq c hclose rest => ?_⟩
  have hstart : start ' ' = .none := by decide
  have hq' : ∀ d ∈ a.head?, step q d = (pre, start d) := by
    intro d hd
    apply hq d
    rw [hx, List.cons_append, List.head?_cons]
    rwa [hx, List.head?_cons] at hd
  rw [List.append_assoc, List.cons_append, ha.tokens q pre hq' ' ' (by decide), hstart,
    List.append_assoc, scan_append, hmid]
  simp only
  rw [hb.opened opens_none hclose rest]
  simp

/-- Two arguments of a call. -/
theorem Inner.comma {a b : Text} {as bs : List Tok} (ha : Inner a as) (hb : Inner b bs) :
    Inner (a ++ (',' :: ' ' :: b)) (as ++ (.punct .comma :: bs)) := by
  obtain ⟨x, w, hx, hopen⟩ := ha.head
  refine ⟨⟨x, _, by rw [hx, List.cons_append], hopen⟩, fun q pre hq c hclose rest => ?_⟩
  have hstart : start ',' = .op [','] := by decide
  have hblank : step (.op [',']) ' ' = ([.punct .comma], .none) := by decide
  have hq' : ∀ d ∈ a.head?, step q d = (pre, start d) := by
    intro d hd
    apply hq d
    rw [hx, List.cons_append, List.head?_cons]
    rwa [hx, List.head?_cons] at hd
  rw [List.append_assoc, List.cons_append, List.cons_append, ha.tokens q pre hq' ',' (by decide),
    hstart, scan_cons, hblank, hb.opened opens_none hclose rest]
  simp

/-- A string literal whose body holds no quote but after a backslash. -/
theorem inner_str {body : Text} (h : scan (.str []) body = ([], .str body)) :
    Inner ('"' :: (body ++ ['"'])) [.str body] := by
  refine ⟨⟨'"', _, rfl, by decide⟩, fun q pre hq c hclose rest => ?_⟩
  have hstart : start '"' = .str [] := by decide
  rw [List.cons_append, scan_cons, hq '"' rfl, hstart, List.append_assoc, scan_append, h]
  simp [scan, step]

/-- A name and an argument list. -/
theorem Inner.call {c : Char} {w t : Text} {ts : List Tok} (h : Inner t ts)
    (hc : isIdentStart c = true) (hd : isDigit c = false) (hw : ∀ x ∈ w, isIdentChar x = true) :
    Inner (c :: (w ++ '(' :: (t ++ [')'])))
      (.ident (c :: w) :: .punct .lpar :: (ts ++ [.punct .rpar])) := by
  refine ⟨⟨c, _, rfl, by simp [opensText, hc]⟩, fun q pre hq d hclose rest => ?_⟩
  have hend : step (.op [')']) d = ([.punct .rpar], start d) :=
    step_close (by decide) (by decide) (punctOf_rpar d)
  have hword : step (.word (c :: w)) '(' = ([.ident (c :: w)], .op ['(']) := by
    have hno : isIdentChar '(' = false := by decide
    have hstart : start '(' = .op ['('] := by decide
    rw [step_word, if_neg (by simp [hno]), hstart]
  have hrpar : start ')' = .op [')'] := by decide
  rw [List.cons_append, scan_cons, hq c rfl, start_identStart hc hd, List.append_assoc, scan_append,
    scan_word hw, List.singleton_append, List.cons_append, scan_cons, hword, List.append_assoc]
  simp only [List.singleton_append]
  rw [h.opened opens_lpar (by decide), hrpar, scan_cons, hend]
  simp

/-- A part after a name in parentheses. -/
theorem Inner.cast {name t : Text} {ts : List Tok} (h : Inner t ts)
    (hname : Inner name [.ident name]) :
    Inner ('(' :: (name ++ ')' :: t))
      (.punct .lpar :: .ident name :: .punct .rpar :: ts) := by
  refine ⟨⟨'(', _, rfl, by decide⟩, fun q pre hq c hclose rest => ?_⟩
  have hstart : start '(' = .op ['('] := by decide
  have hrpar : start ')' = .op [')'] := by decide
  rw [List.cons_append, scan_cons, hq '(' rfl, hstart, List.append_assoc, List.cons_append,
    hname.opened opens_lpar (by decide), hrpar, h.opened opens_rpar hclose]
  simp

/-! ## Expressions -/

section
variable (types : Text → Option Ty)

/-- What follows an operand is not an argument list. -/
def NoCall (rest : List Tok) : Prop := rest.head? ≠ some (.punct .lpar)

/-- What follows an expression closes it. -/
def Closes (rest : List Tok) : Prop := ∃ p r, rest = .punct p :: r ∧ p ≠ .lpar ∧ binOf p = none

/-- The text is the cast expression `e`, nested at most `k` deep. -/
def Spells (k : Nat) (t : Text) (e : Expr) : Prop :=
  ∃ ts, Inner t ts ∧ ∀ n rest, NoCall rest → parseCast types (n + k) (ts ++ rest) = some (e, rest)

/-- The text is the expression `e` up to a closing token. -/
def SpellsBin (k : Nat) (t : Text) (e : Expr) : Prop :=
  ∃ ts, Inner t ts ∧
    ∀ n rest, Closes rest → parseBin types (n + k) 0 (ts ++ rest) = some (e, rest)

variable {types}

theorem Closes.noCall {rest : List Tok} (h : Closes rest) : NoCall rest := by
  obtain ⟨p, r, rfl, hp, -⟩ := h
  simpa [NoCall] using hp

theorem Spells.mono {k m : Nat} {t : Text} {e : Expr} (h : Spells types k t e) (hkm : k ≤ m) :
    Spells types m t e := by
  obtain ⟨ts, hi, hp⟩ := h
  refine ⟨ts, hi, fun n rest hr => ?_⟩
  rw [show n + m = (n + (m - k)) + k by omega]
  exact hp _ rest hr

theorem parseRest_closes {n : Nat} {e : Expr} {rest : List Tok} (least : Nat) (h : Closes rest) :
    parseRest types (n + 1) least e rest = some (e, rest) := by
  obtain ⟨p, r, rfl, -, hp⟩ := h
  rw [parseRest, hp]

theorem Spells.bin {k : Nat} {t : Text} {e : Expr} (h : Spells types k t e) (hk : 0 < k) :
    SpellsBin types (k + 1) t e := by
  obtain ⟨ts, hi, hp⟩ := h
  refine ⟨ts, hi, fun n rest hr => ?_⟩
  obtain ⟨m, rfl⟩ : ∃ m, k = m + 1 := ⟨k - 1, by omega⟩
  have hrest : parseRest types (n + (m + 1)) 0 e rest = some (e, rest) := parseRest_closes 0 hr
  change parseBin types (n + (m + 1) + 1) 0 (ts ++ rest) = some (e, rest)
  simp only [parseBin, hp n rest hr.noCall, hrest]

theorem parsePrimary_name (n : Nat) (x : Text) {rest : List Tok} (h : NoCall rest) :
    parsePrimary types (n + 1) (.ident x :: rest) = some (.var x, rest) := by
  cases rest with
  | nil => rfl
  | cons a rest =>
    cases a with
    | punct p =>
      by_cases hp : p = .lpar
      · subst hp
        exact absurd rfl h
      · cases p <;> first | rfl | exact absurd rfl hp
    | _ => rfl

/-- An open parenthesis that does not start a cast. -/
theorem parseCast_paren (n : Nat) {ts : List Tok}
    (h : ∀ x r, ts = .ident x :: .punct .rpar :: r → types x = none) :
    parseCast types (n + 1) (.punct .lpar :: ts) = parsePrimary types n (.punct .lpar :: ts) := by
  cases ts with
  | nil => rfl
  | cons a ts =>
    cases a with
    | ident x =>
      cases ts with
      | nil => rfl
      | cons b ts =>
        cases b with
        | punct p =>
          by_cases hp : p = .rpar
          · subst hp
            simp only [parseCast, h x ts rfl]
          · cases p <;> first | rfl | exact absurd rfl hp
        | _ => rfl
    | _ => rfl

theorem parseBin_name (n : Nat) (x : Text) (rest : List Tok) :
    parseBin types (n + 3) 0 (.ident x :: .punct .rpar :: rest) =
      some (.var x, .punct .rpar :: rest) := rfl

theorem spells_number {c : Char} {w : Text} (hc : isDigit c = true)
    (hw : ∀ x ∈ w, isIdentChar x = true) : Spells types 2 (c :: w) (.num (c :: w)) := by
  refine ⟨_, inner_number hc hw, fun n rest hr => ?_⟩
  simp [parseCast, parsePrimary]

theorem spells_digits (n : Nat) :
    Spells types 2 (Nat.toDigits 10 n) (.num (Nat.toDigits 10 n)) := by
  refine ⟨_, inner_digits n, fun n rest hr => ?_⟩
  simp [parseCast, parsePrimary]

theorem spells_name {c : Char} {w : Text} (hc : isIdentStart c = true) (hd : isDigit c = false)
    (hw : ∀ x ∈ w, isIdentChar x = true) : Spells types 2 (c :: w) (.var (c :: w)) := by
  refine ⟨_, inner_ident hc hd hw, fun n rest hr => ?_⟩
  exact parsePrimary_name n (c :: w) hr

theorem Spells.cast {k : Nat} {t name : Text} {e : Expr} {ty : Ty} (h : Spells types k t e)
    (hname : Inner name [.ident name]) (hty : types name = some ty) :
    Spells types (k + 1) ('(' :: (name ++ ')' :: t)) (.cast ty e) := by
  obtain ⟨ts, hi, hp⟩ := h
  refine ⟨_, hi.cast hname, fun n rest hr => ?_⟩
  simp [← Nat.add_assoc, parseCast, hty, hp n rest hr]

theorem Spells.not {k : Nat} {t : Text} {e : Expr} (h : Spells types k t e) :
    Spells types (k + 1) ('!' :: t) (.un .not e) := by
  obtain ⟨ts, hi, hp⟩ := h
  refine ⟨_, hi.bang, fun n rest hr => ?_⟩
  simp [← Nat.add_assoc, parseCast, hp n rest hr]

theorem Spells.bnot {k : Nat} {t : Text} {e : Expr} (h : Spells types k t e) :
    Spells types (k + 1) ('~' :: t) (.un .bnot e) := by
  obtain ⟨ts, hi, hp⟩ := h
  refine ⟨_, hi.tilde, fun n rest hr => ?_⟩
  simp [← Nat.add_assoc, parseCast, hp n rest hr]

theorem Spells.neg {k : Nat} {t : Text} {e : Expr} (h : Spells types k t e)
    (hne : t.head? ≠ some '-') : Spells types (k + 1) ('-' :: t) (.un .neg e) := by
  obtain ⟨ts, hi, hp⟩ := h
  refine ⟨_, hi.minus hne, fun n rest hr => ?_⟩
  simp [← Nat.add_assoc, parseCast, hp n rest hr]

theorem Spells.preDec {k : Nat} {t : Text} {e : Expr} (h : Spells types k t e) :
    Spells types (k + 1) ('-' :: '-' :: t) (.preDec e) := by
  obtain ⟨ts, hi, hp⟩ := h
  refine ⟨_, hi.minusMinus, fun n rest hr => ?_⟩
  simp [← Nat.add_assoc, parseCast, hp n rest hr]

/-- An expression in parentheses, unless it is the name of a type. -/
theorem SpellsBin.paren {k : Nat} {t : Text} {e : Expr} (h : SpellsBin types k t e)
    (htype : ∀ x ty, types x = some ty → e ≠ .var x) :
    Spells types (k + 2) ('(' :: (t ++ [')'])) e := by
  obtain ⟨ts, hi, hp⟩ := h
  refine ⟨_, hi.paren, fun n rest hr => ?_⟩
  have hclose : Closes (.punct .rpar :: rest) := ⟨.rpar, rest, rfl, by decide, by decide⟩
  have hbody := hp n _ hclose
  have hprim : parsePrimary types (n + k + 1) (.punct .lpar :: (ts ++ .punct .rpar :: rest)) =
      some (e, rest) := by
    rw [parsePrimary, hbody]
  have hname : ∀ x r, ts ++ .punct .rpar :: rest = .ident x :: .punct .rpar :: r →
      types x = none := by
    intro x r hx
    have hname := hp (n + 3) _ hclose
    rw [hx, show n + 3 + k = n + k + 3 by omega, parseBin_name] at hname
    cases hty : types x with
    | none => rfl
    | some ty => exact absurd (Prod.mk.inj (Option.some.inj hname)).1.symm (htype x ty hty)
  have hcast := parseCast_paren (n + k + 1) hname
  rw [List.cons_append, List.append_assoc, List.singleton_append]
  exact hcast.trans hprim

/-- Two operands and a binary operator between blanks. -/
theorem Spells.binary {k m : Nat} {a b mid : Text} {x y : Expr} {p : Punct} {op : Bin} {prec : Nat}
    (ha : Spells types k a x) (hb : Spells types m b y) (hop : binOf p = some (op, prec))
    (hmid : scan .none mid = ([.punct p], .none)) :
    SpellsBin types (k + m + 4) (a ++ (' ' :: (mid ++ b))) (.bin op x y) := by
  obtain ⟨as, hia, hpa⟩ := ha
  obtain ⟨bs, hib, hpb⟩ := hb
  refine ⟨_, hia.between hib hmid, fun n rest hr => ?_⟩
  have hlhs := hpa (n + m + 3) (.punct p :: (bs ++ rest)) (by
    intro h
    simp only [List.head?_cons, Option.some.injEq, Tok.punct.injEq] at h
    subst h
    cases hop)
  have hrhs := hpb (n + k + 1) rest hr.noCall
  have hrhs' : parseBin types (n + k + m + 2) (prec + 1) (bs ++ rest) = some (y, rest) := by
    rw [show n + k + m + 2 = (n + k + 1 + m) + 1 by omega]
    have hstop : parseRest types (n + k + 1 + m) (prec + 1) y rest = some (y, rest) := by
      rw [show n + k + 1 + m = (n + k + m) + 1 by omega]
      exact parseRest_closes _ hr
    simp only [parseBin, hrhs, hstop]
  have hstop : parseRest types (n + k + m + 2) 0 (.bin op x y) rest = some (.bin op x y, rest) := by
    rw [show n + k + m + 2 = (n + k + m + 1) + 1 by omega]
    exact parseRest_closes _ hr
  have hlt : ¬ prec < 0 := Nat.not_lt_zero prec
  have hrest : parseRest types (n + k + m + 3) 0 x (.punct p :: (bs ++ rest)) =
      some (.bin op x y, rest) := by
    simp only [parseRest, hop, if_neg hlt, hrhs', hstop]
  rw [show n + (k + m + 4) = (n + m + 3 + k) + 1 by omega]
  have htoks : as ++ ([Tok.punct p] ++ bs) ++ rest = as ++ .punct p :: (bs ++ rest) := by simp
  rw [htoks]
  simp only [parseBin, hlhs]
  rw [show n + m + 3 + k = n + k + m + 3 by omega]
  exact hrest

/-! ## Calls -/

variable (types) in
/-- The text is the arguments `es`, up to the closing parenthesis. -/
def SpellsArgs (k : Nat) (t : Text) (es : Args) : Prop :=
  ∃ ts, Inner t ts ∧
    ∀ n rest, parseArgs types (n + k) (ts ++ .punct .rpar :: rest) = some (es, rest)

theorem spells_str {body : Text} (h : scan (.str []) body = ([], .str body)) :
    Spells types 2 ('"' :: (body ++ ['"'])) (.str body) := by
  refine ⟨_, inner_str h, fun n rest hr => ?_⟩
  simp [parseCast, parsePrimary]

theorem parseBin_rpar (n least : Nat) (r : List Tok) :
    parseBin types n least (.punct .rpar :: r) = none := by
  cases n with
  | zero => rfl
  | succ n =>
    cases n with
    | zero => rfl
    | succ n =>
      cases n with
      | zero => rfl
      | succ n => rfl

theorem ne_rpar_of_parseBin {n : Nat} {ts : List Tok} {x : Expr × List Tok}
    (h : parseBin types n 0 ts = some x) : ∀ r, ts ≠ .punct .rpar :: r := by
  rintro r rfl
  rw [parseBin_rpar] at h
  cases h

theorem parseArgs_more (n : Nat) {ts r : List Tok} {e : Expr}
    (h : parseBin types n 0 ts = some (e, .punct .comma :: r)) :
    parseArgs types (n + 1) ts = (parseArgs types n r).map fun x => (.cons e x.1, x.2) := by
  rw [parseArgs, h]
  exact ne_rpar_of_parseBin h

theorem parseArgs_last (n : Nat) {ts r : List Tok} {e : Expr}
    (h : parseBin types n 0 ts = some (e, .punct .rpar :: r)) :
    parseArgs types (n + 1) ts = some (.cons e .nil, r) := by
  rw [parseArgs, h]
  exact ne_rpar_of_parseBin h

theorem SpellsBin.arg {k : Nat} {t : Text} {e : Expr} (h : SpellsBin types k t e) :
    SpellsArgs types (k + 1) t (.cons e .nil) := by
  obtain ⟨ts, hi, hp⟩ := h
  refine ⟨ts, hi, fun n rest => ?_⟩
  have hbody := hp n (.punct .rpar :: rest) ⟨.rpar, rest, rfl, by decide, by decide⟩
  exact parseArgs_last (n + k) hbody

theorem SpellsBin.args {k m : Nat} {a t : Text} {e : Expr} {es : Args}
    (h : SpellsBin types k a e) (hes : SpellsArgs types m t es) :
    SpellsArgs types (k + m + 1) (a ++ (',' :: ' ' :: t)) (.cons e es) := by
  obtain ⟨as, hia, hpa⟩ := h
  obtain ⟨ts, hit, hpt⟩ := hes
  refine ⟨_, hia.comma hit, fun n rest => ?_⟩
  have hbody := hpa (n + m) (.punct .comma :: (ts ++ .punct .rpar :: rest))
    ⟨.comma, _, rfl, by decide, by decide⟩
  have htail := hpt (n + k) rest
  rw [List.append_assoc, List.cons_append, show n + (k + m + 1) = (n + m + k) + 1 by omega,
    parseArgs_more (n + m + k) hbody, show n + m + k = n + k + m by omega, htail]
  rfl

theorem SpellsArgs.call {k : Nat} {c : Char} {w t : Text} {es : Args}
    (h : SpellsArgs types k t es) (hc : isIdentStart c = true) (hd : isDigit c = false)
    (hw : ∀ x ∈ w, isIdentChar x = true) :
    Spells types (k + 2) (c :: (w ++ '(' :: (t ++ [')']))) (.call (c :: w) es) := by
  obtain ⟨ts, hi, hp⟩ := h
  refine ⟨_, hi.call hc hd hw, fun n rest hr => ?_⟩
  have hargs := hp n rest
  have hprim : parsePrimary types (n + k + 1)
      (.ident (c :: w) :: .punct .lpar :: (ts ++ .punct .rpar :: rest)) =
      some (.call (c :: w) es, rest) := by
    rw [parsePrimary, hargs]
    rfl
  have htoks : Tok.ident (c :: w) :: Tok.punct .lpar :: (ts ++ [Tok.punct .rpar]) ++ rest =
      .ident (c :: w) :: .punct .lpar :: (ts ++ .punct .rpar :: rest) := by simp
  rw [htoks]
  exact hprim

/-! ## Statements -/

/-- The four blanks before a statement. -/
def indent : Text := [' ', ' ', ' ', ' ']

theorem lex_indent (t : Text) : lex (indent ++ t) = lex t := by
  have h : scan .none indent = ([], .none) := rfl
  simp only [lex, scan_append, h, List.nil_append]

/-- A text that ends between tokens is parsed from its tokens. -/
theorem parse_of_scan {t : Text} {ts : List Tok} (h : scan .none t = (ts, .none)) :
    parse types t = parseStmt types ts := by
  have hlex : lex t = some ts := by
    rw [lex, h]
    exact congrArg some (List.append_nil ts)
  exact congrArg (·.bind (parseStmt types)) hlex

theorem parse_indent {t : Text} {ts : List Tok} (h : scan .none t = (ts, .none)) :
    parse types (indent ++ t) = parseStmt types ts :=
  (congrArg (·.bind (parseStmt types)) (lex_indent t)).trans (parse_of_scan h)

theorem start_semi : scan (start ';') ['\n'] = ([.punct .semi], .none) := rfl

theorem SpellsBin.assign {k : Nat} {x t : Text} {e : Expr} (h : SpellsBin types k t e)
    (hk : k ≤ depth) (hx : Inner x [.ident x]) :
    parse types (indent ++ (x ++ ' ' :: '=' :: ' ' :: (t ++ [';', '\n']))) =
      some (.assign x e) := by
  obtain ⟨ts, hi, hp⟩ := h
  have hbody := hp (depth - k) [.punct .semi] ⟨.semi, [], rfl, by decide, by decide⟩
  rw [Nat.sub_add_cancel hk] at hbody
  have hblank : start ' ' = .none := rfl
  have heq : scan .none ['=', ' '] = ([.punct .assign], .none) := rfl
  have htail := hi.opened opens_none (c := ';') (by decide) ['\n']
  have hscan : scan .none (x ++ ' ' :: '=' :: ' ' :: (t ++ [';', '\n'])) =
      (.ident x :: .punct .assign :: (ts ++ [.punct .semi]), .none) := by
    rw [hx.opened opens_none (by decide), hblank,
      show '=' :: ' ' :: (t ++ [';', '\n']) = ['=', ' '] ++ (t ++ [';', '\n']) from rfl,
      scan_append, heq, htail, start_semi]
    rfl
  rw [parse_indent hscan]
  simp only [parseStmt, hbody]

theorem SpellsBin.ifGoto {k : Nat} {l t : Text} {e : Expr} (h : SpellsBin types k t e)
    (hk : k ≤ depth) (hl : Inner l [.ident l]) :
    parse types (indent ++ (ifWord ++ ' ' :: '(' :: (t ++ ')' :: ' ' :: (gotoWord ++
      ' ' :: (l ++ [';', '\n']))))) = some (.ifGoto e l) := by
  obtain ⟨ts, hi, hp⟩ := h
  have hbody := hp (depth - k)
    [.punct .rpar, .ident gotoWord, .ident l, .punct .semi] ⟨.rpar, _, rfl, by decide, by decide⟩
  rw [Nat.sub_add_cancel hk] at hbody
  have hif : scan .none (ifWord ++ [' ']) = ([.ident ifWord], .none) := rfl
  have hpar : start '(' = .op ['('] := rfl
  have hgoto : scan (start ')') (' ' :: (gotoWord ++ [' '])) =
      ([.punct .rpar, .ident gotoWord], .none) := rfl
  have hlabel := hl.opened opens_none (c := ';') (by decide) ['\n']
  have hscan : scan .none (ifWord ++ ' ' :: '(' :: (t ++ ')' :: ' ' :: (gotoWord ++
      ' ' :: (l ++ [';', '\n'])))) =
      (.ident ifWord :: .punct .lpar :: (ts ++ [.punct .rpar, .ident gotoWord, .ident l,
        .punct .semi]), .none) := by
    rw [show ifWord ++ ' ' :: '(' :: (t ++ ')' :: ' ' :: (gotoWord ++ ' ' :: (l ++ [';', '\n']))) =
        (ifWord ++ [' ']) ++ '(' :: (t ++ ')' :: ' ' :: (gotoWord ++ ' ' :: (l ++ [';', '\n'])))
        by simp, scan_append, hif, scan, step, hpar, hi.opened opens_lpar (by decide),
      show ' ' :: (gotoWord ++ ' ' :: (l ++ [';', '\n'])) =
        (' ' :: (gotoWord ++ [' '])) ++ (l ++ [';', '\n']) by simp, scan_append, hgoto, hlabel,
      start_semi]
    simp
  rw [parse_indent hscan]
  simp [parseStmt, hbody]

theorem parse_goto {l : Text} (hl : Inner l [.ident l]) :
    parse types (indent ++ (gotoWord ++ ' ' :: (l ++ [';', '\n']))) = some (.goto l) := by
  have hgoto : scan .none (gotoWord ++ [' ']) = ([.ident gotoWord], .none) := rfl
  have hlabel := hl.opened opens_none (c := ';') (by decide) ['\n']
  have hscan : scan .none (gotoWord ++ ' ' :: (l ++ [';', '\n'])) =
      ([.ident gotoWord, .ident l, .punct .semi], .none) := by
    rw [show gotoWord ++ ' ' :: (l ++ [';', '\n']) = (gotoWord ++ [' ']) ++ (l ++ [';', '\n'])
      by simp, scan_append, hgoto, hlabel, start_semi]
    rfl
  rw [parse_indent hscan]
  rfl

theorem parse_label {c : Char} {w : Text} (hc : isIdentStart c = true) (hd : isDigit c = false)
    (hw : ∀ x ∈ w, isIdentChar x = true) :
    parse types (c :: w ++ [':', ';', '\n']) = some (.label (c :: w)) := by
  have hend : scan (.word (c :: w)) [':', ';', '\n'] =
      ([.ident (c :: w), .punct .colon, .punct .semi], .none) := by
    have hcolon : scan (start ':') [';', '\n'] = ([.punct .colon, .punct .semi], .none) := rfl
    have hno : isIdentChar ':' = false := rfl
    rw [scan_cons, step, if_neg (by simp [hno]), hcolon]
    rfl
  have hscan : scan .none (c :: w ++ [':', ';', '\n']) =
      ([.ident (c :: w), .punct .colon, .punct .semi], .none) := by
    rw [List.cons_append, scan_cons, step, start_identStart hc hd, scan_append, scan_word hw]
    simp only [List.singleton_append, List.nil_append]
    exact Prod.ext (congrArg Prod.fst hend) (congrArg Prod.snd hend)
  rw [parse_of_scan hscan]
  rfl

end

end Lib.C
