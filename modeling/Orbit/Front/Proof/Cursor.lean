import Mathlib.Data.List.TakeWhile
import Orbit.Front.Lexer

/-!
# Cursors

What the scanners do to a cursor: they only advance it (`Walks`), and where they stop depends on the
text in front of it alone.
-/

namespace Front.Lex

/-! ## Steps -/

@[simp] theorem rest_advance (l : Lexer) : l.advance.rest = l.rest.tail := by
  rcases l with ⟨rest, line, col⟩
  cases rest with
  | nil => rfl
  | cons c t =>
    change (if c = '\n' then (⟨t, line + 1, 1⟩ : Lexer) else ⟨t, line, col + 1⟩).rest = t
    split <;> rfl

theorem advance_nil {l : Lexer} (h : l.rest = []) : l.advance = l := by
  rcases l with ⟨rest, line, col⟩
  cases h
  rfl

theorem peek_cons {l : Lexer} {c : Char} {t : Text} (h : l.rest = c :: t) : l.peek = c := by
  rw [Lexer.peek, h]
  rfl

theorem peekNext_eq {l : Lexer} {c : Char} {t : Text} (h : l.rest = c :: t) :
    l.peekNext = t.headD nul := by
  rw [Lexer.peekNext, h]
  rfl

theorem peek_nil {l : Lexer} (h : l.rest = []) : l.peek = nul := by
  rw [Lexer.peek, h]
  rfl

theorem peek_congr {l k : Lexer} (h : l.rest = k.rest) : l.peek = k.peek := by
  rw [Lexer.peek, Lexer.peek, h]

theorem rest_advanceBy (n : Nat) (l : Lexer) : (l.advanceBy n).rest = l.rest.drop n := by
  induction n generalizing l with
  | zero => rfl
  | succ n ih => rw [Lexer.advanceBy, ih, rest_advance, List.drop_tail]

/-! ## Walks -/

/-- The second cursor is the first one some steps on. -/
def Walks (l l' : Lexer) : Prop := ∃ n, l' = l.advanceBy n

theorem Walks.refl (l : Lexer) : Walks l l := ⟨0, rfl⟩

theorem Walks.of_advance {l l' : Lexer} (h : Walks l.advance l') : Walks l l' := by
  obtain ⟨n, rfl⟩ := h
  exact ⟨n + 1, rfl⟩

theorem Walks.advance (l : Lexer) : Walks l l.advance := (Walks.refl _).of_advance

theorem advanceBy_add (m n : Nat) (l : Lexer) :
    l.advanceBy (m + n) = (l.advanceBy m).advanceBy n := by
  induction m generalizing l with
  | zero => rw [Nat.zero_add]; rfl
  | succ m ih => rw [Nat.succ_add, Lexer.advanceBy, ih, Lexer.advanceBy]

theorem Walks.trans {l l' l'' : Lexer} (h : Walks l l') (h' : Walks l' l'') : Walks l l'' := by
  obtain ⟨m, rfl⟩ := h
  obtain ⟨n, rfl⟩ := h'
  exact ⟨m + n, (advanceBy_add m n l).symm⟩

theorem Walks.suffix {l l' : Lexer} (h : Walks l l') : l'.rest <:+ l.rest := by
  obtain ⟨n, rfl⟩ := h
  rw [rest_advanceBy]
  exact List.drop_suffix n _

theorem Walks.length_le {l l' : Lexer} (h : Walks l l') : l'.rest.length ≤ l.rest.length :=
  h.suffix.length_le

/-- A walk from behind the first character of a text that is not empty leaves less. -/
theorem Walks.length_lt {l l' : Lexer} (hne : l.rest ≠ []) (h : Walks l.advance l') :
    l'.rest.length < l.rest.length := by
  have hle := h.length_le
  rw [rest_advance, List.length_tail] at hle
  have := List.length_pos_of_ne_nil hne
  omega

theorem advanceBy_nil {l : Lexer} (h : l.rest = []) (n : Nat) : l.advanceBy n = l := by
  induction n with
  | zero => rfl
  | succ n ih => rw [Lexer.advanceBy, advance_nil h, ih]

/-- A walk that leaves the text as it is leaves the cursor. -/
theorem advanceBy_eq_self {l : Lexer} {n : Nat} (h : (l.advanceBy n).rest = l.rest) :
    l.advanceBy n = l := by
  by_cases hl : l.rest = []
  · exact advanceBy_nil hl n
  · rw [rest_advanceBy] at h
    have hlen := congrArg List.length h
    rw [List.length_drop] at hlen
    have := List.length_pos_of_ne_nil hl
    obtain rfl : n = 0 := by omega
    rfl

/-- Two walks from one cursor to one text end at one cursor. -/
theorem Walks.eq {l k k' : Lexer} (h : Walks l k) (h' : Walks l k') (hrest : k.rest = k'.rest) :
    k = k' := by
  obtain ⟨m, rfl⟩ := h
  obtain ⟨n, rfl⟩ := h'
  rcases Nat.le_total m n with hmn | hmn
  · obtain ⟨d, rfl⟩ := Nat.exists_eq_add_of_le hmn
    rw [advanceBy_add] at hrest ⊢
    exact (advanceBy_eq_self hrest.symm).symm
  · obtain ⟨d, rfl⟩ := Nat.exists_eq_add_of_le hmn
    rw [advanceBy_add] at hrest ⊢
    exact advanceBy_eq_self hrest

theorem walks_advanceWhile (p : Char → Bool) (fuel : Nat) (l : Lexer) :
    Walks l (advanceWhile p fuel l) := by
  induction fuel generalizing l with
  | zero => exact Walks.refl l
  | succ fuel ih =>
    rw [advanceWhile]
    split
    · exact (ih l.advance).of_advance
    · exact Walks.refl l

theorem walks_skipWhile (l : Lexer) (p : Char → Bool) : Walks l (l.skipWhile p) :=
  walks_advanceWhile p _ l

theorem walks_skipBlock (fuel depth : Nat) (l : Lexer) : Walks l (skipBlock fuel depth l) := by
  induction fuel generalizing depth l with
  | zero => exact Walks.refl l
  | succ fuel ih =>
    rw [skipBlock]
    split
    · exact Walks.refl l
    · split
      · exact (ih _ _).of_advance.of_advance
      · split
        · exact (ih _ _).of_advance.of_advance
        · exact (ih _ _).of_advance

/-! ## What the text decides -/

theorem rest_advanceWhile (p : Char → Bool) (fuel : Nat) (l : Lexer) (h : l.rest.length ≤ fuel) :
    (advanceWhile p fuel l).rest = l.rest.dropWhile p := by
  induction fuel generalizing l with
  | zero =>
    have : l.rest = [] := List.length_eq_zero_iff.mp (Nat.le_zero.mp h)
    rw [advanceWhile, this]
    rfl
  | succ fuel ih =>
    rw [advanceWhile]
    cases hr : l.rest with
    | nil => rw [if_neg (fun hc => hc.1 rfl), hr]; rfl
    | cons c t =>
      rw [peek_cons hr]
      by_cases hc : p c = true
      · rw [if_pos ⟨List.cons_ne_nil _ _, hc⟩, ih, rest_advance, hr,
          List.dropWhile_cons_of_pos hc]
        · rfl
        · rw [rest_advance, hr, List.tail_cons]
          rw [hr, List.length_cons] at h
          omega
      · rw [if_neg (fun hh => hc hh.2), hr, List.dropWhile_cons_of_neg hc]

theorem rest_skipWhile (l : Lexer) (p : Char → Bool) :
    (l.skipWhile p).rest = l.rest.dropWhile p :=
  rest_advanceWhile p _ l (Nat.le_refl _)

theorem slice_append {l l' : Lexer} {w : Text} (h : l.rest = w ++ l'.rest) : slice l l' = w := by
  rw [slice, h, List.length_append, Nat.add_sub_cancel, List.take_left']
  rfl

end Front.Lex
