import Mathlib.Data.List.Basic
import Orbit.Lib.Find

/-!
# Pieces of a list

What is between the occurrences of a needle, taken from the left so that they do not overlap. With
the needle between them the pieces are the list again, and with another list between them they are
the list with each occurrence replaced.
-/

namespace Lib.Pieces

open Lib.Find (indexOf)

variable {α : Type} [DecidableEq α]

/-- A needle that is found, with what is before it and behind it. -/
theorem indexOf_split {needle l : List α} {p : Nat} (h : indexOf needle l = some p) :
    l.take p ++ (needle ++ l.drop (p + needle.length)) = l := by
  obtain ⟨rest, hrest⟩ := (Lib.Find.indexOf_some h).1
  have hdrop : l.drop (p + needle.length) = rest := by
    rw [← List.drop_drop, ← hrest, List.drop_left]
  rw [hdrop, hrest, List.take_append_drop]

theorem length_drop_lt {needle l : List α} (hne : needle ≠ []) {p : Nat}
    (h : indexOf needle l = some p) : (l.drop (p + needle.length)).length < l.length := by
  have hlen := congrArg List.length (indexOf_split h)
  have hpos := List.length_pos_iff.mpr hne
  rw [List.length_append, List.length_append] at hlen
  omega

/-- The pieces of a list; an empty needle is in no list. -/
def pieces (needle l : List α) : List (List α) :=
  if _hne : needle = [] then [l]
  else
    match _h : indexOf needle l with
    | none => [l]
    | some p => l.take p :: pieces needle (l.drop (p + needle.length))
termination_by l.length
decreasing_by exact length_drop_lt _hne _h

theorem pieces_none {needle l : List α} (h : indexOf needle l = none) :
    pieces needle l = [l] := by
  rw [pieces]
  split
  · rfl
  · split
    · rfl
    · next hp =>
      rw [h] at hp
      cases hp

theorem pieces_some {needle l : List α} (hne : needle ≠ []) {p : Nat}
    (h : indexOf needle l = some p) :
    pieces needle l = l.take p :: pieces needle (l.drop (p + needle.length)) := by
  rw [pieces, dif_neg hne]
  split
  · next hp =>
    rw [h] at hp
    cases hp
  · next hp =>
    rw [h, Option.some.injEq] at hp
    rw [hp]

theorem pieces_ne_nil (needle l : List α) : pieces needle l ≠ [] := by
  rw [pieces]
  split
  · exact List.cons_ne_nil _ _
  · split
    · exact List.cons_ne_nil _ _
    · exact List.cons_ne_nil _ _

/-- An induction over the occurrences. -/
theorem pieces_induct {needle : List α} (hne : needle ≠ []) {P : List α → Prop}
    (last : ∀ l, indexOf needle l = none → P l)
    (step : ∀ l p, indexOf needle l = some p → P (l.drop (p + needle.length)) → P l)
    (l : List α) : P l := by
  induction hlen : l.length using Nat.strongRecOn generalizing l with
  | ind n ih =>
    subst hlen
    cases h : indexOf needle l with
    | none => exact last l h
    | some p => exact step l p h (ih _ (length_drop_lt hne h) _ rfl)

omit [DecidableEq α] in
theorem intercalate_cons (sep a : List α) {l : List (List α)} (h : l ≠ []) :
    sep.intercalate (a :: l) = a ++ (sep ++ sep.intercalate l) := by
  obtain ⟨b, l, rfl⟩ := List.exists_cons_of_ne_nil h
  rw [List.intercalate_cons_cons, List.append_assoc]

/-- The pieces with the needle between them. -/
theorem intercalate_pieces {needle : List α} (hne : needle ≠ []) (l : List α) :
    needle.intercalate (pieces needle l) = l := by
  induction l using pieces_induct hne with
  | last l h => rw [pieces_none h, List.intercalate_singleton]
  | step l p h ih =>
    rw [pieces_some hne h, intercalate_cons _ _ (pieces_ne_nil _ _), ih, indexOf_split h]

/-! ## Occurrences -/

/-- How many occurrences there are. -/
def occurrences (needle l : List α) : Nat := (pieces needle l).length - 1

theorem occurrences_none {needle l : List α} (h : indexOf needle l = none) :
    occurrences needle l = 0 := by
  rw [occurrences, pieces_none h]
  rfl

theorem occurrences_some {needle l : List α} (hne : needle ≠ []) {p : Nat}
    (h : indexOf needle l = some p) :
    occurrences needle l = occurrences needle (l.drop (p + needle.length)) + 1 := by
  have hpos := List.length_pos_iff.mpr (pieces_ne_nil needle (l.drop (p + needle.length)))
  rw [occurrences, occurrences, pieces_some hne h, List.length_cons]
  omega

/-- Each occurrence gives up its length for that of its replacement. -/
theorem length_replaced {needle : List α} (hne : needle ≠ []) (new l : List α) :
    (new.intercalate (pieces needle l)).length + occurrences needle l * needle.length =
      l.length + occurrences needle l * new.length := by
  induction l using pieces_induct hne with
  | last l h => rw [pieces_none h, occurrences_none h, List.intercalate_singleton, Nat.zero_mul,
      Nat.zero_mul]
  | step l p h ih =>
    have hlen := congrArg List.length (indexOf_split h)
    rw [List.length_append, List.length_append] at hlen
    rw [pieces_some hne h, intercalate_cons _ _ (pieces_ne_nil _ _), occurrences_some hne h,
      List.length_append, List.length_append, Nat.add_one_mul, Nat.add_one_mul]
    omega

end Lib.Pieces
