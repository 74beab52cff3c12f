import Orbit.Lib.Json

/-!
# Percent-encoding

A text with escapes `%XX` (`decode`), and the ways to spell a text with them: a character that is
not reserved stands for itself, any byte may be escaped, and a plus is a space (`Spells`). What is
spelled is read back (`decode_spells`).
-/

namespace Lib.Percent

open Lib.Json (hexValue)

abbrev Text := List Char

/-- A text with its escapes read. What is no escape stands for itself. -/
def decode : Text → Text
  | [] => []
  | '%' :: a :: b :: t =>
    match hexValue a, hexValue b with
    | some x, some y => Char.ofNat (16 * x + y) :: decode t
    | _, _ => '%' :: decode (a :: b :: t)
  | c :: t => c :: decode t

theorem decode_cons_of_ne {c : Char} (h : c ≠ '%') (t : Text) : decode (c :: t) = c :: decode t := by
  rw [decode]
  intro a b t' heq
  exact absurd heq h

theorem decode_short {t : Text} (h : t.length < 2) : decode ('%' :: t) = '%' :: decode t := by
  match t, h with
  | [], _ => rfl
  | [a], _ => rfl

theorem decode_escape {a b : Char} {x y : Nat} (ha : hexValue a = some x) (hb : hexValue b = some y)
    (t : Text) : decode ('%' :: a :: b :: t) = Char.ofNat (16 * x + y) :: decode t := by
  rw [decode, ha, hb]

theorem decode_no_escape {a b : Char} (h : hexValue a = none ∨ hexValue b = none) (t : Text) :
    decode ('%' :: a :: b :: t) = '%' :: decode (a :: b :: t) := by
  rw [decode]
  split
  · next x y ha hb => rcases h with h | h <;> simp [h] at ha hb
  · rfl

/-! ## Spellings -/

def plusToSpace (c : Char) : Char := if c = '+' then ' ' else c

/-- `Spells reserved s t`: `t` is a spelling of `s`. -/
inductive Spells (reserved : List Char) : Text → Text → Prop
  | nil : Spells reserved [] []
  | literal {c : Char} {s t : Text} : c ∉ reserved → Spells reserved s t →
    Spells reserved (c :: s) (c :: t)
  | plus {s t : Text} : Spells reserved s t → Spells reserved (' ' :: s) ('+' :: t)
  | escape {a b : Char} {x y : Nat} {s t : Text} : hexValue a = some x → hexValue b = some y →
    Spells reserved s t → Spells reserved (Char.ofNat (16 * x + y) :: s) ('%' :: a :: b :: t)

section
variable {reserved : List Char} {s t : Text}

theorem hexValue_ne {a c : Char} {x : Nat} (ha : hexValue a = some x) (hc : hexValue c = none) :
    a ≠ c := by
  rintro rfl
  rw [ha] at hc
  cases hc

theorem plusToSpace_of_ne {c : Char} (h : c ≠ '+') : plusToSpace c = c := if_neg h

/-- **A spelling is read back.** -/
theorem decode_spells (h : Spells reserved s t) (hplus : '+' ∈ reserved)
    (hpercent : '%' ∈ reserved) : decode (t.map plusToSpace) = s := by
  induction h with
  | nil => rfl
  | @literal c s t hc _ ih =>
    have hp : c ≠ '+' := fun heq => hc (heq ▸ hplus)
    have hq : c ≠ '%' := fun heq => hc (heq ▸ hpercent)
    rw [List.map_cons, plusToSpace_of_ne hp, decode_cons_of_ne hq, ih]
  | plus _ ih =>
    rw [List.map_cons, show plusToSpace '+' = ' ' from rfl, decode_cons_of_ne (by decide), ih]
  | escape ha hb _ ih =>
    have hna := plusToSpace_of_ne (hexValue_ne ha (by decide : hexValue '+' = none))
    have hnb := plusToSpace_of_ne (hexValue_ne hb (by decide : hexValue '+' = none))
    rw [List.map_cons, List.map_cons, List.map_cons, hna, hnb, plusToSpace_of_ne (by decide),
      decode_escape ha hb, ih]

/-- A reserved character that is no part of an escape is not in a spelling. -/
theorem not_mem_spelling (h : Spells reserved s t) {c : Char} (hc : c ∈ reserved) (hp : c ≠ '+')
    (hq : c ≠ '%') (hx : hexValue c = none) : c ∉ t := by
  induction h with
  | nil => exact List.not_mem_nil
  | literal hd _ ih =>
    rintro (_ | ⟨_, hmem⟩)
    · exact hd hc
    · exact ih hmem
  | plus _ ih =>
    rintro (_ | ⟨_, hmem⟩)
    · exact hp rfl
    · exact ih hmem
  | escape ha hb _ ih =>
    simp only [List.mem_cons, not_or]
    exact ⟨hq, (hexValue_ne ha hx).symm, (hexValue_ne hb hx).symm, ih⟩

end

/-! ## A spelling of each text -/

end Lib.Percent
