import Mathlib.Data.List.Induction
import Mathlib.Tactic.IntervalCases
import Mathlib.Tactic.Ring
import Mathlib.Tactic.Linarith

/-!
# Decimal numbers

The decimal digits of a number, and the number that digits spell.
-/

namespace Lib.Decimal

def isDigit (c : Char) : Bool := '0' ≤ c && c ≤ '9'

theorem isDigit_range {c : Char} (h : isDigit c = true) : 48 ≤ c.toNat ∧ c.toNat ≤ 57 := by
  obtain ⟨hlow, hhigh⟩ := Bool.and_eq_true_iff.mp h
  exact ⟨of_decide_eq_true hlow, of_decide_eq_true hhigh⟩

/-- The number that digits spell. -/
def digitsValue (ds : List Char) : Int := ds.foldl (fun n c => n * 10 + (c.toNat - 48 : Nat)) 0

theorem isDigit_of_mem_digits {c : Char} {n : Nat} (h : c ∈ Nat.toDigits 10 n) :
    isDigit c = true := by
  have := Nat.isDigit_of_mem_toDigits (by decide) (by decide) h
  simpa [isDigit, Char.isDigit, Char.le_def] using this

theorem digitsValue_digits (n : Nat) : digitsValue (Nat.toDigits 10 n) = n := by
  have key : ∀ (l : List Char) (k : Nat),
      l.foldl (fun (n : Int) c => n * 10 + (c.toNat - 48 : Nat)) (k : Int) =
        (Nat.ofDigitChars 10 l k : Int) := by
    intro l
    induction l with
    | nil => intro k; simp
    | cons c l ih =>
      intro k
      rw [List.foldl_cons, Nat.ofDigitChars_cons, ← ih]
      congr 1
      push_cast
      ring
  simpa [digitsValue, Nat.ofDigitChars_ten_toDigits] using key (Nat.toDigits 10 n) 0

/-- Only zero is written with a leading zero. -/
theorem head_digits {n : Nat} (h : (Nat.toDigits 10 n).head? = some '0') : n = 0 := by
  induction n using Nat.strong_induction_on with
  | _ n ih =>
    rw [Nat.toDigits_eq_if (by decide)] at h
    split at h
    · rename_i hn
      interval_cases n <;> first | rfl | exact absurd h (by decide)
    · have hhead : (Nat.toDigits 10 (n / 10)).head? = some '0' := by
        obtain ⟨d, ds, hd⟩ :=
          List.exists_cons_of_ne_nil (Nat.toDigits_ne_nil (b := 10) (n := n / 10))
        simpa [hd] using h
      have := ih (n / 10) (by omega) hhead
      omega

theorem head_digits_ne_minus (n : Nat) : (Nat.toDigits 10 n).head? ≠ some '-' := by
  intro h
  have := isDigit_of_mem_digits (List.mem_of_mem_head? h)
  exact absurd this (by decide)

/-- Digits spell a number of no more digits. -/
theorem digitsValue_bounds {ds : List Char} (h : ∀ c ∈ ds, isDigit c = true) :
    0 ≤ digitsValue ds ∧ digitsValue ds < 10 ^ ds.length := by
  have key : ∀ (l : List Char) (k : Int), 0 ≤ k → (∀ c ∈ l, isDigit c = true) →
      0 ≤ l.foldl (fun (n : Int) c => n * 10 + (c.toNat - 48 : Nat)) k ∧
        l.foldl (fun (n : Int) c => n * 10 + (c.toNat - 48 : Nat)) k < (k + 1) * 10 ^ l.length := by
    intro l
    induction l with
    | nil => intro k hk _; exact ⟨hk, by simp⟩
    | cons c l ih =>
      intro k hk hl
      have hc : (c.toNat - 48 : Nat) ≤ 9 := by
        have := isDigit_range (hl c List.mem_cons_self)
        omega
      obtain ⟨h0, hlt⟩ := ih (k * 10 + (c.toNat - 48 : Nat)) (by omega)
        fun d hd => hl d (List.mem_cons_of_mem _ hd)
      refine ⟨h0, lt_of_lt_of_le hlt ?_⟩
      calc (k * 10 + (c.toNat - 48 : Nat) + 1) * 10 ^ l.length
          ≤ ((k + 1) * 10) * 10 ^ l.length :=
            Int.mul_le_mul_of_nonneg_right (by omega) (by positivity)
        _ = (k + 1) * 10 ^ (c :: l).length := by rw [List.length_cons, pow_succ]; ring
  simpa [digitsValue] using key ds 0 le_rfl h

theorem digitChar_sub {c : Char} (h : isDigit c = true) : Nat.digitChar (c.toNat - 48) = c := by
  obtain ⟨hlow, hhigh⟩ := isDigit_range h
  rw [← Char.ofNat_toNat c]
  generalize c.toNat = n at hlow hhigh
  interval_cases n <;> rfl

theorem digitsValue_append (ds : List Char) (c : Char) :
    digitsValue (ds ++ [c]) = digitsValue ds * 10 + (c.toNat - 48 : Nat) := by
  rw [digitsValue, List.foldl_append]
  rfl

/-- Digits without leading zeros are those of their number. -/
theorem digits_digitsValue {ds : List Char} (hne : ds ≠ []) (hall : ∀ c ∈ ds, isDigit c = true)
    (hlead : ds.head? = some '0' → ds = ['0']) : Nat.toDigits 10 (digitsValue ds).toNat = ds := by
  induction ds using List.reverseRecOn with
  | nil => exact absurd rfl hne
  | append_singleton ds c ih =>
    have hc : isDigit c = true := hall c (List.mem_append_right _ (List.mem_singleton.mpr rfl))
    obtain ⟨hlow, hhigh⟩ := isDigit_range hc
    have hone : Nat.toDigits 10 (c.toNat - 48) = [c] := by
      rw [Nat.toDigits_of_lt_base (by omega), digitChar_sub hc]
    rw [digitsValue_append]
    cases ds with
    | nil => simpa [digitsValue] using hone
    | cons d ds =>
      have hhead : d ≠ '0' := by
        rintro rfl
        have := hlead rfl
        simp at this
      have hds := ih (List.cons_ne_nil _ _) (fun c hc => hall c (List.mem_append_left _ hc))
        fun h => absurd (Option.some.inj h) hhead
      obtain ⟨hnonneg, -⟩ := digitsValue_bounds fun c hc => hall c (List.mem_append_left [_] hc)
      have hpos : 0 < (digitsValue (d :: ds)).toNat := by
        refine Nat.pos_of_ne_zero fun hzero => hhead ?_
        rw [hzero] at hds
        exact (List.head_eq_of_cons_eq hds).symm
      rw [show (digitsValue (d :: ds) * 10 + ((c.toNat - 48 : Nat) : Int)).toNat =
        10 * (digitsValue (d :: ds)).toNat + (c.toNat - 48) by omega,
        ← Nat.toDigits_append_toDigits (by decide) hpos (by omega), hds, hone]

end Lib.Decimal
