import Mathlib

/-!
# Positional numerals

The number that digits spell in a base, the digit of the highest weight first (`value`), and how
numerals compare: without leading zeros by their lengths, at one length digit by digit (`atMost`).
-/

namespace Lib.Numeral

/-- The number that digits spell in base `b`, the highest digit first. -/
def value (b : Nat) (ds : List Nat) : Nat := Nat.ofDigits b ds.reverse

section
variable {b : Nat}

@[simp] theorem value_nil : value b [] = 0 := rfl

theorem value_concat (ds : List Nat) (d : Nat) : value b (ds ++ [d]) = value b ds * b + d := by
  rw [value, List.reverse_append, List.reverse_singleton, List.singleton_append, Nat.ofDigits_cons,
    value, Nat.mul_comm, Nat.add_comm]

theorem value_cons (d : Nat) (ds : List Nat) :
    value b (d :: ds) = d * b ^ ds.length + value b ds := by
  rw [value, Nat.ofDigits_reverse_cons, value, Nat.mul_comm, Nat.add_comm]

/-- The digits read from the left. -/
theorem value_eq_foldl (ds : List Nat) : value b ds = ds.foldl (fun n d => n * b + d) 0 := by
  induction ds using List.reverseRecOn with
  | nil => rfl
  | append_singleton ds d ih =>
    rw [value_concat, ih, List.foldl_append, List.foldl_cons, List.foldl_nil]

theorem value_dropZeros (ds : List Nat) : value b (ds.dropWhile (· == 0)) = value b ds := by
  induction ds with
  | nil => rfl
  | cons d ds ih =>
    by_cases hd : d = 0
    · rw [List.dropWhile_cons_of_pos (by simp [hd]), ih, hd, value_cons, Nat.zero_mul, Nat.zero_add]
    · rw [List.dropWhile_cons_of_neg (by simp [hd])]

/-- The first digits spell no more than all. -/
theorem value_le_append (hb : 0 < b) (ds es : List Nat) : value b ds ≤ value b (ds ++ es) := by
  induction es using List.reverseRecOn with
  | nil => rw [List.append_nil]
  | append_singleton es e ih =>
    rw [← List.append_assoc, value_concat]
    exact le_trans ih (le_trans (Nat.le_mul_of_pos_right _ hb) (Nat.le_add_right _ _))

/-- No digit is above the number. -/
theorem le_value_of_mem (hb : 0 < b) {d : Nat} {ds : List Nat} (h : d ∈ ds) : d ≤ value b ds := by
  induction ds using List.reverseRecOn with
  | nil => cases h
  | append_singleton ds e ih =>
    rw [value_concat]
    rcases List.mem_append.mp h with h | h
    · exact le_trans (ih h) (le_trans (Nat.le_mul_of_pos_right _ hb) (Nat.le_add_right _ _))
    · obtain rfl := List.mem_singleton.mp h
      exact Nat.le_add_left _ _

/-- A number below the base is a digit of the numeral. -/
theorem value_lt_of_digits {k : Nat} (hk : 0 < k) {ds : List Nat} (hd : ∀ d ∈ ds, d < k)
    (h : value b ds < b) : value b ds < k := by
  cases ds using List.reverseRecOn with
  | nil => simpa using hk
  | append_singleton ds d =>
    have hlast : d < k := hd d (by simp)
    rw [value_concat] at h ⊢
    rcases Nat.eq_zero_or_pos (value b ds) with h0 | hpos
    · simpa [h0] using hlast
    · have hle : b ≤ value b ds * b := Nat.le_mul_of_pos_left b hpos
      omega

/-! ## Two bases -/

theorem value_le_value {c : Nat} (h : b ≤ c) (ds : List Nat) : value b ds ≤ value c ds := by
  induction ds using List.reverseRecOn with
  | nil => rfl
  | append_singleton ds d ih =>
    rw [value_concat, value_concat]
    exact Nat.add_le_add_right (Nat.mul_le_mul ih h) d

/-- A numeral is the same number in two bases when it is one digit behind zeros. -/
theorem value_eq_value_iff {c : Nat} (h : b < c) {ds : List Nat} (hd : ∀ d ∈ ds, d < c) :
    value b ds = value c ds ↔ value c ds < c := by
  cases ds using List.reverseRecOn with
  | nil => simpa using Nat.zero_lt_of_lt h
  | append_singleton ds d =>
    have hlast : d < c := hd d (by simp)
    rw [value_concat, value_concat, Nat.add_right_cancel_iff]
    rcases Nat.eq_zero_or_pos (value c ds) with h0 | hpos
    · have hb0 : value b ds = 0 := Nat.le_zero.mp (h0 ▸ value_le_value (Nat.le_of_lt h) ds)
      simp [h0, hb0, hlast]
    · have hlt : value b ds * b < value c ds * c :=
        lt_of_le_of_lt (Nat.mul_le_mul_right b (value_le_value (Nat.le_of_lt h) ds))
          (Nat.mul_lt_mul_of_pos_left h hpos)
      have hle : c ≤ value c ds * c := Nat.le_mul_of_pos_left c hpos
      omega

/-! ## Comparing -/

theorem value_lt (hb : 1 < b) {ds : List Nat} (h : ∀ d ∈ ds, d < b) : value b ds < b ^ ds.length := by
  have := Nat.ofDigits_lt_base_pow_length hb (l := ds.reverse) fun d hd => h d (List.mem_reverse.mp hd)
  rwa [List.length_reverse] at this

theorem le_value {d : Nat} (hd : 0 < d) (ds : List Nat) : b ^ ds.length ≤ value b (d :: ds) := by
  rw [value_cons]
  exact le_trans (Nat.le_mul_of_pos_left _ hd) (Nat.le_add_right _ _)

/-- The first different digit decides. -/
theorem value_lt_of_head (hb : 1 < b) {d e : Nat} {ds es : List Nat} (hde : d < e)
    (hlen : ds.length = es.length) (h : ∀ x ∈ ds, x < b) : value b (d :: ds) < value b (e :: es) := by
  rw [value_cons, value_cons]
  calc d * b ^ ds.length + value b ds
      < d * b ^ ds.length + b ^ ds.length := Nat.add_lt_add_left (value_lt hb h) _
    _ = (d + 1) * b ^ es.length := by rw [hlen, Nat.succ_mul]
    _ ≤ e * b ^ es.length := Nat.mul_le_mul_right _ hde
    _ ≤ e * b ^ es.length + value b es := Nat.le_add_right _ _

/-- Digit by digit, up to the first difference. -/
def atMost : List Nat → List Nat → Bool
  | d :: ds, e :: es => if d < e then true else if e < d then false else atMost ds es
  | _, _ => true

theorem atMost_iff (hb : 1 < b) (ds es : List Nat) (hlen : ds.length = es.length)
    (hd : ∀ d ∈ ds, d < b) (he : ∀ e ∈ es, e < b) :
    atMost ds es = true ↔ value b ds ≤ value b es := by
  induction ds generalizing es with
  | nil =>
    obtain rfl := List.length_eq_zero_iff.mp hlen.symm
    simp [atMost]
  | cons d ds ih =>
    cases es with
    | nil => simp at hlen
    | cons e es =>
      have hlen' : ds.length = es.length := by simpa using hlen
      have hds : ∀ x ∈ ds, x < b := fun x hx => hd x (List.mem_cons_of_mem _ hx)
      have hes : ∀ x ∈ es, x < b := fun x hx => he x (List.mem_cons_of_mem _ hx)
      simp only [atMost]
      rcases Nat.lt_trichotomy d e with h | rfl | h
      · have := value_lt_of_head hb h hlen' hds
        simp [h, Nat.le_of_lt this]
      · rw [if_neg (Nat.lt_irrefl d), if_neg (Nat.lt_irrefl d), ih es hlen' hds hes, value_cons,
          value_cons, hlen', Nat.add_le_add_iff_left]
      · have := value_lt_of_head hb h hlen'.symm hes
        simp [h, Nat.not_lt.mpr (Nat.le_of_lt h), this]

/-- A numeral without leading zeros is below a power of its base when it is short enough. -/
theorem value_lt_pow_iff (hb : 1 < b) {ds : List Nat} (h : ∀ d ∈ ds, d < b)
    (hlead : ds.head? ≠ some 0) (n : Nat) : value b ds < b ^ n ↔ ds.length ≤ n := by
  constructor
  · intro hlt
    by_contra hn
    cases ds with
    | nil => simp at hn
    | cons d ds =>
      have hd : 0 < d := Nat.pos_of_ne_zero fun h0 => hlead (by rw [h0]; rfl)
      have hle := le_value (b := b) hd ds
      have hpow : b ^ n ≤ b ^ ds.length :=
        Nat.pow_le_pow_right (Nat.zero_lt_of_lt hb) (by simpa using hn)
      omega
  · intro hn
    exact lt_of_lt_of_le (value_lt hb h) (Nat.pow_le_pow_right (Nat.zero_lt_of_lt hb) hn)

end

end Lib.Numeral
