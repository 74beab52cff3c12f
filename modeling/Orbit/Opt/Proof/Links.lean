import Mathlib.Algebra.BigOperators.Fin
import Mathlib.Algebra.BigOperators.Intervals
import Mathlib.Algebra.Order.BigOperators.Group.Finset
import Mathlib.Tactic

/-!
# Sinking on positions

What the rounds of sinking do to the positions of a list, with nothing said of what stands there. A
link leads from the position of a constant to the position of its use. Moving the constant before
its use takes along, in the rounds that follow, what is linked to it (`carried`). `Rounded` is one
round, and `Rounded.round_iff` says of a number of rounds what the first of them leaves to the
others.
-/

namespace Opt

/-! ## Positions -/

/-- Where position `k` goes when the instruction at `a` moves over the `m` behind it. -/
def movedIdx (a m k : Nat) : Nat :=
  if k = a then a + m else if a < k ∧ k ≤ a + m then k - 1 else k

theorem movedIdx_surj (a m k : Nat) : ∃ j, movedIdx a m j = k := by
  unfold movedIdx
  rcases Nat.lt_trichotomy k (a + m) with h | rfl | h
  · by_cases ha : a ≤ k
    · refine ⟨k + 1, ?_⟩
      rw [if_neg (by omega), if_pos (by omega)]
      omega
    · refine ⟨k, ?_⟩
      rw [if_neg (by omega), if_neg (by omega)]
  · exact ⟨a, if_pos rfl⟩
  · refine ⟨k, ?_⟩
    rw [if_neg (by omega), if_neg (by omega)]

/-- Only the instruction that moves changes its place among the others. -/
theorem movedIdx_lt {a m j k : Nat} (h : j < k) (hne : ¬(j = a ∧ k ≤ a + m)) :
    movedIdx a m j < movedIdx a m k := by
  unfold movedIdx
  split
  · rw [if_neg (by omega), if_neg (by omega)]
    omega
  · split
    · rw [if_neg (by omega)]
      split <;> omega
    · split
      · omega
      · split <;> omega

/-! ## Links -/

section
variable (R : Nat → Nat → Prop) [DecidableRel R]

/-- How many constants go along when the one at position `d` moves: itself, and those linked to it. -/
def carried (d : Nat) : Nat := 1 + ∑ k : Fin d, if R k d then carried k else 0
termination_by d
decreasing_by exact k.isLt

/-- The rounds that the motions to positions before `v` take, of those that satisfy `P`. -/
def load (P : Nat → Nat → Prop) [DecidableRel P] (v : Nat) : Nat :=
  ∑ a ∈ Finset.range v, ∑ b ∈ Finset.range v, if R a b ∧ a + 1 < b ∧ P a b then carried R a else 0

end

/-- Where position `k` goes when the constant at `d` moves right before `u`. -/
def sunkIdx (d u k : Nat) : Nat := movedIdx d (u - 1 - d) k

/-- The links before and after the first motion, from `d` to `u`. -/
structure Sunk (R R' : Nat → Nat → Prop) (d u : Nat) : Prop where
  same : ∀ a b, R' (sunkIdx d u a) (sunkIdx d u b) ↔ R a b
  lt : ∀ a b, R a b → a < b
  use : ∀ a b b', R a b → R a b' → b = b'
  link : R d u
  apart : d + 1 < u
  first : ∀ a b, R a b → a + 1 < b → u ≤ b

theorem sunkIdx_eq {d u : Nat} (h : d + 1 < u) (k : Nat) :
    sunkIdx d u k = if k = d then u - 1 else if d < k ∧ k < u then k - 1 else k := by
  unfold sunkIdx movedIdx
  split
  · omega
  · split <;> split <;> omega

theorem sunkIdx_def {d u : Nat} (h : d + 1 < u) : sunkIdx d u d = u - 1 := by
  rw [sunkIdx_eq h, if_pos rfl]

theorem sunkIdx_before {d u k : Nat} (h : d + 1 < u) (hk : k < d) : sunkIdx d u k = k := by
  rw [sunkIdx_eq h, if_neg (by omega), if_neg (by omega)]

theorem sunkIdx_behind {d u k : Nat} (h : d + 1 < u) (hk : u ≤ k) : sunkIdx d u k = k := by
  rw [sunkIdx_eq h, if_neg (by omega), if_neg (by omega)]

theorem sunkIdx_inj {d u a b : Nat} (h : d + 1 < u) (hab : sunkIdx d u a = sunkIdx d u b) :
    a = b := by
  rw [sunkIdx_eq h, sunkIdx_eq h] at hab
  split_ifs at hab <;> omega

theorem sunkIdx_surj (d u k : Nat) : ∃ j, sunkIdx d u j = k := movedIdx_surj d (u - 1 - d) k

theorem sunkIdx_lt_iff {d u k v : Nat} (h : d + 1 < u) (hv : u ≤ v) :
    sunkIdx d u k < v ↔ k < v := by
  rw [sunkIdx_eq h]
  split_ifs <;> omega

/-- A sum over the positions is a sum over where they go. -/
theorem sum_sunkIdx {d u v : Nat} (h : d + 1 < u) (hv : u ≤ v) (F : Nat → Nat) :
    ∑ k ∈ Finset.range v, F (sunkIdx d u k) = ∑ k ∈ Finset.range v, F k := by
  refine Finset.sum_nbij (sunkIdx d u) (fun k hk => ?_) (fun a _ b _ => sunkIdx_inj h)
    (fun k hk => ?_) fun _ _ => rfl
  · simpa only [Finset.mem_range, sunkIdx_lt_iff h hv] using hk
  · obtain ⟨j, rfl⟩ := sunkIdx_surj d u k
    refine ⟨j, ?_, rfl⟩
    simpa only [Finset.coe_range, Set.mem_Iio, sunkIdx_lt_iff h hv] using hk

section
variable {R R' : Nat → Nat → Prop} {d u : Nat} (s : Sunk R R' d u)
include s

theorem Sunk.lt' {a b : Nat} (h : R' a b) : a < b := by
  obtain ⟨a, rfl⟩ := sunkIdx_surj d u a
  obtain ⟨b, rfl⟩ := sunkIdx_surj d u b
  have hR := (s.same a b).mp h
  have hlt := s.lt a b hR
  have hd : a = d → b = u := fun had => s.use d b u (had ▸ hR) s.link
  have := s.apart
  rw [sunkIdx_eq s.apart, sunkIdx_eq s.apart]
  split_ifs <;> omega

/-- Only what stands right before the constant is linked to it. -/
theorem Sunk.feeder {a : Nat} (h : R a d) : a + 1 = d := by
  have hlt := s.lt a d h
  by_contra hne
  have := s.first a d h (by omega)
  have := s.apart
  omega

/-- A link other than those at the constant is as far as before, unless it ends where the constant
goes. -/
theorem Sunk.apart_iff {a b : Nat} (h : R a b) (hd : b ≠ d) (hu : b ≠ u) :
    sunkIdx d u a + 1 < sunkIdx d u b ↔ a + 1 < b := by
  have had : a ≠ d := fun had => hu (s.use d b u (had ▸ h) s.link)
  have hlt := s.lt a b h
  have hfirst := s.first a b h
  have := s.apart
  rw [sunkIdx_eq s.apart, sunkIdx_eq s.apart, if_neg had, if_neg hd]
  split_ifs <;> omega

/-- After the round, the motions that end up to `u` are those of what was linked to the constant, and
of what shares its use. -/
theorem Sunk.early {a b : Nat} (h : R' a b) (hgap : a + 1 < b) (hb : b ≤ u) :
    (a + 1 = d ∧ b = u - 1 ∧ R a d) ∨ (b = u ∧ ∃ c, a = sunkIdx d u c ∧ R c u ∧ c ≠ d) := by
  obtain ⟨a, rfl⟩ := sunkIdx_surj d u a
  obtain ⟨b, rfl⟩ := sunkIdx_surj d u b
  have hR := (s.same a b).mp h
  have hapart := s.apart
  rcases eq_or_ne b d with rfl | hbd
  · have hfeed := s.feeder hR
    rw [sunkIdx_before hapart (by omega), sunkIdx_def hapart]
    exact .inl ⟨hfeed, rfl, hR⟩
  · rcases eq_or_ne b u with rfl | hbu
    · refine .inr ⟨sunkIdx_behind hapart (Nat.le_refl b), a, rfl, hR, ?_⟩
      rintro rfl
      rw [sunkIdx_def hapart, sunkIdx_behind hapart (Nat.le_refl b)] at hgap
      omega
    · have hub := s.first a b hR ((s.apart_iff hR hbd hbu).mp hgap)
      rw [sunkIdx_behind hapart hub] at hb
      omega

end

section
variable {R R' : Nat → Nat → Prop} [DecidableRel R] [DecidableRel R']

theorem carried_eq (hlt : ∀ a b, R a b → a < b) {d v : Nat} (h : d ≤ v) :
    carried R d = 1 + ∑ k ∈ Finset.range v, if R k d then carried R k else 0 := by
  rw [carried, Fin.sum_univ_eq_sum_range (fun k => if R k d then carried R k else 0) d]
  congr 1
  refine Finset.sum_subset (Finset.range_mono h) fun k _ hk => if_neg fun hR => ?_
  exact hk (Finset.mem_range.mpr (hlt k d hR))

theorem one_le_carried (d : Nat) : 1 ≤ carried R d := by
  rw [carried]
  omega

variable {d u : Nat} (s : Sunk R R' d u)
include s

/-- What goes along stays the same. -/
theorem Sunk.along (a : Nat) : carried R' (sunkIdx d u a) = carried R a := by
  induction a using Nat.strong_induction_on with
  | h a ih =>
    have hv : sunkIdx d u a ≤ max u (a + 1) := by
      rw [sunkIdx_eq s.apart]
      split_ifs <;> omega
    rw [carried_eq (fun _ _ => s.lt') hv,
      carried_eq s.lt (show a ≤ max u (a + 1) by omega),
      ← sum_sunkIdx s.apart (show u ≤ max u (a + 1) by omega)]
    congr 1
    refine Finset.sum_congr rfl fun k _ => ?_
    by_cases hR : R k a
    · rw [if_pos ((s.same k a).mpr hR), if_pos hR, ih k (s.lt k a hR)]
    · rw [if_neg (fun h => hR ((s.same k a).mp h)), if_neg hR]

omit [DecidableRel R'] in
theorem Sunk.along_def {v : Nat} (hv : d ≤ v) :
    carried R d = 1 + ∑ k ∈ Finset.range v, if k + 1 = d ∧ R k d then carried R k else 0 := by
  rw [carried_eq s.lt hv]
  congr 1
  exact Finset.sum_congr rfl fun k _ => if_congr ⟨fun h => ⟨s.feeder h, h⟩, And.right⟩ rfl rfl

section
variable {P P' : Nat → Nat → Prop} [DecidableRel P] [DecidableRel P']
  (hfed : ∀ a, R a d → (P' a (u - 1) ↔ P d u))
  (hrest : ∀ a b, R a b → u < b → (P' (sunkIdx d u a) b ↔ P a b))
  (halone : ∀ c, R c u → c = d)
include hfed hrest halone

theorem Sunk.load_term (a b : Nat) :
    (if R a b ∧ a + 1 < b ∧ P a b then carried R a else 0) +
        (if b = d then if (a + 1 = d ∧ R a d) ∧ P d u then carried R a else 0 else 0) =
      (if R' (sunkIdx d u a) (sunkIdx d u b) ∧ sunkIdx d u a + 1 < sunkIdx d u b ∧
          P' (sunkIdx d u a) (sunkIdx d u b) then carried R' (sunkIdx d u a) else 0) +
        if b = u then if a = d then if P d u then carried R d else 0 else 0 else 0 := by
  rw [s.along]
  simp only [s.same]
  have := s.apart
  by_cases hR : R a b
  · rcases eq_or_ne b d with rfl | hbd
    · -- what is linked to the constant stays where it is
      have hlt := s.lt a b hR
      have hfeed := s.feeder hR
      rw [sunkIdx_def s.apart, sunkIdx_before s.apart hlt, if_neg (by omega), if_pos rfl,
        if_neg (show b ≠ u by omega)]
      simp only [hR, hfeed, true_and, hfed a hR, show b < u - 1 by omega, zero_add, add_zero]
    · rcases eq_or_ne b u with rfl | hbu
      · obtain rfl := halone a hR
        rw [sunkIdx_def s.apart, sunkIdx_behind s.apart (Nat.le_refl b), if_neg hbd]
        simp only [hR, s.apart, true_and, if_true, show ¬b - 1 + 1 < b by omega, false_and, if_false,
          zero_add, add_zero]
      · have had : a ≠ d := fun had => hbu (s.use d b u (had ▸ hR) s.link)
        rw [if_neg hbd, if_neg hbu]
        simp only [hR, true_and, add_zero, s.apart_iff hR hbd hbu]
        refine if_congr (and_congr_right fun hgap => ?_) rfl rfl
        have hub := s.first a b hR hgap
        rw [sunkIdx_behind s.apart hub]
        exact (hrest a b hR (by omega)).symm
  · have hfeed : ¬(b = d ∧ (a + 1 = d ∧ R a d) ∧ P d u) := by
      rintro ⟨rfl, ⟨-, h⟩, -⟩
      exact hR h
    have hmove : ¬(b = u ∧ a = d ∧ P d u) := by
      rintro ⟨rfl, rfl, -⟩
      exact hR s.link
    simp only [hR, false_and, if_false, ← ite_and, hfeed, hmove]

/-- A round is one of the rounds of every later position. -/
theorem Sunk.load_step {v : Nat} (hv : u < v) :
    load R P v = load R' P' v + if P d u then 1 else 0 := by
  have hapart := s.apart
  have hterms := Finset.sum_congr (rfl : Finset.range v = Finset.range v) fun a _ =>
    Finset.sum_congr (rfl : Finset.range v = Finset.range v) fun b _ =>
      s.load_term hfed hrest halone a b
  have hmoved : ∑ a ∈ Finset.range v, ∑ b ∈ Finset.range v,
        (if R' (sunkIdx d u a) (sunkIdx d u b) ∧ sunkIdx d u a + 1 < sunkIdx d u b ∧
          P' (sunkIdx d u a) (sunkIdx d u b) then carried R' (sunkIdx d u a) else 0) =
      load R' P' v := by
    refine (Finset.sum_congr rfl fun a _ => sum_sunkIdx hapart hv.le fun b =>
      if R' (sunkIdx d u a) b ∧ sunkIdx d u a + 1 < b ∧ P' (sunkIdx d u a) b then
        carried R' (sunkIdx d u a) else 0).trans ?_
    exact sum_sunkIdx hapart hv.le fun a => ∑ b ∈ Finset.range v,
      if R' a b ∧ a + 1 < b ∧ P' a b then carried R' a else 0
  simp only [Finset.sum_add_distrib, Finset.sum_ite_eq', Finset.mem_range,
    show d < v by omega, hv, if_true] at hterms
  rw [hmoved] at hterms
  have hdef := s.along_def (show d ≤ v by omega)
  change load R P v + _ = _ at hterms
  by_cases hP : P d u
  · simp only [hP, and_true, if_true] at hterms ⊢
    omega
  · simpa only [hP, and_false, if_false, Finset.sum_const_zero, add_zero] using hterms

end

end

/-! ## When the rounds settle -/

section
variable (R : Nat → Nat → Prop) [DecidableRel R]

/-- The rounds that the motions to positions before `v` take. -/
def spent (v : Nat) : Nat := load R (fun _ _ => True) v

/-- How many constants the motions to positions before `v` take over position `d`. -/
def passing (d v : Nat) : Nat := load R (fun a b => a < d ∧ d < b) v

/-- The `n` constants before position `a` stand one right before another, each linked to the next,
and the first of them has not moved before. -/
def Run (Mv : Nat → Prop) : Nat → Nat → Prop
  | 0, a => ¬Mv a
  | n + 1, a => R (a - 1) a ∧ Run Mv n (a - 1)

/-- What the motion from `d` to `u` is to meet when `n` rounds are left and the constants at the
positions of `Mv` have moved before. -/
structure Resumes (Mv : Nat → Prop) (n d u : Nat) : Prop where
  fits : spent R u < n → d < 65536 + passing R d u
  alone : spent R u + carried R d < n → ∀ c, R c u → c = d
  fresh : spent R u < n → ∀ c, R c u → c ≠ d → ¬Mv c
  whole : spent R u ≤ n → n < spent R u + carried R d → Run R Mv (n - spent R u) d

end

/-- A round: the links, the motions that the sweep would take, and what has moved, before and after
the first motion. -/
structure Rounded (R R' T T' : Nat → Nat → Prop) (Mv Mv' : Nat → Prop) (d u : Nat) : Prop
    extends Sunk R R' d u where
  taken : T d u
  link_of : ∀ a b, T a b → R a b ∧ a + 1 < b
  unique : ∀ a, T a u → a = d
  later : ∀ a b, u < b → (T' (sunkIdx d u a) b ↔ T a b)
  link_of' : ∀ a b, T' a b → R' a b ∧ a + 1 < b
  taken' : ∀ a b, R' a b → a + 1 < b → ∃ c, T' c b
  moved : ∀ a, Mv' (sunkIdx d u a) ↔ a = d ∨ Mv a
  inv : ∀ a b, R a b → a + 1 < b → Mv a → a = d

section
variable {R R' : Nat → Nat → Prop} [DecidableRel R] [DecidableRel R'] {d u : Nat}

theorem load_mono {P : Nat → Nat → Prop} [DecidableRel P] {v w : Nat} (h : v ≤ w) :
    load R P v ≤ load R P w := by
  refine (Finset.sum_le_sum fun a _ => ?_).trans
    (Finset.sum_le_sum_of_subset (Finset.range_mono h))
  exact Finset.sum_le_sum_of_subset (Finset.range_mono h)

/-- Without a motion before `v` there is nothing to count. -/
theorem load_eq_zero {P : Nat → Nat → Prop} [DecidableRel P] {v : Nat}
    (h : ∀ a b, R a b → a + 1 < b → v ≤ b) : load R P v = 0 := by
  refine Finset.sum_eq_zero fun a _ => Finset.sum_eq_zero fun b hb => if_neg ?_
  rintro ⟨hR, hgap, -⟩
  exact absurd (h a b hR hgap) (not_le.mpr (Finset.mem_range.mp hb))

/-- A motion is counted with all that goes along. -/
theorem carried_le_spent {a b v : Nat} (h : R a b) (hgap : a + 1 < b) (hv : b < v) :
    carried R a ≤ spent R v := by
  have hb : carried R a ≤ ∑ y ∈ Finset.range v,
      if R a y ∧ a + 1 < y ∧ True then carried R a else 0 := by
    refine le_trans ?_ (Finset.single_le_sum (fun _ _ => Nat.zero_le _) (Finset.mem_range.mpr hv))
    rw [if_pos ⟨h, hgap, trivial⟩]
  exact hb.trans (Finset.single_le_sum (f := fun x => ∑ y ∈ Finset.range v,
    if R x y ∧ x + 1 < y ∧ True then carried R x else 0) (fun _ _ => Nat.zero_le _)
    (Finset.mem_range.mpr (by omega)))

variable (s : Sunk R R' d u)
include s

omit [DecidableRel R'] in
/-- Nothing is counted before the first motion. -/
theorem Sunk.load_first {P : Nat → Nat → Prop} [DecidableRel P] {v : Nat} (hv : v ≤ u) :
    load R P v = 0 :=
  load_eq_zero fun a b h hgap => hv.trans (s.first a b h hgap)

omit [DecidableRel R] in
/-- The position where the constant was linked from has no motion before it after the round. -/
theorem Sunk.load_zero {P : Nat → Nat → Prop} [DecidableRel P] : load R' P (u - 1) = 0 := by
  refine load_eq_zero fun a b h hgap => ?_
  by_contra hlt
  rcases s.early h hgap (by omega) with ⟨-, rfl, -⟩ | ⟨rfl, -⟩
  · omega
  · have := s.apart
    omega

/-- What goes along is what the rounds before `u` are spent on. -/
theorem Sunk.spent_at : spent R' u + 1 = carried R d := by
  have hapart := s.apart
  rw [s.along_def (show d ≤ u by omega), Nat.add_comm]
  congr 1
  unfold spent load
  refine Finset.sum_congr rfl fun a _ => ?_
  by_cases hfeed : a + 1 = d ∧ R a d
  · have hsame := (s.same a d).mpr hfeed.2
    have halong := s.along a
    rw [sunkIdx_before hapart (by omega)] at halong hsame
    rw [sunkIdx_def hapart] at hsame
    rw [if_pos hfeed, ← halong, Finset.sum_eq_single (u - 1)]
    · exact if_pos ⟨hsame, by omega, trivial⟩
    · intro b hb hne
      refine if_neg ?_
      rintro ⟨h, hgap, -⟩
      rcases s.early h hgap (Finset.mem_range.mp hb).le with ⟨-, rfl, -⟩ | ⟨rfl, -⟩
      · exact hne rfl
      · exact absurd (Finset.mem_range.mp hb) (lt_irrefl _)
    · intro hb
      exact absurd (Finset.mem_range.mpr (by omega)) hb
  · rw [if_neg hfeed]
    refine Finset.sum_eq_zero fun b hb => if_neg ?_
    rintro ⟨h, hgap, -⟩
    rcases s.early h hgap (Finset.mem_range.mp hb).le with ⟨hd, -, hR⟩ | ⟨rfl, -⟩
    · exact hfeed ⟨hd, hR⟩
    · exact absurd (Finset.mem_range.mp hb) (lt_irrefl _)

section
variable (halone : ∀ c, R c u → c = d)
include halone

theorem Sunk.spent_step {v : Nat} (hv : u < v) : spent R v = spent R' v + 1 := by
  have h : load R (fun _ _ => True) v = load R' (fun _ _ => True) v + if True then 1 else 0 := by
    refine s.load_step ?_ ?_ halone hv
    · exact fun _ _ => Iff.rfl
    · exact fun _ _ _ _ => Iff.rfl
  rwa [if_pos trivial] at h

/-- What passes a constant, and where the constant stands then. -/
theorem Sunk.passing_step {a b : Nat} (h : R a b) (hb : u < b) :
    passing R a b + sunkIdx d u a = passing R' (sunkIdx d u a) b + a := by
  have hapart := s.apart
  have had : a ≠ d := fun had => hb.ne' (s.use d b u (had ▸ h) s.link)
  have hstep : load R (fun x y => x < a ∧ a < y) b =
      load R' (fun x y => x < sunkIdx d u a ∧ sunkIdx d u a < y) b +
        if d < a ∧ a < u then 1 else 0 := by
    refine s.load_step (fun x hx => ?_) (fun x y hxy hy => ?_) halone hb
    · have hfeed := s.feeder hx
      have hax : a ≠ x := fun hax => by
        have := s.use x b d (hax ▸ h) hx
        omega
      rw [sunkIdx_eq hapart, if_neg had]
      split_ifs <;> omega
    · have hxd : x ≠ d := fun hxd => hy.ne' (s.use d y u (hxd ▸ hxy) s.link)
      rw [sunkIdx_lt_iff hapart hy.le, sunkIdx_eq hapart, sunkIdx_eq hapart, if_neg had, if_neg hxd]
      split_ifs <;> omega
  unfold passing
  rw [hstep]
  rw [sunkIdx_eq hapart a, if_neg had]
  split_ifs <;> omega

end

end

section
variable {R R' T T' : Nat → Nat → Prop} {Mv Mv' : Nat → Prop} {d u : Nat}
  (s : Rounded R R' T T' Mv Mv' d u)
include s

/-- Whether they do is not changed by a round. -/
theorem Rounded.run_iff (halone : ∀ c, R c u → c = d) (n : Nat) {a : Nat} (had : a ≠ d) :
    Run R Mv n a ↔ Run R' Mv' n (sunkIdx d u a) := by
  have hapart := s.apart
  induction n generalizing a with
  | zero =>
    refine not_congr (Iff.trans ?_ (s.moved a).symm)
    exact ⟨.inr, fun h => h.resolve_left had⟩
  | succ n ih =>
    simp only [Run]
    constructor
    · rintro ⟨hR, hrun⟩
      have hlt := s.lt _ _ hR
      have hne : a - 1 ≠ d := fun h => by
        have := s.use _ _ u hR (h ▸ s.link)
        omega
      have hu : a ≠ u := fun h => hne (halone _ (h ▸ hR))
      have hpred : sunkIdx d u (a - 1) = sunkIdx d u a - 1 := by
        rw [sunkIdx_eq hapart, sunkIdx_eq hapart a, if_neg hne, if_neg had]
        split_ifs <;> omega
      rw [← hpred]
      exact ⟨(s.same _ _).mpr hR, (ih hne).mp hrun⟩
    · rintro ⟨hR', hrun⟩
      have hlt := s.lt' hR'
      obtain ⟨x, hx⟩ := sunkIdx_surj d u (sunkIdx d u a - 1)
      rw [← hx] at hR' hrun hlt
      have hR := (s.same x a).mp hR'
      have hxa := s.lt x a hR
      have hxd : x ≠ d := by
        rintro rfl
        -- behind the constant stands nothing that is linked to it
        cases n with
        | zero => exact hrun ((s.moved x).mpr (.inl rfl))
        | succ n =>
          obtain ⟨y, hy⟩ := sunkIdx_surj x u (sunkIdx x u x - 1)
          have hfeed := hrun.1
          rw [← hy] at hfeed
          have hyx := s.feeder ((s.same y x).mp hfeed)
          rw [sunkIdx_before hapart (by omega), sunkIdx_def hapart] at hy
          omega
      have hpred : x = a - 1 := by
        have hfirst := s.first x a hR
        rw [sunkIdx_eq hapart, sunkIdx_eq hapart a, if_neg hxd, if_neg had] at hx
        split_ifs at hx <;> omega
      rw [← hpred]
      exact ⟨hR, (ih hxd).mpr hrun⟩

end

section
variable {R R' T T' : Nat → Nat → Prop} [DecidableRel R] [DecidableRel R'] {Mv Mv' : Nat → Prop}
  {d u : Nat} (s : Rounded R R' T T' Mv Mv' d u)
include s

/-- A round leaves to a later motion what it is to meet. -/
theorem Rounded.later_iff (halone : ∀ c, R c u → c = d) {a b n : Nat} (h : R a b) (hb : u < b) :
    Resumes R Mv (n + 1) a b ↔ Resumes R' Mv' n (sunkIdx d u a) b := by
  have hapart := s.apart
  have hspent := s.spent_step halone hb
  have hpass := s.passing_step halone h hb
  have halong := s.along a
  have had : a ≠ d := fun had => hb.ne' (s.use d b u (had ▸ h) s.link)
  have hbb : sunkIdx d u b = b := sunkIdx_behind hapart hb.le
  have hrun := s.run_iff halone (n - spent R' b) had
  have hlink : ∀ c, R' (sunkIdx d u c) b ↔ R c b := fun c => by rw [← s.same c b, hbb]
  have hle := s.lt a b h
  have hσ := sunkIdx_eq hapart a
  rw [if_neg had] at hσ
  constructor
  · intro hm
    refine ⟨fun hn => ?_, fun hn c hc => ?_, fun hn c hc hne => ?_, fun hn hcut => ?_⟩
    · have := hm.fits (by omega)
      omega
    · obtain ⟨c, rfl⟩ := sunkIdx_surj d u c
      rw [hm.alone (by omega) c ((hlink c).mp hc)]
    · obtain ⟨c, rfl⟩ := sunkIdx_surj d u c
      have hR := (hlink c).mp hc
      rw [s.moved c]
      rintro (rfl | hmv)
      · exact hb.ne' (s.use c b u hR s.link)
      · exact hm.fresh (by omega) c hR (fun hca => hne (by rw [hca])) hmv
    · have := hm.whole (by omega) (by omega)
      rw [show n + 1 - spent R b = n - spent R' b by omega] at this
      exact hrun.mp this
  · intro hm
    refine ⟨fun hn => ?_, fun hn c hc => ?_, fun hn c hc hne => ?_, fun hn hcut => ?_⟩
    · have := hm.fits (by omega)
      omega
    · exact sunkIdx_inj hapart (hm.alone (by omega) _ ((hlink c).mpr hc))
    · intro hmv
      exact hm.fresh (by omega) _ ((hlink c).mpr hc) (fun hca => hne (sunkIdx_inj hapart hca))
        ((s.moved c).mpr (.inr hmv))
    · rw [show n + 1 - spent R b = n - spent R' b by omega]
      exact hrun.mpr (hm.whole (by omega) (by omega))

omit [DecidableRel R'] in
/-- What the constant itself is to meet. -/
theorem Rounded.first_iff (hfresh : ∀ c, R c u → c ≠ d → ¬Mv c) {n : Nat} :
    Resumes R Mv (n + 1) d u ↔ d < 65536 ∧ (carried R d ≤ n → ∀ c, R c u → c = d) ∧
      (n + 1 < carried R d → Run R Mv (n + 1) d) := by
  have hspent : spent R u = 0 := s.load_first le_rfl
  have hpass : passing R d u = 0 := s.load_first le_rfl
  constructor
  · intro hm
    refine ⟨?_, fun hle => hm.alone (by omega), fun hlt => ?_⟩
    · have := hm.fits (by omega)
      omega
    · have := hm.whole (by omega) (by omega)
      rwa [hspent] at this
  · rintro ⟨hfits, halone, hrun⟩
    refine ⟨fun _ => by omega, fun hlt => halone (by omega), fun _ => hfresh, fun _ hcut => ?_⟩
    rw [hspent]
    exact hrun (by omega)

/-- What the constant linked to it is to meet in the next round. -/
theorem Rounded.fed_iff {a n : Nat} (ha : a + 1 = d) (hR : R a d) (hd : d < 65536) :
    Resumes R' Mv' n a (u - 1) ↔ (n + 1 < carried R d → Run R' Mv' n a) := by
  have hspent : spent R' (u - 1) = 0 := s.load_zero
  have hapart := s.apart
  have halong : carried R' a + 1 = carried R d := by
    have := s.along a
    rw [sunkIdx_before hapart (by omega)] at this
    rw [this, s.along_def le_rfl, Nat.add_comm]
    congr 1
    rw [Finset.sum_eq_single a (fun k _ hk => if_neg (by omega)) fun h => absurd (Finset.mem_range.mpr
      (by omega)) h, if_pos ⟨ha, hR⟩]
  have honly : ∀ c, R' c (u - 1) → c = a := by
    intro c hc
    obtain ⟨c, rfl⟩ := sunkIdx_surj d u c
    rw [← sunkIdx_def hapart] at hc
    have := s.feeder ((s.same c d).mp hc)
    rw [sunkIdx_before hapart (by omega)]
    omega
  constructor
  · intro hm hlt
    have := hm.whole (by omega) (by omega)
    rwa [hspent] at this
  · intro hrun
    refine ⟨fun _ => by omega, fun _ => honly, fun _ c hc hne => absurd (honly c hc) hne,
      fun _ hcut => ?_⟩
    rw [hspent]
    exact hrun (by omega)

omit [DecidableRel R'] in
/-- When the rounds end with what goes along, nothing is asked of a later motion. -/
theorem Rounded.spent_later {a b n : Nat} (hcut : n < carried R d) (h : R a b) (hgap : a + 1 < b)
    (hb : u < b) : Resumes R Mv (n + 1) a b := by
  have hspent := carried_le_spent s.link s.apart hb
  refine ⟨fun _ => by omega, fun _ => by omega, fun _ => by omega, fun _ _ => ?_⟩
  rw [show n + 1 - spent R b = 0 by omega]
  exact fun hmv => hb.ne' (s.use d b u (s.inv a b h hgap hmv ▸ h) s.link)

/-- The same after the round. -/
theorem Rounded.spent_later' (hfresh : ∀ c, R c u → c ≠ d → ¬Mv c) {a b n : Nat}
    (hcut : n < carried R d) (h : R a b) (hd : b ≠ d) (hne : a ≠ d)
    (hgap : sunkIdx d u a + 1 < sunkIdx d u b) (hb : u ≤ b) :
    Resumes R' Mv' n (sunkIdx d u a) b := by
  have hspent : spent R' u ≤ spent R' b := load_mono hb
  have hat := s.spent_at
  refine ⟨fun _ => by omega, fun _ => by have := one_le_carried (R := R') (sunkIdx d u a); omega,
    fun _ => by omega, fun _ _ => ?_⟩
  rw [show n - spent R' b = 0 by omega]
  intro hmv
  have hbefore := ((s.moved a).mp hmv).resolve_left hne
  rcases eq_or_ne b u with rfl | hbu
  · exact hfresh a h hne hbefore
  · exact hne (s.inv a b h ((s.apart_iff h hd hbu).mp hgap) hbefore)

omit [DecidableRel R] [DecidableRel R'] in
/-- Before the constant nothing changes. -/
theorem Rounded.run_before (n : Nat) {a : Nat} (ha : a < d) : Run R Mv n a ↔ Run R' Mv' n a := by
  have hapart := s.apart
  induction n generalizing a with
  | zero =>
    have hmv := s.moved a
    rw [sunkIdx_before hapart ha] at hmv
    exact not_congr ⟨fun h => hmv.mpr (.inr h), fun h => (hmv.mp h).resolve_left ha.ne⟩
  | succ n ih =>
    have hlink := s.same (a - 1) a
    rw [sunkIdx_before hapart ha, sunkIdx_before hapart (by omega)] at hlink
    exact and_congr hlink.symm (ih (by omega))

omit [DecidableRel R'] in
/-- The constant itself and what is linked to it, when the rounds end before all of it has moved. -/
theorem Rounded.cut_iff {n : Nat} (hlt : n + 1 < carried R d) :
    Run R Mv (n + 1) d ↔ ∀ a, a + 1 = d → R a d → Run R' Mv' n a := by
  constructor
  · rintro ⟨-, hrun⟩ a rfl -
    exact (s.run_before n (Nat.lt_succ_self a)).mp hrun
  · intro h
    obtain ⟨a, ha, hR⟩ : ∃ a, a + 1 = d ∧ R a d := by
      by_contra hnone
      have hone := s.along_def le_rfl
      rw [Finset.sum_eq_zero fun k _ => if_neg fun hk => hnone ⟨k, hk⟩] at hone
      omega
    subst ha
    exact ⟨hR, (s.run_before n (Nat.lt_succ_self a)).mpr (h a rfl hR)⟩

/-- The rounds end before all of the constant has moved: nothing behind its use is asked for. -/
theorem Rounded.round_cut (hfresh : ∀ c, R c u → c ≠ d → ¬Mv c) {n : Nat}
    (hcut : n < carried R d) :
    (∀ a b, T a b → Resumes R Mv (n + 1) a b) ↔
      d < 65536 ∧ ∀ a b, T' a b → Resumes R' Mv' n a b := by
  have hapart := s.apart
  constructor
  · intro h
    have hd := (s.first_iff hfresh).mp (h d u s.taken)
    refine ⟨hd.1, fun a b ht => ?_⟩
    obtain ⟨hR, hgap⟩ := s.link_of' a b ht
    rcases Nat.lt_or_ge u b with hub | hbu
    · obtain ⟨a, rfl⟩ := sunkIdx_surj d u a
      have ht' := s.link_of a b ((s.later a b hub).mp ht)
      have hbb : sunkIdx d u b = b := sunkIdx_behind hapart hub.le
      refine s.spent_later' hfresh hcut ht'.1 (by omega) ?_ (by rwa [hbb]) hub.le
      rintro rfl
      exact hub.ne' (s.use a b u ht'.1 s.link)
    · rcases s.early hR hgap hbu with ⟨had, rfl, hfed⟩ | ⟨rfl, c, rfl, hc, hcd⟩
      · exact (s.fed_iff had hfed hd.1).mpr fun hlt => (s.cut_iff hlt).mp (hd.2.2 hlt) a had hfed
      · have hbb : sunkIdx d b b = b := sunkIdx_behind hapart le_rfl
        exact s.spent_later' hfresh hcut hc (by omega) hcd (by rwa [hbb]) le_rfl
  · rintro ⟨hd, h⟩ a b ht
    obtain ⟨hR, hgap⟩ := s.link_of a b ht
    rcases eq_or_ne b u with rfl | hbu
    · rw [s.unique a ht]
      refine (s.first_iff hfresh).mpr ⟨hd, fun hle => by omega, fun hlt => ?_⟩
      refine (s.cut_iff hlt).mpr fun x hx hfed => (s.fed_iff hx hfed hd).mp (h x _ ?_) hlt
      have hlink := (s.same x d).mpr hfed
      rw [sunkIdx_before hapart (by omega), sunkIdx_def hapart] at hlink
      obtain ⟨y, hy⟩ := s.taken' x _ hlink (by omega)
      obtain ⟨hyR, hygap⟩ := s.link_of' y _ hy
      rcases s.early hyR hygap (Nat.sub_le b 1) with ⟨hyd, -, -⟩ | ⟨hyb, -⟩
      · rwa [show x = y by omega]
      · omega
    · exact s.spent_later hcut hR hgap (lt_of_le_of_ne (s.first a b hR hgap) hbu.symm)

/-- All of the constant moves, and no other one shares its use: the later uses stay as they are. -/
theorem Rounded.round_alone (hfresh : ∀ c, R c u → c ≠ d → ¬Mv c) {n : Nat}
    (hle : carried R d ≤ n) (halone : ∀ c, R c u → c = d) :
    (∀ a b, T a b → Resumes R Mv (n + 1) a b) ↔
      d < 65536 ∧ ∀ a b, T' a b → Resumes R' Mv' n a b := by
  constructor
  · intro h
    have hd := (s.first_iff hfresh).mp (h d u s.taken)
    refine ⟨hd.1, fun a b ht => ?_⟩
    obtain ⟨hR, hgap⟩ := s.link_of' a b ht
    rcases Nat.lt_or_ge u b with hub | hbu
    · obtain ⟨a, rfl⟩ := sunkIdx_surj d u a
      have ht' := (s.later a b hub).mp ht
      exact (s.later_iff halone (s.link_of a b ht').1 hub).mp (h a b ht')
    · rcases s.early hR hgap hbu with ⟨had, rfl, hfed⟩ | ⟨-, c, -, hc, hcd⟩
      · exact (s.fed_iff had hfed hd.1).mpr fun hlt => by omega
      · exact absurd (halone c hc) hcd
  · rintro ⟨hd, h⟩ a b ht
    obtain ⟨hR, hgap⟩ := s.link_of a b ht
    rcases eq_or_ne b u with rfl | hbu
    · rw [s.unique a ht]
      exact (s.first_iff hfresh).mpr ⟨hd, fun _ => halone, fun hlt => by omega⟩
    · have hub : u < b := lt_of_le_of_ne (s.first a b hR hgap) hbu.symm
      exact (s.later_iff halone hR hub).mpr (h _ _ ((s.later a b hub).mpr ht))

/-- Two constants share the use, and there are rounds left to move both: neither side is met. -/
theorem Rounded.round_shared (hfresh : ∀ c, R c u → c ≠ d → ¬Mv c) {n c : Nat}
    (hle : carried R d ≤ n) (hc : R c u) (hcd : c ≠ d) :
    (∀ a b, T a b → Resumes R Mv (n + 1) a b) ↔
      d < 65536 ∧ ∀ a b, T' a b → Resumes R' Mv' n a b := by
  have hapart := s.apart
  constructor
  · intro h
    exact absurd (((s.first_iff hfresh).mp (h d u s.taken)).2.1 hle c hc) hcd
  · rintro ⟨-, h⟩
    have hcu := s.lt c u hc
    have hlink : ∀ x, R x u → R' (sunkIdx d u x) u := fun x hx => by
      have := (s.same x u).mpr hx
      rwa [sunkIdx_behind hapart le_rfl] at this
    have hgap : sunkIdx d u c + 1 < u := by
      rw [sunkIdx_eq hapart, if_neg hcd]
      split_ifs <;> omega
    obtain ⟨x, hx⟩ := s.taken' _ _ (hlink c hc) hgap
    obtain ⟨-, hxgap⟩ := s.link_of' x u hx
    have hat := s.spent_at
    refine absurd ((s.moved d).mpr (.inl rfl)) ((h x u hx).fresh (by omega) _ (hlink d s.link) ?_)
    rw [sunkIdx_def hapart]
    omega

/-- **A round leaves the same to be met.** -/
theorem Rounded.round_iff (hfresh : ∀ c, R c u → c ≠ d → ¬Mv c) (n : Nat) :
    (∀ a b, T a b → Resumes R Mv (n + 1) a b) ↔
      d < 65536 ∧ ∀ a b, T' a b → Resumes R' Mv' n a b := by
  rcases Nat.lt_or_ge n (carried R d) with hcut | hle
  · exact s.round_cut hfresh hcut
  · by_cases halone : ∀ c, R c u → c = d
    · exact s.round_alone hfresh hle halone
    · push Not at halone
      obtain ⟨c, hc, hcd⟩ := halone
      exact s.round_shared hfresh hle hc hcd

end

end Opt
