import Mathlib.Data.Nat.Find
import Mathlib.Data.Finset.Card
import Mathlib.Data.Finset.Range
import Mathlib.Data.List.Induction
import Mathlib.Tactic.SplitIfs

/-!
# Linear probing

A table of `n` slots is searched from the home of a key slot by slot, around its end. The table is
`Chained` when no free slot is nearer to the home of an entry than the entry is: a search from the
home then meets the entry before a free slot. `probe_eq` says what a search finds,
`Chained.exists_walk` what it passes, and `Chained.insert` keeps the table chained when an entry is
put at the first free slot. A table is repaired after a hole without marks for deleted entries: the
entries that follow are taken out and put in again, one by one (`Repairing.shift`), up to the next
free slot (`Repairing.done`).
-/

namespace Lib.Probe

/-- How many steps of the search lead from slot `i` to slot `j`. -/
def dist (n i j : Nat) : Nat := if i ≤ j then j - i else j + n - i

def next (n i : Nat) : Nat := (i + 1) % n

/-- The first slot from `i` on at which the search stops, within the given number of slots. -/
def probe (n : Nat) (stop : Nat → Bool) : Nat → Nat → Option Nat
  | 0, _ => none
  | fuel + 1, i => if stop i then some i else probe n stop fuel (next n i)

section
variable {n : Nat}

theorem next_eq {i : Nat} (hi : i < n) : next n i = if i + 1 = n then 0 else i + 1 := by
  unfold next
  split_ifs with h
  · rw [h, Nat.mod_self]
  · exact Nat.mod_eq_of_lt (by omega)

theorem next_lt {i : Nat} (hi : i < n) : next n i < n := Nat.mod_lt _ (Nat.zero_lt_of_lt hi)

theorem dist_lt {i j : Nat} (hi : i < n) (hj : j < n) : dist n i j < n := by
  unfold dist
  split_ifs <;> omega

theorem dist_self (i : Nat) : dist n i i = 0 := by simp [dist]

theorem dist_eq_zero {i j : Nat} (hi : i < n) : dist n i j = 0 ↔ i = j := by
  unfold dist
  split_ifs <;> omega

theorem dist_inj {i j k : Nat} (hi : i < n) (hj : j < n) (hk : k < n) :
    dist n i j = dist n i k ↔ j = k := by
  unfold dist
  split_ifs <;> omega

/-- One step of the search is one step nearer. -/
theorem dist_next {i j : Nat} (hi : i < n) (hj : j < n) (hne : i ≠ j) :
    dist n i j = dist n (next n i) j + 1 := by
  rw [next_eq hi]
  unfold dist
  split_ifs <;> omega

/-- A search finds the nearest slot at which it stops. -/
theorem probe_eq {stop : Nat → Bool} {i j : Nat} (hi : i < n) (hj : j < n) (hstop : stop j = true)
    (hmin : ∀ k < n, stop k = true → dist n i j ≤ dist n i k) {fuel : Nat}
    (hfuel : dist n i j < fuel) : probe n stop fuel i = some j := by
  induction fuel generalizing i with
  | zero => exact absurd hfuel (Nat.not_lt_zero _)
  | succ fuel ih =>
    rw [probe]
    by_cases hij : i = j
    · subst hij
      rw [if_pos hstop]
    · have hi' : ¬ stop i = true := by
        intro h
        have h1 := hmin i hi h
        rw [dist_self, Nat.le_zero, dist_eq_zero hi] at h1
        exact hij h1
      rw [if_neg hi']
      refine ih (next_lt hi) (fun k hk hs => ?_) ?_
      · have hik : i ≠ k := fun h => hi' (h ▸ hs)
        have h1 := hmin k hk hs
        rw [dist_next hi hj hij, dist_next hi hk hik] at h1
        omega
      · rw [dist_next hi hj hij] at hfuel
        omega

/-- A search that has a slot to stop at ends within one round. -/
theorem exists_probe (stop : Nat → Bool) {i : Nat} (hi : i < n) (h : ∃ k < n, stop k = true) :
    ∃ j < n, probe n stop n i = some j ∧ stop j = true ∧
      ∀ k < n, stop k = true → dist n i j ≤ dist n i k := by
  classical
  have hex : ∃ d, ∃ k < n, stop k = true ∧ dist n i k = d := by
    obtain ⟨k, hk, hs⟩ := h
    exact ⟨_, k, hk, hs, rfl⟩
  obtain ⟨j, hj, hs, hd⟩ := Nat.find_spec hex
  have hmin : ∀ k < n, stop k = true → dist n i j ≤ dist n i k := by
    intro k hk hk'
    rw [hd]
    exact Nat.find_min' hex ⟨k, hk, hk', rfl⟩
  exact ⟨j, hj, probe_eq hi hj hs hmin (dist_lt hi hj), hs, hmin⟩

end

/-! ## Chained tables -/

section
variable {α : Type} {n : Nat} {home : α → Nat}

/-- No free slot is nearer to the home of an entry than the entry. -/
def Chained (n : Nat) (home : α → Nat) (slots : Nat → Option α) : Prop :=
  ∀ i < n, ∀ x, slots i = some x → ∀ z < n, slots z = none →
    dist n (home x) i < dist n (home x) z

variable {slots : Nat → Option α}

theorem Chained.empty : Chained n home fun _ => none := by
  intro i _ x hx
  cases hx

/-- An entry put at the first free slot from its home keeps the table chained. -/
theorem Chained.insert (h : Chained n home slots) {x : α} {f : Nat} (hf : slots f = none)
    (hfirst : ∀ z < n, slots z = none → dist n (home x) f ≤ dist n (home x) z)
    (hhome : home x < n) (hfn : f < n) :
    Chained n home (Function.update slots f (some x)) := by
  intro i hi y hy z hz hfree
  have hzf : z ≠ f := by
    rintro rfl
    rw [Function.update_self] at hfree
    cases hfree
  rw [Function.update_of_ne hzf] at hfree
  by_cases hif : i = f
  · subst hif
    rw [Function.update_self] at hy
    cases hy
    have h1 := hfirst z hz hfree
    have h2 : dist n (home x) i ≠ dist n (home x) z :=
      fun h => hzf ((dist_inj hhome hi hz).mp h).symm
    omega
  · rw [Function.update_of_ne hif] at hy
    exact h i hi y hy z hz hfree

/-- An entry may be replaced by one of the same home. -/
theorem Chained.replace (h : Chained n home slots) {p : Nat} {x y : α} (hx : slots p = some x)
    (hhome : home y = home x) : Chained n home (Function.update slots p (some y)) := by
  intro i hi w hw z hz hfree
  have hzp : z ≠ p := by
    rintro rfl
    rw [Function.update_self] at hfree
    cases hfree
  rw [Function.update_of_ne hzp] at hfree
  by_cases hip : i = p
  · subst hip
    rw [Function.update_self, Option.some.injEq] at hw
    subst hw
    rw [hhome]
    exact h i hi x hx z hz hfree
  · rw [Function.update_of_ne hip] at hw
    exact h i hi w hw z hz hfree

/-! ## Walking a chain -/

/-- The entries from slot `i` on up to the first free slot. -/
def walk (n : Nat) (slots : Nat → Option α) : Nat → Nat → Option (List α)
  | 0, _ => none
  | fuel + 1, i =>
    match slots i with
    | none => some []
    | some x => (walk n slots fuel (next n i)).map (x :: ·)

/-- A walk ends at the nearest free slot and meets every entry before it. -/
theorem walk_spec {i z : Nat} (hi : i < n) (hz : z < n) (hfree : slots z = none)
    (hmin : ∀ w < n, slots w = none → dist n i z ≤ dist n i w) {fuel : Nat}
    (hfuel : dist n i z < fuel) :
    ∃ l, walk n slots fuel i = some l ∧ (∀ x ∈ l, ∃ j, slots j = some x) ∧
      ∀ j < n, ∀ x, slots j = some x → dist n i j < dist n i z → x ∈ l := by
  induction fuel generalizing i with
  | zero => exact absurd hfuel (Nat.not_lt_zero _)
  | succ fuel ih =>
    rw [walk]
    cases hslot : slots i with
    | none =>
      refine ⟨[], rfl, fun x hx => absurd hx List.not_mem_nil, fun j _ x _ hlt => ?_⟩
      have h1 := hmin i hi hslot
      rw [dist_self] at h1
      omega
    | some y =>
      have hiz : i ≠ z := by
        rintro rfl
        rw [hfree] at hslot
        cases hslot
      have hstep := dist_next hi hz hiz
      obtain ⟨l, hl, hheld, hmem⟩ := ih (next_lt hi) (fun w hw hwfree => by
        have hiw : i ≠ w := by
          rintro rfl
          rw [hwfree] at hslot
          cases hslot
        have h1 := hmin w hw hwfree
        rw [dist_next hi hw hiw] at h1
        omega) (by omega)
      refine ⟨y :: l, by rw [hl]; rfl, ?_, fun j hj x hx hlt => ?_⟩
      · exact List.forall_mem_cons.mpr ⟨⟨i, hslot⟩, hheld⟩
      · by_cases hij : i = j
        · subst hij
          rw [hslot] at hx
          exact List.mem_cons.mpr (.inl (Option.some.inj hx).symm)
        · rw [dist_next hi hj hij] at hlt
          exact List.mem_cons_of_mem y (hmem j hj x hx (by omega))

/-- From its home on, a walk meets an entry of a chained table. -/
theorem Chained.exists_walk (h : Chained n home slots) {i : Nat} (hi : i < n)
    (hfree : ∃ k < n, slots k = none) :
    ∃ l, walk n slots n i = some l ∧ (∀ x ∈ l, ∃ j, slots j = some x) ∧
      ∀ j < n, ∀ x, slots j = some x → home x = i → x ∈ l := by
  have hstop : ∃ k < n, (slots k).isNone = true := by
    obtain ⟨k, hk, hfree⟩ := hfree
    exact ⟨k, hk, by rw [hfree]; rfl⟩
  obtain ⟨z, hz, -, hzfree, hmin⟩ := exists_probe _ hi hstop
  rw [Option.isNone_iff_eq_none] at hzfree
  obtain ⟨l, hl, hheld, hmem⟩ := walk_spec hi hz hzfree
    (fun w hw hw' => hmin w hw (by rw [hw']; rfl)) (dist_lt hi hz)
  refine ⟨l, hl, hheld, fun j hj x hx hhome => hmem j hj x hx ?_⟩
  rw [← hhome]
  exact h j hj x hx z hz hzfree

/-! ## Repairing a table after a hole

The slots are counted from the one after a free slot `z`, so that no search passes the end. -/

/-- The place of slot `i` when slot `z` is the last one. -/
def place (n z i : Nat) : Nat := dist n (next n z) i

section
variable {i j w z : Nat}

theorem place_lt (hz : z < n) (hi : i < n) : place n z i < n := dist_lt (next_lt hz) hi

theorem place_last (hz : z < n) : place n z z = n - 1 := by
  rw [place, next_eq hz]
  unfold dist
  split_ifs <;> omega

theorem place_inj (hz : z < n) (hi : i < n) (hj : j < n) :
    place n z i = place n z j ↔ i = j := dist_inj (next_lt hz) hi hj

theorem place_next (hz : z < n) (hi : i < n) (hne : i ≠ z) :
    place n z (next n i) = place n z i + 1 := by
  unfold place
  rw [next_eq hz, next_eq hi]
  unfold dist
  split_ifs <;> omega

/-- Before the last slot a search counts places. -/
theorem dist_lt_dist (hz : z < n) (hi : i < n) (hj : j < n) (hw : w < n)
    (hij : place n z i ≤ place n z j) :
    dist n i j < dist n i w ↔ place n z w < place n z i ∨ place n z j < place n z w := by
  unfold place at *
  rw [next_eq hz] at *
  unfold dist at *
  split_ifs at * <;> omega

theorem place_le_of_dist (hz : z < n) (hi : i < n)
    (h : dist n i j < dist n i z) : place n z i ≤ place n z j := by
  unfold place
  rw [next_eq hz]
  unfold dist at *
  split_ifs at * <;> omega

/-- What comes first in a search that ends at `w` stands between the start and `w`. -/
theorem place_between (hz : z < n) (hi : i < n) (hj : j < n) (hw : w < n)
    (hiw : place n z i ≤ place n z w) (h : dist n i j ≤ dist n i w) :
    place n z i ≤ place n z j ∧ place n z j ≤ place n z w := by
  unfold place at *
  rw [next_eq hz] at *
  unfold dist at *
  split_ifs at * <;> omega

end

/-- The table between two steps of a repair: the entries before slot `c` are chained, the others
stand without a gap up to the free slot `z`. -/
structure Repairing (n : Nat) (home : α → Nat) (z c : Nat) (slots : Nat → Option α) : Prop where
  last : slots z = none
  order : ∀ i < n, ∀ x, slots i = some x → place n z (home x) ≤ place n z i
  chained : ∀ i < n, ∀ x, slots i = some x → place n z i < place n z c →
    ∀ w < n, slots w = none → dist n (home x) i < dist n (home x) w
  dense : ∀ i < n, slots i = none → place n z c ≤ place n z i → i = z

section
variable {z c : Nat}

/-- Taking out an entry leaves a table to repair from the slot after it. -/
theorem Chained.repairing (h : Chained n home slots) (hhome : ∀ x, home x < n) {p : Nat}
    (hp : p < n) {x : α} (hx : slots p = some x) (hfree : ∃ k < n, slots k = none) :
    ∃ z < n, z ≠ p ∧ Repairing n home z (next n p) (Function.update slots p none) := by
  have hstop : ∃ k < n, (slots k).isNone = true := by
    obtain ⟨k, hk, hk'⟩ := hfree
    exact ⟨k, hk, by rw [hk']; rfl⟩
  obtain ⟨z, hz, -, hzs, hmin⟩ := exists_probe _ (next_lt hp) hstop
  rw [Option.isNone_iff_eq_none] at hzs
  have hzp : z ≠ p := by
    rintro rfl
    rw [hx] at hzs
    cases hzs
  have horder : ∀ i < n, ∀ y, slots i = some y → place n z (home y) ≤ place n z i :=
    fun i hi y hy => place_le_of_dist hz (hhome y) (h i hi y hy z hz hzs)
  have hold : ∀ i y, Function.update slots p none i = some y → i ≠ p ∧ slots i = some y := by
    intro i y hy
    have hip : i ≠ p := by
      rintro rfl
      rw [Function.update_self] at hy
      cases hy
    rw [Function.update_of_ne hip] at hy
    exact ⟨hip, hy⟩
  refine ⟨z, hz, hzp, ?_, ?_, ?_, ?_⟩
  · rw [Function.update_of_ne hzp, hzs]
  · intro i hi y hy
    exact horder i hi y (hold i y hy).2
  · intro i hi y hy hlt w hw hwfree
    obtain ⟨hip, hy'⟩ := hold i y hy
    rw [place_next hz hp hzp.symm] at hlt
    have hne : place n z i ≠ place n z p := fun e => hip ((place_inj hz hi hp).mp e)
    by_cases hwp : w = p
    · subst hwp
      rw [dist_lt_dist hz (hhome y) hi hw (horder i hi y hy')]
      omega
    · rw [Function.update_of_ne hwp] at hwfree
      exact h i hi y hy' w hw hwfree
  · intro i hi hifree hle
    rw [place_next hz hp hzp.symm] at hle
    have hip : i ≠ p := by
      rintro rfl
      omega
    rw [Function.update_of_ne hip] at hifree
    have hd := hmin i hi (by rw [hifree]; rfl)
    have hpc := place_next hz hp hzp.symm
    have hz' := place_last hz
    have hi' := place_lt hz hi
    have hb := place_between hz (next_lt hp) hz hi (by omega) hd
    exact (place_inj hz hi hz).mp (by omega)

/-- **One step of a repair.** The entry at `c` is taken out and put in again. -/
theorem Repairing.shift (h : Repairing n home z c slots) (hhome : ∀ x, home x < n) (hz : z < n)
    (hc : c < n) {x : α} (hx : slots c = some x) {f : Nat} (hfn : f < n)
    (hf : Function.update slots c none f = none)
    (hfirst : ∀ w < n, Function.update slots c none w = none →
      dist n (home x) f ≤ dist n (home x) w) :
    Repairing n home z (next n c)
      (Function.update (Function.update slots c none) f (some x)) := by
  have hcz : c ≠ z := by
    rintro rfl
    rw [h.last] at hx
    cases hx
  have hplace := place_next hz hc hcz
  have hxc := h.order c hc x hx
  have hfc := place_between hz (hhome x) hfn hc hxc
    (hfirst c hc (Function.update_self c none slots))
  have hlast := place_last hz
  have hclt : place n z c < n - 1 := by
    have h1 := place_lt hz hc
    have h2 : place n z c ≠ place n z z := fun e => hcz ((place_inj hz hc hz).mp e)
    omega
  have hfz : f ≠ z := by
    rintro rfl
    omega
  -- What stands in the new table: the moved entry, or an old entry at another slot than `c`.
  have hold : ∀ i y, Function.update (Function.update slots c none) f (some x) i = some y →
      i = f ∧ y = x ∨ i ≠ c ∧ slots i = some y := by
    intro i y hy
    by_cases hif : i = f
    · subst hif
      rw [Function.update_self] at hy
      exact .inl ⟨rfl, (Option.some.inj hy).symm⟩
    · rw [Function.update_of_ne hif] at hy
      by_cases hic : i = c
      · subst hic
        rw [Function.update_self] at hy
        cases hy
      · rw [Function.update_of_ne hic] at hy
        exact .inr ⟨hic, hy⟩
  have hnone : ∀ w, Function.update (Function.update slots c none) f (some x) w = none →
      w ≠ f ∧ Function.update slots c none w = none := by
    intro w hw
    have hwf : w ≠ f := by
      rintro rfl
      rw [Function.update_self] at hw
      cases hw
    rw [Function.update_of_ne hwf] at hw
    exact ⟨hwf, hw⟩
  refine ⟨?_, ?_, ?_, ?_⟩
  · rw [Function.update_of_ne hfz.symm, Function.update_of_ne hcz.symm, h.last]
  · intro i hi y hy
    obtain ⟨rfl, rfl⟩ | ⟨-, hy⟩ := hold i y hy
    · exact hfc.1
    · exact h.order i hi y hy
  · intro i hi y hy hlt w hw hwfree
    obtain ⟨hwf, hwfree'⟩ := hnone w hwfree
    obtain ⟨rfl, rfl⟩ | ⟨hic, hy'⟩ := hold i y hy
    · have h1 := hfirst w hw hwfree'
      have h2 : dist n (home y) i ≠ dist n (home y) w :=
        fun e => hwf ((dist_inj (hhome y) hi hw).mp e).symm
      omega
    · have hne : place n z i ≠ place n z c := fun e => hic ((place_inj hz hi hc).mp e)
      by_cases hwc : w = c
      · subst hwc
        rw [dist_lt_dist hz (hhome y) hi hw (h.order i hi y hy')]
        omega
      · rw [Function.update_of_ne hwc] at hwfree'
        exact h.chained i hi y hy' (by omega) w hw hwfree'
  · intro i hi hifree hle
    obtain ⟨-, hifree⟩ := hnone i hifree
    have hic : i ≠ c := by
      rintro rfl
      omega
    rw [Function.update_of_ne hic] at hifree
    exact h.dense i hi hifree (by omega)

/-- A repair ends at the free slot. -/
theorem Repairing.done (h : Repairing n home z c slots) (hz : z < n) (hc : c < n)
    (hfree : slots c = none) : Chained n home slots := by
  have hcz := h.dense c hc hfree (Nat.le_refl _)
  subst hcz
  intro i hi x hx w hw hwfree
  refine h.chained i hi x hx ?_ w hw hwfree
  have h1 := place_lt hz hi
  have h2 := place_last hz
  have h3 : place n c i ≠ place n c c := by
    intro e
    rw [place_inj hz hi hz] at e
    subst e
    rw [hx] at hfree
    cases hfree
  omega

/-- The repair has not reached the free slot. -/
theorem Repairing.next_ne (h : Repairing n home z c slots) (hz : z < n) (hc : c < n)
    (hx : slots c ≠ none) : place n z (next n c) = place n z c + 1 := by
  apply place_next hz hc
  rintro rfl
  exact hx h.last

end

/-! ## What a table holds -/

/-- The number of entries. -/
def load (n : Nat) (slots : Nat → Option α) : Nat :=
  ((Finset.range n).filter fun i => (slots i).isSome).card

theorem load_empty : load n (fun _ => (none : Option α)) = 0 := by simp [load]

theorem exists_free_of_load (h : load n slots < n) : ∃ k < n, slots k = none := by
  by_contra hno
  push Not at hno
  have hall : (Finset.range n).filter (fun i => (slots i).isSome) = Finset.range n := by
    refine Finset.filter_true_of_mem fun i hi => ?_
    exact Option.isSome_iff_ne_none.mpr (hno i (Finset.mem_range.mp hi))
  rw [load, hall, Finset.card_range] at h
  exact absurd h (Nat.lt_irrefl n)

theorem load_insert {f : Nat} (hf : f < n) (hfree : slots f = none) (x : α) :
    load n (Function.update slots f (some x)) = load n slots + 1 := by
  have hmem : f ∉ (Finset.range n).filter fun i => (slots i).isSome := by
    simp [hfree]
  rw [load, load, ← Finset.card_insert_of_notMem hmem]
  congr 1
  ext i
  by_cases hi : i = f
  · subst hi
    simp [hf]
  · simp [hi]

theorem load_remove {p : Nat} (hp : p < n) {x : α} (hx : slots p = some x) :
    load n slots = load n (Function.update slots p none) + 1 := by
  have h : load n (Function.update (Function.update slots p none) p (some x)) =
      load n (Function.update slots p none) + 1 :=
    load_insert hp (Function.update_self ..) x
  rw [Function.update_idem, ← hx, Function.update_eq_self] at h
  exact h

/-- The slots of a list. -/
theorem load_getD (l : List (Option α)) :
    load l.length (fun i => l.getD i none) = l.countP Option.isSome := by
  induction l using List.reverseRecOn with
  | nil => rfl
  | append_singleton l a ih =>
    have hold : ∀ i < l.length, (l ++ [a]).getD i none = l.getD i none := by
      intro i hi
      simp [List.getD_eq_getElem?_getD, List.getElem?_append_left hi]
    have hlast : (l ++ [a]).getD l.length none = a := by
      simp [List.getD_eq_getElem?_getD]
    have hfilter : (Finset.range l.length).filter (fun i => ((l ++ [a]).getD i none).isSome) =
        (Finset.range l.length).filter fun i => (l.getD i none).isSome := by
      refine Finset.filter_congr fun i hi => ?_
      rw [hold i (Finset.mem_range.mp hi)]
    rw [load] at ih ⊢
    rw [List.length_append, List.length_singleton, Finset.range_add_one, Finset.filter_insert,
      hfilter, hlast, List.countP_append, List.countP_singleton]
    split_ifs with ha
    · rw [Finset.card_insert_of_notMem (by simp), ih]
    · rw [ih, Nat.add_zero]

/-- The table holds the entry. -/
def Holds (slots : Nat → Option α) (x : α) : Prop := ∃ i, slots i = some x

theorem holds_insert {f : Nat} (hfree : slots f = none) {x y : α} :
    Holds (Function.update slots f (some x)) y ↔ y = x ∨ Holds slots y := by
  constructor
  · rintro ⟨i, hi⟩
    by_cases hif : i = f
    · subst hif
      rw [Function.update_self] at hi
      exact .inl (Option.some.inj hi).symm
    · rw [Function.update_of_ne hif] at hi
      exact .inr ⟨i, hi⟩
  · rintro (rfl | ⟨i, hi⟩)
    · exact ⟨f, Function.update_self ..⟩
    · have hif : i ≠ f := by
        rintro rfl
        rw [hfree] at hi
        cases hi
      exact ⟨i, by rw [Function.update_of_ne hif, hi]⟩

section
variable {κ : Type} {key : α → κ}

/-- No two entries have the same key. -/
def Distinct (key : α → κ) (slots : Nat → Option α) : Prop :=
  ∀ i j x y, slots i = some x → slots j = some y → key x = key y → i = j

theorem Distinct.holds (h : Distinct key slots) {x y : α} (hx : Holds slots x)
    (hy : Holds slots y) (hkey : key x = key y) : x = y := by
  obtain ⟨i, hi⟩ := hx
  obtain ⟨j, hj⟩ := hy
  have hij := h i j x y hi hj hkey
  subst hij
  rw [hi] at hj
  exact Option.some.inj hj

theorem Distinct.remove (h : Distinct key slots) (p : Nat) :
    Distinct key (Function.update slots p none) := by
  have hold : ∀ i y, Function.update slots p none i = some y → slots i = some y := by
    intro i y hy
    have hip : i ≠ p := by
      rintro rfl
      rw [Function.update_self] at hy
      cases hy
    rwa [Function.update_of_ne hip] at hy
  exact fun i j x y hx hy => h i j x y (hold i x hx) (hold j y hy)

theorem Distinct.insert (h : Distinct key slots) {x : α} (f : Nat)
    (hnew : ∀ y, Holds slots y → key y ≠ key x) :
    Distinct key (Function.update slots f (some x)) := by
  intro i j y w hi hj hkey
  by_cases hif : i = f <;> by_cases hjf : j = f
  · exact hif.trans hjf.symm
  · subst hif
    rw [Function.update_self, Option.some.injEq] at hi
    rw [Function.update_of_ne hjf] at hj
    exact absurd (hi ▸ hkey.symm) (hnew w ⟨j, hj⟩)
  · subst hjf
    rw [Function.update_self, Option.some.injEq] at hj
    rw [Function.update_of_ne hif] at hi
    exact absurd (hj ▸ hkey) (hnew y ⟨i, hi⟩)
  · rw [Function.update_of_ne hif] at hi
    rw [Function.update_of_ne hjf] at hj
    exact h i j y w hi hj hkey

theorem Distinct.holds_remove (h : Distinct key slots) {p : Nat} {x y : α} (hx : slots p = some x) :
    Holds (Function.update slots p none) y ↔ Holds slots y ∧ key y ≠ key x := by
  constructor
  · rintro ⟨i, hi⟩
    have hip : i ≠ p := by
      rintro rfl
      rw [Function.update_self] at hi
      cases hi
    rw [Function.update_of_ne hip] at hi
    exact ⟨⟨i, hi⟩, fun hkey => hip (h i p y x hi hx hkey)⟩
  · rintro ⟨⟨i, hi⟩, hkey⟩
    have hip : i ≠ p := by
      rintro rfl
      rw [hx] at hi
      cases hi
      exact hkey rfl
    exact ⟨i, by rw [Function.update_of_ne hip, hi]⟩

end

end

end Lib.Probe
