import Orbit.Runtime.Proof.KynxBound

/-!
# What refills do with the time

A refill credits a time at the configured rate (`credited`): it cuts it at ten windows, rounds down
to a milli-token and moves the stamp to the present, so what it leaves out (`leftOut`) is gone for
the next one. Within ten windows and 64 bits that is the remainder of a division, and refills at any
readings come to one refill over the whole time, up to one token, exactly when their remainders add
up to no more than its own and a token, or the bucket is full up to one token (`kynxRefills_iff`).

A refill multiplies the time, cut at ten windows, by the rate and by 1000 (`refillProduct`), and
divides by the window. The cut bounds the product by the rate times ten windows only, so it fits in
64 bits for every time exactly when the rate times the window does not pass a bound
(`refillProduct_fits_iff`).
-/

namespace Runtime.Kynx

/-! ## Times -/

def total : List Nat → Nat
  | [] => 0
  | d :: ds => d + total ds

/-- The milli-tokens credited for a time of `d` nanoseconds. The product wraps at 64 bits. -/
def credited (rate window d : Nat) : Nat :=
  min d (window * 10000000) * rate * 1000 % 2 ^ 64 / (window * 1000000)

/-- The product of a refill, as it would be without a bound on the word. -/
def refillProduct (rate window d : Nat) : Nat := min d (window * 10000000) * rate * 1000

/-- The product is largest at ten windows. -/
theorem refillProduct_le (rate window d : Nat) :
    refillProduct rate window d ≤ window * rate * 10000000000 := by
  calc refillProduct rate window d
      ≤ window * 10000000 * rate * 1000 :=
        Nat.mul_le_mul_right _ (Nat.mul_le_mul_right _ (Nat.min_le_right _ _))
    _ = window * rate * 10000000000 := by ring

/-- The remainder of a time at the configured rate, in parts of a window. -/
def remainder (rate window d : Nat) : Nat := d * rate * 1000 % (window * 1000000)

/-- What a refill leaves out of a time: what lies beyond ten windows, what lies beyond 64 bits, and
the remainder of the product. -/
def leftOut (rate window d : Nat) : Nat :=
  (d - window * 10000000) * rate * 1000 + refillProduct rate window d / 2 ^ 64 * 2 ^ 64 +
    refillProduct rate window d % 2 ^ 64 % (window * 1000000)

theorem credited_eq (rate window d : Nat) :
    credited rate window d = refillProduct rate window d % 2 ^ 64 / (window * 1000000) := rfl

theorem leftOut_add (rate window d : Nat) :
    leftOut rate window d + window * 1000000 * credited rate window d = d * rate * 1000 := by
  have hcut : d * rate * 1000 =
      (d - window * 10000000) * rate * 1000 + refillProduct rate window d := by
    have hd : d = d - window * 10000000 + min d (window * 10000000) := by omega
    conv_lhs => rw [hd, Nat.add_mul, Nat.add_mul]
    rfl
  have hword := Nat.div_add_mod' (refillProduct rate window d) (2 ^ 64)
  have hdiv := Nat.mod_add_div (refillProduct rate window d % 2 ^ 64) (window * 1000000)
  rw [leftOut, credited_eq, Nat.add_assoc, hdiv, Nat.add_assoc, hword, hcut]

/-- Within ten windows and 64 bits only the remainder is left out. -/
theorem leftOut_eq {rate window d : Nat} (hd : d ≤ window * 10000000)
    (hbits : window * rate ≤ 1844674407) : leftOut rate window d = remainder rate window d := by
  have hfits : refillProduct rate window d < 2 ^ 64 := by
    have := refillProduct_le rate window d
    omega
  rw [leftOut, Nat.sub_eq_zero_of_le hd, Nat.div_eq_of_lt hfits, Nat.mod_eq_of_lt hfits,
    refillProduct, Nat.min_eq_left hd, remainder, Nat.zero_mul, Nat.zero_mul, Nat.zero_mul,
    Nat.zero_add]

/-- Two counts of milli-tokens that differ by one token at most. -/
def WithinToken (a b : Int) : Prop := a ≤ b + 1000 ∧ b ≤ a + 1000

section
variable (rate window : Nat) (cap tokens : Int) (ds : List Nat)

/-- No time is cut, and no product wraps. -/
def Uncut : Prop := total ds ≤ window * 10000000 ∧ window * rate ≤ 1844674407

/-- The whole time less what is lost, at the configured rate, fills the bucket up to one token. -/
def Fills (lost : Nat) : Prop :=
  (cap - tokens - 1000) * (window * 1000000) + lost ≤ total ds * rate * 1000

/-- There is no time; or the remainders over `ds` are no more than that of the whole time and a
token, or fill the bucket. Where time is cut or a product wraps, the same is asked of all that is
left out, in both directions. -/
def KeepsTime : Prop :=
  total ds = 0 ∨
    (Uncut rate window ds ∧
      (total (ds.map (remainder rate window)) ≤
          remainder rate window (total ds) + 1000 * (window * 1000000) ∨
        Fills rate window cap tokens ds (total (ds.map (remainder rate window))))) ∨
    (¬ Uncut rate window ds ∧
      ((total (ds.map (leftOut rate window)) ≤
            leftOut rate window (total ds) + 1000 * (window * 1000000) ∧
          leftOut rate window (total ds) ≤
            total (ds.map (leftOut rate window)) + 1000 * (window * 1000000)) ∨
        (Fills rate window cap tokens ds (total (ds.map (leftOut rate window))) ∧
          Fills rate window cap tokens ds (leftOut rate window (total ds)))))

instance : Decidable (Uncut rate window ds) := inferInstanceAs (Decidable (_ ∧ _))

instance (lost : Nat) : Decidable (Fills rate window cap tokens ds lost) :=
  inferInstanceAs (Decidable (_ ≤ _))

instance : Decidable (KeepsTime rate window cap tokens ds) :=
  inferInstanceAs (Decidable (_ ∨ _ ∨ _))

theorem total_leftOut :
    total (ds.map (leftOut rate window)) +
      window * 1000000 * total (ds.map (credited rate window)) = total ds * rate * 1000 := by
  induction ds with
  | nil => simp only [List.map_nil, total, Nat.mul_zero, Nat.add_zero, Nat.zero_mul]
  | cons d ds ih =>
    rw [List.map_cons, List.map_cons, total, total, total, Nat.mul_add, Nat.add_mul, Nat.add_mul,
      ← ih, ← leftOut_add rate window d]
    exact Nat.add_add_add_comm _ _ _ _

theorem le_total {d : Nat} (hd : d ∈ ds) : d ≤ total ds := by
  induction ds with
  | nil => exact absurd hd List.not_mem_nil
  | cons d' ds ih =>
    rw [total]
    rcases List.mem_cons.mp hd with rfl | hd
    · exact Nat.le_add_right _ _
    · exact Nat.le_trans (ih hd) (Nat.le_add_left _ _)

/-- The remainders are what is left out of times that are not cut. -/
theorem map_remainder (h : Uncut rate window ds) :
    ds.map (remainder rate window) = ds.map (leftOut rate window) :=
  List.map_congr_left fun _ hd => (leftOut_eq (Nat.le_trans (le_total ds hd) h.1) h.2).symm

end

/-- What is left out differs by the tokens that are credited. -/
theorem leftOut_le_iff {w a b x y p : Nat} (hw : 0 < w) (hx : x + w * a = p) (hy : y + w * b = p) :
    x ≤ y + 1000 * w ↔ b ≤ a + 1000 := by
  have hmul : b ≤ a + 1000 ↔ w * b ≤ w * (a + 1000) := (Nat.mul_le_mul_left_iff hw).symm
  rw [hmul, Nat.mul_add, Nat.mul_comm w 1000]
  omega

/-- The bucket is filled by the tokens that are credited. -/
theorem fills_iff {rate window : Nat} (hw : 1 ≤ window) (cap tokens : Int) {ds : List Nat}
    {a x : Nat} (hx : x + window * 1000000 * a = total ds * rate * 1000) :
    Fills rate window cap tokens ds x ↔ cap ≤ tokens + a + 1000 := by
  have hpos : (0 : Int) < window * 1000000 := by omega
  have hmul : cap - tokens - 1000 ≤ a ↔
      (cap - tokens - 1000) * (window * 1000000) ≤ a * (window * 1000000) :=
    (Int.mul_le_mul_right hpos).symm
  have hx' : (x : Int) + window * 1000000 * a = total ds * rate * 1000 := by exact_mod_cast hx
  rw [Fills, ← hx', Int.mul_comm (window * 1000000 : Int) a]
  omega

/-- **The refills keep the time** when the tokens that are credited come to those of one refill. -/
theorem keepsTime_iff {rate window : Nat} (hw : 1 ≤ window) (cap tokens : Int) (ds : List Nat) :
    KeepsTime rate window cap tokens ds ↔ total ds = 0 ∨
      (cap ≤ tokens + total (ds.map (credited rate window)) + 1000 ∧
        cap ≤ tokens + credited rate window (total ds) + 1000) ∨
      WithinToken (total (ds.map (credited rate window))) (credited rate window (total ds)) := by
  have hsplit := total_leftOut rate window ds
  have hwhole := leftOut_add rate window (total ds)
  have hpos : 0 < window * 1000000 := by omega
  have hle := leftOut_le_iff hpos hsplit hwhole
  have hge := leftOut_le_iff hpos hwhole hsplit
  have hfills := fills_iff hw cap tokens hsplit
  have hfills' := fills_iff hw cap tokens hwhole
  rw [KeepsTime, WithinToken]
  refine or_congr_right ?_
  by_cases huncut : Uncut rate window ds
  · have hrem : remainder rate window (total ds) < window * 1000000 := Nat.mod_lt _ hpos
    have hmono : total (ds.map (credited rate window)) ≤ credited rate window (total ds) := by
      rw [leftOut_eq huncut.1 huncut.2] at hwhole
      refine Nat.le_of_lt_succ (Nat.lt_of_mul_lt_mul_left (a := window * 1000000) ?_)
      rw [Nat.mul_succ (window * 1000000)]
      omega
    rw [map_remainder rate window ds huncut, ← leftOut_eq huncut.1 huncut.2, hle, hfills]
    simp only [huncut, true_and, not_true_eq_false, false_and, or_false]
    omega
  · simp only [huncut, false_and, not_false_eq_true, true_and, false_or]
    rw [hle, hge, hfills, hfills']
    omega

/-- A thousand refills at most lose no more than a token, where no time is cut and nothing wraps. -/
theorem keepsTime_of_few {rate window : Nat} (hw : 1 ≤ window) (cap tokens : Int) {ds : List Nat}
    (huncut : Uncut rate window ds) (hfew : ds.length ≤ 1000) :
    KeepsTime rate window cap tokens ds := by
  have hpos : 0 < window * 1000000 := by omega
  have hle : total (ds.map (remainder rate window)) ≤ ds.length * (window * 1000000) := by
    clear huncut hfew
    induction ds with
    | nil => exact Nat.zero_le _
    | cons d ds ih =>
      have hd : remainder rate window d < window * 1000000 := Nat.mod_lt _ hpos
      rw [List.map_cons, total, List.length_cons, Nat.succ_mul]
      omega
  have hlen := Nat.mul_le_mul_right (window * 1000000) hfew
  exact .inr (.inl ⟨huncut, .inl (by omega)⟩)

/-! ## Refills -/

/-- What the words of the source compute. -/
theorem kynxGained_eq {rate window : Nat} (hr : rate < 2 ^ 31) (hw : window < 2 ^ 31) {d : Nat}
    (hd : d < 2 ^ 64) : kynxGained rate window (UInt64.ofNat d) = credited rate window d := by
  have hrate : (UInt64.ofInt rate).toNat = rate := by
    have := toNat_ofInt_small (Int.natCast_nonneg rate) (by omega)
    omega
  have hwindow : (UInt64.ofInt window * 1000000).toNat = window * 1000000 := by
    have := toNat_ofInt_small (Int.natCast_nonneg window) (by omega)
    rw [UInt64.toNat_mul, show (1000000 : UInt64).toNat = 1000000 from rfl]
    omega
  have hmax : (UInt64.ofInt window * 1000000 * 10).toNat = window * 10000000 := by
    rw [UInt64.toNat_mul, hwindow, show (10 : UInt64).toNat = 10 from rfl]
    omega
  have hel : (if UInt64.ofNat d > UInt64.ofInt window * 1000000 * 10 then
      UInt64.ofInt window * 1000000 * 10 else UInt64.ofNat d).toNat = min d (window * 10000000) := by
    have hdn : (UInt64.ofNat d).toNat = d := UInt64.toNat_ofNat_of_lt' hd
    split_ifs with h
    · rw [gt_iff_lt, UInt64.lt_iff_toNat_lt, hmax, hdn] at h
      rw [hmax]
      omega
    · rw [gt_iff_lt, UInt64.lt_iff_toNat_lt, hmax, hdn] at h
      rw [hdn]
      omega
  rw [kynxGained, UInt64.toNat_div, hwindow, UInt64.toNat_mul, UInt64.toNat_mul, hrate, hel,
    show (1000 : UInt64).toNat = 1000 from rfl, credited, Nat.mod_mul_mod]

/-- A refill of a stamped bucket: its stamp and its tokens. -/
def refilled (cap : Int) (rate window : Nat) (tokens : Int) (d : Nat) : Int :=
  if d = 0 then tokens else min cap (tokens + credited rate window d)

/-- Refills add up what they credit, up to the cap. -/
theorem foldl_refilled (cap : Int) (rate window : Nat) (tokens : Int) (ds : List Nat) :
    ds.foldl (refilled cap rate window) tokens =
      if total ds = 0 then tokens
      else min cap (tokens + total (ds.map (credited rate window))) := by
  induction ds generalizing tokens with
  | nil => rfl
  | cons d ds ih =>
    rw [List.foldl_cons, ih, refilled, List.map_cons, total, total]
    by_cases hd : d = 0
    · subst hd
      simp [credited]
    · rw [if_neg hd, if_neg (show ¬ d + total ds = 0 by omega)]
      by_cases hds : total ds = 0
      · have hnone : total (ds.map (credited rate window)) = 0 := by
          clear ih
          induction ds with
          | nil => rfl
          | cons d' ds ih =>
            rw [total] at hds
            have hd' : d' = 0 := by omega
            rw [List.map_cons, total, ih (by omega), hd']
            simp [credited]
        rw [if_pos hds, hnone, Nat.add_zero]
      · rw [if_neg hds]
        push_cast
        omega

/-- The refills come to one refill exactly when they keep the time. -/
theorem refilled_iff {window : Nat} (hw : 1 ≤ window) (cap : Int) (rate : Nat) (tokens : Int)
    (ds : List Nat) :
    WithinToken (ds.foldl (refilled cap rate window) tokens)
        (refilled cap rate window tokens (total ds)) ↔
      KeepsTime rate window cap tokens ds := by
  rw [foldl_refilled, refilled, keepsTime_iff hw, WithinToken, WithinToken]
  by_cases hds : total ds = 0
  · simp [hds]
  · rw [if_neg hds, if_neg hds, or_iff_right hds]
    omega

/-! ## The refills of the source -/

/-- A refill `d` nanoseconds after the last one. -/
def kynxRefillAfter (cfg : OrbitKynxConfig) (e : OrbitKynxEntry) (d : Nat) : OrbitKynxEntry :=
  kynxRefill cfg e (e.lastRefillNs + UInt64.ofNat d)

/-- A refill of a route's bucket `d` nanoseconds after the last one. -/
def kynxRouteRefillAfter (lim : OrbitKynxRouteLimit) (b : KynxRouteBucket) (d : Nat) :
    KynxRouteBucket :=
  kynxRouteRefill b (atLeastOne lim.rate) (atLeastOne lim.windowMs)
    (b.lastRefillNs + UInt64.ofNat d)

/-- A positive number of the configuration. -/
def countOf (x : Int32) : Nat := (atLeastOne x).toNat

theorem countOf_eq (x : Int32) : (countOf x : Int) = atLeastOne x :=
  Int.toNat_of_nonneg (Int.le_trans (by decide) (one_le_atLeastOne x))

theorem countOf_bounds (x : Int32) : 1 ≤ countOf x ∧ countOf x < 2 ^ 31 := by
  have h := countOf_eq x
  have hone := one_le_atLeastOne x
  have hlt := atLeastOne_lt x
  omega

section
variable {last : UInt64} {d : Nat}

theorem toNat_later (h : last.toNat + d < 2 ^ 64) :
    (last + UInt64.ofNat d).toNat = last.toNat + d := by
  rw [UInt64.toNat_add, UInt64.toNat_ofNat_of_lt' (Nat.lt_of_le_of_lt (Nat.le_add_left _ _) h),
    Nat.mod_eq_of_lt h]

theorem later_le_iff (h : last.toNat + d < 2 ^ 64) : last + UInt64.ofNat d ≤ last ↔ d = 0 := by
  rw [UInt64.le_iff_toNat_le, toNat_later h]
  omega

theorem later_sub (last : UInt64) (d : Nat) : last + UInt64.ofNat d - last = UInt64.ofNat d := by
  rw [UInt64.add_comm, UInt64.add_sub_cancel]

theorem later_ne_zero (h0 : last ≠ 0) (h : last.toNat + d < 2 ^ 64) :
    last + UInt64.ofNat d ≠ 0 := by
  intro hz
  have hlater := toNat_later h
  rw [hz] at hlater
  refine h0 (UInt64.toNat_inj.mp ?_)
  rw [show (0 : UInt64).toNat = 0 from rfl] at hlater ⊢
  omega

end

/-- The cap of an address bucket. -/
def capMilli (cfg : OrbitKynxConfig) : Int := kynxEffectiveBurst cfg * 1000

theorem kynxRefillAfter_spec (cfg : OrbitKynxConfig) {e : OrbitKynxEntry} {d : Nat}
    (h0 : e.lastRefillNs ≠ 0) (h : e.lastRefillNs.toNat + d < 2 ^ 64) :
    (kynxRefillAfter cfg e d).lastRefillNs = e.lastRefillNs + UInt64.ofNat d ∧
      (kynxRefillAfter cfg e d).tokensMilli = refilled (capMilli cfg) (countOf cfg.rateLimit)
        (countOf cfg.windowMs) e.tokensMilli d := by
  have hgain := kynxGained_eq (countOf_bounds cfg.rateLimit).2 (countOf_bounds cfg.windowMs).2
    (show d < 2 ^ 64 by omega)
  rw [countOf_eq, countOf_eq] at hgain
  rw [kynxRefillAfter, kynxRefill, refilled]
  by_cases hd : d = 0
  · rw [if_pos (by simp [hd]), if_pos hd]
    exact ⟨rfl, rfl⟩
  · rw [if_neg (by simp [later_le_iff h, hd, h0]), if_neg hd]
    refine ⟨rfl, ?_⟩
    dsimp only
    rw [later_sub, hgain, capMilli]
    split_ifs with hcap
    · exact (min_eq_left (Int.le_of_lt hcap)).symm
    · exact (min_eq_right (Int.not_lt.mp hcap)).symm

theorem kynxRouteRefillAfter_spec (lim : OrbitKynxRouteLimit) {b : KynxRouteBucket} {d : Nat}
    (h0 : b.lastRefillNs ≠ 0) (h : b.lastRefillNs.toNat + d < 2 ^ 64) :
    (kynxRouteRefillAfter lim b d).lastRefillNs = b.lastRefillNs + UInt64.ofNat d ∧
      (kynxRouteRefillAfter lim b d).tokensMilli = refilled (countOf lim.rate * 1000)
        (countOf lim.rate) (countOf lim.windowMs) b.tokensMilli d := by
  have hgain := kynxGained_eq (countOf_bounds lim.rate).2 (countOf_bounds lim.windowMs).2
    (show d < 2 ^ 64 by omega)
  have hpos : atLeastOne lim.rate > 0 := one_le_atLeastOne lim.rate
  rw [countOf_eq, countOf_eq] at hgain
  rw [kynxRouteRefillAfter, kynxRouteRefill, refilled]
  by_cases hd : d = 0
  · rw [if_pos (by simp [hd]), if_pos hd]
    exact ⟨rfl, rfl⟩
  · rw [if_neg (by simp [later_le_iff h, hd, h0]), if_neg hd]
    refine ⟨rfl, ?_⟩
    dsimp only
    rw [later_sub, hgain, if_pos hpos, countOf_eq]
    split_ifs with hcap
    · exact (min_eq_left (Int.le_of_lt hcap)).symm
    · exact (min_eq_right (Int.not_lt.mp hcap)).symm

/-- Refills one after the other, each by its effect on the stamp and the tokens. -/
theorem foldl_stamped {B : Type} (stamp : B → UInt64) (tokens : B → Int) {step : B → Nat → B}
    {gain : Int → Nat → Int}
    (hstep : ∀ b d, stamp b ≠ 0 → (stamp b).toNat + d < 2 ^ 64 →
      stamp (step b d) = stamp b + UInt64.ofNat d ∧ tokens (step b d) = gain (tokens b) d)
    {b : B} {ds : List Nat} (h0 : stamp b ≠ 0) (h : (stamp b).toNat + total ds < 2 ^ 64) :
    tokens (ds.foldl step b) = ds.foldl gain (tokens b) := by
  induction ds generalizing b with
  | nil => rfl
  | cons d ds ih =>
    rw [total] at h
    have hd : (stamp b).toNat + d < 2 ^ 64 := by omega
    obtain ⟨hlast, htokens⟩ := hstep b d h0 hd
    rw [List.foldl_cons, List.foldl_cons, ← htokens]
    refine ih ?_ ?_
    · rw [hlast]
      exact later_ne_zero h0 hd
    · rw [hlast, toNat_later hd]
      omega

/-- **Checks at any readings gain what one check at the last gains**, up to one token, exactly when
the refills keep the time: for the bucket of an address and for that of a route. -/
theorem kynxRefills_iff (ds : List Nat) :
    (∀ (cfg : OrbitKynxConfig) (e : OrbitKynxEntry), e.lastRefillNs ≠ 0 →
      e.lastRefillNs.toNat + total ds < 2 ^ 64 →
      (WithinToken (ds.foldl (kynxRefillAfter cfg) e).tokensMilli
          (kynxRefillAfter cfg e (total ds)).tokensMilli ↔
        KeepsTime (countOf cfg.rateLimit) (countOf cfg.windowMs) (capMilli cfg) e.tokensMilli
          ds)) ∧
      ∀ (lim : OrbitKynxRouteLimit) (b : KynxRouteBucket), b.lastRefillNs ≠ 0 →
        b.lastRefillNs.toNat + total ds < 2 ^ 64 →
        (WithinToken (ds.foldl (kynxRouteRefillAfter lim) b).tokensMilli
            (kynxRouteRefillAfter lim b (total ds)).tokensMilli ↔
          KeepsTime (countOf lim.rate) (countOf lim.windowMs) (countOf lim.rate * 1000)
            b.tokensMilli ds) := by
  constructor
  · intro cfg e h0 h
    rw [foldl_stamped OrbitKynxEntry.lastRefillNs OrbitKynxEntry.tokensMilli
      (fun e d => kynxRefillAfter_spec cfg) h0 h, (kynxRefillAfter_spec cfg h0 h).2]
    exact refilled_iff (countOf_bounds _).1 _ _ _ ds
  · intro lim b h0 h
    rw [foldl_stamped KynxRouteBucket.lastRefillNs KynxRouteBucket.tokensMilli
      (fun b d => kynxRouteRefillAfter_spec lim) h0 h,
      (kynxRouteRefillAfter_spec lim h0 h).2]
    exact refilled_iff (countOf_bounds _).1 _ _ _ ds

/-- One request a minute. -/
def slowConfig : OrbitKynxConfig := ⟨1, 60000, 10, 10, 1, 1, 0, true⟩

/-- An empty bucket. -/
def emptyEntry : OrbitKynxEntry := ⟨.v4 0, 1, 0, 0, 0, 0, false, 0⟩

/-- Three checks, a minute from one to the next. -/
theorem kynxRefills_minutes : WithinToken
    ([60000000000, 60000000000, 60000000000].foldl (kynxRefillAfter slowConfig)
      emptyEntry).tokensMilli
    (kynxRefillAfter slowConfig emptyEntry 180000000000).tokensMilli :=
  ((kynxRefills_iff [60000000000, 60000000000, 60000000000]).1 slowConfig emptyEntry (by decide)
    (by decide)).mpr (keepsTime_of_few (by decide) _ _ (by decide) (by decide))

theorem total_replicate (n d : Nat) : total (List.replicate n d) = n * d := by
  induction n with
  | zero => simp [total]
  | succ n ih => rw [List.replicate_succ, total, ih, Nat.succ_mul, Nat.add_comm]

/-- In 3000 checks 50 ms apart nothing is gained, in one check after the same time 2.5 tokens. -/
theorem kynxRefills_starved : ¬ ∀ (cfg : OrbitKynxConfig) (e : OrbitKynxEntry) (ds : List Nat),
    e.lastRefillNs ≠ 0 → e.lastRefillNs.toNat + total ds < 2 ^ 64 →
    WithinToken (ds.foldl (kynxRefillAfter cfg) e).tokensMilli
      (kynxRefillAfter cfg e (total ds)).tokensMilli := by
  intro h
  have hclock : emptyEntry.lastRefillNs.toNat + total (List.replicate 3000 50000000) < 2 ^ 64 := by
    rw [total_replicate]
    decide
  have hkeeps := (refilled_iff (countOf_bounds _).1 _ _ _ _).mp (by
    have hwithin := h slowConfig emptyEntry (List.replicate 3000 50000000) (by decide) hclock
    rwa [foldl_stamped OrbitKynxEntry.lastRefillNs OrbitKynxEntry.tokensMilli
      (fun e d => kynxRefillAfter_spec slowConfig)
      (by decide) hclock, (kynxRefillAfter_spec slowConfig (by decide) hclock).2] at hwithin)
  rw [keepsTime_iff (countOf_bounds _).1, WithinToken, List.map_replicate, total_replicate,
    total_replicate] at hkeeps
  revert hkeeps
  decide

/-! ## The product -/

/-- The milli-tokens that the product stands for. -/
def trueQuotient (rate window d : Nat) : Nat := refillProduct rate window d / (window * 1000000)

theorem refillProduct_full {rate window d : Nat} (hd : window * 10000000 ≤ d) :
    refillProduct rate window d = window * rate * 10000000000 := by
  rw [refillProduct, Nat.min_eq_right hd]
  ring

theorem credited_fits {rate window d : Nat} (h : refillProduct rate window d < 2 ^ 64) :
    credited rate window d = trueQuotient rate window d := by
  rw [credited_eq, Nat.mod_eq_of_lt h, trueQuotient]

/-- The product of every time fits exactly when that of ten windows does. -/
theorem refillProduct_lt_iff {rate window : Nat} (hw : window < 2 ^ 31) :
    (∀ elapsed : UInt64, refillProduct rate window elapsed.toNat < 2 ^ 64) ↔
      window * rate ≤ 1844674407 := by
  constructor
  · intro h
    have hten := h (UInt64.ofNat (window * 10000000))
    rw [UInt64.toNat_ofNat_of_lt' (by change _ < 2 ^ 64; omega),
      refillProduct_full (Nat.le_refl _)] at hten
    omega
  · intro h elapsed
    have := refillProduct_le rate window elapsed.toNat
    omega

/-- What the words of the source compute is what the product stands for. -/
theorem kynxGained_fits {x y : Int32} {elapsed : UInt64}
    (h : refillProduct (countOf x) (countOf y) elapsed.toNat < 2 ^ 64) :
    kynxGained (atLeastOne x) (atLeastOne y) elapsed =
      trueQuotient (countOf x) (countOf y) elapsed.toNat := by
  have hgain := kynxGained_eq (countOf_bounds x).2 (countOf_bounds y).2 elapsed.toNat_lt
  rw [UInt64.ofNat_toNat, countOf_eq, countOf_eq] at hgain
  rw [hgain, credited_fits h]

/-- The product of a refill fits for every time, and the tokens added are the true quotient. -/
def RefillExact (rate window : Int32) : Prop :=
  ∀ elapsed : UInt64,
    refillProduct (countOf rate) (countOf window) elapsed.toNat < 2 ^ 64 ∧
      kynxGained (atLeastOne rate) (atLeastOne window) elapsed =
        trueQuotient (countOf rate) (countOf window) elapsed.toNat

theorem refillExact_iff (rate window : Int32) :
    RefillExact rate window ↔ countOf window * countOf rate ≤ 1844674407 := by
  rw [← refillProduct_lt_iff (countOf_bounds window).2]
  exact ⟨fun h elapsed => (h elapsed).1, fun h elapsed => ⟨h elapsed, kynxGained_fits (h elapsed)⟩⟩

/-- **The product of a refill never wraps** exactly when the rate times the window in milliseconds is
at most 1844674407: for the refill of an address and for that of a route. -/
theorem refillProduct_fits_iff (cfg : OrbitKynxConfig) (lim : OrbitKynxRouteLimit) :
    (RefillExact cfg.rateLimit cfg.windowMs ↔
      countOf cfg.windowMs * countOf cfg.rateLimit ≤ 1844674407) ∧
    (RefillExact lim.rate lim.windowMs ↔
      countOf lim.windowMs * countOf lim.rate ≤ 1844674407) :=
  ⟨refillExact_iff cfg.rateLimit cfg.windowMs, refillExact_iff lim.rate lim.windowMs⟩

/-- A limit of 100000 requests a minute, and ten idle minutes: the product is 6 * 10 ^ 19. -/
theorem refillProduct_wraps : ¬ ∀ rate window : Int32, RefillExact rate window := by
  intro h
  obtain ⟨hfits, -⟩ := h 100000 60000 600000000000
  revert hfits
  decide

end Runtime.Kynx
