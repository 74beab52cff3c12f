import Orbit.Runtime.Proof.KynxRefill
import Orbit.Runtime.Proof.KynxRouteTable
import Orbit.Runtime.Proof.KynxTable

/-!
# Whether a retry finds a token

The delay of a denial is the time that the missing milli-tokens take at the configured rate, rounded
down to a millisecond, and the refill rounds down as well. So a check after the delay finds a whole
token exactly when the first division leaves no rest, or the delay is less than the least one
(`MsEnough`); the header's seconds are rounded up and fail only where nothing is left to round
(`HeaderEnough`). A denial that bans the address reports the same delay.
-/

namespace Runtime.Kynx

open Http (Text)

/-! ## Delays -/

/-- The milliseconds that `need` milli-tokens take at a rate. -/
def lackMs (rate window need : Nat) : Nat := need * window / (rate * 1000)

section
variable {rate window need : Nat}

theorem lackMs_le (window : Nat) (hr : 1 ≤ rate) (hneed : need ≤ 1000) :
    lackMs rate window need ≤ window := by
  calc need * window / (rate * 1000)
      ≤ 1000 * window / (1 * 1000) := Nat.div_le_div (Nat.mul_le_mul_right _ hneed)
        (Nat.mul_le_mul_right _ hr) (by decide)
    _ = window := by omega

/-- What the source computes for a bucket that lacks `need` milli-tokens. -/
theorem kynxRetryAfter_eq (hr : 1 ≤ rate) (hw : 1 ≤ window) (hw' : window < 2 ^ 31)
    (hneed : 1 ≤ need) (hneed' : need ≤ 1000) :
    (kynxRetryAfter (1000 - need) rate window).toInt = max 1 (lackMs rate window need) := by
  have hle := lackMs_le window hr hneed'
  have hms : ((need : Int) * window).tdiv (rate * 1000) = lackMs rate window need := by
    rw [lackMs]
    push_cast
    rw [Int.tdiv_eq_ediv_of_nonneg (by positivity)]
  rw [kynxRetryAfter, if_neg (by omega), sub_sub_cancel, hms]
  dsimp only
  split_ifs with hone hbig
  · omega
  · rw [Int32.toInt_ofInt_of_le (by decide) (by decide)]
    omega
  · omega
  · rw [Int32.toInt_ofInt_of_le (by omega) (by omega)]
    omega

/-- The seconds of the header: those of the delay, rounded up, unless the sum overflows. -/
theorem kynxRetryAfterHeader_eq {r : Int32} {ms : Nat} (h : r.toInt = ms) (hms : 1 ≤ ms) :
    (kynxRetryAfterHeader r).toInt = if ms ≤ 2147482648 then ((ms + 999) / 1000 : Nat) else 1 := by
  have hlt := r.toInt_lt
  have hsum : (r + 999).toInt = if ms ≤ 2147482648 then ((ms + 999 : Nat) : Int)
      else ms + 999 - 2 ^ 32 := by
    rw [Int32.toInt_add, h, show (999 : Int32).toInt = 999 from rfl, Int.bmod_def]
    split_ifs <;> omega
  have hdiv : ((r + 999) / 1000).toInt = (r + 999).toInt.tdiv 1000 := by
    rw [Int32.toInt_div_of_ne_right _ _ (by decide)]
    rfl
  rw [kynxRetryAfterHeader]
  split_ifs with hone hsmall hsmall
  · rw [Int32.lt_iff_toInt_lt, hdiv, hsum, if_pos hsmall,
      Int.tdiv_eq_ediv_of_nonneg (by omega)] at hone
    change _ < (1 : Int) at hone
    omega
  · rfl
  · rw [hdiv, hsum, if_pos hsmall, Int.tdiv_eq_ediv_of_nonneg (by omega)]
    omega
  · rw [Int32.lt_iff_toInt_lt, hdiv, hsum, if_neg hsmall] at hone
    refine absurd ?_ hone
    have hneg : ((ms : Int) + 999 - 2 ^ 32).tdiv 1000 ≤ 0 := by
      rw [← Int.neg_neg ((ms : Int) + 999 - 2 ^ 32), Int.neg_tdiv,
        Int.tdiv_eq_ediv_of_nonneg (by omega)]
      omega
    exact Int.lt_of_le_of_lt hneg (by decide)

/-! ## What is gained in a delay -/

/-- The delay is the time of the missing milli-tokens, without a rest, or the least delay. -/
def MsEnough (rate window need : Nat) : Prop :=
  need * window ≤ rate * 1000 ∨ rate * 1000 ∣ need * window

/-- The nanoseconds of the header. -/
def headerNs (rate window need : Nat) : Nat :=
  (max 1 (lackMs rate window need) + 999) / 1000 * 1000000000

/-- The header is rounded up, so that a rest does no harm unless the delay is in whole seconds. A
product that does not fit in 64 bits counts for what is left of it. -/
def HeaderEnough (rate window need : Nat) : Prop :=
  lackMs rate window need ≤ 2147482648 ∧
    if refillProduct rate window (headerNs rate window need) < 2 ^ 64 then
      MsEnough rate window need ∨ ¬ 1000 ∣ lackMs rate window need
    else
      need * (window * 1000000) ≤ refillProduct rate window (headerNs rate window need) % 2 ^ 64

instance (rate window need : Nat) : Decidable (MsEnough rate window need) :=
  inferInstanceAs (Decidable (_ ∨ _))

instance (rate window need : Nat) : Decidable (HeaderEnough rate window need) :=
  inferInstanceAs (Decidable (_ ∧ ite _ _ _))

theorem le_credited_iff (hw : 1 ≤ window) (d : Nat) :
    need ≤ credited rate window d ↔
      need * (window * 1000000) ≤ refillProduct rate window d % 2 ^ 64 := by
  rw [credited_eq, Nat.le_div_iff_mul_le (by omega)]

/-- The quotient and the rest of the time of the missing milli-tokens. -/
theorem lackMs_spec (hr : 1 ≤ rate) (window need : Nat) :
    rate * 1000 * lackMs rate window need ≤ need * window ∧
      need * window < rate * 1000 * lackMs rate window need + rate * 1000 ∧
      (rate * 1000 ∣ need * window ↔ need * window = rate * 1000 * lackMs rate window need) := by
  have hpos : 0 < rate * 1000 := by omega
  refine ⟨Nat.mul_div_le _ _, ?_, ?_⟩
  · have := Nat.lt_mul_div_succ (need * window) hpos
    rwa [Nat.mul_add, Nat.mul_one] at this
  · exact ⟨fun h => (Nat.mul_div_cancel' h).symm, fun h => ⟨_, h⟩⟩

theorem msEnough_iff (hr : 1 ≤ rate) (hw : 1 ≤ window) (hr' : rate < 2 ^ 31)
    (hw' : window < 2 ^ 31) (hneed : need ≤ 1000) :
    need ≤ credited rate window (max 1 (lackMs rate window need) * 1000000) ↔
      MsEnough rate window need := by
  obtain ⟨hle, hlt, hdvd⟩ := lackMs_spec hr window need
  have hcut := lackMs_le window hr hneed
  have hprod : refillProduct rate window (max 1 (lackMs rate window need) * 1000000) =
      rate * 1000 * max 1 (lackMs rate window need) * 1000000 := by
    rw [refillProduct, Nat.min_eq_left (by omega)]
    ring
  have hbound : need * window ≤ 1000 * window := Nat.mul_le_mul_right _ hneed
  have hscale : need * (window * 1000000) = need * window * 1000000 := by ring
  rw [le_credited_iff hw, hprod, hscale, MsEnough, hdvd]
  generalize need * window = total at hle hlt hbound ⊢
  generalize hx : lackMs rate window need = x at hle hlt hcut ⊢
  rcases Nat.eq_zero_or_pos x with h0 | hpos
  · rw [h0] at hle hlt ⊢
    rw [show max 1 0 = 1 from rfl, Nat.mul_one, Nat.mod_eq_of_lt (by omega)]
    omega
  · have hone : rate * 1000 ≤ rate * 1000 * x := Nat.le_mul_of_pos_right _ hpos
    rw [show max 1 x = x by omega, Nat.mod_eq_of_lt (by omega)]
    omega

theorem headerEnough_iff (hr : 1 ≤ rate) (hw : 1 ≤ window) (hneed : need ≤ 1000)
    (hms : lackMs rate window need ≤ 2147482648) :
    need ≤ credited rate window (headerNs rate window need) ↔ HeaderEnough rate window need := by
  obtain ⟨hle, hlt, hdvd⟩ := lackMs_spec hr window need
  have hcut := lackMs_le window hr hneed
  rw [le_credited_iff hw, HeaderEnough, and_iff_right hms]
  split_ifs with hfits
  · rw [Nat.mod_eq_of_lt hfits, MsEnough, hdvd]
    have hbound : need * window ≤ 1000 * window := Nat.mul_le_mul_right _ hneed
    have hscale : need * (window * 1000000) = need * window * 1000000 := by ring
    have hprod : refillProduct rate window (headerNs rate window need) =
        rate * 1000 * min (headerNs rate window need) (window * 10000000) := by
      rw [refillProduct]
      ring
    rw [hscale, hprod, headerNs]
    generalize need * window = total at hle hlt hbound ⊢
    generalize lackMs rate window need = x at hle hlt hcut ⊢
    generalize hseconds : (max 1 x + 999) / 1000 = seconds
    have hnone : x = 0 → rate * 1000 * x = 0 := fun h => by rw [h, Nat.mul_zero]
    rcases Nat.lt_or_ge (window * 10000000) (seconds * 1000000000) with hten | hten
    · -- ten windows, which are less than a second
      have hall : 1000 * (window * 10000000) ≤ rate * 1000 * (window * 10000000) :=
        Nat.mul_le_mul_right _ (by omega)
      rw [Nat.min_eq_right (by omega)]
      omega
    · have hgain : rate * 1000 * (seconds * 1000000000) = rate * 1000 * (1000 * seconds) * 1000000 := by
        ring
      rw [Nat.min_eq_left hten, hgain]
      by_cases hwhole : 1000 ∣ x ∧ 0 < x
      · have hsame : 1000 * seconds = x := by omega
        have hone : rate * 1000 * 1000 ≤ rate * 1000 * x := Nat.mul_le_mul_left _ (by omega)
        rw [hsame]
        omega
      · have hmore : rate * 1000 * (x + 1) ≤ rate * 1000 * (1000 * seconds) :=
          Nat.mul_le_mul_left _ (by omega)
        rw [Nat.mul_succ] at hmore
        omega
  · rfl

end

/-! ## The two delays of a denial -/

/-- The delay that the check reports, in milliseconds, and that of the header, in seconds. -/
inductive RetryDelay where
  | reported
  | header
  deriving DecidableEq, Repr

/-- The nanoseconds until the retry, for a denial. -/
def RetryDelay.ns : RetryDelay → KynxVerdict → Nat
  | .reported, v => v.retryMs.toInt.toNat * 1000000
  | .header, v => (kynxRetryAfterHeader v.retryMs).toInt.toNat * 1000000000

/-- Whether the delay is enough for the missing milli-tokens. -/
def RetryDelay.Enough : RetryDelay → (rate window need : Nat) → Prop
  | .reported => MsEnough
  | .header => HeaderEnough

/-- The nanoseconds of the delay, from the missing milli-tokens. -/
def RetryDelay.lackNs : RetryDelay → (rate window need : Nat) → Nat
  | .reported, rate, window, need => max 1 (lackMs rate window need) * 1000000
  | .header, rate, window, need => headerNs rate window need

instance (delay : RetryDelay) (rate window need : Nat) : Decidable (delay.Enough rate window need) :=
  match delay with
  | .reported => inferInstanceAs (Decidable (MsEnough rate window need))
  | .header => inferInstanceAs (Decidable (HeaderEnough rate window need))

/-- The verdict of a bucket with less than a token. -/
def lackVerdict (tokens : Int) (rate window : Nat) : KynxVerdict :=
  ⟨false, kynxRetryAfter tokens rate window⟩

section
variable {rate window : Nat} {tokens : Int}

/-- A header whose seconds overflow says one second, which is too short. -/
theorem header_overflows (hr : 1 ≤ rate) (hr' : rate < 2 ^ 31) (hw : 1 ≤ window)
    (hw' : window < 2 ^ 31) {need : Nat} (hneed : need ≤ 1000)
    (hms : 2147482648 < lackMs rate window need) :
    ¬ need ≤ credited rate window 1000000000 := by
  obtain ⟨hle, -, -⟩ := lackMs_spec hr window need
  have hbound : need * window ≤ 1000 * window := Nat.mul_le_mul_right _ hneed
  have hmany : rate * 1000 * 2147482649 ≤ rate * 1000 * lackMs rate window need :=
    Nat.mul_le_mul_left _ hms
  have hcut := lackMs_le window hr hneed
  have hscale : need * (window * 1000000) = need * window * 1000000 := by ring
  have hprod : refillProduct rate window 1000000000 = rate * 1000 * 1000000000 := by
    rw [refillProduct, Nat.min_eq_left (by omega)]
    ring
  -- only at one token a window are there so many milliseconds
  obtain rfl : rate = 1 := by omega
  rw [le_credited_iff hw, hprod, hscale]
  omega

theorem RetryDelay.spec (hr : 1 ≤ rate) (hr' : rate < 2 ^ 31) (hw : 1 ≤ window)
    (hw' : window < 2 ^ 31) (h0 : 0 ≤ tokens) (hlack : tokens < 1000) (delay : RetryDelay) :
    delay.ns (lackVerdict tokens rate window) ≠ 0 ∧
      ((1000 - tokens).toNat ≤ credited rate window (delay.ns (lackVerdict tokens rate window)) ↔
        delay.Enough rate window (1000 - tokens).toNat) ∧
      (delay.Enough rate window (1000 - tokens).toNat →
        delay.ns (lackVerdict tokens rate window) =
          delay.lackNs rate window (1000 - tokens).toNat) := by
  obtain ⟨need, hneed⟩ := Int.eq_ofNat_of_zero_le (show 0 ≤ 1000 - tokens by omega)
  obtain rfl : tokens = 1000 - need := by omega
  rw [hneed, Int.toNat_natCast]
  have hms := kynxRetryAfter_eq hr hw hw' (show 1 ≤ need by omega) (by omega)
  cases delay with
  | reported =>
    have hns : RetryDelay.reported.ns (lackVerdict (1000 - need) rate window) =
        max 1 (lackMs rate window need) * 1000000 := by
      rw [RetryDelay.ns, lackVerdict, hms, Int.toNat_natCast]
    rw [hns]
    exact ⟨by omega, msEnough_iff hr hw hr' hw' (by omega), fun _ => rfl⟩
  | header =>
    have hseconds := @kynxRetryAfterHeader_eq _ (max 1 (lackMs rate window need)) hms (by omega)
    by_cases hfits : lackMs rate window need ≤ 2147482648
    · have hns : RetryDelay.header.ns (lackVerdict (1000 - need) rate window) =
          headerNs rate window need := by
        rw [RetryDelay.ns, lackVerdict, hseconds, if_pos (by omega), headerNs]
        omega
      rw [hns]
      refine ⟨?_, headerEnough_iff hr hw (by omega) hfits, fun _ => rfl⟩
      rw [headerNs]
      omega
    · have hns : RetryDelay.header.ns (lackVerdict (1000 - need) rate window) = 1000000000 := by
        rw [RetryDelay.ns, lackVerdict, hseconds, if_neg (by omega)]
        rfl
      have hnot : ¬ HeaderEnough rate window need := fun h => hfits h.1
      rw [hns]
      refine ⟨by decide, ?_, fun h => absurd h hnot⟩
      exact iff_of_false (header_overflows hr hr' hw hw' (by omega) (by omega)) hnot

/-- **A bucket after the delay**: a whole token is there exactly when the delay is enough. -/
theorem RetryDelay.refilled_iff (hr : 1 ≤ rate) (hr' : rate < 2 ^ 31) (hw : 1 ≤ window)
    (hw' : window < 2 ^ 31) (h0 : 0 ≤ tokens) (hlack : tokens < 1000) {cap : Int}
    (hcap : 1000 ≤ cap) (delay : RetryDelay) :
    1000 ≤ refilled cap rate window tokens (delay.ns (lackVerdict tokens rate window)) ↔
      delay.Enough rate window (1000 - tokens).toNat := by
  obtain ⟨hne, henough, -⟩ := delay.spec hr hr' hw hw' h0 hlack
  rw [← henough, refilled, if_neg hne]
  omega

end

/-! ## The address -/

section
variable (cfg : OrbitKynxConfig)

/-- An entry whose ban, if any, is over. -/
def unbanned (e : OrbitKynxEntry) : OrbitKynxEntry :=
  if e.isBanned then { e with isBanned := false, suspicionScore := e.suspicionScore.tdiv 2 } else e

/-- A check that is denied for lack of tokens: no ban stands, and the refill is short of a token. -/
structure LacksToken (e : OrbitKynxEntry) (now : UInt64) : Prop where
  free : e.isBanned = true → now - e.bannedAtNs > kynxBanDurationNs cfg
  lacks : (kynxRefill cfg e now).tokensMilli < 1000

/-- The milli-tokens that are missing. -/
def missing (e : OrbitKynxEntry) (now : UInt64) : Nat :=
  (1000 - (kynxRefill cfg e now).tokensMilli).toNat

/-- The denial bans: it scores, and the score reaches the threshold. -/
def Bans (e : OrbitKynxEntry) (now : UInt64) : Prop :=
  now - e.lastViolationNs ≥ kynxWindowNs cfg ∧
    (unbanned e).suspicionScore + cfg.scoreIncrement.toInt ≥ cfg.banThreshold.toInt

/-- The delay of a denial is enough, and it is past the ban that the denial may start. The clock has
a reading, since a stamp of 0 stands for no refill. -/
def RetryFinds (delay : RetryDelay) (e : OrbitKynxEntry) (now : UInt64) : Prop :=
  let rate := countOf cfg.rateLimit
  let window := countOf cfg.windowMs
  now ≠ 0 ∧ (Bans cfg e now → (kynxBanDurationNs cfg).toNat < delay.lackNs rate window
      (missing cfg e now)) ∧
    delay.Enough rate window (missing cfg e now)

instance (e : OrbitKynxEntry) (now : UInt64) : Decidable (Bans cfg e now) :=
  inferInstanceAs (Decidable (_ ∧ _))

instance (delay : RetryDelay) (e : OrbitKynxEntry) (now : UInt64) :
    Decidable (RetryFinds cfg delay e now) :=
  inferInstanceAs (Decidable (_ ∧ (_ → _) ∧ _))

variable {cfg} {e : OrbitKynxEntry} {now : UInt64}

theorem kynxRefill_unbanned :
    (kynxRefill cfg (unbanned e) now).tokensMilli = (kynxRefill cfg e now).tokensMilli ∧
      (kynxRefill cfg (unbanned e) now).lastRefillNs = now ∧
      (kynxRefill cfg (unbanned e) now).isBanned = false ∧
      (kynxRefill cfg (unbanned e) now).lastViolationNs = e.lastViolationNs ∧
      (kynxRefill cfg (unbanned e) now).suspicionScore = (unbanned e).suspicionScore := by
  have hsame : (unbanned e).lastRefillNs = e.lastRefillNs ∧
      (unbanned e).tokensMilli = e.tokensMilli ∧ (unbanned e).isBanned = false ∧
      (unbanned e).lastViolationNs = e.lastViolationNs := by
    rw [unbanned]
    split_ifs with hban
    · exact ⟨rfl, rfl, rfl, rfl⟩
    · exact ⟨rfl, rfl, by simpa using hban, rfl⟩
  obtain ⟨hlast, htokens, hban, hviolation⟩ := hsame
  unfold kynxRefill
  rw [hlast, htokens]
  dsimp only
  split_ifs <;> exact ⟨rfl, rfl, hban, hviolation, rfl⟩

/-- The entry after a denial for lack of tokens. -/
theorem LacksToken.denied (h : LacksToken cfg e now) :
    (kynxCheckEntry cfg e now).1 = lackVerdict (kynxRefill cfg e now).tokensMilli
        (countOf cfg.rateLimit) (countOf cfg.windowMs) ∧
      (kynxCheckEntry cfg e now).2.lastRefillNs = now ∧
      (kynxCheckEntry cfg e now).2.tokensMilli = (kynxRefill cfg e now).tokensMilli ∧
      (if Bans cfg e now then (kynxCheckEntry cfg e now).2.isBanned = true ∧
          (kynxCheckEntry cfg e now).2.bannedAtNs = now
        else (kynxCheckEntry cfg e now).2.isBanned = false) := by
  have hserve : kynxCheckEntry cfg e now = kynxServe cfg (unbanned e) now := by
    rw [kynxCheckEntry, unbanned]
    split_ifs with hban hover
    · rfl
    · exact absurd (h.free hban) hover
    · rfl
  obtain ⟨htokens, hlast, hban, hviolation, hscore⟩ := @kynxRefill_unbanned cfg e now
  have hlack := h.lacks
  rw [hserve, kynxServe, htokens, if_neg (by omega), kynxScore, hviolation, hscore, lackVerdict,
    countOf_eq, countOf_eq]
  by_cases hdue : now - e.lastViolationNs ≥ kynxWindowNs cfg
  · by_cases hthreshold : (unbanned e).suspicionScore + cfg.scoreIncrement.toInt ≥
        cfg.banThreshold.toInt
    · have hbans : Bans cfg e now := ⟨hdue, hthreshold⟩
      rw [if_pos hdue, if_pos hthreshold, if_pos hbans]
      exact ⟨rfl, hlast, htokens, rfl, rfl⟩
    · have hbans : ¬ Bans cfg e now := fun hb => hthreshold hb.2
      rw [if_pos hdue, if_neg hthreshold, if_neg hbans]
      exact ⟨rfl, hlast, htokens, hban⟩
  · have hbans : ¬ Bans cfg e now := fun hb => hdue hb.1
    rw [if_neg hdue, if_neg hbans]
    exact ⟨rfl, hlast, htokens, hban⟩

/-- A check is served exactly when no ban stands and the refill has a token. -/
theorem kynxCheckEntry_allowed :
    (kynxCheckEntry cfg e now).1.allowed = true ↔
      (e.isBanned = true → now - e.bannedAtNs > kynxBanDurationNs cfg) ∧
        1000 ≤ (kynxRefill cfg e now).tokensMilli := by
  have hserve : (kynxServe cfg (unbanned e) now).1.allowed = true ↔
      1000 ≤ (kynxRefill cfg e now).tokensMilli := by
    rw [kynxServe, kynxRefill_unbanned.1]
    split_ifs with htoken
    · exact iff_of_true rfl htoken
    · exact iff_of_false not_false htoken
  rw [← hserve, kynxCheckEntry, unbanned]
  split_ifs with hban hover
  · exact (and_iff_right fun _ => hover).symm
  · exact iff_of_false not_false fun hx => hover (hx.1 hban)
  · exact (and_iff_right fun hb => absurd hb hban).symm

/-- **A retry of the address** is admitted exactly when the delay finds a token. -/
theorem LacksToken.waits_iff (h : LacksToken cfg e now) (htokens : KynxTokensOk cfg e)
    (delay : RetryDelay)
    (hclock : now.toNat + delay.ns (kynxCheckEntry cfg e now).1 < 2 ^ 64) :
    (kynxCheckEntry cfg (kynxCheckEntry cfg e now).2
        (now + UInt64.ofNat (delay.ns (kynxCheckEntry cfg e now).1))).1.allowed = true ↔
      RetryFinds cfg delay e now := by
  obtain ⟨hverdict, hlast, hsame, hban⟩ := h.denied
  have hnonneg := (kynxRefill_tokens htokens now).nonneg
  obtain ⟨hr, hr'⟩ := countOf_bounds cfg.rateLimit
  obtain ⟨hw, hw'⟩ := countOf_bounds cfg.windowMs
  have hcap : 1000 ≤ capMilli cfg := by
    have := one_le_effectiveBurst cfg
    rw [capMilli]
    omega
  obtain ⟨-, -, hlack⟩ := delay.spec hr hr' hw hw' hnonneg h.lacks
  have hrefilled := delay.refilled_iff hr hr' hw hw' hnonneg h.lacks hcap
  rw [← hverdict, ← missing] at hlack hrefilled
  generalize delay.ns (kynxCheckEntry cfg e now).1 = d at hclock hlack hrefilled ⊢
  generalize (kynxCheckEntry cfg e now).2 = e' at hlast hsame hban ⊢
  have hover : e'.isBanned = true → (now + UInt64.ofNat d - e'.bannedAtNs > kynxBanDurationNs cfg ↔
      (kynxBanDurationNs cfg).toNat < d) ∧ Bans cfg e now := by
    intro hb
    split_ifs at hban with hbans
    · rw [hban.2, later_sub, gt_iff_lt, UInt64.lt_iff_toNat_lt,
        UInt64.toNat_ofNat_of_lt' (show d < 2 ^ 64 by omega)]
      exact ⟨Iff.rfl, hbans⟩
    · rw [hban] at hb
      cases hb
  have hbans : (e'.isBanned = true → now + UInt64.ofNat d - e'.bannedAtNs > kynxBanDurationNs cfg) ↔
      (Bans cfg e now → (kynxBanDurationNs cfg).toNat < d) := by
    constructor
    · intro hx hb
      rw [if_pos hb] at hban
      exact (hover hban.1).1.mp (hx hban.1)
    · exact fun hx hb => (hover hb).1.mpr (hx (hover hb).2)
  rw [kynxCheckEntry_allowed, hbans, RetryFinds]
  by_cases h0 : now = 0
  · -- a stamp of 0: the refill only stamps
    have hnone : (kynxRefill cfg e' (now + UInt64.ofNat d)).tokensMilli = e'.tokensMilli := by
      rw [kynxRefill, if_pos (by simp [hlast, h0])]
    have hlacks := h.lacks
    rw [hnone, hsame]
    exact iff_of_false (fun hx => absurd hx.2 (by omega)) fun hx => hx.1 h0
  · have hspec := (kynxRefillAfter_spec cfg (e := e') (d := d) (hlast ▸ h0) (hlast ▸ hclock)).2
    rw [kynxRefillAfter, hlast, hsame] at hspec
    rw [hspec, hrefilled, and_iff_right h0]
    exact ⟨fun hx => ⟨fun hb => hlack hx.2 ▸ hx.1 hb, hx.2⟩,
      fun hx => ⟨fun hb => (hlack hx.2).symm ▸ hx.1 hb, hx.2⟩⟩

end

/-! ## The route -/

section
variable (lim : OrbitKynxRouteLimit)

/-- The milli-tokens that a bucket of the route is short of. -/
def routeMissing (b : KynxRouteBucket) (now : UInt64) : Nat :=
  (1000 - (kynxRouteRefillAt lim b now).tokensMilli).toNat

/-- The delay of a denial of the route is enough; the clock has a reading. -/
def RouteRetryFinds (delay : RetryDelay) (b : KynxRouteBucket) (now : UInt64) : Prop :=
  now ≠ 0 ∧ delay.Enough (countOf lim.rate) (countOf lim.windowMs) (routeMissing lim b now)

variable {lim} {b : KynxRouteBucket} {now : UInt64}

theorem kynxRouteRefillAt_tokens (h0 : 0 ≤ b.tokensMilli) :
    0 ≤ (kynxRouteRefillAt lim b now).tokensMilli ∧
      (kynxRouteRefillAt lim b now).lastRefillNs = now := by
  have hpos : 0 < atLeastOne lim.rate := one_le_atLeastOne lim.rate
  rw [kynxRouteRefillAt, kynxRouteRefill]
  dsimp only
  split_ifs
  · exact ⟨h0, rfl⟩
  · exact ⟨by dsimp only; omega, rfl⟩
  · exact ⟨Int.add_nonneg h0 (Int.natCast_nonneg _), rfl⟩

/-- The tokens of a bucket that is there are not negative. -/
theorem kynxRouteServe_tokens (h0 : 0 ≤ b.tokensMilli) :
    0 ≤ (kynxRouteServe lim b now).2.tokensMilli := by
  have hrefill := (@kynxRouteRefillAt_tokens lim b now h0).1
  rw [kynxRouteServe]
  split_ifs with htoken
  · exact Int.sub_nonneg_of_le htoken
  · exact hrefill

theorem kynxRouteNew_tokens (lim : OrbitKynxRouteLimit) (routeIdx : Nat) (ip : OrbitKynxIP)
    (now : UInt64) : 0 ≤ (kynxRouteNew lim routeIdx ip now).tokensMilli := by
  rw [kynxRouteNew]
  dsimp only
  split_ifs <;> omega

/-- **A retry of the route** finds a token exactly when the delay is enough. -/
theorem routeRetry_iff (h0 : 0 ≤ b.tokensMilli)
    (hlack : (kynxRouteRefillAt lim b now).tokensMilli < 1000) (delay : RetryDelay) :
    ∃ v, (kynxRouteServe lim b now).1 = some v ∧ (now.toNat + delay.ns v < 2 ^ 64 →
      ((kynxRouteServe lim (kynxRouteServe lim b now).2
          (now + UInt64.ofNat (delay.ns v))).1 = none ↔ RouteRetryFinds lim delay b now)) := by
  obtain ⟨hnonneg, hlast⟩ := @kynxRouteRefillAt_tokens lim b now h0
  obtain ⟨hr, hr'⟩ := countOf_bounds lim.rate
  obtain ⟨hw, hw'⟩ := countOf_bounds lim.windowMs
  have hdenied : kynxRouteServe lim b now = (some (lackVerdict
      (kynxRouteRefillAt lim b now).tokensMilli (countOf lim.rate) (countOf lim.windowMs)),
      kynxRouteRefillAt lim b now) := by
    rw [kynxRouteServe, lackVerdict, countOf_eq, countOf_eq]
    exact if_neg (by omega)
  have hrefilled := delay.refilled_iff hr hr' hw hw' hnonneg hlack
    (show 1000 ≤ (countOf lim.rate * 1000 : Int) by omega)
  refine ⟨_, congrArg Prod.fst hdenied, fun hclock => ?_⟩
  rw [← routeMissing] at hrefilled
  rw [hdenied]
  dsimp only
  generalize delay.ns _ = d at hclock hrefilled ⊢
  have hserve : ∀ b' later, (kynxRouteServe lim b' later).1 = none ↔
      1000 ≤ (kynxRouteRefillAt lim b' later).tokensMilli := by
    intro b' later
    rw [kynxRouteServe]
    split_ifs with htoken
    · exact iff_of_true rfl htoken
    · exact iff_of_false not_false htoken
  rw [hserve, RouteRetryFinds]
  generalize kynxRouteRefillAt lim b now = r at hlast hlack hrefilled ⊢
  by_cases hzero : now = 0
  · have hnone : (kynxRouteRefillAt lim r (now + UInt64.ofNat d)).tokensMilli = r.tokensMilli := by
      rw [kynxRouteRefillAt, kynxRouteRefill, if_pos (by simp [hlast, hzero])]
    rw [hnone]
    exact iff_of_false (by omega) fun hx => hx.1 hzero
  · have hspec := (kynxRouteRefillAfter_spec lim (b := r) (d := d) (hlast ▸ hzero)
      (hlast ▸ hclock)).2
    rw [kynxRouteRefillAfter, hlast, ← kynxRouteRefillAt] at hspec
    rw [hspec, hrefilled, and_iff_right hzero]

end

/-! ## Checks -/

section
variable {cfg : OrbitKynxConfig} {limits : List OrbitKynxRouteLimit}

theorem kynxRun_sized (evs : List KynxEvent) :
    KynxShards.Sized (kynxRun cfg limits kynxInit evs).2.shards := by
  intro k
  have h := kynxRun_ok (P := KynxTokensOk cfg) limits (fun _ now he => kynxCheckEntry_tokens he now)
    (kynxNewEntry_tokens cfg) evs (kynxInit_ok _) k
  rw [h.size]
  exact Nat.zero_lt_succ 63

/-- A check of an address that can be read is the check of its entry. -/
theorem kynxStep_check (limits : List OrbitKynxRouteLimit) (henabled : cfg.enabled = true)
    {ipStr : Text} {ip : OrbitKynxIP} (hip : kynxParseIp ipStr = some ip) {st : KynxState}
    (hsized : st.shards.Sized) {e : OrbitKynxEntry} (hentry : st.shards.entry ip = some e) (now : UInt64) :
    (kynxStep cfg limits st (.check ipStr now)).1 = (kynxCheckEntry cfg e now).1 ∧
      (kynxStep cfg limits st (.check ipStr now)).2.shards.Sized ∧
      (kynxStep cfg limits st (.check ipStr now)).2.shards.entry ip =
        some (kynxCheckEntry cfg e now).2 := by
  have hcheck : orbitKynxCheck cfg ipStr now st.shards = kynxCheckIp cfg ip now st.shards := by
    simp [orbitKynxCheck, henabled, hip]
  have hself := kynxCheckIp_self cfg ip now hsized
  rw [hentry] at hself
  rw [kynxStep, hcheck]
  exact ⟨hself.1, kynxCheckIp_sized cfg ip now hsized, hself.2⟩

/-- **A retry after the delay of a denial for lack of tokens is admitted** exactly when the delay is
enough: for an address in any reached state, and for a route; for the milliseconds that the check
reports, and for the seconds of the header. -/
theorem retry_iff (cfg : OrbitKynxConfig) (limits : List OrbitKynxRouteLimit)
    (henabled : cfg.enabled = true) (evs : List KynxEvent) (now : UInt64) (delay : RetryDelay) :
    let st := (kynxRun cfg limits kynxInit evs).2
    (∀ (ipStr ipStr' : Text) (ip : OrbitKynxIP) (e : OrbitKynxEntry), kynxParseIp ipStr = some ip →
      kynxParseIp ipStr' = some ip → st.shards.entry ip = some e → LacksToken cfg e now →
      let denial := kynxStep cfg limits st (.check ipStr now)
      denial.1.allowed = false ∧ (now.toNat + delay.ns denial.1 < 2 ^ 64 →
        ((kynxStep cfg limits denial.2
            (.check ipStr' (now + UInt64.ofNat (delay.ns denial.1)))).1.allowed = true ↔
          RetryFinds cfg delay e now))) ∧
    ∀ (ipStr method path ipStr' method' path' : Text) (c : KynxCharge) (i : Nat)
      (b : KynxRouteBucket), kynxChargeOf cfg limits ipStr method path = some c →
      kynxChargeOf cfg limits ipStr' method' path' = some c →
      kynxRouteFind c.ip c.routeIdx now (st.routeShards (kynxRouteShard c.ip c.routeIdx)) =
        .found i b →
      (kynxRouteRefillAt c.lim b now).tokensMilli < 1000 →
      let denial := kynxRouteGate cfg limits ipStr method path now st.routeShards
      ∃ v, denial.1 = some v ∧ (now.toNat + delay.ns v < 2 ^ 64 →
        ((kynxRouteGate cfg limits ipStr' method' path' (now + UInt64.ofNat (delay.ns v))
            denial.2).1 = none ↔ RouteRetryFinds c.lim delay b now)) := by
  intro st
  constructor
  · intro ipStr ipStr' ip e hip hip' hentry h denial
    have hsized : st.shards.Sized := kynxRun_sized evs
    have htokens : KynxTokensOk cfg e :=
      (kynxRun_ok (P := KynxTokensOk cfg) limits (fun _ now he => kynxCheckEntry_tokens he now)
        (kynxNewEntry_tokens cfg) evs (kynxInit_ok _) _).entries e (entry_mem hentry).1
    obtain ⟨hverdict, hsized', hentry'⟩ := kynxStep_check limits henabled hip hsized hentry
      now
    have hdenied : denial.1.allowed = false := by
      rw [hverdict, h.denied.1, lackVerdict]
    refine ⟨hdenied, fun hclock => ?_⟩
    rw [hverdict] at hclock ⊢
    rw [(kynxStep_check limits henabled hip' hsized' hentry' _).1]
    exact h.waits_iff htokens delay hclock
  · intro ipStr method path ipStr' method' path' c i b hcharge hcharge' hfind hlack denial
    obtain ⟨hmem, hidx, hip⟩ := kynxRouteFind_found hfind
    have h0 : 0 ≤ b.tokensMilli :=
      kynxRun_buckets (P := fun b => 0 ≤ b.tokensMilli)
        (fun lim idx ip now _ => kynxRouteNew_tokens lim idx ip now)
        (fun lim b now _ hb => kynxRouteServe_tokens hb) evs (kynxInit_buckets _) _ b hmem
    obtain ⟨hidx', hip'⟩ := kynxRouteServe_key c.lim b now
    have hdenial : denial = ((kynxRouteServe c.lim b now).1, st.routeShards.charge c now) := by
      have hgate := kynxRouteGate_eq cfg limits ipStr method path now st.routeShards
      rw [hcharge] at hgate
      dsimp only at hgate
      rwa [kynxRouteCharge_eq, hfind] at hgate
    have hagain : ∀ later, kynxRouteFind c.ip c.routeIdx later
        (denial.2 (kynxRouteShard c.ip c.routeIdx)) = .found i (kynxRouteServe c.lim b now).2 := by
      intro later
      rw [hdenial]
      dsimp only
      rw [charge_self, kynxRouteCharge_eq, hfind]
      exact kynxRouteFind_again hfind (hidx'.trans hidx) (hip'.trans hip) later
    obtain ⟨v, hv, hretry⟩ := @routeRetry_iff c.lim b now h0 hlack delay
    refine ⟨v, by rw [hdenial]; exact hv, fun hclock => ?_⟩
    rw [kynxRouteGate_eq, hcharge']
    dsimp only
    rw [kynxRouteCharge_eq, hagain]
    exact hretry hclock

end

/-- Five requests a second. -/
def fiveConfig : OrbitKynxConfig := ⟨5, 1000, 5, 200, 10, 1, 0, true⟩

def client : Text := "10.0.0.2".toList

/-- The sixth request is told 200 ms, and the retry is admitted. -/
theorem retry_iff_five :
    (kynxStep fiveConfig [] (kynxStep fiveConfig []
        (kynxRun fiveConfig [] kynxInit (List.replicate 5 (.check client 1000000000))).2
        (.check client 1000000000)).2 (.check client 1200000000)).1.allowed = true :=
  (((retry_iff fiveConfig [] rfl (List.replicate 5 (.check client 1000000000)) 1000000000
      .reported).1 client client (.v4 167772162)
      ⟨.v4 167772162, 1000000000, 0, 1000000000, 0, 0, false, 0⟩ (by decide)
      (by decide) (by decide) ⟨by decide, by decide⟩).2
    (by decide)).mpr (by decide)

/-- 23 requests a minute. -/
def minuteConfig : OrbitKynxConfig := ⟨23, 60000, 1, 200, 10, 1, 0, true⟩

/-- With 233 milli-tokens in the bucket the denial and its header say 2 s, after which there are 999. -/
theorem retry_short : ¬ ∀ (cfg : OrbitKynxConfig) (evs : List KynxEvent) (now : UInt64)
    (delay : RetryDelay) (ipStr : Text) (ip : OrbitKynxIP) (e : OrbitKynxEntry),
    cfg.enabled = true → kynxParseIp ipStr = some ip →
    (kynxRun cfg [] kynxInit evs).2.shards.entry ip = some e → LacksToken cfg e now →
    let denial := kynxStep cfg [] (kynxRun cfg [] kynxInit evs).2 (.check ipStr now)
    now.toNat + delay.ns denial.1 < 2 ^ 64 →
    (kynxStep cfg [] denial.2
      (.check ipStr (now + UInt64.ofNat (delay.ns denial.1)))).1.allowed = true := by
  intro h
  have hretry := h minuteConfig [.check client 1000000000] 1608000000 .header client (.v4 167772162)
    ⟨.v4 167772162, 1000000000, 0, 1000000000, 0, 0, false, 0⟩ rfl (by decide)
    (by decide) ⟨by decide, by decide⟩ (by decide)
  revert hretry
  decide

end Runtime.Kynx
