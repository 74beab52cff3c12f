import Orbit.Runtime.Proof.Kynx
import Mathlib.Tactic.Linarith
import Mathlib.Tactic.Ring

/-!
# How many requests are admitted

Tokens are gained at the configured rate at most (`kynxGained_le`), so a bucket and the requests it
has paid for since a time are bounded by the burst and the tokens gained since (`Paid`). In a run
with a monotone clock and without eviction this bounds the requests of an address that are admitted
in any interval (`admitted_le`).
-/

namespace Runtime.Kynx

open Http (Text)

section
variable (cfg : OrbitKynxConfig)

/-- The length of the refill window in nanoseconds. -/
def windowNs : Int := atLeastOne cfg.windowMs * 1000000

theorem one_le_atLeastOne (x : Int32) : 1 ≤ atLeastOne x := by
  unfold atLeastOne
  split_ifs <;> omega

theorem atLeastOne_lt (x : Int32) : atLeastOne x < 2 ^ 31 := by
  have h := x.toInt_lt
  unfold atLeastOne
  split_ifs <;> omega

theorem one_le_effectiveBurst : 1 ≤ kynxEffectiveBurst cfg := by
  simp only [kynxEffectiveBurst]
  split_ifs <;> omega

theorem windowNs_pos : 0 < windowNs cfg := by
  have h := one_le_atLeastOne cfg.windowMs
  unfold windowNs
  omega

theorem toNat_ofInt_small {x : Int} (h0 : 0 ≤ x) (h1 : x < 2 ^ 31) :
    ((UInt64.ofInt x).toNat : Int) = x := by
  rw [UInt64.ofInt, UInt64.toNat_ofNat']
  omega

/-- **Tokens are gained at the configured rate at most**; a product that wraps only gains less. -/
theorem kynxGained_le {rate window : Int} (hr : 1 ≤ rate) (hr' : rate < 2 ^ 31) (hw : 1 ≤ window)
    (hw' : window < 2 ^ 31) (elapsed : UInt64) :
    0 ≤ kynxGained rate window elapsed ∧
      (window * 1000000) * kynxGained rate window elapsed ≤ 1000 * rate * elapsed.toNat := by
  obtain ⟨r, rfl⟩ := Int.eq_ofNat_of_zero_le (Int.le_trans (by decide) hr)
  obtain ⟨w, rfl⟩ := Int.eq_ofNat_of_zero_le (Int.le_trans (by decide) hw)
  have hrate : (UInt64.ofInt r).toNat = r := by
    have := toNat_ofInt_small (Int.natCast_nonneg r) hr'
    omega
  have hwindow : (UInt64.ofInt w * 1000000).toNat = w * 1000000 := by
    have := toNat_ofInt_small (Int.natCast_nonneg w) hw'
    rw [UInt64.toNat_mul, show (1000000 : UInt64).toNat = 1000000 from rfl]
    omega
  generalize hel : (if elapsed > UInt64.ofInt w * 1000000 * 10 then
    UInt64.ofInt w * 1000000 * 10 else elapsed) = el
  have hle : el.toNat ≤ elapsed.toNat := by
    rw [← hel]
    split_ifs with h
    · exact Nat.le_of_lt h
    · exact Nat.le_refl _
  have hprod : (el * UInt64.ofInt r * 1000).toNat ≤ elapsed.toNat * r * 1000 := by
    rw [UInt64.toNat_mul, UInt64.toNat_mul, hrate, show (1000 : UInt64).toNat = 1000 from rfl]
    calc el.toNat * r % 2 ^ 64 * 1000 % 2 ^ 64 ≤ el.toNat * r % 2 ^ 64 * 1000 := Nat.mod_le ..
      _ ≤ el.toNat * r * 1000 := Nat.mul_le_mul_right _ (Nat.mod_le ..)
      _ ≤ elapsed.toNat * r * 1000 := Nat.mul_le_mul_right _ (Nat.mul_le_mul_right _ hle)
  have hgain : kynxGained r w elapsed =
      ((el * UInt64.ofInt r * 1000).toNat / (w * 1000000) : Nat) := by
    simp only [kynxGained, hel, UInt64.toNat_div, hwindow]
  have hdiv := Nat.mul_div_le (el * UInt64.ofInt r * 1000).toNat (w * 1000000)
  rw [hgain]
  refine ⟨Int.natCast_nonneg _, ?_⟩
  have hnat : w * 1000000 * ((el * UInt64.ofInt r * 1000).toNat / (w * 1000000)) ≤
      1000 * r * elapsed.toNat := by
    calc _ ≤ _ := hdiv
      _ ≤ elapsed.toNat * r * 1000 := hprod
      _ = 1000 * r * elapsed.toNat := by ring
  exact_mod_cast hnat

/-! ## One check -/

/-- The balance of a bucket: its tokens, and those paid to admitted requests since `start`, are at
most a full bucket and what was gained since. -/
def Paid (start : Nat) (admitted : Nat) (e : OrbitKynxEntry) : Prop :=
  start ≤ e.lastRefillNs.toNat ∧
    windowNs cfg * (e.tokensMilli + 1000 * admitted) ≤
      windowNs cfg * (1000 * kynxEffectiveBurst cfg) +
        1000 * atLeastOne cfg.rateLimit * (e.lastRefillNs.toNat - start)

/-- A bucket between two checks. -/
structure Filled (now : Nat) (e : OrbitKynxEntry) : Prop where
  past : e.lastRefillNs.toNat ≤ now
  nonneg : 0 ≤ e.tokensMilli
  cap : e.tokensMilli ≤ 1000 * kynxEffectiveBurst cfg

variable {cfg}

/-- A refill adds what was gained since the last one, up to a full bucket. -/
theorem kynxRefill_spec {e : OrbitKynxEntry} {now : UInt64} (h : Filled cfg now.toNat e) :
    Filled cfg now.toNat (kynxRefill cfg e now) ∧
      (kynxRefill cfg e now).lastRefillNs = now ∧
      windowNs cfg * (kynxRefill cfg e now).tokensMilli ≤ windowNs cfg * e.tokensMilli +
        1000 * atLeastOne cfg.rateLimit * (now.toNat - e.lastRefillNs.toNat) := by
  have hr := one_le_atLeastOne cfg.rateLimit
  have hpast := h.past
  have hspan : 0 ≤ 1000 * atLeastOne cfg.rateLimit * ((now.toNat : Int) - e.lastRefillNs.toNat) :=
    Int.mul_nonneg (by omega) (by omega)
  unfold kynxRefill
  by_cases hsame : (e.lastRefillNs = 0 || decide (now ≤ e.lastRefillNs)) = true
  · simp only [if_pos hsame]
    exact ⟨⟨Nat.le_refl _, h.nonneg, h.cap⟩, trivial, by omega⟩
  · simp only [if_neg hsame]
    obtain ⟨hg0, hg⟩ := kynxGained_le hr (atLeastOne_lt _) (one_le_atLeastOne cfg.windowMs)
      (atLeastOne_lt _) (now - e.lastRefillNs)
    have hsub : (now - e.lastRefillNs).toNat = now.toNat - e.lastRefillNs.toNat :=
      UInt64.toNat_sub_of_le _ _ hpast
    rw [hsub, Nat.cast_sub hpast] at hg
    have hb := one_le_effectiveBurst cfg
    have hnonneg := h.nonneg
    have hw := windowNs_pos cfg
    have hmul : windowNs cfg * (e.tokensMilli + kynxGained (atLeastOne cfg.rateLimit)
        (atLeastOne cfg.windowMs) (now - e.lastRefillNs)) ≤ windowNs cfg * e.tokensMilli +
        1000 * atLeastOne cfg.rateLimit * (now.toNat - e.lastRefillNs.toNat) := by
      rw [Int.mul_add]
      exact Int.add_le_add_left hg _
    split_ifs with hcap
    · refine ⟨⟨Nat.le_refl _, by dsimp only; omega, by dsimp only; omega⟩, trivial, ?_⟩
      exact Int.le_trans (Int.mul_le_mul_of_nonneg_left (Int.le_of_lt hcap) (Int.le_of_lt hw)) hmul
    · exact ⟨⟨Nat.le_refl _, by dsimp only; omega, by dsimp only; omega⟩, trivial, hmul⟩

variable (cfg) in
/-- A refill and a payment: the verdict is paid for out of the tokens that were there or gained. -/
structure Pays (e : OrbitKynxEntry) (now : UInt64) (r : KynxVerdict × OrbitKynxEntry) : Prop where
  filled : Filled cfg now.toNat r.2
  last : r.2.lastRefillNs = now
  cap : r.2.tokensMilli + (if r.1.allowed then 1000 else 0) ≤ 1000 * kynxEffectiveBurst cfg
  gain : windowNs cfg * (r.2.tokensMilli + (if r.1.allowed then 1000 else 0)) ≤
    windowNs cfg * e.tokensMilli +
      1000 * atLeastOne cfg.rateLimit * (now.toNat - e.lastRefillNs.toNat)

theorem kynxSpend_bucket (cfg : OrbitKynxConfig) (e : OrbitKynxEntry) (now : UInt64) :
    (kynxSpend cfg e now).tokensMilli = e.tokensMilli - 1000 ∧
      (kynxSpend cfg e now).lastRefillNs = e.lastRefillNs := by
  simp only [kynxSpend]
  split_ifs <;> exact ⟨rfl, rfl⟩

theorem kynxScore_bucket (cfg : OrbitKynxConfig) (e : OrbitKynxEntry) (now : UInt64) :
    (kynxScore cfg e now).tokensMilli = e.tokensMilli ∧
      (kynxScore cfg e now).lastRefillNs = e.lastRefillNs := by
  simp only [kynxScore]
  split_ifs <;> exact ⟨rfl, rfl⟩

theorem kynxServe_pays {e : OrbitKynxEntry} {now : UInt64} (h : Filled cfg now.toNat e) :
    Pays cfg e now (kynxServe cfg e now) := by
  obtain ⟨hf, hlast, hgain⟩ := kynxRefill_spec h
  have hcap := hf.cap
  have hnonneg := hf.nonneg
  by_cases htoken : (kynxRefill cfg e now).tokensMilli ≥ 1000
  · obtain ⟨htok, hlast'⟩ := kynxSpend_bucket cfg (kynxRefill cfg e now) now
    have hserve : kynxServe cfg e now = (⟨true, 0⟩, kynxSpend cfg (kynxRefill cfg e now) now) := by
      simp only [kynxServe, if_pos htoken]
    rw [hserve]
    refine ⟨⟨?_, ?_, ?_⟩, hlast'.trans hlast, ?_, ?_⟩
    · rw [hlast', hlast]
    · rw [htok]
      omega
    · rw [htok]
      omega
    · rw [htok, if_pos rfl]
      omega
    · rw [htok, if_pos rfl, Int.sub_add_cancel]
      exact hgain
  · obtain ⟨htok, hlast'⟩ := kynxScore_bucket cfg (kynxRefill cfg e now) now
    have hallowed : (kynxServe cfg e now).1.allowed = false := by
      simp only [kynxServe, if_neg htoken]
    have hentry : (kynxServe cfg e now).2 = kynxScore cfg (kynxRefill cfg e now) now := by
      simp only [kynxServe, if_neg htoken]
    refine ⟨⟨?_, ?_, ?_⟩, ?_, ?_, ?_⟩
    · rw [hentry, hlast', hlast]
    · rw [hentry, htok]
      exact hnonneg
    · rw [hentry, htok]
      exact hcap
    · rw [hentry, hlast', hlast]
    · rw [hentry, htok, hallowed, if_neg Bool.false_ne_true, Int.add_zero]
      exact hcap
    · rw [hentry, htok, hallowed, if_neg Bool.false_ne_true, Int.add_zero]
      exact hgain

/-- What a check does to a bucket: nothing when a ban denies it; else a refill and a payment. -/
theorem kynxCheckEntry_pays {e : OrbitKynxEntry} {now : UInt64} (h : Filled cfg now.toNat e) :
    (kynxCheckEntry cfg e now).2 = e ∧ (kynxCheckEntry cfg e now).1.allowed = false ∨
      Pays cfg e now (kynxCheckEntry cfg e now) := by
  simp only [kynxCheckEntry]
  split_ifs
  · have hpays := kynxServe_pays (e := { e with
      isBanned := false, suspicionScore := e.suspicionScore.tdiv 2 }) ⟨h.past, h.nonneg, h.cap⟩
    exact .inr ⟨hpays.filled, hpays.last, hpays.cap, hpays.gain⟩
  · exact .inl ⟨rfl, rfl⟩
  · exact .inr (kynxServe_pays h)

/-- A balance is kept by a check. -/
theorem Paid.check {start admitted : Nat} {e : OrbitKynxEntry} {now : UInt64}
    {r : KynxVerdict × OrbitKynxEntry} (h : admitted = 0 ∨ Paid cfg start admitted e)
    (hr : Pays cfg e now r) (hstart : start ≤ now.toNat) :
    Paid cfg start (admitted + if r.1.allowed then 1 else 0) r.2 := by
  have hrate := one_le_atLeastOne cfg.rateLimit
  have hw := windowNs_pos cfg
  have hone : (1000 * ((admitted + if r.1.allowed then 1 else 0 : Nat) : Int)) =
      1000 * admitted + (if r.1.allowed then 1000 else 0) := by
    split_ifs
    · push_cast
      ring
    · simp
  refine ⟨by rw [hr.last]; exact hstart, ?_⟩
  rw [hone, hr.last]
  rcases h with rfl | ⟨-, hbal⟩
  · have hspan : 0 ≤ 1000 * atLeastOne cfg.rateLimit * ((now.toNat : Int) - start) :=
      Int.mul_nonneg (by omega) (by omega)
    have hcap := Int.mul_le_mul_of_nonneg_left hr.cap (Int.le_of_lt hw)
    simp only [Nat.cast_zero, mul_zero, zero_add]
    omega
  · have hgain := hr.gain
    linarith

end

/-! ## Runs -/

section
variable (cfg : OrbitKynxConfig) (limits : List OrbitKynxRouteLimit)

/-- How many checks of the address in the interval from `start` on are admitted. -/
def kynxAdmitted (ip : OrbitKynxIP) (start length : Nat) (st : KynxState) (evs : List KynxEvent) :
    Nat :=
  (evs.zip (kynxRun cfg limits st evs).1).countP fun r =>
    r.2.allowed && decide (kynxParseIp r.1.ipStr = some ip) &&
      decide (start ≤ r.1.now.toNat ∧ r.1.now.toNat ≤ start + length)

/-- The bound on what an interval admits, in whole requests and rounded up. -/
def admissionBound (length : Nat) : Nat :=
  (kynxEffectiveBurst cfg).toNat +
    ((atLeastOne cfg.rateLimit).toNat * length + ((windowNs cfg).toNat - 1)) /
      (windowNs cfg).toNat

/-- A balance at the end of the interval is the bound. -/
theorem Paid.le_bound {start admitted length : Nat} {e : OrbitKynxEntry}
    (h : Paid cfg start admitted e) (hlast : e.lastRefillNs.toNat ≤ start + length)
    (hnonneg : 0 ≤ e.tokensMilli) : admitted ≤ admissionBound cfg length := by
  obtain ⟨hstart, hbal⟩ := h
  have hr := one_le_atLeastOne cfg.rateLimit
  have hb := one_le_effectiveBurst cfg
  have hw := windowNs_pos cfg
  obtain ⟨r, hr'⟩ := Int.eq_ofNat_of_zero_le (Int.le_trans (by decide) hr)
  obtain ⟨b, hb'⟩ := Int.eq_ofNat_of_zero_le (Int.le_trans (by decide) hb)
  obtain ⟨w, hw'⟩ := Int.eq_ofNat_of_zero_le (Int.le_of_lt hw)
  rw [hw', hb', hr'] at hbal
  rw [hw'] at hw
  rw [admissionBound, hr', hb', hw']
  simp only [Int.toNat_natCast]
  have hwpos : 0 < w := by exact_mod_cast hw
  have hlen : (e.lastRefillNs.toNat : Int) - start ≤ length := by omega
  have h1 : (w : Int) * (1000 * admitted) ≤ w * (1000 * b) + 1000 * r * length := by
    have h2 : (0 : Int) ≤ w * e.tokensMilli := Int.mul_nonneg (Int.natCast_nonneg w) hnonneg
    have h3 : (1000 * r : Int) * ((e.lastRefillNs.toNat : Int) - start) ≤ 1000 * r * length :=
      Int.mul_le_mul_of_nonneg_left hlen (by omega)
    rw [Int.mul_add] at hbal
    omega
  have h4 : w * admitted ≤ w * b + r * length := by
    have : 1000 * (w * admitted) ≤ 1000 * (w * b + r * length) := by
      zify
      linarith
    omega
  by_contra hgt
  have h5 : b + (r * length + (w - 1)) / w + 1 ≤ admitted := by omega
  have h6 : r * length < w * ((r * length + (w - 1)) / w + 1) := by
    have := Nat.lt_mul_div_succ (r * length + (w - 1)) hwpos
    omega
  have h7 := Nat.mul_le_mul_left w h5
  rw [Nat.add_assoc, Nat.mul_add] at h7
  omega

/-- What is known of an address after a part of the run: `clock` is the last reading and `admitted`
counts the interval. -/
structure Bounded (ip : OrbitKynxIP) (start length clock admitted : Nat) (st : KynxState) :
    Prop where
  sized : st.shards.Sized
  filled : ∀ e, st.shards.entry ip = some e → Filled cfg clock e
  fresh : st.shards.entry ip = none → admitted = 0
  paid : clock ≤ start + length → ∀ e, st.shards.entry ip = some e →
    admitted = 0 ∨ Paid cfg start admitted e
  bound : admitted ≤ admissionBound cfg length

variable {cfg limits}

theorem Filled.mono {now now' : Nat} {e : OrbitKynxEntry} (h : Filled cfg now e)
    (hle : now ≤ now') : Filled cfg now' e := ⟨h.past.trans hle, h.nonneg, h.cap⟩

theorem one_le_admissionBound (cfg : OrbitKynxConfig) (length : Nat) :
    1 ≤ admissionBound cfg length := by
  have h := one_le_effectiveBurst cfg
  exact Nat.le_trans (by omega) (Nat.le_add_right ..)

/-- A check that does not touch the entry of the address. -/
theorem Bounded.untouched {ip : OrbitKynxIP} {start length clock now admitted : Nat}
    {st st' : KynxState} (h : Bounded cfg ip start length clock admitted st) (hclock : clock ≤ now)
    (hsized : st'.shards.Sized) (hentry : st'.shards.entry ip = st.shards.entry ip) :
    Bounded cfg ip start length now admitted st' := by
  refine ⟨hsized, fun e he => ?_, fun he => ?_, fun hle e he => ?_, h.bound⟩
  · rw [hentry] at he
    exact (h.filled e he).mono hclock
  · rw [hentry] at he
    exact h.fresh he
  · rw [hentry] at he
    exact h.paid (hclock.trans hle) e he

/-- A check of the address that pays. -/
theorem Bounded.pays {ip : OrbitKynxIP} {start length clock admitted : Nat} {now : UInt64}
    {st st' : KynxState} (h : Bounded cfg ip start length clock admitted st)
    (hclock : clock ≤ now.toNat) {e : OrbitKynxEntry} (he : st.shards.entry ip = some e)
    {r : KynxVerdict × OrbitKynxEntry} (hr : Pays cfg e now r)
    (hsized : st'.shards.Sized) (hentry : st'.shards.entry ip = some r.2) :
    Bounded cfg ip start length now.toNat
      (admitted + if r.1.allowed && decide (start ≤ now.toNat ∧ now.toNat ≤ start + length) then 1
        else 0) st' := by
  have hother : ∀ e', st'.shards.entry ip = some e' → e' = r.2 := by
    intro e' he'
    rw [hentry, Option.some.injEq] at he'
    exact he'.symm
  have hnone : st'.shards.entry ip ≠ none := by
    rw [hentry]
    exact Option.some_ne_none _
  by_cases hin : start ≤ now.toNat ∧ now.toNat ≤ start + length
  · simp only [hin, and_self, decide_true, Bool.and_true]
    have hpaid := Paid.check (h.paid (hclock.trans hin.2) e he) hr hin.1
    refine ⟨hsized, fun e' he' => hother e' he' ▸ hr.filled, fun hno => absurd hno hnone,
      fun _ e' he' => .inr (hother e' he' ▸ hpaid), ?_⟩
    exact hpaid.le_bound cfg (by rw [hr.last]; exact hin.2) hr.filled.nonneg
  · simp only [hin, decide_false, Bool.and_false, Bool.false_eq_true, if_false, Nat.add_zero]
    refine ⟨hsized, fun e' he' => hother e' he' ▸ hr.filled, fun hno => absurd hno hnone,
      fun hle e' he' => .inl ?_, h.bound⟩
    rcases h.paid (hclock.trans hle) e he with hzero | hpaid
    · exact hzero
    · have h1 := hpaid.1
      have h2 := (h.filled e he).past
      omega

/-- The first check of the address. -/
theorem Bounded.first {ip : OrbitKynxIP} {start length clock admitted : Nat} {now : UInt64}
    {st st' : KynxState} (h : Bounded cfg ip start length clock admitted st)
    (he : st.shards.entry ip = none) (hsized : st'.shards.Sized)
    (hentry : st'.shards.entry ip = some (kynxNewEntry cfg ip now)) :
    Bounded cfg ip start length now.toNat
      (admitted + if decide (start ≤ now.toNat ∧ now.toNat ≤ start + length) then 1 else 0) st' := by
  have hb := one_le_effectiveBurst cfg
  have hzero := h.fresh he
  have hother : ∀ e', st'.shards.entry ip = some e' → e' = kynxNewEntry cfg ip now := by
    intro e' he'
    rw [hentry, Option.some.injEq] at he'
    exact he'.symm
  have hfilled : Filled cfg now.toNat (kynxNewEntry cfg ip now) := by
    refine ⟨Nat.le_refl _, ?_, ?_⟩
    · change 0 ≤ kynxEffectiveBurst cfg * 1000 - 1000
      omega
    · change kynxEffectiveBurst cfg * 1000 - 1000 ≤ 1000 * kynxEffectiveBurst cfg
      omega
  refine ⟨hsized, fun e' he' => hother e' he' ▸ hfilled, fun hno => ?_, fun _ e' he' => ?_, ?_⟩
  · rw [hentry] at hno
    cases hno
  · rw [hother e' he', hzero]
    by_cases hin : start ≤ now.toNat ∧ now.toNat ≤ start + length
    · refine .inr ⟨hin.1, ?_⟩
      have hspan : 0 ≤ 1000 * atLeastOne cfg.rateLimit * ((now.toNat : Int) - start) :=
        Int.mul_nonneg (by have := one_le_atLeastOne cfg.rateLimit; omega) (by omega)
      have htokens : kynxEffectiveBurst cfg * 1000 - 1000 + 1000 * ((0 + 1 : Nat) : Int) =
          1000 * kynxEffectiveBurst cfg := by
        push_cast
        ring
      simp only [hin, and_self, decide_true, if_true, kynxNewEntry, htokens]
      omega
    · left
      simp [hin]
  · have h1 := one_le_admissionBound cfg length
    rw [hzero]
    split_ifs <;> omega

/-- **One check of a run** keeps the bound. -/
theorem Bounded.step {ip : OrbitKynxIP} {start length clock admitted : Nat} {st : KynxState}
    {ev : KynxEvent} (h : Bounded cfg ip start length clock admitted st)
    (henabled : cfg.enabled = true) (hclock : clock ≤ ev.now.toNat)
    (hev : kynxEvicts cfg limits st ev = none) :
    Bounded cfg ip start length ev.now.toNat
      (admitted + if (kynxStep cfg limits st ev).1.allowed &&
        decide (kynxParseIp ev.ipStr = some ip) &&
        decide (start ≤ ev.now.toNat ∧ ev.now.toNat ≤ start + length) then 1 else 0)
      (kynxStep cfg limits st ev).2 := by
  cases htouch : kynxTouches cfg limits st ev with
  | none =>
    obtain ⟨hshards, hdeny⟩ := kynxStep_untouched cfg limits henabled st ev htouch
    have hzero : ((kynxStep cfg limits st ev).1.allowed &&
        decide (kynxParseIp ev.ipStr = some ip)) = false := by
      by_cases hip : kynxParseIp ev.ipStr = some ip
      · rw [hdeny (by rw [hip]; rfl), Bool.false_and]
      · rw [decide_eq_false hip, Bool.and_false]
    rw [hzero, Bool.false_and, if_neg Bool.false_ne_true, Nat.add_zero]
    exact h.untouched hclock (by rw [hshards]; exact h.sized) (by rw [hshards])
  | some ip' =>
    obtain ⟨hparse, hverdict, hshards⟩ := kynxStep_touched cfg limits htouch
    have hnoev : st.shards.evicted ip' ev.now = none := by
      rwa [kynxEvicts, htouch, Option.bind_some] at hev
    have hsized : (kynxStep cfg limits st ev).2.shards.Sized := by
      rw [hshards]
      exact kynxCheckIp_sized cfg ip' ev.now h.sized
    by_cases hip : ip' = ip
    · subst hip
      have hself := kynxCheckIp_self cfg ip' ev.now h.sized
      rw [decide_eq_true hparse, Bool.and_true, hverdict]
      cases he : st.shards.entry ip' with
      | none =>
        rw [he] at hself
        rw [hself.1, Bool.true_and]
        exact h.first he hsized (hshards ▸ hself.2)
      | some e =>
        rw [he] at hself
        rw [hself.1]
        rcases kynxCheckEntry_pays ((h.filled e he).mono hclock) with ⟨hsame, hdeny⟩ | hpays
        · rw [hdeny, Bool.false_and, if_neg Bool.false_ne_true, Nat.add_zero]
          apply h.untouched hclock hsized
          rw [hshards, hself.2, hsame, he]
        · exact h.pays hclock he hpays hsized (hshards ▸ hself.2)
    · have hne : kynxParseIp ev.ipStr ≠ some ip := by
        rw [hparse]
        exact fun hsome => hip (Option.some.inj hsome)
      rw [decide_eq_false hne, Bool.and_false, Bool.false_and, if_neg Bool.false_ne_true,
        Nat.add_zero]
      apply h.untouched hclock hsized
      rw [hshards]
      refine kynxCheckIp_other cfg ev.now st.shards (Ne.symm hip) fun x hx => ?_
      rw [hnoev] at hx
      cases hx

theorem Bounded.run {ip : OrbitKynxIP} {start length clock admitted : Nat} {st : KynxState}
    {evs : List KynxEvent} (h : Bounded cfg ip start length clock admitted st)
    (henabled : cfg.enabled = true) (hclock : ∀ ev ∈ evs, clock ≤ ev.now.toNat)
    (hmono : evs.Pairwise fun a b => a.now ≤ b.now)
    (hev : KynxAll cfg limits (fun st ev => kynxEvicts cfg limits st ev = none) st evs) :
    admitted + kynxAdmitted cfg limits ip start length st evs ≤ admissionBound cfg length := by
  induction evs generalizing clock admitted st with
  | nil => exact h.bound
  | cons ev evs ih =>
    rw [List.pairwise_cons] at hmono
    have hstep := h.step henabled (hclock ev List.mem_cons_self) hev.1
    have hrest := ih hstep (fun b hb => hmono.1 b hb) hmono.2 hev.2
    rw [kynxAdmitted] at hrest ⊢
    simp only [kynxRun, List.zip_cons_cons, List.countP_cons]
    omega

theorem bounded_init (cfg : OrbitKynxConfig) (ip : OrbitKynxIP) (start length : Nat) :
    Bounded cfg ip start length 0 0 kynxInit := by
  have hentry := kynxInit_entry ip
  refine ⟨sized_init, fun e he => ?_, fun _ => rfl, fun _ _ _ => .inl rfl, Nat.zero_le _⟩
  rw [hentry] at he
  cases he

/-- **The admission bound.** In a run with a monotone clock that throws no entry out, at most the
burst and the tokens gained in an interval are admitted in it for an address, whatever the other
addresses do. The burst, the rate and the window are those the source works with: a burst that is
not positive is the rate, and a rate, window or burst below one is one. -/
theorem admitted_le (cfg : OrbitKynxConfig) (limits : List OrbitKynxRouteLimit)
    (evs : List KynxEvent) (henabled : cfg.enabled = true)
    (hmono : evs.Pairwise fun a b => a.now ≤ b.now)
    (hev : KynxAll cfg limits (fun st ev => kynxEvicts cfg limits st ev = none) kynxInit evs)
    (ip : OrbitKynxIP) (start length : Nat) :
    kynxAdmitted cfg limits ip start length kynxInit evs ≤ admissionBound cfg length := by
  have h := (bounded_init cfg ip start length).run henabled (fun _ _ => Nat.zero_le _) hmono hev
  rwa [Nat.zero_add] at h

/-- The servers' limits. -/
def generatedConfig : OrbitKynxConfig where
  rateLimit := 50
  windowMs := 1000
  burst := 50
  banThreshold := 200
  scoreIncrement := 10
  scoreDecay := 1
  banDurationS := 300
  enabled := true

/-- Two checks of one address, with a burst of one. -/
theorem admitted_le_two :
    kynxAdmitted { generatedConfig with burst := 1 } [] (.v4 16909060) 5 1 kynxInit
        [.check "1.2.3.4".toList 5, .checkRoute "1.2.3.4".toList "GET".toList "/".toList 6 6] ≤
      admissionBound { generatedConfig with burst := 1 } 1 := by
  refine admitted_le _ _ _ rfl (by decide) ?_ _ _ _
  exact ⟨by decide, by decide, trivial⟩

end

end Runtime.Kynx
