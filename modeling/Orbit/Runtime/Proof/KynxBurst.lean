import Orbit.Runtime.Proof.KynxRefill
import Orbit.Runtime.Proof.KynxRouteTable

/-!
# The burst of a route

A new bucket starts from the burst of its route, but a refill stops at the rate. So a bucket holds
at most its burst, is full to it after a long idle time and admits that many requests then
(`HonoursBurst`) exactly when burst and rate are the same and the product of ten windows, in 64
bits, is enough for a full bucket (`honoursBurst_iff`).
-/

namespace Runtime.Kynx

open Http (Text)

/-! ## Refills of a route -/

section
variable (lim : OrbitKynxRouteLimit)

/-- A bucket that was refilled ten windows before, past which a refill credits no more. The stamp 0
stands for no refill. -/
def Idle (b : KynxRouteBucket) (now : UInt64) : Prop :=
  b.lastRefillNs ≠ 0 ∧ b.lastRefillNs.toNat + countOf lim.windowMs * 10000000 ≤ now.toNat

/-- The milli-tokens that ten windows credit. -/
def tenWindows : Nat :=
  credited (countOf lim.rate) (countOf lim.windowMs) (countOf lim.windowMs * 10000000)

/-- The burst is the rate, and ten windows fill the bucket in spite of the 64 bits. -/
def BurstKept : Prop :=
  routeBurst lim = atLeastOne lim.rate ∧
    countOf lim.windowMs * countOf lim.rate * 1000000000 ≤
      countOf lim.windowMs * countOf lim.rate * 10000000000 % 2 ^ 64

variable {lim} {b : KynxRouteBucket} {now : UInt64}

/-- Ten windows fill a bucket that stops at the rate. -/
theorem tenWindows_iff :
    countOf lim.rate * 1000 ≤ tenWindows lim ↔
      countOf lim.windowMs * countOf lim.rate * 1000000000 ≤
        countOf lim.windowMs * countOf lim.rate * 10000000000 % 2 ^ 64 := by
  have hw := (countOf_bounds lim.windowMs).1
  have hscale : countOf lim.rate * 1000 * (countOf lim.windowMs * 1000000) =
      countOf lim.windowMs * countOf lim.rate * 1000000000 := by ring
  rw [tenWindows, credited_eq, refillProduct_full (Nat.le_refl _),
    Nat.le_div_iff_mul_le (by omega), hscale]

theorem kynxRouteRefillAt_spec (b : KynxRouteBucket) (now : UInt64) :
    (kynxRouteRefillAt lim b now).tokensMilli =
      if b.lastRefillNs = 0 ∨ now ≤ b.lastRefillNs then b.tokensMilli
      else min (countOf lim.rate * 1000) (b.tokensMilli +
        credited (countOf lim.rate) (countOf lim.windowMs) (now.toNat - b.lastRefillNs.toNat)) := by
  by_cases hstamp : b.lastRefillNs = 0 ∨ now ≤ b.lastRefillNs
  · rw [if_pos hstamp, kynxRouteRefillAt, kynxRouteRefill, if_pos (by simpa using hstamp)]
  · rw [if_neg hstamp]
    rw [not_or, UInt64.le_iff_toNat_le] at hstamp
    obtain ⟨h0, hlater⟩ := hstamp
    have hlt := now.toNat_lt
    have hnow : b.lastRefillNs + UInt64.ofNat (now.toNat - b.lastRefillNs.toNat) = now := by
      rw [← UInt64.toNat_inj, toNat_later (by omega)]
      omega
    have hspec := (kynxRouteRefillAfter_spec lim (d := now.toNat - b.lastRefillNs.toNat) h0
      (by omega)).2
    rw [kynxRouteRefillAfter, hnow, ← kynxRouteRefillAt, refilled, if_neg (by omega)] at hspec
    exact hspec

theorem Idle.refill (h : Idle lim b now) :
    (kynxRouteRefillAt lim b now).tokensMilli =
      min (countOf lim.rate * 1000 : Int) (b.tokensMilli + tenWindows lim) := by
  obtain ⟨h0, hten⟩ := h
  have hw := (countOf_bounds lim.windowMs).1
  have hlater : ¬ now ≤ b.lastRefillNs := by
    rw [UInt64.le_iff_toNat_le]
    omega
  rw [kynxRouteRefillAt_spec, if_neg (not_or.mpr ⟨h0, hlater⟩), tenWindows, credited_eq,
    credited_eq, refillProduct_full (Nat.le_refl _), refillProduct_full (by omega)]

theorem kynxRouteRefillAt_le (h : b.tokensMilli ≤ countOf lim.rate * 1000) :
    b.tokensMilli ≤ (kynxRouteRefillAt lim b now).tokensMilli ∧
      (kynxRouteRefillAt lim b now).tokensMilli ≤ countOf lim.rate * 1000 := by
  rw [kynxRouteRefillAt_spec]
  split_ifs
  · exact ⟨Int.le_refl _, h⟩
  · omega

theorem one_le_routeBurst (lim : OrbitKynxRouteLimit) : 1 ≤ routeBurst lim := by
  have := one_le_atLeastOne lim.rate
  rw [routeBurst]
  split_ifs <;> omega

theorem kynxRouteNew_eq (lim : OrbitKynxRouteLimit) (routeIdx : Nat) (ip : OrbitKynxIP)
    (now : UInt64) :
    kynxRouteNew lim routeIdx ip now = ⟨ip, routeIdx, now, routeBurst lim * 1000 - 1000⟩ := by
  have := one_le_routeBurst lim
  rw [kynxRouteNew, if_neg (by omega)]

/-- A charge to a bucket: the token that is spent, if the refill has one. -/
theorem kynxRouteServe_eq (lim : OrbitKynxRouteLimit) (b : KynxRouteBucket) (now : UInt64) :
    ((kynxRouteServe lim b now).1 = none ↔ 1000 ≤ (kynxRouteRefillAt lim b now).tokensMilli) ∧
      (kynxRouteServe lim b now).2.tokensMilli =
        if 1000 ≤ (kynxRouteRefillAt lim b now).tokensMilli then
          (kynxRouteRefillAt lim b now).tokensMilli - 1000
        else (kynxRouteRefillAt lim b now).tokensMilli := by
  rw [kynxRouteServe]
  by_cases htoken : (kynxRouteRefillAt lim b now).tokensMilli ≥ 1000
  · rw [if_pos htoken, if_pos htoken]
    exact ⟨iff_of_true rfl htoken, rfl⟩
  · rw [if_neg htoken, if_neg htoken]
    exact ⟨iff_of_false (Option.some_ne_none _) htoken, rfl⟩

end

/-! ## What honours a burst -/

section
variable (cfg : OrbitKynxConfig) (limits : List OrbitKynxRouteLimit) (c : KynxCharge)

/-- A bucket of the address and the route of a charge. -/
def BucketOf (shards : KynxRouteShards) (b : KynxRouteBucket) : Prop :=
  (∃ k, some b ∈ shards k) ∧ b.routeIdx = c.routeIdx ∧ b.ip = c.ip

/-- What the gate of a check says. -/
def KynxEvent.gateVerdict (st : KynxState) : KynxEvent → Option KynxVerdict
  | .check _ _ => none
  | .checkRoute ipStr method path gate _ =>
    (kynxRouteGate cfg limits ipStr method path gate st.routeShards).1

/-- The gate does not deny a check with this charge. -/
def GateAdmits (st : KynxState) (ev : KynxEvent) : Prop :=
  ev.charge cfg limits = some c → ev.gateVerdict cfg limits st = none

/-- The checks of a run with this charge. -/
def charges (evs : List KynxEvent) : Nat := evs.countP fun ev => ev.charge cfg limits = some c

/-- The burst of a route is honoured: in every reached state a bucket holds at most the burst, also
after a refill at any reading; one that has been idle is full; and after an idle time as many checks
as the burst are admitted, whatever other checks come between them. -/
structure HonoursBurst : Prop where
  capped : ∀ evs b, BucketOf c (kynxRun cfg limits kynxInit evs).2.routeShards b →
    b.tokensMilli ≤ routeBurst c.lim * 1000 ∧
      ∀ now, (kynxRouteRefillAt c.lim b now).tokensMilli ≤ routeBurst c.lim * 1000
  full : ∀ evs b now, BucketOf c (kynxRun cfg limits kynxInit evs).2.routeShards b →
    Idle c.lim b now → (kynxRouteRefillAt c.lim b now).tokensMilli = routeBurst c.lim * 1000
  admits : ∀ evs later,
    (∀ b, BucketOf c (kynxRun cfg limits kynxInit evs).2.routeShards b →
      ∀ ev ∈ later, ev.charge cfg limits = some c → Idle c.lim b ev.gate) →
    charges cfg limits c later ≤ routeBurst c.lim →
    KynxAll cfg limits (GateAdmits cfg limits c) (kynxRun cfg limits kynxInit evs).2 later

variable {cfg limits c}

theorem gateVerdict_eq {ev : KynxEvent} (h : ev.charge cfg limits = some c) (st : KynxState) :
    ev.gateVerdict cfg limits st = (kynxRouteCharge c.lim c.routeIdx c.ip ev.gate
      (st.routeShards (kynxRouteShard c.ip c.routeIdx))).1 := by
  cases ev with
  | check ipStr now => cases h
  | checkRoute ipStr method path gate now =>
    rw [KynxEvent.charge] at h
    rw [KynxEvent.gateVerdict, kynxRouteGate_eq, h]
    rfl

/-- The place of a limit and the address say the charge. -/
theorem charge_inj {c' : KynxCharge} (hget : limits[c.routeIdx]? = some c.lim)
    (hget' : limits[c'.routeIdx]? = some c'.lim) (hidx : c'.routeIdx = c.routeIdx)
    (hip : c'.ip = c.ip) : c' = c := by
  obtain ⟨lim, routeIdx, ip⟩ := c
  obtain ⟨lim', routeIdx', ip'⟩ := c'
  dsimp only at hget hget' hidx hip
  subst hidx hip
  rw [hget] at hget'
  rw [Option.some.inj hget']

/-! ## A burst that is kept -/

/-- The tokens of the route's buckets. -/
def Within (c : KynxCharge) (b : KynxRouteBucket) : Prop :=
  b.routeIdx = c.routeIdx → 0 ≤ b.tokensMilli ∧ b.tokensMilli ≤ routeBurst c.lim * 1000

/-- A bucket of the charge has a token for each of the checks that are to come, or is idle until the
first of them. -/
def Ready (cfg : OrbitKynxConfig) (limits : List OrbitKynxRouteLimit) (c : KynxCharge)
    (later : List KynxEvent) (b : KynxRouteBucket) : Prop :=
  Within c b ∧ (b.routeIdx = c.routeIdx → b.ip = c.ip →
    charges cfg limits c later * 1000 ≤ b.tokensMilli ∨
      ∀ ev ∈ later, ev.charge cfg limits = some c → Idle c.lim b ev.gate)

theorem BurstKept.refill {lim : OrbitKynxRouteLimit} (h : BurstKept lim) {b : KynxRouteBucket}
    (hb : b.tokensMilli ≤ routeBurst lim * 1000) (now : UInt64) :
    b.tokensMilli ≤ (kynxRouteRefillAt lim b now).tokensMilli ∧
      (kynxRouteRefillAt lim b now).tokensMilli ≤ routeBurst lim * 1000 := by
  rw [h.1, ← countOf_eq] at hb ⊢
  exact kynxRouteRefillAt_le hb

theorem BurstKept.full {lim : OrbitKynxRouteLimit} (h : BurstKept lim) {b : KynxRouteBucket}
    {now : UInt64} (h0 : 0 ≤ b.tokensMilli) (hidle : Idle lim b now) :
    (kynxRouteRefillAt lim b now).tokensMilli = routeBurst lim * 1000 := by
  have hten := tenWindows_iff.mpr h.2
  rw [hidle.refill, h.1, ← countOf_eq]
  omega

theorem kynxRouteNew_within (c : KynxCharge) (ip : OrbitKynxIP) (now : UInt64) :
    Within c (kynxRouteNew c.lim c.routeIdx ip now) := by
  have := one_le_routeBurst c.lim
  intro _
  rw [kynxRouteNew_eq]
  dsimp only
  omega

theorem kynxRouteServe_within (h : BurstKept c.lim) {b : KynxRouteBucket} (hb : Within c b)
    (now : UInt64) (hidx : b.routeIdx = c.routeIdx) : Within c (kynxRouteServe c.lim b now).2 := by
  intro _
  obtain ⟨h0, hle⟩ := hb hidx
  obtain ⟨hgrows, hcap⟩ := h.refill hle now
  rw [(kynxRouteServe_eq c.lim b now).2]
  split_ifs <;> omega

theorem kynxRun_within (h : BurstKept c.lim) (hget : limits[c.routeIdx]? = some c.lim)
    (evs : List KynxEvent) :
    KynxBuckets (Within c) (kynxRun cfg limits kynxInit evs).2.routeShards := by
  refine kynxRun_buckets (fun lim routeIdx ip now hlim => ?_) (fun lim b now hlim hb => ?_) evs
    (kynxInit_buckets _)
  · intro hidx
    change routeIdx = c.routeIdx at hidx
    subst hidx
    obtain rfl := Option.some.inj (hlim.symm.trans hget)
    exact kynxRouteNew_within c ip now rfl
  · intro hidx
    rw [(kynxRouteServe_key lim b now).1] at hidx
    rw [hidx] at hlim
    obtain rfl := Option.some.inj (hlim.symm.trans hget)
    exact kynxRouteServe_within h hb now hidx ((kynxRouteServe_key _ b now).1.trans hidx)

theorem charges_cons (ev : KynxEvent) (later : List KynxEvent) :
    charges cfg limits c (ev :: later) =
      charges cfg limits c later + if ev.charge cfg limits = some c then 1 else 0 := by
  rw [charges, charges, List.countP_cons]
  simp only [decide_eq_true_eq]

theorem Ready.rest {ev : KynxEvent} {later : List KynxEvent} {b : KynxRouteBucket}
    (h : Ready cfg limits c (ev :: later) b) : Ready cfg limits c later b := by
  refine ⟨h.1, fun hidx hip => ?_⟩
  rcases h.2 hidx hip with htokens | hidle
  · rw [charges_cons] at htokens
    push_cast at htokens
    split_ifs at htokens <;> exact .inl (by omega)
  · exact .inr fun ev' hev' => hidle ev' (List.mem_cons_of_mem _ hev')

/-- A check of the charge finds a token, and one less is left. -/
theorem Ready.serve (h : BurstKept c.lim) {ev : KynxEvent} {later : List KynxEvent}
    (hcharge : ev.charge cfg limits = some c)
    (hcount : charges cfg limits c (ev :: later) ≤ routeBurst c.lim) {b : KynxRouteBucket}
    (hb : Ready cfg limits c (ev :: later) b) (hidx : b.routeIdx = c.routeIdx) (hip : b.ip = c.ip) :
    (kynxRouteServe c.lim b ev.gate).1 = none ∧
      Ready cfg limits c later (kynxRouteServe c.lim b ev.gate).2 := by
  obtain ⟨h0, hle⟩ := hb.1 hidx
  obtain ⟨hverdict, htokens⟩ := kynxRouteServe_eq c.lim b ev.gate
  have hrefill : charges cfg limits c (ev :: later) * 1000 ≤
      (kynxRouteRefillAt c.lim b ev.gate).tokensMilli := by
    rcases hb.2 hidx hip with hmany | hidle
    · exact Int.le_trans hmany (h.refill hle ev.gate).1
    · rw [h.full h0 (hidle ev List.mem_cons_self hcharge)]
      omega
  rw [charges_cons, if_pos hcharge] at hrefill
  push_cast at hrefill
  have htoken : 1000 ≤ (kynxRouteRefillAt c.lim b ev.gate).tokensMilli := by omega
  refine ⟨hverdict.mpr htoken, kynxRouteServe_within h hb.1 ev.gate hidx, fun _ _ => .inl ?_⟩
  rw [htokens, if_pos htoken]
  omega

/-- A first charge leaves the burst but one. -/
theorem Ready.new {ev : KynxEvent} {later : List KynxEvent}
    (hcharge : ev.charge cfg limits = some c)
    (hcount : charges cfg limits c (ev :: later) ≤ routeBurst c.lim) (now : UInt64) :
    Ready cfg limits c later (kynxRouteNew c.lim c.routeIdx c.ip now) := by
  refine ⟨kynxRouteNew_within c c.ip now, fun _ _ => .inl ?_⟩
  rw [charges_cons, if_pos hcharge] at hcount
  push_cast at hcount
  rw [kynxRouteNew_eq]
  dsimp only
  omega

/-- A step admits a check of the charge, and leaves the buckets ready for the checks after it. -/
theorem kynxStep_ready (h : BurstKept c.lim) (hget : limits[c.routeIdx]? = some c.lim)
    {ev : KynxEvent} {later : List KynxEvent}
    (hcount : charges cfg limits c (ev :: later) ≤ routeBurst c.lim) {st : KynxState}
    (hst : KynxBuckets (Ready cfg limits c (ev :: later)) st.routeShards) :
    GateAdmits cfg limits c st ev ∧
      KynxBuckets (Ready cfg limits c later) (kynxStep cfg limits st ev).2.routeShards := by
  constructor
  · intro hcharge
    rw [gateVerdict_eq hcharge, kynxRouteCharge_eq]
    cases hfind : kynxRouteFind c.ip c.routeIdx ev.gate
        (st.routeShards (kynxRouteShard c.ip c.routeIdx)) with
    | absent s => rfl
    | found i b =>
      obtain ⟨hmem, hidx, hip⟩ := kynxRouteFind_found hfind
      exact ((hst _ b hmem).serve h hcharge hcount hidx hip).1
  · rw [kynxStep_routeShards]
    cases hcharge : ev.charge cfg limits with
    | none => exact fun k b hb => (hst k b hb).rest
    | some c' =>
      refine hst.charge c' ev.gate (fun b hb => hb.rest) ?_ fun b hb hidx hip => ?_
      · by_cases hsame : c' = c
        · subst hsame
          exact Ready.new hcharge hcount ev.gate
        · constructor
          · intro hidx
            change c'.routeIdx = c.routeIdx at hidx
            have hlim := charge_get hcharge
            rw [hidx] at hlim
            obtain hlim := Option.some.inj (hlim.symm.trans hget)
            rw [hlim, hidx]
            exact kynxRouteNew_within c c'.ip ev.gate rfl
          · exact fun hidx hip => absurd (charge_inj hget (charge_get hcharge) hidx hip) hsame
      · obtain ⟨hidx', hip'⟩ := kynxRouteServe_key c'.lim b ev.gate
        by_cases hsame : c' = c
        · subst hsame
          exact (hb.serve h hcharge hcount hidx hip).2
        · constructor
          · intro hroute
            have hlim := charge_get hcharge
            rw [← hidx, ← hidx', hroute] at hlim
            obtain hlim := Option.some.inj (hlim.symm.trans hget)
            rw [hlim] at hroute ⊢
            rw [(kynxRouteServe_key c.lim b ev.gate).1] at hroute
            exact kynxRouteServe_within h hb.1 ev.gate hroute
              ((kynxRouteServe_key c.lim b ev.gate).1.trans hroute)
          · intro hroute haddr
            refine absurd (charge_inj hget (charge_get hcharge) ?_ ?_) hsame
            · rw [← hidx, ← hidx', hroute]
            · rw [← hip, ← hip', haddr]

theorem kynxRun_ready (h : BurstKept c.lim) (hget : limits[c.routeIdx]? = some c.lim)
    (later : List KynxEvent) (hcount : charges cfg limits c later ≤ routeBurst c.lim)
    {st : KynxState} (hst : KynxBuckets (Ready cfg limits c later) st.routeShards) :
    KynxAll cfg limits (GateAdmits cfg limits c) st later := by
  induction later generalizing st with
  | nil => trivial
  | cons ev later ih =>
    obtain ⟨hadmits, hnext⟩ := kynxStep_ready h hget hcount hst
    refine ⟨hadmits, ih ?_ hnext⟩
    rw [charges_cons] at hcount
    push_cast at hcount
    split_ifs at hcount <;> omega

theorem BurstKept.honours (h : BurstKept c.lim) (hget : limits[c.routeIdx]? = some c.lim) :
    HonoursBurst cfg limits c where
  capped evs b hb := by
    obtain ⟨⟨k, hmem⟩, hidx, -⟩ := hb
    have hle := (kynxRun_within h hget evs k b hmem hidx).2
    exact ⟨hle, fun now => (h.refill hle now).2⟩
  full evs b now hb hidle := by
    obtain ⟨⟨k, hmem⟩, hidx, -⟩ := hb
    exact h.full (kynxRun_within h hget evs k b hmem hidx).1 hidle
  admits evs later hidle hcount :=
    kynxRun_ready h hget later hcount fun k b hmem =>
      ⟨kynxRun_within h hget evs k b hmem,
        fun hidx hip => .inr (hidle b ⟨⟨k, hmem⟩, hidx, hip⟩)⟩

/-! ## Bursts that are not kept -/

/-- The bucket of an address that asked `n` times at the reading 1. -/
def askedBucket (c : KynxCharge) (n : Nat) : KynxRouteBucket :=
  ⟨c.ip, c.routeIdx, 1, routeBurst c.lim * 1000 - n * 1000⟩

/-- At the reading of its stamp a bucket is only spent. -/
theorem kynxRouteServe_asked {n : Nat} (hn : n < routeBurst c.lim) :
    (kynxRouteServe c.lim (askedBucket c n) 1).2 = askedBucket c (n + 1) := by
  have hsame : kynxRouteRefillAt c.lim (askedBucket c n) 1 = askedBucket c n := by
    rw [kynxRouteRefillAt, kynxRouteRefill, if_pos (by rfl)]
    rfl
  have htoken : (askedBucket c n).tokensMilli ≥ 1000 := by
    rw [askedBucket]
    dsimp only
    omega
  rw [kynxRouteServe, hsame, if_pos htoken, askedBucket, askedBucket]
  simp only [KynxRouteBucket.mk.injEq, true_and]
  push_cast
  ring

variable {ipStr method path : Text}

theorem kynxRun_asked (hcharge : kynxChargeOf cfg limits ipStr method path = some c) (n : Nat)
    (hn : n < routeBurst c.lim) :
    ∃ i, kynxRouteFind c.ip c.routeIdx 1 ((kynxRun cfg limits kynxInit
        (List.replicate (n + 1) (.checkRoute ipStr method path 1 1))).2.routeShards
          (kynxRouteShard c.ip c.routeIdx)) = .found i (askedBucket c (n + 1)) := by
  have hev : KynxEvent.charge cfg limits (.checkRoute ipStr method path 1 1) = some c := hcharge
  induction n with
  | zero =>
    refine ⟨0, ?_⟩
    have habsent : kynxRouteFind c.ip c.routeIdx 1
        (List.replicate KYNX_ROUTE_SLOTS_PER_SHARD none) = .absent ⟨some 0, 0, 1⟩ := rfl
    rw [List.replicate_one, kynxRun, kynxRun, kynxStep_routeShards, hev]
    dsimp only [KynxEvent.gate]
    rw [charge_self, kynxRouteCharge_eq, kynxInit, habsent, kynxRouteNew_eq]
    dsimp only
    rw [KynxSearch.target, Option.getD_some, KYNX_ROUTE_SLOTS_PER_SHARD, List.replicate_succ,
      List.set_cons_zero, kynxRouteFind, kynxRouteFindFrom, if_pos ⟨rfl, rfl⟩, askedBucket]
    norm_num
  | succ n ih =>
    obtain ⟨i, hfind⟩ := ih (by omega)
    refine ⟨i, ?_⟩
    rw [List.replicate_succ', kynxRun_append, kynxRun, kynxRun, kynxStep_routeShards, hev]
    dsimp only [KynxEvent.gate]
    rw [charge_self, kynxRouteCharge_eq, hfind]
    dsimp only
    rw [kynxRouteServe_asked (by omega)]
    exact kynxRouteFind_again hfind rfl rfl 1

theorem asked_reached (hcharge : kynxChargeOf cfg limits ipStr method path = some c) {n : Nat}
    (hpos : 1 ≤ n) (hn : n ≤ routeBurst c.lim) :
    ∃ evs, BucketOf c (kynxRun cfg limits kynxInit evs).2.routeShards (askedBucket c n) := by
  obtain ⟨m, rfl⟩ : ∃ m, n = m + 1 := ⟨n - 1, by omega⟩
  obtain ⟨i, hfind⟩ := kynxRun_asked hcharge m (by omega)
  exact ⟨_, ⟨_, (kynxRouteFind_found hfind).1⟩, rfl, rfl⟩

/-- The nanoseconds after which a token and a milli-token are credited. -/
def tokenNs (rate window : Nat) : Nat := 1001 * 1000 * window / rate + 1

theorem tokenNs_spec {rate window : Nat} (hr : 1 ≤ rate) (hr' : rate < 2 ^ 31) (hw : 1 ≤ window)
    (hw' : window < 2 ^ 31) :
    1001 ≤ credited rate window (tokenNs rate window) ∧
      tokenNs rate window ≤ window * 10000000 := by
  have hshort : 1001 * 1000 * window / rate ≤ 1001 * 1000 * window := Nat.div_le_self _ _
  have hle : tokenNs rate window ≤ window * 10000000 := by
    rw [tokenNs]
    omega
  have hmul := Nat.div_mul_le_self (1001 * 1000 * window) rate
  have hmore : 1001 * 1000 * window < tokenNs rate window * rate := by
    rw [tokenNs, Nat.mul_comm _ rate]
    exact Nat.lt_mul_div_succ _ (by omega)
  have hfits : tokenNs rate window * rate * 1000 < 2 ^ 64 := by
    have hsplit : tokenNs rate window * rate = 1001 * 1000 * window / rate * rate + rate := by
      rw [tokenNs, Nat.succ_mul]
    omega
  refine ⟨?_, hle⟩
  rw [credited, Nat.min_eq_left hle, Nat.mod_eq_of_lt hfits, Nat.le_div_iff_mul_le (by omega)]
  omega

/-- A burst below the rate is passed after a first check. -/
theorem HonoursBurst.rate_le (h : HonoursBurst cfg limits c)
    (hcharge : kynxChargeOf cfg limits ipStr method path = some c) :
    atLeastOne c.lim.rate ≤ routeBurst c.lim := by
  have hone := one_le_routeBurst c.lim
  obtain ⟨hr, hr'⟩ := countOf_bounds c.lim.rate
  obtain ⟨hw, hw'⟩ := countOf_bounds c.lim.windowMs
  obtain ⟨evs, hreached⟩ := asked_reached hcharge (Nat.le_refl 1) hone
  obtain ⟨hgain, hten⟩ := tokenNs_spec hr hr' hw hw'
  have hclock : (1 : UInt64).toNat + tokenNs (countOf c.lim.rate) (countOf c.lim.windowMs) <
      2 ^ 64 := by
    rw [show (1 : UInt64).toNat = 1 from rfl]
    omega
  have hcap := (h.capped evs _ hreached).2
    (1 + UInt64.ofNat (tokenNs (countOf c.lim.rate) (countOf c.lim.windowMs)))
  have hspec := (kynxRouteRefillAfter_spec c.lim (b := askedBucket c 1)
    (show (1 : UInt64) ≠ 0 by decide) hclock).2
  have hne : tokenNs (countOf c.lim.rate) (countOf c.lim.windowMs) ≠ 0 := Nat.succ_ne_zero _
  rw [kynxRouteRefillAfter, ← kynxRouteRefillAt, refilled, if_neg hne] at hspec
  change (kynxRouteRefillAt c.lim (askedBucket c 1) (1 + _)).tokensMilli = min _
    (routeBurst c.lim * 1000 - (1 : Nat) * 1000 + _) at hspec
  rw [hspec] at hcap
  rw [← countOf_eq]
  omega

/-- The bucket that was emptied and is full again has its burst from ten windows. -/
theorem HonoursBurst.kept (h : HonoursBurst cfg limits c)
    (hcharge : kynxChargeOf cfg limits ipStr method path = some c) : BurstKept c.lim := by
  have hone := one_le_routeBurst c.lim
  have hrate := h.rate_le hcharge
  obtain ⟨n, hn⟩ := Int.eq_ofNat_of_zero_le (show 0 ≤ routeBurst c.lim by omega)
  obtain ⟨-, hw'⟩ := countOf_bounds c.lim.windowMs
  obtain ⟨evs, hreached⟩ := asked_reached hcharge (n := n) (by omega) (Int.le_of_eq hn.symm)
  have hidle : Idle c.lim (askedBucket c n)
      (UInt64.ofNat (1 + countOf c.lim.windowMs * 10000000)) := by
    refine ⟨show (1 : UInt64) ≠ 0 by decide, ?_⟩
    rw [UInt64.toNat_ofNat_of_lt' (by change _ < 2 ^ 64; omega)]
    exact Nat.le_refl _
  have hfull := h.full evs _ _ hreached hidle
  rw [hidle.refill] at hfull
  change min _ (routeBurst c.lim * 1000 - n * 1000 + _) = _ at hfull
  rw [← countOf_eq] at hrate
  rw [BurstKept, ← tenWindows_iff, ← countOf_eq]
  omega

/-- **The burst of a route is honoured** exactly when it is the rate and ten windows fill the bucket:
for every configuration that is enabled, and every declared limit that some request meets. -/
theorem honoursBurst_iff (cfg : OrbitKynxConfig) (limits : List OrbitKynxRouteLimit)
    (ipStr method path : Text) (c : KynxCharge)
    (hcharge : kynxChargeOf cfg limits ipStr method path = some c) :
    HonoursBurst cfg limits c ↔ BurstKept c.lim :=
  ⟨fun h => h.kept hcharge, fun h => h.honours
    (@charge_get cfg limits (.checkRoute ipStr method path 1 1) c hcharge)⟩

end

/-- `limit 5/sec` without a burst, and a request that meets it. -/
def fiveLimit : OrbitKynxRouteLimit := ⟨"GET".toList, "/heavy".toList, 5, 1000, 5⟩

/-- The five tokens of a route without a burst of its own are there after ten seconds. -/
theorem honoursBurst_five :
    HonoursBurst ⟨5, 1000, 5, 200, 10, 1, 0, true⟩ [fiveLimit] ⟨fiveLimit, 0, .v4 167772162⟩ :=
  (honoursBurst_iff ⟨5, 1000, 5, 200, 10, 1, 0, true⟩ [fiveLimit] "10.0.0.2".toList "GET".toList
    "/heavy".toList ⟨fiveLimit, 0, .v4 167772162⟩ (by decide)).mpr
    ⟨by decide, by decide⟩

/-- `limit 100/min burst 20`. -/
def heavyLimit : OrbitKynxRouteLimit := ⟨"GET".toList, "/heavy".toList, 100, 60000, 20⟩

/-- A bucket of this route holds 20 tokens when it is new, and 100 after ten minutes. -/
theorem honoursBurst_heavy : ¬ ∀ (cfg : OrbitKynxConfig) (limits : List OrbitKynxRouteLimit)
    (ipStr method path : Text) (c : KynxCharge),
    kynxChargeOf cfg limits ipStr method path = some c → HonoursBurst cfg limits c := by
  intro h
  have hcharge : kynxChargeOf ⟨5, 1000, 5, 200, 10, 1, 0, true⟩ [heavyLimit] "10.0.0.2".toList
      "GET".toList "/heavy".toList = some ⟨heavyLimit, 0, .v4 167772162⟩ := by decide
  have hrate := (h _ _ _ _ _ _ hcharge).rate_le hcharge
  revert hrate
  decide

end Runtime.Kynx
