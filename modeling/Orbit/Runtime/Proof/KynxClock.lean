import Orbit.Runtime.Proof.Kynx

/-!
# Checks that take the lock out of order

A check reads the clock before it takes the lock. Its subtractions are sound (`KynxSound`) if and
only if no check with a later reading has refilled the bucket before it (`turns_sound_iff`). A check
that comes late at a banned entry wraps the difference to the stamp of the ban, and lifts it
(`ban_lifted_late`).
-/

namespace Runtime.Kynx

section
variable (cfg : OrbitKynxConfig)

/-- What the differences of a check with the reading `now` are to give. -/
structure KynxSound (e : OrbitKynxEntry) (now : UInt64) : Prop where
  /-- No difference wraps. -/
  differences : ∀ stamp ∈ kynxSubtracts cfg e now, stamp ≤ now
  /-- No ban is lifted early. -/
  ban : e.isBanned = true → (kynxCheckEntry cfg e now).2.isBanned = false →
    e.bannedAtNs.toNat + (kynxBanDurationNs cfg).toNat < now.toNat
  /-- The time that the bucket has been refilled for is not counted again. -/
  refill : e.lastRefillNs ≤ (kynxCheckEntry cfg e now).2.lastRefillNs

/-- Every check of the run that takes the lock and meets an entry satisfies `p`. -/
def EveryCheck (p : OrbitKynxEntry → UInt64 → Prop) : KynxWorld → List KynxTurn → Prop
  | _, [] => True
  | w, t :: ts =>
    (∀ k c e, t = .enter k → w.waiting[k]? = some c → w.shards.entry c.ip = some e → p e c.now) ∧
      ∀ w', kynxTurn cfg w t = some w' → EveryCheck p w' ts

/-! ## The stamps of an entry -/

/-- The last refill is the latest stamp, and that of a ban. -/
structure Ordered (e : OrbitKynxEntry) : Prop where
  violation : e.lastViolationNs ≤ e.lastRefillNs
  decay : e.lastScoreDecayNs ≤ e.lastRefillNs
  banned : e.isBanned = true → e.bannedAtNs = e.lastRefillNs

variable {cfg}

theorem kynxRefill_stamps (cfg : OrbitKynxConfig) (e : OrbitKynxEntry) (now : UInt64) :
    (kynxRefill cfg e now).lastRefillNs = now ∧
      (kynxRefill cfg e now).lastViolationNs = e.lastViolationNs ∧
      (kynxRefill cfg e now).lastScoreDecayNs = e.lastScoreDecayNs ∧
      (kynxRefill cfg e now).isBanned = e.isBanned := by
  unfold kynxRefill
  dsimp only
  split <;> exact ⟨rfl, rfl, rfl, rfl⟩

/-- The stamps after a check that is served. -/
theorem kynxServe_stamps (cfg : OrbitKynxConfig) {e : OrbitKynxEntry} (now : UInt64)
    (hban : e.isBanned = false) :
    (kynxServe cfg e now).2.lastRefillNs = now ∧
      ((kynxServe cfg e now).2.isBanned = true →
        (kynxServe cfg e now).2.bannedAtNs = (kynxServe cfg e now).2.lastRefillNs) ∧
      ((kynxServe cfg e now).2.lastViolationNs = e.lastViolationNs ∨
        (kynxServe cfg e now).2.lastViolationNs = now) ∧
      ((kynxServe cfg e now).2.lastScoreDecayNs = e.lastScoreDecayNs ∨
        (kynxServe cfg e now).2.lastScoreDecayNs = now) := by
  obtain ⟨hlast, hviolation, hdecay, hbanned⟩ := kynxRefill_stamps cfg e now
  rw [hban] at hbanned
  unfold kynxServe
  generalize kynxRefill cfg e now = r at hlast hviolation hdecay hbanned ⊢
  dsimp only
  split
  · unfold kynxSpend
    dsimp only
    split
    · exact ⟨hlast, fun h => absurd (hbanned.symm.trans h) Bool.false_ne_true, .inl hviolation,
        .inr rfl⟩
    · exact ⟨hlast, fun h => absurd (hbanned.symm.trans h) Bool.false_ne_true, .inl hviolation,
        .inl hdecay⟩
  · unfold kynxScore
    dsimp only
    split
    · split
      · exact ⟨hlast, fun _ => hlast.symm, .inr rfl, .inl hdecay⟩
      · exact ⟨hlast, fun h => absurd (hbanned.symm.trans h) Bool.false_ne_true, .inr rfl,
          .inl hdecay⟩
    · exact ⟨hlast, fun h => absurd (hbanned.symm.trans h) Bool.false_ne_true, .inl hviolation,
        .inl hdecay⟩

/-- A check that is served in order leaves the stamps in order. -/
theorem ordered_serve {e : OrbitKynxEntry} {now : UInt64} (hban : e.isBanned = false)
    (hviolation : e.lastViolationNs ≤ now) (hdecay : e.lastScoreDecayNs ≤ now) :
    Ordered (kynxServe cfg e now).2 := by
  obtain ⟨hlast, hmarked, hv, hd⟩ := kynxServe_stamps cfg now hban
  refine ⟨?_, ?_, hmarked⟩
  · rcases hv with h | h
    · rw [h, hlast]
      exact hviolation
    · rw [h, hlast]
      exact UInt64.le_refl _
  · rcases hd with h | h
    · rw [h, hlast]
      exact hdecay
    · rw [h, hlast]
      exact UInt64.le_refl _

/-- A check in order leaves the stamps in order. -/
theorem Ordered.check {e : OrbitKynxEntry} {now : UInt64} (h : Ordered e)
    (hnow : e.lastRefillNs ≤ now) : Ordered (kynxCheckEntry cfg e now).2 := by
  have hviolation := UInt64.le_trans h.violation hnow
  have hdecay := UInt64.le_trans h.decay hnow
  unfold kynxCheckEntry
  split
  · dsimp only
    split
    · exact ordered_serve rfl hviolation hdecay
    · exact h
  · next hban => exact ordered_serve (Bool.eq_false_iff.mpr hban) hviolation hdecay

theorem ordered_new (ip : OrbitKynxIP) (now : UInt64) : Ordered (kynxNewEntry cfg ip now) :=
  ⟨UInt64.zero_le, UInt64.le_refl _, nofun⟩

/-! ## One check -/

theorem kynxServe_subtracts {e : OrbitKynxEntry} {now : UInt64} (hnow : e.lastRefillNs ≤ now)
    (hviolation : e.lastViolationNs ≤ now) (hdecay : e.lastScoreDecayNs ≤ now) :
    ∀ stamp ∈ kynxServeSubtracts cfg e now, stamp ≤ now := by
  obtain ⟨-, hv, hd, -⟩ := kynxRefill_stamps cfg e now
  intro stamp hmem
  unfold kynxServeSubtracts at hmem
  dsimp only at hmem
  rw [List.mem_append, hv, hd] at hmem
  rcases hmem with hmem | hmem
  · split at hmem
    · cases hmem
    · rw [List.mem_singleton] at hmem
      rw [hmem]
      exact hnow
  · split at hmem
    · split at hmem
      · rw [List.mem_singleton] at hmem
        rw [hmem]
        exact hdecay
      · cases hmem
    · rw [List.mem_singleton] at hmem
      rw [hmem]
      exact hviolation

/-- **A check is sound if and only if it is in order**, at an entry whose stamps are. -/
theorem kynxSound_iff {e : OrbitKynxEntry} {now : UInt64} (h : Ordered e) :
    KynxSound cfg e now ↔ e.lastRefillNs ≤ now := by
  constructor
  · intro hsound
    by_cases hban : e.isBanned = true
    · rw [← h.banned hban]
      apply hsound.differences
      unfold kynxSubtracts
      rw [if_pos hban]
      exact List.mem_cons_self
    · have hlast := (kynxServe_stamps cfg now (Bool.eq_false_iff.mpr hban)).1
      have hrefill := hsound.refill
      unfold kynxCheckEntry at hrefill
      rwa [if_neg hban, hlast] at hrefill
  · intro hnow
    have hviolation := UInt64.le_trans h.violation hnow
    have hdecay := UInt64.le_trans h.decay hnow
    refine ⟨fun stamp hmem => ?_, fun hban hlifted => ?_, ?_⟩
    · unfold kynxSubtracts at hmem
      split at hmem
      · next hban =>
        rcases List.mem_cons.mp hmem with rfl | hmem
        · rw [h.banned hban]
          exact hnow
        · split at hmem
          · apply kynxServe_subtracts (e := { e with
              isBanned := false, suspicionScore := e.suspicionScore.tdiv 2 })
              hnow hviolation hdecay stamp hmem
          · cases hmem
      · exact kynxServe_subtracts hnow hviolation hdecay stamp hmem
    · by_contra htime
      have hpast : e.bannedAtNs.toNat ≤ now.toNat := by
        rw [h.banned hban]
        exact hnow
      have hsame := (kynxCheckEntry_banned cfg hban hpast (Nat.le_of_not_lt htime)).2
      rw [hsame, hban] at hlifted
      cases hlifted
    · unfold kynxCheckEntry
      split
      · dsimp only
        split
        · rw [(kynxServe_stamps cfg now rfl).1]
          exact hnow
        · exact UInt64.le_refl _
      · next hban =>
        rw [(kynxServe_stamps cfg now (Bool.eq_false_iff.mpr hban)).1]
        exact hnow

/-! ## Runs -/

/-- Every entry has its stamps in order. -/
def KynxWorld.Ordered (w : KynxWorld) : Prop :=
  w.shards.Sized ∧ ∀ i e, some e ∈ w.shards i → Kynx.Ordered e

theorem ordered_init : KynxWorld.Ordered kynxWorldInit := by
  refine ⟨sized_init, fun i e he => ?_⟩
  rw [kynxWorldInit, kynxInit, List.mem_replicate] at he
  cases he.2

theorem KynxWorld.Ordered.turn {w w' : KynxWorld} {t : KynxTurn} (h : w.Ordered)
    (hturn : kynxTurn cfg w t = some w')
    (horder : ∀ k c e, t = .enter k → w.waiting[k]? = some c → w.shards.entry c.ip = some e →
      e.lastRefillNs ≤ c.now) : w'.Ordered := by
  cases t with
  | sample ip now =>
    unfold kynxTurn at hturn
    dsimp only at hturn
    split at hturn
    · rw [← Option.some.inj hturn]
      exact h
    · cases hturn
  | enter k =>
    simp only [kynxTurn, Option.bind_eq_bind, Option.bind_eq_some_iff] at hturn
    obtain ⟨c, hc, hw⟩ := hturn
    rw [← Option.some.inj hw]
    refine ⟨kynxCheckIp_sized cfg c.ip c.now h.1, fun i e he => ?_⟩
    dsimp only at he
    unfold kynxCheckIp at he
    dsimp only at he
    split at he
    · rcases kynxCheckShard_mem he with he | rfl | ⟨e', he', rfl⟩
      · exact h.2 _ e he
      · exact ordered_new c.ip c.now
      · exact (h.2 _ e' (entry_mem he').1).check (horder k c e' rfl hc he')
    · exact h.2 i e he

/-- **The checks of a run are sound if and only if they are in order**: none takes the lock after a
check of its address with a later reading has refilled the bucket. -/
theorem turns_sound_iff (cfg : OrbitKynxConfig) (ts : List KynxTurn) :
    EveryCheck cfg (KynxSound cfg) kynxWorldInit ts ↔
      EveryCheck cfg (fun e now => e.lastRefillNs ≤ now) kynxWorldInit ts := by
  suffices h : ∀ w : KynxWorld, w.Ordered →
      (EveryCheck cfg (KynxSound cfg) w ts ↔
        EveryCheck cfg (fun e now => e.lastRefillNs ≤ now) w ts) from h _ ordered_init
  induction ts with
  | nil => exact fun w _ => Iff.rfl
  | cons t ts ih =>
    intro w hw
    unfold EveryCheck
    have hcheck : (∀ k c e, t = .enter k → w.waiting[k]? = some c →
        w.shards.entry c.ip = some e → KynxSound cfg e c.now) ↔
        ∀ k c e, t = .enter k → w.waiting[k]? = some c → w.shards.entry c.ip = some e →
          e.lastRefillNs ≤ c.now := by
      refine forall_congr' fun k => forall_congr' fun c => forall_congr' fun e => ?_
      refine imp_congr_right fun _ => imp_congr_right fun _ => imp_congr_right fun he => ?_
      exact kynxSound_iff (hw.2 _ e (entry_mem he).1)
    rw [hcheck]
    refine and_congr_right fun horder => ?_
    exact forall_congr' fun w' => imp_congr_right fun hturn => ih w' (hw.turn hturn horder)

end

/-! ## A ban that is lifted -/

/-- One token, and a ban for the fourth violation. -/
def lateConfig : OrbitKynxConfig where
  rateLimit := 1
  windowMs := 1000
  burst := 1
  banThreshold := 4
  scoreIncrement := 1
  scoreDecay := 0
  banDurationS := 300
  enabled := true

/-- Three windows with a check that is denied, the token of the fourth is spent, and two checks have
read the clock: the later one takes the lock first. -/
def lateRun : List KynxTurn :=
  [2000000000, 2000000001, 3000000000, 3000000001, 4000000000, 4000000001, 5000000000].flatMap
    (fun now => [.sample (.v4 1) now, .enter 0]) ++
    [.sample (.v4 1) 5000000001, .sample (.v4 1) 5000000002, .enter 1]

/-- The check that is left wraps the difference to the stamp of the ban by one nanosecond, and lifts
a ban of five minutes. -/
theorem ban_lifted_late :
    ∃ w e, kynxTurns lateConfig kynxWorldInit lateRun = some w ∧
      w.waiting[0]? = some ⟨.v4 1, 5000000001⟩ ∧ w.shards.entry (.v4 1) = some e ∧
      e.isBanned = true ∧ e.bannedAtNs = 5000000002 ∧
      e.bannedAtNs ∈ kynxSubtracts lateConfig e 5000000001 ∧
      (kynxCheckEntry lateConfig e 5000000001).2.isBanned = false := by
  refine ⟨_, _, rfl, rfl, rfl, ?_, ?_, ?_, ?_⟩
  · decide
  · decide
  · decide
  · decide

end Runtime.Kynx
