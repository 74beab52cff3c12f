import Orbit.Runtime.Proof.Kynx

/-!
# Bans

A banned entry denies every check up to the end of its ban and is not changed by them
(`kynxCheckEntry_banned`). So a ban is honoured along a run with a monotone clock in which no
insertion throws out an address whose ban is not over (`ban_honoured`). The source does throw such
addresses out: a denied check leaves the stamp of the last refill, by which the oldest entry is
chosen (`ban_recycled`).
-/

namespace Runtime.Kynx

open Http (Text)

section
variable (cfg : OrbitKynxConfig) (limits : List OrbitKynxRouteLimit)

/-- The step does not throw out an address whose ban is not over. -/
def KeepsBans (st : KynxState) (ev : KynxEvent) : Prop :=
  ∀ x e, kynxEvicts cfg limits st ev = some x → st.shards.entry x.ip = some e → e.isBanned = true →
    e.bannedAtNs.toNat + (kynxBanDurationNs cfg).toNat < ev.now.toNat

variable {cfg limits}

theorem keepsBans_of_no_eviction {st : KynxState} {ev : KynxEvent}
    (h : kynxEvicts cfg limits st ev = none) : KeepsBans cfg limits st ev := by
  intro x e hx
  rw [h] at hx
  cases hx

/-- Every entry is stamped with past readings. -/
structure Clocked (clock : Nat) (st : KynxState) : Prop where
  sized : st.shards.Sized
  stamped : ∀ i e, some e ∈ st.shards i → Stamped clock e

theorem clocked_init : Clocked 0 kynxInit := by
  refine ⟨sized_init, fun i e he => ?_⟩
  rw [kynxInit, List.mem_replicate] at he
  cases he.2

/-- A check stamps with its own reading. -/
theorem Clocked.step (henabled : cfg.enabled = true) {clock : Nat} {st : KynxState} {ev : KynxEvent}
    (h : Clocked clock st) (hclock : clock ≤ ev.now.toNat) :
    Clocked ev.now.toNat (kynxStep cfg limits st ev).2 := by
  cases htouch : kynxTouches cfg limits st ev with
  | none =>
    obtain ⟨hshards, -⟩ := kynxStep_untouched cfg limits henabled st ev htouch
    refine ⟨hshards ▸ h.sized, fun i e he => ?_⟩
    rw [hshards] at he
    exact (h.stamped i e he).mono hclock
  | some ip =>
    obtain ⟨-, -, hshards⟩ := kynxStep_touched cfg limits htouch
    refine ⟨hshards ▸ kynxCheckIp_sized cfg ip ev.now h.sized, fun i e he => ?_⟩
    rw [hshards] at he
    unfold kynxCheckIp at he
    dsimp only at he
    split at he
    · rcases kynxCheckShard_mem he with he | rfl | ⟨e', he', rfl⟩
      · exact (h.stamped _ e he).mono hclock
      · exact stamped_new cfg ip ev.now
      · exact ((h.stamped _ e' (entry_mem he').1).mono hclock).check
    · exact (h.stamped i e he).mono hclock

theorem Clocked.run (limits : List OrbitKynxRouteLimit) (henabled : cfg.enabled = true)
    {clock : Nat} {st : KynxState}
    {evs : List KynxEvent} (h : Clocked clock st) (hclock : ∀ ev ∈ evs, clock ≤ ev.now.toNat)
    (hmono : evs.Pairwise fun a b => a.now ≤ b.now) {last : Nat} (hle : clock ≤ last)
    (hlast : ∀ ev ∈ evs, ev.now.toNat ≤ last) : Clocked last (kynxRun cfg limits st evs).2 := by
  induction evs generalizing clock st with
  | nil => exact ⟨h.sized, fun i e he => (h.stamped i e he).mono hle⟩
  | cons ev evs ih =>
    rw [List.pairwise_cons] at hmono
    exact ih (h.step henabled (hclock ev List.mem_cons_self)) (fun b hb => hmono.1 b hb) hmono.2
      (hlast ev List.mem_cons_self) fun b hb => hlast b (List.mem_cons_of_mem ev hb)

/-- What a step does to the entry of an address: nothing, or its check. -/
theorem kynxStep_entry (henabled : cfg.enabled = true) {st : KynxState} {ev : KynxEvent}
    (hsized : st.shards.Sized) (ip : OrbitKynxIP)
    (hev : ∀ x, kynxEvicts cfg limits st ev = some x → x.ip ≠ ip) :
    (kynxStep cfg limits st ev).2.shards.Sized ∧
      ((kynxStep cfg limits st ev).2.shards.entry ip = st.shards.entry ip ∧
          (kynxParseIp ev.ipStr = some ip → (kynxStep cfg limits st ev).1.allowed = false) ∨
        match st.shards.entry ip with
        | some e => (kynxStep cfg limits st ev).1 = (kynxCheckEntry cfg e ev.now).1 ∧
            (kynxStep cfg limits st ev).2.shards.entry ip = some (kynxCheckEntry cfg e ev.now).2
        | none => (kynxStep cfg limits st ev).2.shards.entry ip =
            some (kynxNewEntry cfg ip ev.now)) := by
  cases htouch : kynxTouches cfg limits st ev with
  | none =>
    obtain ⟨hshards, hdeny⟩ := kynxStep_untouched cfg limits henabled st ev htouch
    rw [hshards]
    exact ⟨hsized, .inl ⟨rfl, fun hparse => hdeny (by rw [hparse]; rfl)⟩⟩
  | some ip' =>
    obtain ⟨hparse, hverdict, hshards⟩ := kynxStep_touched cfg limits htouch
    rw [hverdict, hshards]
    refine ⟨kynxCheckIp_sized cfg ip' ev.now hsized, ?_⟩
    by_cases hip : ip' = ip
    · subst hip
      have hself := kynxCheckIp_self cfg ip' ev.now hsized
      right
      cases he : st.shards.entry ip' with
      | none =>
        rw [he] at hself
        exact hself.2
      | some e =>
        rw [he] at hself
        exact hself
    · left
      refine ⟨kynxCheckIp_other cfg ev.now st.shards (Ne.symm hip) fun x hx => hev x ?_, ?_⟩
      · rw [kynxEvicts, htouch, Option.bind_some, hx]
      · rw [hparse]
        exact fun hsome => absurd (Option.some.inj hsome) hip

variable (cfg) in
/-- The ban of an address at `start` is over, or its entry still has it. -/
structure Banned (ip : OrbitKynxIP) (start : UInt64) (clock : Nat) (st : KynxState) : Prop where
  sized : st.shards.Sized
  past : start.toNat ≤ clock
  held : clock ≤ start.toNat + (kynxBanDurationNs cfg).toNat →
    ∃ e, st.shards.entry ip = some e ∧ e.isBanned = true ∧ e.bannedAtNs = start

/-- A step that keeps the bans keeps this one, and denies its address. -/
theorem Banned.step (henabled : cfg.enabled = true) {ip : OrbitKynxIP} {start : UInt64}
    {clock : Nat} {st : KynxState} {ev : KynxEvent} (h : Banned cfg ip start clock st)
    (hclock : clock ≤ ev.now.toNat) (hkeep : KeepsBans cfg limits st ev) :
    Banned cfg ip start ev.now.toNat (kynxStep cfg limits st ev).2 := by
  have hpast := h.past.trans hclock
  have hsized : (kynxStep cfg limits st ev).2.shards.Sized := by
    cases htouch : kynxTouches cfg limits st ev with
    | none => exact (kynxStep_untouched cfg limits henabled st ev htouch).1 ▸ h.sized
    | some ip' =>
      rw [(kynxStep_touched cfg limits htouch).2.2]
      exact kynxCheckIp_sized cfg ip' ev.now h.sized
  refine ⟨hsized, hpast, fun htime => ?_⟩
  obtain ⟨e, he, hbanned, hstart⟩ := h.held (hclock.trans htime)
  have hev : ∀ x, kynxEvicts cfg limits st ev = some x → x.ip ≠ ip := by
    intro x hx hip
    have hover := hkeep x e hx (by rw [hip, he]) hbanned
    rw [hstart] at hover
    omega
  obtain ⟨-, ⟨hsame, -⟩ | hcheck⟩ := kynxStep_entry henabled h.sized ip hev
  · exact ⟨e, hsame.trans he, hbanned, hstart⟩
  · rw [he] at hcheck
    obtain ⟨-, hsame⟩ := kynxCheckEntry_banned cfg hbanned (hstart ▸ hpast)
      (hstart ▸ htime)
    exact ⟨e, by rw [hcheck.2, hsame], hbanned, hstart⟩

theorem Banned.run (clock : Nat) (henabled : cfg.enabled = true) {ip : OrbitKynxIP}
    {start : UInt64} {st : KynxState} {evs : List KynxEvent} (h : Banned cfg ip start clock st)
    (hclock : ∀ ev ∈ evs, clock ≤ ev.now.toNat) (hmono : evs.Pairwise fun a b => a.now ≤ b.now)
    (hkeep : KynxAll cfg limits (KeepsBans cfg limits) st evs) {last : Nat} (hle : clock ≤ last)
    (hlast : ∀ ev ∈ evs, ev.now.toNat ≤ last) :
    Banned cfg ip start last (kynxRun cfg limits st evs).2 := by
  induction evs generalizing clock st with
  | nil => exact ⟨h.sized, h.past.trans hle, fun htime => h.held (hle.trans htime)⟩
  | cons ev evs ih =>
    rw [List.pairwise_cons] at hmono
    exact ih _ (h.step henabled (hclock ev List.mem_cons_self) hkeep.1) (fun b hb => hmono.1 b hb)
      hmono.2 hkeep.2 (hlast ev List.mem_cons_self) fun b hb => hlast b (List.mem_cons_of_mem ev hb)

/-- **A ban is honoured** along a run with a monotone clock that throws out no address whose ban is
not over: every check of the address in the time of the ban is denied. -/
theorem ban_honoured (cfg : OrbitKynxConfig) (limits : List OrbitKynxRouteLimit)
    (pre post : List KynxEvent) (ev : KynxEvent) (ip : OrbitKynxIP) (e : OrbitKynxEntry)
    (henabled : cfg.enabled = true)
    (hmono : (pre ++ (post ++ [ev])).Pairwise fun a b => a.now ≤ b.now)
    (hkeep : KynxAll cfg limits (KeepsBans cfg limits) kynxInit (pre ++ (post ++ [ev])))
    (hentry : (kynxRun cfg limits kynxInit pre).2.shards.entry ip = some e)
    (hbanned : e.isBanned = true) (hip : kynxParseIp ev.ipStr = some ip)
    (htime : ev.now.toNat < e.bannedAtNs.toNat + (kynxBanDurationNs cfg).toNat) :
    (kynxStep cfg limits (kynxRun cfg limits kynxInit (pre ++ post)).2 ev).1.allowed = false := by
  rw [List.pairwise_append, List.pairwise_append] at hmono
  obtain ⟨hpre, ⟨hpost, -, hlast⟩, hcross⟩ := hmono
  rw [kynxAll_append, kynxAll_append] at hkeep
  have hclocked : ∀ clock, (∀ b ∈ pre, b.now.toNat ≤ clock) → e.bannedAtNs.toNat ≤ clock :=
    fun clock hle => ((clocked_init.run limits henabled (fun _ _ => Nat.zero_le _) hpre
      (Nat.zero_le clock) hle).stamped _ e (entry_mem hentry).1).banned
  have hafter : ∀ b ∈ post ++ [ev], e.bannedAtNs.toNat ≤ b.now.toNat :=
    fun b hb => hclocked _ fun a ha => hcross a ha b hb
  have hban : Banned cfg ip e.bannedAtNs ev.now.toNat
      (kynxRun cfg limits kynxInit (pre ++ post)).2 := by
    rw [kynxRun_append]
    refine Banned.run e.bannedAtNs.toNat henabled ⟨?_, Nat.le_refl _, ?_⟩
      (fun b hb => hafter b (List.mem_append_left _ hb)) hpost hkeep.2.1
      (hafter ev (List.mem_append_right _ List.mem_cons_self))
      fun b hb => hlast b hb ev List.mem_cons_self
    · exact (clocked_init.run limits henabled (fun _ _ => Nat.zero_le _) hpre
        (Nat.zero_le ev.now.toNat) fun a ha =>
          hcross a ha ev (List.mem_append_right _ List.mem_cons_self)).sized
    · exact fun _ => ⟨e, hentry, hbanned, rfl⟩
  obtain ⟨e', he', hbanned', hstart⟩ := hban.held (Nat.le_of_lt htime)
  have hev : ∀ x, kynxEvicts cfg limits (kynxRun cfg limits kynxInit (pre ++ post)).2 ev = some x →
      x.ip ≠ ip := by
    intro x hx hxip
    rw [kynxRun_append] at hx he'
    have hover := hkeep.2.2.1 x e' hx (by rw [hxip, he']) hbanned'
    rw [hstart] at hover
    omega
  obtain ⟨-, ⟨-, hdeny⟩ | hcheck⟩ := kynxStep_entry henabled hban.sized ip hev
  · exact hdeny hip
  · rw [he'] at hcheck
    rw [hcheck.1]
    exact (kynxCheckEntry_banned cfg hbanned' (hstart ▸ hban.past) (by rw [hstart]; omega)).1


end

/-! ## A ban that is thrown out -/

/-- One token, and a ban for the first violation. -/
def strictConfig : OrbitKynxConfig where
  rateLimit := 1
  windowMs := 1000
  burst := 1
  banThreshold := 10
  scoreIncrement := 10
  scoreDecay := 1
  banDurationS := 300
  enabled := true

/-- An address whose third byte is given. -/
def neighbour (k : Nat) : Text := "10.0.".toList ++ Nat.toDigits 10 k ++ ".0".toList

/-- The address `10.0.0.0` is banned. -/
def banRun : List KynxEvent := [.check (neighbour 0) 2000000000, .check (neighbour 0) 2000000001]

/-- The banned address asks again after another one. -/
theorem ban_honoured_again :
    (kynxStep strictConfig [] (kynxRun strictConfig [] kynxInit
      (banRun ++ [.check (neighbour 4) 2000000002])).2
      (.check (neighbour 0) 2000000003)).1.allowed = false := by
  refine ban_honoured strictConfig [] banRun [.check (neighbour 4) 2000000002] _ (.v4 167772160) _
    rfl ?_ ⟨?_, ?_, ?_, ?_, trivial⟩ rfl ?_ ?_ ?_
  · decide
  · exact keepsBans_of_no_eviction (by decide)
  · exact keepsBans_of_no_eviction (by decide)
  · exact keepsBans_of_no_eviction (by decide)
  · exact keepsBans_of_no_eviction (by decide)
  · decide
  · decide
  · decide

/-- One check each of 64 addresses of the same shard. -/
def crowdRun : List KynxEvent :=
  ((List.range 63).map fun k => .check (neighbour (4 * (k + 1))) 2000000002) ++
    [.check "10.1.0.0".toList 2000000002]

/-- A crowd of addresses throws a ban out, and the address is admitted two nanoseconds later. -/
theorem ban_recycled :
    ∃ e, (kynxRun strictConfig [] kynxInit banRun).2.shards.entry (.v4 167772160) = some e ∧
      e.isBanned = true ∧ kynxParseIp (neighbour 0) = some (.v4 167772160) ∧
      2000000003 < e.bannedAtNs.toNat + (kynxBanDurationNs strictConfig).toNat ∧
      (kynxStep strictConfig [] (kynxRun strictConfig [] kynxInit (banRun ++ crowdRun)).2
        (.check (neighbour 0) 2000000003)).1.allowed = true := by
  refine ⟨_, rfl, ?_, ?_, ?_, ?_⟩
  · decide
  · decide
  · decide
  · decide +kernel

end Runtime.Kynx
