import Orbit.Runtime.Proof.KynxBound

/-!
# The shard tables

What every check keeps (`KynxShardOk`): in a shard no address has two slots, every address hashes to
the shard, the count is the number of occupied slots, and every entry holds between no token and a
full bucket and has a score between zero and what the configuration allows (`KynxTokensOk`,
`KynxScoreOk`). Neither the order of the clock readings nor the verdicts matter.
-/

namespace Runtime.Kynx

open Http (Text)

/-! ## An entry -/

/-- What the callers of `orbit_kynx_init` pass: the score is moved in the right direction, and it
stays in the range of `int32_t`. -/
structure KynxScoresOk (cfg : OrbitKynxConfig) : Prop where
  increment : 0 ≤ cfg.scoreIncrement.toInt
  decay : 0 ≤ cfg.scoreDecay.toInt
  threshold : cfg.banThreshold.toInt + cfg.scoreIncrement.toInt ≤ 2 ^ 31
  twice : 2 * cfg.scoreIncrement.toInt < 2 ^ 31

section
variable (cfg : OrbitKynxConfig)

/-- The highest score of an address that is not banned: one increment may come on top of it. -/
def kynxScoreBound : Int := max (cfg.banThreshold.toInt - 1) cfg.scoreIncrement.toInt

/-- Between no token and a full bucket. -/
structure KynxTokensOk (e : OrbitKynxEntry) : Prop where
  nonneg : 0 ≤ e.tokensMilli
  cap : e.tokensMilli ≤ kynxEffectiveBurst cfg * 1000

structure KynxScoreOk (e : OrbitKynxEntry) : Prop where
  nonneg : 0 ≤ e.suspicionScore
  bound : e.suspicionScore ≤ kynxScoreBound cfg + cfg.scoreIncrement.toInt
  free : e.isBanned = false → e.suspicionScore ≤ kynxScoreBound cfg

variable {cfg}

/-! ### Tokens -/

theorem kynxRefill_tokens {e : OrbitKynxEntry} (h : KynxTokensOk cfg e) (now : UInt64) :
    KynxTokensOk cfg (kynxRefill cfg e now) := by
  have hburst := one_le_effectiveBurst cfg
  unfold kynxRefill
  dsimp only
  split_ifs with hsame hfull
  · exact ⟨h.nonneg, h.cap⟩
  · exact ⟨by dsimp only; omega, Int.le_refl _⟩
  · exact ⟨Int.add_nonneg h.nonneg (Int.natCast_nonneg _), Int.not_lt.mp hfull⟩

theorem kynxServe_tokens {e : OrbitKynxEntry} (h : KynxTokensOk cfg e) (now : UInt64) :
    KynxTokensOk cfg (kynxServe cfg e now).2 := by
  obtain ⟨hnonneg, hcap⟩ := kynxRefill_tokens h now
  obtain ⟨hspend, -⟩ := kynxSpend_bucket cfg (kynxRefill cfg e now) now
  obtain ⟨hscore, -⟩ := kynxScore_bucket cfg (kynxRefill cfg e now) now
  unfold kynxServe
  dsimp only
  split_ifs with htoken
  · exact ⟨by rw [hspend]; omega, by rw [hspend]; omega⟩
  · exact ⟨by rw [hscore]; exact hnonneg, by rw [hscore]; exact hcap⟩

/-- A check keeps the tokens between nothing and a full bucket. -/
theorem kynxCheckEntry_tokens {e : OrbitKynxEntry} (h : KynxTokensOk cfg e) (now : UInt64) :
    KynxTokensOk cfg (kynxCheckEntry cfg e now).2 := by
  unfold kynxCheckEntry
  dsimp only
  split_ifs
  · exact kynxServe_tokens (e := { e with
      isBanned := false, suspicionScore := e.suspicionScore.tdiv 2 }) ⟨h.nonneg, h.cap⟩ now
  · exact h
  · exact kynxServe_tokens h now

theorem kynxNewEntry_tokens (cfg : OrbitKynxConfig) (ip : OrbitKynxIP) (now : UInt64) :
    KynxTokensOk cfg (kynxNewEntry cfg ip now) := by
  have hburst := one_le_effectiveBurst cfg
  constructor
  · dsimp only [kynxNewEntry]
    omega
  · dsimp only [kynxNewEntry]
    omega

/-! ### Scores -/

theorem kynxRefill_score {e : OrbitKynxEntry} (h : KynxScoreOk cfg e) (now : UInt64) :
    KynxScoreOk cfg (kynxRefill cfg e now) ∧ (kynxRefill cfg e now).isBanned = e.isBanned := by
  unfold kynxRefill
  dsimp only
  split_ifs <;> exact ⟨⟨h.nonneg, h.bound, h.free⟩, rfl⟩

theorem kynxSpend_score (hcfg : KynxScoresOk cfg) {e : OrbitKynxEntry} (h : KynxScoreOk cfg e)
    (now : UInt64) (hban : e.isBanned = false) : KynxScoreOk cfg (kynxSpend cfg e now) := by
  have hdecay := hcfg.decay
  have hinc := hcfg.increment
  have hfree := h.free hban
  have hbound := h.bound
  have hnonneg := h.nonneg
  unfold kynxSpend
  dsimp only
  split_ifs with hdue hneg
  · exact ⟨Int.le_refl 0, by dsimp only; omega, fun _ => by dsimp only; omega⟩
  · exact ⟨by dsimp only; omega, by dsimp only; omega, fun _ => by dsimp only; omega⟩
  · exact ⟨hnonneg, hbound, fun _ => hfree⟩

theorem kynxScore_score (hcfg : KynxScoresOk cfg) {e : OrbitKynxEntry} (h : KynxScoreOk cfg e)
    (now : UInt64) (hban : e.isBanned = false) : KynxScoreOk cfg (kynxScore cfg e now) := by
  have hinc := hcfg.increment
  have hfree := h.free hban
  have hnonneg := h.nonneg
  have hmax : cfg.banThreshold.toInt - 1 ≤ kynxScoreBound cfg := le_max_left ..
  unfold kynxScore
  dsimp only
  split_ifs with hdue hthreshold
  · exact ⟨by dsimp only; omega, by dsimp only; omega, fun hb => by cases hb⟩
  · exact ⟨by dsimp only; omega, by dsimp only; omega, fun _ => by dsimp only; omega⟩
  · exact ⟨hnonneg, h.bound, fun _ => hfree⟩

theorem kynxServe_score (hcfg : KynxScoresOk cfg) {e : OrbitKynxEntry} (h : KynxScoreOk cfg e)
    (now : UInt64) (hban : e.isBanned = false) : KynxScoreOk cfg (kynxServe cfg e now).2 := by
  obtain ⟨hrefill, hsame⟩ := kynxRefill_score h now
  rw [hban] at hsame
  unfold kynxServe
  dsimp only
  split_ifs
  · exact kynxSpend_score hcfg hrefill now hsame
  · exact kynxScore_score hcfg hrefill now hsame

/-- A check keeps the score in its range: a ban may come with one increment, and its end halves the
score. -/
theorem kynxCheckEntry_score (hcfg : KynxScoresOk cfg) {e : OrbitKynxEntry} (h : KynxScoreOk cfg e)
    (now : UInt64) : KynxScoreOk cfg (kynxCheckEntry cfg e now).2 := by
  have hhalf : KynxScoreOk cfg
      { e with isBanned := false, suspicionScore := e.suspicionScore.tdiv 2 } := by
    have hnonneg := h.nonneg
    have hbound := h.bound
    have hinc : cfg.scoreIncrement.toInt ≤ kynxScoreBound cfg := le_max_right ..
    have hdiv : e.suspicionScore.tdiv 2 = e.suspicionScore / 2 :=
      Int.tdiv_eq_ediv_of_nonneg hnonneg
    exact ⟨by dsimp only; omega, by dsimp only; omega, fun _ => by dsimp only; omega⟩
  unfold kynxCheckEntry
  dsimp only
  split_ifs with hban hover
  · exact kynxServe_score hcfg hhalf now rfl
  · exact h
  · exact kynxServe_score hcfg h now (by simpa using hban)

theorem kynxNewEntry_score (hcfg : KynxScoresOk cfg) (ip : OrbitKynxIP) (now : UInt64) :
    KynxScoreOk cfg (kynxNewEntry cfg ip now) := by
  have hinc := hcfg.increment
  have hbound : cfg.scoreIncrement.toInt ≤ kynxScoreBound cfg := le_max_right ..
  have hzero : 0 ≤ kynxScoreBound cfg := hinc.trans hbound
  exact ⟨Int.le_refl 0, Int.add_nonneg hzero hinc, fun _ => hzero⟩

/-- A score never overflows. -/
theorem KynxScoreOk.int32 (hcfg : KynxScoresOk cfg) {e : OrbitKynxEntry} (h : KynxScoreOk cfg e) :
    e.suspicionScore < 2 ^ 31 := by
  obtain ⟨hinc, -, hthreshold, htwice⟩ := hcfg
  apply lt_of_le_of_lt h.bound
  rw [kynxScoreBound]
  omega

end

/-! ## A shard -/

/-- The addresses of the occupied slots. -/
def KynxShard.addresses (shard : KynxShard) : List OrbitKynxIP :=
  shard.filterMap (·.map OrbitKynxEntry.ip)

/-- What holds of shard `k` between two checks, when every check keeps `P`. -/
structure KynxShardOk (P : OrbitKynxEntry → Prop) (k : Nat) (shard : KynxShard) (count : UInt32) :
    Prop where
  size : shard.length = KYNX_SLOTS_PER_SHARD
  distinct : shard.addresses.Nodup
  home : ∀ ip ∈ shard.addresses, kynxShardOf ip = k
  count : count.toNat = shard.addresses.length
  entries : ∀ e, some e ∈ shard → P e

section
variable {cfg : OrbitKynxConfig} {P : OrbitKynxEntry → Prop} {k : Nat} {shard : KynxShard}
  {count : UInt32} {ip : OrbitKynxIP}

theorem addresses_append (s t : KynxShard) :
    KynxShard.addresses (s ++ t) = s.addresses ++ KynxShard.addresses t :=
  List.filterMap_append ..

theorem mem_addresses : ip ∈ shard.addresses ↔ ∃ e, some e ∈ shard ∧ e.ip = ip := by
  rw [KynxShard.addresses, List.mem_filterMap]
  constructor
  · rintro ⟨slot, hslot, hip⟩
    obtain ⟨e, rfl, he⟩ := Option.map_eq_some_iff.mp hip
    exact ⟨e, hslot, he⟩
  · rintro ⟨e, he, hip⟩
    exact ⟨some e, he, congrArg some hip⟩

theorem addresses_length_le (shard : KynxShard) : shard.addresses.length ≤ shard.length :=
  List.length_filterMap_le ..

/-- Without a free slot every slot is occupied. -/
theorem kynxFindFrom_occupied (ip : OrbitKynxIP) (i : Nat) (s r : KynxSearch) (slots : KynxShard)
    (h : kynxFindFrom ip i s slots = .absent r) (hfree : r.freeSlot = none) :
    s.freeSlot = none ∧ none ∉ slots := by
  induction slots generalizing i s with
  | nil =>
    rw [kynxFindFrom] at h
    obtain rfl := KynxFind.absent.inj h
    exact ⟨hfree, List.not_mem_nil⟩
  | cons slot slots ih =>
    cases slot with
    | none =>
      rw [kynxFindFrom] at h
      have := (ih _ _ h).1
      simp at this
    | some e =>
      rw [kynxFindFrom] at h
      split_ifs at h with hip hold
      · obtain ⟨hs, hslots⟩ := ih _ _ h
        exact ⟨hs, by simpa using hslots⟩
      · obtain ⟨hs, hslots⟩ := ih _ _ h
        exact ⟨hs, by simpa using hslots⟩

/-- A slot, with the slots before and after it. -/
theorem slot_split {i : Nat} (hi : i < shard.length) (slot : Option OrbitKynxEntry) :
    shard = shard.take i ++ shard[i] :: shard.drop (i + 1) ∧
      shard.set i slot = shard.take i ++ slot :: shard.drop (i + 1) := by
  refine ⟨?_, by rw [List.set_eq_take_append_cons_drop, if_pos hi]⟩
  rw [List.cons_getElem_drop_succ, List.take_append_drop]

theorem addresses_split (s t : KynxShard) (slot : Option OrbitKynxEntry) :
    KynxShard.addresses (s ++ slot :: t) =
      s.addresses ++ ((slot.map OrbitKynxEntry.ip).toList ++ KynxShard.addresses t) := by
  rw [addresses_append]
  cases slot <;> rfl

theorem kynxCheckShard_found {e : OrbitKynxEntry} {i : Nat} (now : UInt64)
    (hcheck : ∀ e now, P e → P (kynxCheckEntry cfg e now).2) (h : KynxShardOk P k shard count)
    (hfind : kynxFind ip now shard = .found i e) :
    KynxShardOk P k (kynxCheckShard cfg ip now shard).2 count := by
  have hspec := kynxFindFrom_spec ip 0 { freeSlot := none, oldestSlot := 0, oldestTime := now } shard
  rw [← kynxFind, hfind] at hspec
  obtain ⟨pre, post, rfl, hpre, hi, he⟩ := hspec
  have hset : (kynxCheckShard cfg ip now (pre ++ some e :: post)).2 =
      pre ++ some (kynxCheckEntry cfg e now).2 :: post := by
    rw [kynxCheckShard, hfind, hi, Nat.zero_add]
    simp
  have hsame : KynxShard.addresses (pre ++ some (kynxCheckEntry cfg e now).2 :: post) =
      KynxShard.addresses (pre ++ some e :: post) := by
    rw [addresses_split, addresses_split, Option.map_some, Option.map_some, kynxCheckEntry_ip]
  rw [hset]
  refine ⟨?_, hsame ▸ h.distinct, hsame ▸ h.home, hsame ▸ h.count, fun x hx => ?_⟩
  · rw [← h.size]
    simp
  · have hold : P e := h.entries e (by simp)
    rcases List.mem_append.mp hx with hx | hx
    · exact h.entries x (List.mem_append_left _ hx)
    · rcases List.mem_cons.mp hx with hx | hx
      · obtain rfl := Option.some.inj hx
        exact hcheck e now hold
      · exact h.entries x (List.mem_append_right _ (List.mem_cons_of_mem _ hx))

theorem kynxCheckShard_absent {s : KynxSearch} (now : UInt64)
    (hnew : ∀ ip now, P (kynxNewEntry cfg ip now)) (hk : kynxShardOf ip = k)
    (h : KynxShardOk P k shard count) (hfind : kynxFind ip now shard = .absent s) :
    KynxShardOk P k (kynxCheckShard cfg ip now shard).2
      (if s.freeSlot.isSome then count + 1 else count) := by
  have hspec := kynxFindFrom_spec ip 0 { freeSlot := none, oldestSlot := 0, oldestTime := now } shard
  rw [← kynxFind, hfind] at hspec
  obtain ⟨hno, hfree, -⟩ := hspec
  have hpos : 0 < shard.length := by
    rw [h.size]
    exact Nat.zero_lt_succ 63
  have hlt := target_lt hpos hfind
  obtain ⟨hsplit, hset⟩ := slot_split hlt (some (kynxNewEntry cfg ip now))
  have hcheck : (kynxCheckShard cfg ip now shard).2 =
      shard.take s.target ++ some (kynxNewEntry cfg ip now) :: shard.drop (s.target + 1) := by
    rw [← hset, kynxCheckShard, hfind]
  have hbefore := congrArg KynxShard.addresses hsplit
  rw [addresses_split] at hbefore
  have hafter : (kynxCheckShard cfg ip now shard).2.addresses =
      KynxShard.addresses (shard.take s.target) ++
        ip :: KynxShard.addresses (shard.drop (s.target + 1)) := by
    rw [hcheck, addresses_split]
    rfl
  have hrest : ∀ x ∈ KynxShard.addresses (shard.take s.target) ++
      KynxShard.addresses (shard.drop (s.target + 1)), x ∈ shard.addresses := by
    intro x hx
    rw [hbefore]
    rcases List.mem_append.mp hx with hx | hx
    · exact List.mem_append_left _ hx
    · exact List.mem_append_right _ (List.mem_append_right _ hx)
  refine ⟨by rw [kynxCheckShard_length, h.size], ?_, fun x hx => ?_, ?_, fun e he => ?_⟩
  · have hdistinct := h.distinct
    rw [hbefore] at hdistinct
    rw [hafter, List.perm_middle.nodup_iff, List.nodup_cons]
    refine ⟨fun hip => ?_, hdistinct.sublist ?_⟩
    · obtain ⟨e, he, heip⟩ := mem_addresses.mp (hrest ip hip)
      exact hno e he heip
    · exact (List.sublist_append_right ..).append_left _
  · rw [hafter] at hx
    rcases List.mem_append.mp hx with hx | hx
    · exact h.home x (hrest x (List.mem_append_left _ hx))
    · rcases List.mem_cons.mp hx with rfl | hx
      · exact hk
      · exact h.home x (hrest x (List.mem_append_right _ hx))
  · have hcount := h.count
    rw [hbefore] at hcount
    rw [hafter]
    simp only [List.length_append, List.length_cons] at hcount ⊢
    obtain hnone | ⟨f, hf, hslot⟩ := hfree
    · have hnone : s.freeSlot = none := hnone
      obtain ⟨-, hfull⟩ := kynxFindFrom_occupied ip 0 _ s shard hfind hnone
      rw [hnone, if_neg (by simp), hcount]
      cases hx : shard[s.target] with
      | none => exact absurd (hx ▸ List.getElem_mem hlt) hfull
      | some x =>
        simp only [Option.map_some, Option.toList_some, List.length_singleton]
        omega
    · have htarget : s.target = f := by
        rw [KynxSearch.target, hf, Option.getD_some, Nat.zero_add]
      have hx : shard[s.target] = none := by
        rw [← htarget] at hslot
        exact (List.getElem?_eq_some_iff.mp hslot).2
      have htake := addresses_length_le (shard.take s.target)
      have hdrop := addresses_length_le (shard.drop (s.target + 1))
      have hsize := h.size
      rw [List.length_take] at htake
      rw [List.length_drop] at hdrop
      rw [hx] at hcount
      simp only [Option.map_none, Option.toList_none, List.length_nil, Nat.zero_add,
        KYNX_SLOTS_PER_SHARD] at hcount hsize
      rw [hf, if_pos (Option.isSome_some ..), UInt32.toNat_add, UInt32.toNat_one, hcount,
        Nat.mod_eq_of_lt (by omega)]
      omega
  · rw [hcheck] at he
    rcases List.mem_append.mp he with he | he
    · exact h.entries e (List.mem_of_mem_take he)
    · rcases List.mem_cons.mp he with he | he
      · obtain rfl := Option.some.inj he
        exact hnew ip now
      · exact h.entries e (List.mem_of_mem_drop he)

theorem addresses_length (shard : KynxShard) :
    shard.addresses.length = shard.countP Option.isSome := by
  rw [KynxShard.addresses, List.countP_eq_length_filter]
  induction shard with
  | nil => rfl
  | cons slot shard ih => cases slot <;> simp [ih]

end

/-! ## Runs -/

/-- Every shard is well formed. -/
def KynxTablesOk (P : OrbitKynxEntry → Prop) (shards : KynxShards) (counts : Nat → UInt32) : Prop :=
  ∀ k, KynxShardOk P k (shards k) (counts k)

section
variable {P : OrbitKynxEntry → Prop} {shards : KynxShards} {counts : Nat → UInt32}

theorem kynxInit_ok (P : OrbitKynxEntry → Prop) : KynxTablesOk P kynxInit.shards fun _ => 0 := by
  intro k
  have haddresses : (kynxInit.shards k).addresses = [] := by
    rw [KynxShard.addresses, kynxInit, List.filterMap_replicate_of_none rfl]
  refine ⟨List.length_replicate .., ?_, fun ip hip => ?_, ?_, fun e he => ?_⟩
  · rw [haddresses]
    exact List.nodup_nil
  · rw [haddresses] at hip
    cases hip
  · rw [haddresses]
    rfl
  · cases (List.mem_replicate.mp he).2

section
variable {cfg : OrbitKynxConfig} (limits : List OrbitKynxRouteLimit)
  (hcheck : ∀ e now, P e → P (kynxCheckEntry cfg e now).2)
  (hnew : ∀ ip now, P (kynxNewEntry cfg ip now))
include hcheck hnew

theorem kynxCheckIp_ok (ip : OrbitKynxIP) (now : UInt64) (h : KynxTablesOk P shards counts) :
    KynxTablesOk P (kynxCheckIp cfg ip now shards).2 (kynxCountIp ip now shards counts) := by
  intro k
  have hk := h k
  by_cases hshard : k = kynxShardOf ip
  · subst hshard
    have hself : (kynxCheckIp cfg ip now shards).2 (kynxShardOf ip) =
        (kynxCheckShard cfg ip now (shards (kynxShardOf ip))).2 := if_pos rfl
    rw [hself, kynxCountIp]
    cases hfind : kynxFind ip now (shards (kynxShardOf ip)) with
    | found i e => exact kynxCheckShard_found now hcheck hk hfind
    | absent s =>
      have := kynxCheckShard_absent now hnew rfl hk hfind
      simpa using this
  · have hother : (kynxCheckIp cfg ip now shards).2 k = shards k := if_neg hshard
    rw [hother, kynxCountIp]
    cases kynxFind ip now (shards (kynxShardOf ip)) with
    | found i e => exact hk
    | absent s => simpa [hshard] using hk

theorem orbitKynxCheck_ok (ipStr : Text) (now : UInt64) (h : KynxTablesOk P shards counts) :
    KynxTablesOk P (orbitKynxCheck cfg ipStr now shards).2
      (kynxCountCheck cfg ipStr now shards counts) := by
  rw [orbitKynxCheck, kynxCountCheck]
  split_ifs
  · exact h
  · cases kynxParseIp ipStr with
    | none => exact h
    | some ip => exact kynxCheckIp_ok hcheck hnew ip now h

theorem kynxStep_ok {st : KynxState} (ev : KynxEvent) (h : KynxTablesOk P st.shards counts) :
    KynxTablesOk P (kynxStep cfg limits st ev).2.shards
      (kynxCountStep cfg limits st counts ev) := by
  cases ev with
  | check ipStr now => exact orbitKynxCheck_ok hcheck hnew ipStr now h
  | checkRoute ipStr method path gate now =>
    rw [kynxStep, kynxCountStep, orbitKynxCheckRoute]
    dsimp only
    cases (kynxRouteGate cfg limits ipStr method path gate st.routeShards).1 with
    | some verdict => exact h
    | none => exact orbitKynxCheck_ok hcheck hnew ipStr now h

/-- What every check keeps holds after a run. -/
theorem kynxRun_ok (evs : List KynxEvent) {st : KynxState} (h : KynxTablesOk P st.shards counts) :
    KynxTablesOk P (kynxRun cfg limits st evs).2.shards
      (kynxCountRun cfg limits st counts evs) := by
  induction evs generalizing st counts with
  | nil => exact h
  | cons ev evs ih => exact ih (kynxStep_ok limits hcheck hnew ev h)

end

/-- **The shard tables after any checks**: in every shard no address has two slots, the count is the
number of occupied slots and at most 64, every entry's address hashes to the shard, and its tokens are
between none and a full bucket. With scores as the servers configure them, every score is between 0
and the largest `int32_t`. -/
theorem kynxTables_sound (cfg : OrbitKynxConfig) (limits : List OrbitKynxRouteLimit)
    (evs : List KynxEvent) (k : Nat) :
    ((kynxRun cfg limits kynxInit evs).2.shards k).addresses.Nodup ∧
    (kynxCountRun cfg limits kynxInit (fun _ => 0) evs k).toNat =
      ((kynxRun cfg limits kynxInit evs).2.shards k).countP Option.isSome ∧
    (kynxCountRun cfg limits kynxInit (fun _ => 0) evs k).toNat ≤ KYNX_SLOTS_PER_SHARD ∧
    (∀ e, some e ∈ (kynxRun cfg limits kynxInit evs).2.shards k →
      kynxShardOf e.ip = k ∧
        0 ≤ e.tokensMilli ∧ e.tokensMilli ≤ kynxEffectiveBurst cfg * 1000) ∧
    (KynxScoresOk cfg → ∀ e, some e ∈ (kynxRun cfg limits kynxInit evs).2.shards k →
      0 ≤ e.suspicionScore ∧ e.suspicionScore < 2 ^ 31) := by
  have h := kynxRun_ok (P := KynxTokensOk cfg) limits (fun _ now he => kynxCheckEntry_tokens he now)
    (kynxNewEntry_tokens cfg) evs (kynxInit_ok _) k
  refine ⟨h.distinct, h.count.trans (addresses_length _), ?_, fun e he => ?_, fun hcfg e he => ?_⟩
  · rw [h.count]
    exact (addresses_length_le _).trans h.size.le
  · have hentry := h.entries e he
    exact ⟨h.home e.ip (mem_addresses.mpr ⟨e, he, rfl⟩), hentry.nonneg, hentry.cap⟩
  · have hscores := kynxRun_ok (P := KynxScoreOk cfg) limits
      (fun _ now he => kynxCheckEntry_score hcfg he now)
      (kynxNewEntry_score hcfg) evs (kynxInit_ok _) k
    have hentry := hscores.entries e he
    exact ⟨hentry.nonneg, hentry.int32 hcfg⟩

/-- The configuration of a generated server, after one check. -/
theorem kynxTables_sound_generated :
    ∀ e, some e ∈ (kynxRun generatedConfig [] kynxInit [.check "10.0.0.2".toList 1]).2.shards
        (kynxShardOf (.v4 167772162)) → 0 ≤ e.suspicionScore ∧ e.suspicionScore < 2 ^ 31 :=
  (kynxTables_sound generatedConfig [] [.check "10.0.0.2".toList 1]
    (kynxShardOf (.v4 167772162))).2.2.2.2 ⟨by decide, by decide, by decide, by decide⟩

end

end Runtime.Kynx
