import Orbit.Runtime.Kynx
import Mathlib.Data.List.Basic

/-!
# What a check does to the entries

An address has at most one entry that the checks see (`KynxShards.entry`). A check writes the entry
of its own address and leaves the others (`kynxCheckIp_self`, `kynxCheckIp_other`), except that an
insertion into a full shard takes the place of the oldest entry (`KynxShards.evicted`).
-/

namespace Runtime.Kynx

open Http (Text)

/-! ## The entry of an address -/

/-- The entry of an address in a shard: the first with it. -/
def KynxShard.entry (ip : OrbitKynxIP) (shard : KynxShard) : Option OrbitKynxEntry :=
  shard.findSome? (·.filter (·.ip = ip))

theorem entry_split {ip : OrbitKynxIP} {pre : KynxShard} (hpre : ∀ x, some x ∈ pre → x.ip ≠ ip)
    {e : OrbitKynxEntry} (he : e.ip = ip) (post : KynxShard) :
    KynxShard.entry ip (pre ++ some e :: post) = some e := by
  have hnone : pre.findSome? (·.filter (·.ip = ip)) = none := by
    rw [List.findSome?_eq_none_iff]
    intro slot hslot
    cases slot with
    | none => rfl
    | some x => simp [Option.filter, hpre x hslot]
  rw [KynxShard.entry, List.findSome?_append, hnone, Option.none_or, List.findSome?_cons]
  simp [Option.filter, he]

theorem entry_eq_none {ip : OrbitKynxIP} {shard : KynxShard} :
    KynxShard.entry ip shard = none ↔ ∀ x, some x ∈ shard → x.ip ≠ ip := by
  rw [KynxShard.entry, List.findSome?_eq_none_iff]
  constructor
  · intro h x hx hip
    have := h (some x) hx
    simp [Option.filter, hip] at this
  · intro h slot hslot
    cases slot with
    | none => rfl
    | some x => simp [Option.filter, h x hslot]

theorem entry_mem {ip : OrbitKynxIP} {shard : KynxShard} {e : OrbitKynxEntry}
    (h : shard.entry ip = some e) : some e ∈ shard ∧ e.ip = ip := by
  obtain ⟨slot, hslot, he⟩ := List.exists_of_findSome?_eq_some h
  rw [Option.filter_eq_some_iff] at he
  exact ⟨he.1 ▸ hslot, of_decide_eq_true he.2⟩

/-- Another entry put in place of a slot without the address is not seen. -/
theorem entry_set_other {ip : OrbitKynxIP} {shard : KynxShard} {i : Nat} {e : OrbitKynxEntry}
    (he : e.ip ≠ ip) (hold : ∀ x, shard[i]? = some (some x) → x.ip ≠ ip) :
    KynxShard.entry ip (shard.set i (some e)) = KynxShard.entry ip shard := by
  by_cases hi : i < shard.length
  · have hsplit : shard = shard.take i ++ shard[i] :: shard.drop (i + 1) := by
      rw [List.cons_getElem_drop_succ, List.take_append_drop]
    have hslot : shard[i].filter (·.ip = ip) = none := by
      cases hx : shard[i] with
      | none => rfl
      | some x => simp [Option.filter, hold x (by rw [List.getElem?_eq_getElem hi, hx])]
    rw [List.set_eq_take_append_cons_drop, if_pos hi]
    conv_rhs => rw [hsplit]
    simp only [KynxShard.entry, List.findSome?_append, List.findSome?_cons, hslot,
      Option.filter_some, he, decide_false, Bool.false_eq_true, if_false]
  · rw [List.set_eq_of_length_le (Nat.le_of_not_lt hi)]

/-! ## The search -/

/-- What the search from slot `i` on finds. -/
theorem kynxFindFrom_spec (ip : OrbitKynxIP) (i : Nat) (s : KynxSearch) (slots : KynxShard) :
    match kynxFindFrom ip i s slots with
    | .found j e => ∃ pre post, slots = pre ++ some e :: post ∧ (∀ x, some x ∈ pre → x.ip ≠ ip) ∧
        j = i + pre.length ∧ e.ip = ip
    | .absent r => (∀ e, some e ∈ slots → e.ip ≠ ip) ∧
        (r.freeSlot = s.freeSlot ∨ ∃ k, r.freeSlot = some (i + k) ∧ slots[k]? = some none) ∧
        (r.oldestSlot = s.oldestSlot ∨ ∃ k < slots.length, r.oldestSlot = i + k) := by
  induction slots generalizing i s with
  | nil =>
    rw [kynxFindFrom]
    exact ⟨fun e he => absurd he List.not_mem_nil, .inl rfl, .inl rfl⟩
  | cons slot slots ih =>
    cases slot with
    | none =>
      rw [kynxFindFrom]
      have h := ih (i + 1) { s with freeSlot := s.freeSlot.or (some i) }
      cases hfind : kynxFindFrom ip (i + 1) { s with freeSlot := s.freeSlot.or (some i) } slots with
      | found j e =>
        rw [hfind] at h
        obtain ⟨pre, post, rfl, hpre, rfl, he⟩ := h
        refine ⟨none :: pre, post, rfl, fun x hx => ?_, by simp only [List.length_cons]; omega, he⟩
        exact hpre x (by simpa using hx)
      | absent r =>
        rw [hfind] at h
        obtain ⟨hno, hfree, hold⟩ := h
        refine ⟨fun e he => hno e (by simpa using he), ?_, ?_⟩
        · rcases hfree with hfree | ⟨k, hk, hslot⟩
          · cases hs : s.freeSlot with
            | none => exact .inr ⟨0, by rw [hfree, hs]; rfl, rfl⟩
            | some f => exact .inl (by rw [hfree, hs]; rfl)
          · exact .inr ⟨k + 1, by rw [hk]; congr 1; omega, hslot⟩
        · rcases hold with hold | ⟨k, hk, hslot⟩
          · exact .inl hold
          · exact .inr ⟨k + 1, by simp only [List.length_cons]; omega, by rw [hslot]; omega⟩
    | some e =>
      rw [kynxFindFrom]
      by_cases he : e.ip = ip
      · rw [if_pos he]
        exact ⟨[], slots, rfl, fun x hx => absurd hx List.not_mem_nil, rfl, he⟩
      · rw [if_neg he]
        generalize hs' : (if e.lastRefillNs < s.oldestTime then
          { s with oldestTime := e.lastRefillNs, oldestSlot := i } else s) = s'
        have hfree' : s'.freeSlot = s.freeSlot := by
          rw [← hs']
          split_ifs <;> rfl
        have hold' : s'.oldestSlot = s.oldestSlot ∨ s'.oldestSlot = i := by
          rw [← hs']
          split_ifs
          · exact .inr rfl
          · exact .inl rfl
        have h := ih (i + 1) s'
        cases hfind : kynxFindFrom ip (i + 1) s' slots with
        | found j x =>
          rw [hfind] at h
          obtain ⟨pre, post, rfl, hpre, rfl, hx⟩ := h
          refine ⟨some e :: pre, post, rfl, fun y hy => ?_, by simp only [List.length_cons]; omega,
            hx⟩
          rcases List.mem_cons.mp hy with hy | hy
          · rw [Option.some.inj hy]
            exact he
          · exact hpre y hy
        | absent r =>
          rw [hfind] at h
          obtain ⟨hno, hfree, hold⟩ := h
          refine ⟨fun y hy => ?_, ?_, ?_⟩
          · rcases List.mem_cons.mp hy with hy | hy
            · rw [Option.some.inj hy]
              exact he
            · exact hno y hy
          · rcases hfree with hfree | ⟨k, hk, hslot⟩
            · exact .inl (hfree.trans hfree')
            · exact .inr ⟨k + 1, by rw [hk]; congr 1; omega, hslot⟩
          · rcases hold with hold | ⟨k, hk, hslot⟩
            · rcases hold' with h' | h'
              · exact .inl (hold.trans h')
              · exact .inr ⟨0, by simp, by rw [hold, h']; rfl⟩
            · exact .inr ⟨k + 1, by simp only [List.length_cons]; omega, by rw [hslot]; omega⟩

/-- The entry that an insertion of the address would throw out. -/
def KynxShard.evicted (ip : OrbitKynxIP) (now : UInt64) (shard : KynxShard) :
    Option OrbitKynxEntry :=
  match kynxFind ip now shard with
  | .found _ _ => none
  | .absent s => (shard[s.target]?).join

theorem kynxCheckEntry_ip (cfg : OrbitKynxConfig) (e : OrbitKynxEntry) (now : UInt64) :
    (kynxCheckEntry cfg e now).2.ip = e.ip := by
  have hrefill : ∀ e : OrbitKynxEntry, (kynxRefill cfg e now).ip = e.ip := by
    intro e
    unfold kynxRefill
    split_ifs <;> rfl
  have hserve : ∀ e : OrbitKynxEntry, (kynxServe cfg e now).2.ip = e.ip := by
    intro e
    simp only [kynxServe]
    split_ifs
    · simp only [kynxSpend]
      split_ifs <;> exact hrefill e
    · simp only [kynxScore]
      split_ifs <;> exact hrefill e
  simp only [kynxCheckEntry]
  split_ifs
  · exact hserve _
  · rfl
  · exact hserve e

/-- The stamps of an entry are not after the time. -/
structure Stamped (now : Nat) (e : OrbitKynxEntry) : Prop where
  refill : e.lastRefillNs.toNat ≤ now
  violation : e.lastViolationNs.toNat ≤ now
  decay : e.lastScoreDecayNs.toNat ≤ now
  banned : e.bannedAtNs.toNat ≤ now

theorem Stamped.mono {now now' : Nat} {e : OrbitKynxEntry} (h : Stamped now e) (hle : now ≤ now') :
    Stamped now' e :=
  ⟨h.refill.trans hle, h.violation.trans hle, h.decay.trans hle, h.banned.trans hle⟩

theorem stamped_new (cfg : OrbitKynxConfig) (ip : OrbitKynxIP) (now : UInt64) :
    Stamped now.toNat (kynxNewEntry cfg ip now) :=
  ⟨Nat.le_refl _, Nat.zero_le _, Nat.le_refl _, Nat.zero_le _⟩

/-- A check stamps with its own reading. -/
theorem Stamped.check {cfg : OrbitKynxConfig} {e : OrbitKynxEntry} {now : UInt64}
    (h : Stamped now.toNat e) : Stamped now.toNat (kynxCheckEntry cfg e now).2 := by
  have hrefill : ∀ e : OrbitKynxEntry, Stamped now.toNat e →
      Stamped now.toNat (kynxRefill cfg e now) := by
    intro e he
    unfold kynxRefill
    split_ifs <;> exact ⟨Nat.le_refl _, he.violation, he.decay, he.banned⟩
  have hspend : ∀ e : OrbitKynxEntry, Stamped now.toNat e →
      Stamped now.toNat (kynxSpend cfg e now) := by
    intro e he
    unfold kynxSpend
    dsimp only
    split
    · exact ⟨he.refill, he.violation, Nat.le_refl _, he.banned⟩
    · exact ⟨he.refill, he.violation, he.decay, he.banned⟩
  have hscore : ∀ e : OrbitKynxEntry, Stamped now.toNat e →
      Stamped now.toNat (kynxScore cfg e now) := by
    intro e he
    unfold kynxScore
    dsimp only
    split
    · split
      · exact ⟨he.refill, Nat.le_refl _, he.decay, Nat.le_refl _⟩
      · exact ⟨he.refill, Nat.le_refl _, he.decay, he.banned⟩
    · exact he
  have hserve : ∀ e : OrbitKynxEntry, Stamped now.toNat e →
      Stamped now.toNat (kynxServe cfg e now).2 := by
    intro e he
    unfold kynxServe
    dsimp only
    split
    · exact hspend _ (hrefill e he)
    · exact hscore _ (hrefill e he)
  simp only [kynxCheckEntry]
  split_ifs
  · exact hserve _ ⟨h.refill, h.violation, h.decay, h.banned⟩
  · exact h
  · exact hserve e h

/-- A check in the time of a ban denies and changes nothing. -/
theorem kynxCheckEntry_banned (cfg : OrbitKynxConfig) {e : OrbitKynxEntry} {now : UInt64}
    (hbanned : e.isBanned = true) (hpast : e.bannedAtNs.toNat ≤ now.toNat)
    (htime : now.toNat ≤ e.bannedAtNs.toNat + (kynxBanDurationNs cfg).toNat) :
    (kynxCheckEntry cfg e now).1.allowed = false ∧ (kynxCheckEntry cfg e now).2 = e := by
  have hnot : ¬ now - e.bannedAtNs > kynxBanDurationNs cfg := by
    rw [gt_iff_lt, UInt64.lt_iff_toNat_lt, UInt64.toNat_sub_of_le _ _ hpast]
    omega
  simp only [kynxCheckEntry, if_pos hbanned, if_neg hnot, and_self]

/-- The slot of a new entry is a slot of the shard. -/
theorem target_lt {ip : OrbitKynxIP} {now : UInt64} {shard : KynxShard} (hlen : 0 < shard.length)
    {s : KynxSearch} (hfind : kynxFind ip now shard = .absent s) : s.target < shard.length := by
  have h := kynxFindFrom_spec ip 0 { freeSlot := none, oldestSlot := 0, oldestTime := now } shard
  rw [← kynxFind, hfind] at h
  obtain ⟨-, hfree, hold⟩ := h
  rcases hfree with hfree | ⟨k, hk, hslot⟩
  · rw [KynxSearch.target, hfree, Option.getD_none]
    rcases hold with hold | ⟨k, hk, hold⟩
    · rw [hold]
      exact hlen
    · rw [hold, Nat.zero_add]
      exact hk
  · rw [KynxSearch.target, hk, Option.getD_some, Nat.zero_add]
    exact (List.getElem?_eq_some_iff.mp hslot).1

/-- **A check and its own entry**: it is served, or made. -/
theorem kynxCheckShard_self (cfg : OrbitKynxConfig) (ip : OrbitKynxIP) (now : UInt64)
    {shard : KynxShard} (hlen : 0 < shard.length) :
    match shard.entry ip with
    | some e => (kynxCheckShard cfg ip now shard).1 = (kynxCheckEntry cfg e now).1 ∧
        KynxShard.entry ip (kynxCheckShard cfg ip now shard).2 = some (kynxCheckEntry cfg e now).2
    | none => (kynxCheckShard cfg ip now shard).1 = ⟨true, 0⟩ ∧
        KynxShard.entry ip (kynxCheckShard cfg ip now shard).2 =
          some (kynxNewEntry cfg ip now) := by
  have h := kynxFindFrom_spec ip 0 { freeSlot := none, oldestSlot := 0, oldestTime := now } shard
  rw [← kynxFind] at h
  cases hfind : kynxFind ip now shard with
  | found j e =>
    rw [hfind] at h
    obtain ⟨pre, post, rfl, hpre, rfl, he⟩ := h
    rw [entry_split hpre he]
    simp only [kynxCheckShard, hfind, Nat.zero_add, List.set_append_right _ _ (Nat.le_refl _),
      Nat.sub_self, List.set_cons_zero, true_and]
    exact entry_split hpre ((kynxCheckEntry_ip cfg e now).trans he) post
  | absent s =>
    rw [hfind] at h
    have hlt := target_lt hlen hfind
    rw [entry_eq_none.mpr h.1]
    simp only [kynxCheckShard, hfind, true_and]
    rw [List.set_eq_take_append_cons_drop, if_pos hlt]
    exact entry_split (fun x hx => h.1 x (List.mem_of_mem_take hx)) rfl _

/-- **A check and the other entries**: only the evicted one is touched. -/
theorem kynxCheckShard_other (cfg : OrbitKynxConfig) {ip ip' : OrbitKynxIP} (now : UInt64)
    (shard : KynxShard) (hne : ip' ≠ ip) (hev : ∀ x, shard.evicted ip now = some x → x.ip ≠ ip') :
    KynxShard.entry ip' (kynxCheckShard cfg ip now shard).2 = shard.entry ip' := by
  have h := kynxFindFrom_spec ip 0 { freeSlot := none, oldestSlot := 0, oldestTime := now } shard
  rw [← kynxFind] at h
  cases hfind : kynxFind ip now shard with
  | found j e =>
    rw [hfind] at h
    obtain ⟨pre, post, rfl, hpre, rfl, he⟩ := h
    simp only [kynxCheckShard, hfind]
    refine entry_set_other ?_ fun x hx => ?_
    · rw [kynxCheckEntry_ip, he]
      exact hne.symm
    · rw [Nat.zero_add, List.getElem?_append_right (Nat.le_refl _), Nat.sub_self] at hx
      rw [List.getElem?_cons_zero, Option.some.injEq, Option.some.injEq] at hx
      rw [← hx, he]
      exact hne.symm
  | absent s =>
    simp only [kynxCheckShard, hfind]
    refine entry_set_other hne.symm fun x hx => hev x ?_
    rw [KynxShard.evicted, hfind]
    simp only [hx, Option.join_some]

/-- The entries after a check: those before, the checked one, or a new one. -/
theorem kynxCheckShard_mem {cfg : OrbitKynxConfig} {ip : OrbitKynxIP} {now : UInt64}
    {shard : KynxShard} {e : OrbitKynxEntry} (h : some e ∈ (kynxCheckShard cfg ip now shard).2) :
    some e ∈ shard ∨ e = kynxNewEntry cfg ip now ∨
      ∃ e', shard.entry ip = some e' ∧ e = (kynxCheckEntry cfg e' now).2 := by
  have hspec := kynxFindFrom_spec ip 0 { freeSlot := none, oldestSlot := 0, oldestTime := now } shard
  rw [← kynxFind] at hspec
  unfold kynxCheckShard at h
  cases hfind : kynxFind ip now shard with
  | found j e' =>
    rw [hfind] at h hspec
    obtain ⟨pre, post, rfl, hpre, -, hip⟩ := hspec
    rcases List.mem_or_eq_of_mem_set h with h | h
    · exact .inl h
    · exact .inr (.inr ⟨e', entry_split hpre hip post, Option.some.inj h⟩)
  | absent s =>
    rw [hfind] at h
    rcases List.mem_or_eq_of_mem_set h with h | h
    · exact .inl h
    · exact .inr (.inl (Option.some.inj h))

theorem kynxCheckShard_length (cfg : OrbitKynxConfig) (ip : OrbitKynxIP) (now : UInt64)
    (shard : KynxShard) : (kynxCheckShard cfg ip now shard).2.length = shard.length := by
  rw [kynxCheckShard]
  cases kynxFind ip now shard <;> exact List.length_set ..

/-! ## The checks on all shards -/

/-- The entry of an address. -/
def KynxShards.entry (shards : KynxShards) (ip : OrbitKynxIP) : Option OrbitKynxEntry :=
  (shards (kynxShardOf ip)).entry ip

/-- The entry that a check of the address would throw out. -/
def KynxShards.evicted (shards : KynxShards) (ip : OrbitKynxIP) (now : UInt64) :
    Option OrbitKynxEntry :=
  (shards (kynxShardOf ip)).evicted ip now

/-- Every shard has slots. -/
def KynxShards.Sized (shards : KynxShards) : Prop := ∀ i, 0 < (shards i).length

theorem sized_init : KynxShards.Sized kynxInit.shards := by
  intro i
  rw [kynxInit, List.length_replicate]
  exact Nat.zero_lt_succ 63

theorem kynxCheckIp_sized (cfg : OrbitKynxConfig) (ip : OrbitKynxIP) (now : UInt64)
    {shards : KynxShards} (h : shards.Sized) : (kynxCheckIp cfg ip now shards).2.Sized := by
  intro i
  simp only [kynxCheckIp]
  split_ifs
  · rw [kynxCheckShard_length]
    exact h _
  · exact h i

theorem kynxCheckIp_self (cfg : OrbitKynxConfig) (ip : OrbitKynxIP) (now : UInt64)
    {shards : KynxShards} (h : shards.Sized) :
    match shards.entry ip with
    | some e => (kynxCheckIp cfg ip now shards).1 = (kynxCheckEntry cfg e now).1 ∧
        (kynxCheckIp cfg ip now shards).2.entry ip = some (kynxCheckEntry cfg e now).2
    | none => (kynxCheckIp cfg ip now shards).1 = ⟨true, 0⟩ ∧
        (kynxCheckIp cfg ip now shards).2.entry ip = some (kynxNewEntry cfg ip now) := by
  have hself := kynxCheckShard_self cfg ip now (h (kynxShardOf ip))
  have hentry : (kynxCheckIp cfg ip now shards).2.entry ip =
      KynxShard.entry ip (kynxCheckShard cfg ip now (shards (kynxShardOf ip))).2 := by
    simp only [KynxShards.entry, kynxCheckIp, if_pos]
  rw [hentry]
  exact hself

theorem kynxInit_entry (ip : OrbitKynxIP) : kynxInit.shards.entry ip = none := by
  rw [KynxShards.entry, entry_eq_none]
  intro x hx
  rw [kynxInit, List.mem_replicate] at hx
  cases hx.2

theorem kynxCheckIp_other (cfg : OrbitKynxConfig) {ip ip' : OrbitKynxIP} (now : UInt64)
    (shards : KynxShards) (hne : ip' ≠ ip)
    (hev : ∀ x, shards.evicted ip now = some x → x.ip ≠ ip') :
    (kynxCheckIp cfg ip now shards).2.entry ip' = shards.entry ip' := by
  by_cases hshard : kynxShardOf ip' = kynxShardOf ip
  · simp only [KynxShards.entry, kynxCheckIp, if_pos hshard]
    rw [hshard]
    exact kynxCheckShard_other cfg now _ hne hev
  · simp only [KynxShards.entry, kynxCheckIp, if_neg hshard]

/-! ## Runs -/

section
variable (cfg : OrbitKynxConfig) (limits : List OrbitKynxRouteLimit)

/-- Whether a check reaches the entry of the address. -/
def kynxPasses (st : KynxState) : KynxEvent → Bool
  | .check _ _ => true
  | .checkRoute ipStr method path gate _ =>
    (kynxRouteGate cfg limits ipStr method path gate st.routeShards).1.isNone

/-- The address whose entry a check reads and writes. -/
def kynxTouches (st : KynxState) (ev : KynxEvent) : Option OrbitKynxIP :=
  if cfg.enabled && kynxPasses cfg limits st ev then kynxParseIp ev.ipStr else none

/-- The entry that a check throws out. -/
def kynxEvicts (st : KynxState) (ev : KynxEvent) : Option OrbitKynxEntry :=
  (kynxTouches cfg limits st ev).bind fun ip => st.shards.evicted ip ev.now

/-- Every check of a run satisfies `p` in the state it meets. -/
def KynxAll (p : KynxState → KynxEvent → Prop) : KynxState → List KynxEvent → Prop
  | _, [] => True
  | st, ev :: evs => p st ev ∧ KynxAll p (kynxStep cfg limits st ev).2 evs

theorem kynxAll_append {p : KynxState → KynxEvent → Prop} {st : KynxState}
    {pre post : List KynxEvent} :
    KynxAll cfg limits p st (pre ++ post) ↔
      KynxAll cfg limits p st pre ∧ KynxAll cfg limits p (kynxRun cfg limits st pre).2 post := by
  induction pre generalizing st with
  | nil => simp only [List.nil_append, KynxAll, kynxRun, true_and]
  | cons ev pre ih => simp only [List.cons_append, KynxAll, kynxRun, ih, and_assoc]

theorem kynxRun_append (st : KynxState) (pre post : List KynxEvent) :
    (kynxRun cfg limits st (pre ++ post)).2 =
      (kynxRun cfg limits (kynxRun cfg limits st pre).2 post).2 := by
  induction pre generalizing st with
  | nil => rfl
  | cons ev pre ih => exact ih _

/-- A denial of the gate is a denial. -/
theorem kynxRouteGate_denies {ipStr method path : Text} {now : UInt64} {routeShards : KynxRouteShards}
    {v : KynxVerdict}
    (h : (kynxRouteGate cfg limits ipStr method path now routeShards).1 = some v) :
    v.allowed = false := by
  have hcharge : ∀ (lim : OrbitKynxRouteLimit) (idx : Nat) (ip : OrbitKynxIP)
      (shard : KynxRouteShard), (kynxRouteCharge lim idx ip now shard).1 = some v →
        v.allowed = false := by
    intro lim idx ip shard hv
    simp only [kynxRouteCharge] at hv
    split at hv
    · cases hv
    · split_ifs at hv
      rw [← Option.some.inj hv]
  simp only [kynxRouteGate] at h
  split_ifs at h
  split at h
  · exact hcharge _ _ _ _ h
  · cases h

/-- A step that touches no entry leaves the shards, and denies if the address could be read. -/
theorem kynxStep_untouched (henabled : cfg.enabled = true) (st : KynxState) (ev : KynxEvent)
    (h : kynxTouches cfg limits st ev = none) :
    (kynxStep cfg limits st ev).2.shards = st.shards ∧
      ((kynxParseIp ev.ipStr).isSome → (kynxStep cfg limits st ev).1.allowed = false) := by
  rw [kynxTouches, henabled, Bool.true_and] at h
  have hcheck : ∀ (ipStr : Text) (now : UInt64), kynxParseIp ipStr = none →
      orbitKynxCheck cfg ipStr now st.shards = (⟨true, 0⟩, st.shards) := by
    intro ipStr now hparse
    simp [orbitKynxCheck, henabled, hparse]
  cases ev with
  | check ipStr now =>
    simp only [kynxPasses, if_true] at h
    simp only [kynxStep, KynxEvent.ipStr] at h ⊢
    rw [hcheck ipStr now h, h]
    exact ⟨rfl, fun hsome => absurd hsome Bool.false_ne_true⟩
  | checkRoute ipStr method path gate now =>
    simp only [kynxPasses, KynxEvent.ipStr] at h ⊢
    simp only [kynxStep, orbitKynxCheckRoute]
    cases hgate : (kynxRouteGate cfg limits ipStr method path gate st.routeShards).1 with
    | some v => exact ⟨rfl, fun _ => kynxRouteGate_denies cfg limits hgate⟩
    | none =>
      simp only [hgate, Option.isNone_none, if_true] at h
      simp only [hcheck ipStr now h, h]
      exact ⟨trivial, fun hsome => absurd hsome Bool.false_ne_true⟩

/-- A step that touches an entry is the check of its address. -/
theorem kynxStep_touched {st : KynxState} {ev : KynxEvent} {ip : OrbitKynxIP}
    (h : kynxTouches cfg limits st ev = some ip) :
    kynxParseIp ev.ipStr = some ip ∧
      (kynxStep cfg limits st ev).1 = (kynxCheckIp cfg ip ev.now st.shards).1 ∧
      (kynxStep cfg limits st ev).2.shards = (kynxCheckIp cfg ip ev.now st.shards).2 := by
  unfold kynxTouches at h
  split_ifs at h with hpass
  rw [Bool.and_eq_true] at hpass
  have hcheck : ∀ now, orbitKynxCheck cfg ev.ipStr now st.shards =
      kynxCheckIp cfg ip now st.shards := by
    intro now
    simp [orbitKynxCheck, hpass.1, h]
  refine ⟨h, ?_⟩
  cases ev with
  | check ipStr now =>
    simp only [KynxEvent.ipStr] at hcheck
    simp only [kynxStep, KynxEvent.now, hcheck, and_self]
  | checkRoute ipStr method path gate now =>
    simp only [KynxEvent.ipStr] at hcheck
    have hgate := Option.isNone_iff_eq_none.mp hpass.2
    simp only [kynxStep, orbitKynxCheckRoute, hgate, hcheck, KynxEvent.now, and_self]

end

end Runtime.Kynx
