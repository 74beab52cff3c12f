import Orbit.Runtime.Proof.Kynx

/-!
# The buckets of the routes

A gate either leaves the buckets alone or charges one address for one route (`kynxCharge`): it serves
the bucket that it finds (`kynxRouteServe`), or puts a new one into a slot (`kynxRouteNew`). What both
keep holds of every bucket after any checks (`kynxRun_buckets`).
-/

namespace Runtime.Kynx

open Http (Text)

/-! ## One charge -/

/-- The tokens of a route's bucket that is full, by its declaration. -/
def routeBurst (lim : OrbitKynxRouteLimit) : Int :=
  if lim.burst.toInt < 1 then atLeastOne lim.rate else lim.burst.toInt

def kynxRouteRefillAt (lim : OrbitKynxRouteLimit) (b : KynxRouteBucket) (now : UInt64) :
    KynxRouteBucket :=
  kynxRouteRefill b (atLeastOne lim.rate) (atLeastOne lim.windowMs) now

/-- A charge to a bucket that is there. -/
def kynxRouteServe (lim : OrbitKynxRouteLimit) (b : KynxRouteBucket) (now : UInt64) :
    Option KynxVerdict × KynxRouteBucket :=
  let b := kynxRouteRefillAt lim b now
  if b.tokensMilli ≥ 1000 then (none, { b with tokensMilli := b.tokensMilli - 1000 })
  else (some ⟨false, kynxRetryAfter b.tokensMilli (atLeastOne lim.rate) (atLeastOne lim.windowMs)⟩,
    b)

/-- The bucket of a first charge. -/
def kynxRouteNew (lim : OrbitKynxRouteLimit) (routeIdx : Nat) (ip : OrbitKynxIP) (now : UInt64) :
    KynxRouteBucket :=
  let tokens := routeBurst lim * 1000 - 1000
  { ip, routeIdx, lastRefillNs := now, tokensMilli := if tokens < 0 then 0 else tokens }

def kynxRouteFind (ip : OrbitKynxIP) (routeIdx : Nat) (now : UInt64) (shard : KynxRouteShard) :
    KynxRouteFind :=
  kynxRouteFindFrom ip routeIdx 0 { freeSlot := none, oldestSlot := 0, oldestTime := now } shard

theorem kynxRouteCharge_eq (lim : OrbitKynxRouteLimit) (routeIdx : Nat) (ip : OrbitKynxIP)
    (now : UInt64) (shard : KynxRouteShard) :
    kynxRouteCharge lim routeIdx ip now shard =
      match kynxRouteFind ip routeIdx now shard with
      | .absent s => (none, shard.set s.target (some (kynxRouteNew lim routeIdx ip now)))
      | .found i b =>
        ((kynxRouteServe lim b now).1, shard.set i (some (kynxRouteServe lim b now).2)) := by
  rw [kynxRouteCharge, kynxRouteFind]
  dsimp only
  cases kynxRouteFindFrom ip routeIdx 0 _ shard with
  | absent s => rfl
  | found i b =>
    dsimp only
    rw [kynxRouteServe, kynxRouteRefillAt]
    by_cases h : (kynxRouteRefill b (atLeastOne lim.rate) (atLeastOne lim.windowMs) now).tokensMilli ≥
        1000
    · rw [if_pos h, if_pos h]
    · rw [if_neg h, if_neg h]

/-- The bucket that is found is one of the address and the route, and no other comes before it. -/
theorem kynxRouteFindFrom_spec (ip : OrbitKynxIP) (routeIdx i : Nat) (s : KynxSearch)
    (slots : KynxRouteShard) :
    match kynxRouteFindFrom ip routeIdx i s slots with
    | .found j b => ∃ pre post, slots = pre ++ some b :: post ∧
        (∀ x, some x ∈ pre → ¬ (x.routeIdx = routeIdx ∧ x.ip = ip)) ∧
        j = i + pre.length ∧ b.routeIdx = routeIdx ∧ b.ip = ip
    | .absent _ => ∀ x, some x ∈ slots → ¬ (x.routeIdx = routeIdx ∧ x.ip = ip) := by
  induction slots generalizing i s with
  | nil =>
    rw [kynxRouteFindFrom]
    exact fun x hx => absurd hx List.not_mem_nil
  | cons slot slots ih =>
    cases slot with
    | none =>
      rw [kynxRouteFindFrom]
      have h := ih (i + 1) { s with freeSlot := s.freeSlot.or (some i) }
      cases hfind : kynxRouteFindFrom ip routeIdx (i + 1)
          { s with freeSlot := s.freeSlot.or (some i) } slots with
      | found j b =>
        rw [hfind] at h
        obtain ⟨pre, post, rfl, hpre, rfl, hb⟩ := h
        refine ⟨none :: pre, post, rfl, fun x hx => ?_, by simp only [List.length_cons]; omega, hb⟩
        exact hpre x (by simpa using hx)
      | absent r =>
        rw [hfind] at h
        exact fun x hx => h x (by simpa using hx)
    | some x =>
      rw [kynxRouteFindFrom]
      by_cases hx : x.routeIdx = routeIdx ∧ x.ip = ip
      · rw [if_pos hx]
        exact ⟨[], slots, rfl, fun y hy => absurd hy List.not_mem_nil, rfl, hx⟩
      · rw [if_neg hx]
        generalize (if x.lastRefillNs < s.oldestTime then
          { s with oldestTime := x.lastRefillNs, oldestSlot := i } else s) = s'
        have h := ih (i + 1) s'
        cases hfind : kynxRouteFindFrom ip routeIdx (i + 1) s' slots with
        | found j b =>
          rw [hfind] at h
          obtain ⟨pre, post, rfl, hpre, rfl, hb⟩ := h
          refine ⟨some x :: pre, post, rfl, fun y hy => ?_,
            by simp only [List.length_cons]; omega, hb⟩
          rcases List.mem_cons.mp hy with hy | hy
          · rw [Option.some.inj hy]
            exact hx
          · exact hpre y hy
        | absent r =>
          rw [hfind] at h
          intro y hy
          rcases List.mem_cons.mp hy with hy | hy
          · rw [Option.some.inj hy]
            exact hx
          · exact h y hy

theorem kynxRouteFind_found {ip : OrbitKynxIP} {routeIdx i : Nat} {now : UInt64}
    {shard : KynxRouteShard} {b : KynxRouteBucket}
    (h : kynxRouteFind ip routeIdx now shard = .found i b) :
    some b ∈ shard ∧ b.routeIdx = routeIdx ∧ b.ip = ip := by
  have hspec := kynxRouteFindFrom_spec ip routeIdx 0
    { freeSlot := none, oldestSlot := 0, oldestTime := now } shard
  rw [← kynxRouteFind, h] at hspec
  obtain ⟨pre, post, rfl, -, -, hkey⟩ := hspec
  exact ⟨by simp, hkey⟩

/-- The bucket that was found and written back is found again. -/
theorem kynxRouteFind_again {ip : OrbitKynxIP} {routeIdx i : Nat} {now : UInt64}
    {shard : KynxRouteShard} {b b' : KynxRouteBucket}
    (h : kynxRouteFind ip routeIdx now shard = .found i b) (hidx : b'.routeIdx = routeIdx)
    (hip : b'.ip = ip) (later : UInt64) :
    kynxRouteFind ip routeIdx later (shard.set i (some b')) = .found i b' := by
  have hfirst : ∀ (k : Nat) (s : KynxSearch) (pre post : KynxRouteShard),
      (∀ x, some x ∈ pre → ¬ (x.routeIdx = routeIdx ∧ x.ip = ip)) →
      kynxRouteFindFrom ip routeIdx k s (pre ++ some b' :: post) = .found (k + pre.length) b' := by
    intro k s pre post hpre
    induction pre generalizing k s with
    | nil => rw [List.nil_append, kynxRouteFindFrom, if_pos ⟨hidx, hip⟩]; rfl
    | cons slot pre ih =>
      have hrest : ∀ x, some x ∈ pre → ¬ (x.routeIdx = routeIdx ∧ x.ip = ip) :=
        fun x hx => hpre x (List.mem_cons_of_mem _ hx)
      cases slot with
      | none =>
        rw [List.cons_append, kynxRouteFindFrom, ih _ _ hrest, List.length_cons, Nat.add_right_comm,
          Nat.add_assoc]
      | some x =>
        rw [List.cons_append, kynxRouteFindFrom, if_neg (hpre x List.mem_cons_self), ih _ _ hrest,
          List.length_cons, Nat.add_right_comm, Nat.add_assoc]
  have hspec := kynxRouteFindFrom_spec ip routeIdx 0
    { freeSlot := none, oldestSlot := 0, oldestTime := now } shard
  rw [← kynxRouteFind, h] at hspec
  obtain ⟨pre, post, rfl, hpre, rfl, -, -⟩ := hspec
  rw [kynxRouteFind, Nat.zero_add, List.set_append_right _ _ (Nat.le_refl _), Nat.sub_self,
    List.set_cons_zero, hfirst 0 _ pre post hpre, Nat.zero_add]

/-- A bucket after a charge was there, is the one that was served, or is new. -/
theorem kynxRouteCharge_mem {lim : OrbitKynxRouteLimit} {routeIdx : Nat} {ip : OrbitKynxIP}
    {now : UInt64} {shard : KynxRouteShard} {x : KynxRouteBucket}
    (h : some x ∈ (kynxRouteCharge lim routeIdx ip now shard).2) :
    some x ∈ shard ∨ x = kynxRouteNew lim routeIdx ip now ∨
      ∃ b, some b ∈ shard ∧ b.routeIdx = routeIdx ∧ b.ip = ip ∧
        x = (kynxRouteServe lim b now).2 := by
  rw [kynxRouteCharge_eq] at h
  cases hfind : kynxRouteFind ip routeIdx now shard with
  | absent s =>
    rw [hfind] at h
    rcases List.mem_or_eq_of_mem_set h with h | h
    · exact .inl h
    · exact .inr (.inl (Option.some.inj h))
  | found i b =>
    rw [hfind] at h
    obtain ⟨hmem, hidx, hip⟩ := kynxRouteFind_found hfind
    rcases List.mem_or_eq_of_mem_set h with h | h
    · exact .inl h
    · exact .inr (.inr ⟨b, hmem, hidx, hip, Option.some.inj h⟩)

theorem kynxRouteServe_key (lim : OrbitKynxRouteLimit) (b : KynxRouteBucket) (now : UInt64) :
    (kynxRouteServe lim b now).2.routeIdx = b.routeIdx ∧
      (kynxRouteServe lim b now).2.ip = b.ip := by
  have hrefill : (kynxRouteRefillAt lim b now).routeIdx = b.routeIdx ∧
      (kynxRouteRefillAt lim b now).ip = b.ip := by
    rw [kynxRouteRefillAt, kynxRouteRefill]
    split_ifs <;> exact ⟨rfl, rfl⟩
  rw [kynxRouteServe]
  split_ifs <;> exact hrefill

/-! ## The charge of a check -/

/-- What a check charges: the limit of the request, its place, and the address. -/
structure KynxCharge where
  lim : OrbitKynxRouteLimit
  routeIdx : Nat
  ip : OrbitKynxIP
  deriving DecidableEq, Repr

section
variable (cfg : OrbitKynxConfig) (limits : List OrbitKynxRouteLimit)

/-- The charge of a request, if a limit applies to it. -/
def kynxChargeOf (ipStr method path : Text) : Option KynxCharge :=
  if !cfg.enabled then none
  else
    match kynxLimitOf limits method path, kynxParseIp ipStr with
    | some (lim, routeIdx), some ip => some ⟨lim, routeIdx, ip⟩
    | _, _ => none

def KynxEvent.charge : KynxEvent → Option KynxCharge
  | .check _ _ => none
  | .checkRoute ipStr method path _ _ => kynxChargeOf cfg limits ipStr method path

/-- The reading of the gate. -/
def KynxEvent.gate : KynxEvent → UInt64
  | .check _ now => now
  | .checkRoute _ _ _ gate _ => gate

/-- The buckets after a charge. -/
def KynxRouteShards.charge (shards : KynxRouteShards) (c : KynxCharge) (now : UInt64) :
    KynxRouteShards := fun i =>
  if i = kynxRouteShard c.ip c.routeIdx then
    (kynxRouteCharge c.lim c.routeIdx c.ip now (shards (kynxRouteShard c.ip c.routeIdx))).2
  else shards i

theorem charge_self (shards : KynxRouteShards) (c : KynxCharge) (now : UInt64) :
    shards.charge c now (kynxRouteShard c.ip c.routeIdx) =
      (kynxRouteCharge c.lim c.routeIdx c.ip now
        (shards (kynxRouteShard c.ip c.routeIdx))).2 := if_pos rfl

theorem kynxRouteGate_eq (ipStr method path : Text) (now : UInt64) (shards : KynxRouteShards) :
    kynxRouteGate cfg limits ipStr method path now shards =
      match kynxChargeOf cfg limits ipStr method path with
      | none => (none, shards)
      | some c => ((kynxRouteCharge c.lim c.routeIdx c.ip now
          (shards (kynxRouteShard c.ip c.routeIdx))).1, shards.charge c now) := by
  rw [kynxRouteGate, kynxChargeOf]
  split_ifs
  · rfl
  · cases kynxLimitOf limits method path with
    | none => rfl
    | some l => cases kynxParseIp ipStr <;> rfl

/-- What a step does to the buckets. -/
theorem kynxStep_routeShards (st : KynxState) (ev : KynxEvent) :
    (kynxStep cfg limits st ev).2.routeShards =
      match ev.charge cfg limits with
      | none => st.routeShards
      | some c => st.routeShards.charge c ev.gate := by
  cases ev with
  | check ipStr now => rfl
  | checkRoute ipStr method path gate now =>
    have hgate := kynxRouteGate_eq cfg limits ipStr method path gate st.routeShards
    have hroute : (kynxStep cfg limits st (.checkRoute ipStr method path gate now)).2.routeShards =
        (kynxRouteGate cfg limits ipStr method path gate st.routeShards).2 := by
      rw [kynxStep, orbitKynxCheckRoute]
      cases (kynxRouteGate cfg limits ipStr method path gate st.routeShards).1 <;> rfl
    rw [hroute, hgate, KynxEvent.charge, KynxEvent.gate]
    cases kynxChargeOf cfg limits ipStr method path <;> rfl

variable {cfg limits}

theorem kynxLimitOf_get {method path : Text} {lim : OrbitKynxRouteLimit} {routeIdx : Nat}
    (h : kynxLimitOf limits method path = some (lim, routeIdx)) : limits[routeIdx]? = some lim :=
  List.mk_mem_zipIdx_iff_getElem?.mp (List.mem_of_find?_eq_some h)

theorem charge_get {ev : KynxEvent} {c : KynxCharge} (h : ev.charge cfg limits = some c) :
    limits[c.routeIdx]? = some c.lim := by
  cases ev with
  | check ipStr now => cases h
  | checkRoute ipStr method path gate now =>
    rw [KynxEvent.charge, kynxChargeOf] at h
    split_ifs at h
    cases hl : kynxLimitOf limits method path with
    | none => rw [hl] at h; cases h
    | some l =>
      rw [hl] at h
      cases hip : kynxParseIp ipStr with
      | none => rw [hip] at h; cases h
      | some ip =>
        rw [hip] at h
        rw [← Option.some.inj h]
        exact kynxLimitOf_get hl

/-! ## Runs -/

/-- What holds of every bucket. -/
def KynxBuckets (P : KynxRouteBucket → Prop) (shards : KynxRouteShards) : Prop :=
  ∀ k b, some b ∈ shards k → P b

variable {P Q : KynxRouteBucket → Prop}

theorem KynxBuckets.charge {shards : KynxRouteShards} (h : KynxBuckets P shards) (c : KynxCharge)
    (now : UInt64) (hkeep : ∀ b, P b → Q b) (hnew : Q (kynxRouteNew c.lim c.routeIdx c.ip now))
    (hserve : ∀ b, P b → b.routeIdx = c.routeIdx → b.ip = c.ip →
      Q (kynxRouteServe c.lim b now).2) : KynxBuckets Q (shards.charge c now) := by
  intro k x hx
  rw [KynxRouteShards.charge] at hx
  split_ifs at hx with hk
  · rcases kynxRouteCharge_mem hx with hold | rfl | ⟨b, hb, hidx, hip, rfl⟩
    · exact hkeep x (h _ x hold)
    · exact hnew
    · exact hserve b (h _ b hb) hidx hip
  · exact hkeep x (h k x hx)

/-- **What a new bucket has and a charge keeps holds of every bucket after any checks.** -/
theorem kynxRun_buckets
    (hnew : ∀ lim routeIdx ip now, limits[routeIdx]? = some lim →
      P (kynxRouteNew lim routeIdx ip now))
    (hserve : ∀ lim b now, limits[b.routeIdx]? = some lim → P b → P (kynxRouteServe lim b now).2)
    (evs : List KynxEvent) {st : KynxState} (h : KynxBuckets P st.routeShards) :
    KynxBuckets P (kynxRun cfg limits st evs).2.routeShards := by
  induction evs generalizing st with
  | nil => exact h
  | cons ev evs ih =>
    refine ih ?_
    rw [kynxStep_routeShards]
    cases hc : ev.charge cfg limits with
    | none => exact h
    | some c =>
      have hget := charge_get hc
      exact h.charge c ev.gate (fun _ hb => hb) (hnew _ _ _ _ hget) fun b hb hidx _ =>
        hserve c.lim b ev.gate (hidx ▸ hget) hb

theorem kynxInit_buckets (P : KynxRouteBucket → Prop) : KynxBuckets P kynxInit.routeShards := by
  intro k b hb
  cases (List.mem_replicate.mp hb).2

end

end Runtime.Kynx
