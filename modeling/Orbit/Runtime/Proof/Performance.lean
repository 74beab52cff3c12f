import Mathlib.Data.List.Basic
import Mathlib.Data.UInt
import Orbit.Runtime.Performance

/-!
# Latency percentiles

A percentile is the upper edge of a bucket of answered calls, but its rank is taken from all calls
(`percentile_reported`): a request that comes in parts counts once for each of them. When every call
is answered, percentiles are in order (`percentile_mono`).
-/

namespace Runtime.Performance

open Http (OrbitHttpLimits orbitHttpParseRequest orbitHttpLimitsReload)

/-! ## What the counters count -/

/-- The duration of a call that is answered. -/
def Call.duration (lim : OrbitHttpLimits) (c : Call) : Option UInt64 :=
  if c.abandoned ∨ (orbitHttpParseRequest lim c.raw).outcome = .more then none
  else some (c.endCycles - c.startCycles)

def durations (lim : OrbitHttpLimits) (calls : List Call) : List UInt64 :=
  calls.filterMap (Call.duration lim)

def longest (ds : List UInt64) : UInt64 :=
  ds.foldl (fun m d => if d > m then d else m) 0

/-- How many durations fall below a bucket. -/
def below (ds : List UInt64) (b : Nat) : Nat :=
  ds.countP fun d => latBucket d < b

structure Counts (s : OrbitPerfStats) (calls : Nat) (ds : List UInt64) : Prop where
  requestCount : s.requestCount = UInt64.ofNat calls
  totalCycles : s.totalCycles = ds.sum
  maxCycles : s.maxCycles = longest ds
  latHist : ∀ i, s.latHist i = UInt64.ofNat (ds.countP fun d => latBucket d = i)

variable {s : OrbitPerfStats} {n : Nat} {ds : List UInt64}

theorem Counts.start (h : Counts s n ds) : Counts (orbitPerfStartRequest s) (n + 1) ds where
  requestCount := by
    rw [orbitPerfStartRequest, h.requestCount]
    exact (UInt64.ofNat_add n 1).symm
  totalCycles := h.totalCycles
  maxCycles := h.maxCycles
  latHist := h.latHist

section
variable (s : OrbitPerfStats) (startCycles endCycles : UInt64)

theorem endRequest_requestCount :
    (orbitPerfEndRequest s startCycles endCycles).requestCount = s.requestCount := by
  unfold orbitPerfEndRequest
  dsimp only
  split_ifs <;> rfl

theorem endRequest_totalCycles : (orbitPerfEndRequest s startCycles endCycles).totalCycles =
    s.totalCycles + (endCycles - startCycles) := by
  unfold orbitPerfEndRequest
  dsimp only
  split_ifs <;> rfl

theorem endRequest_maxCycles : (orbitPerfEndRequest s startCycles endCycles).maxCycles =
    if endCycles - startCycles > s.maxCycles then endCycles - startCycles else s.maxCycles := by
  unfold orbitPerfEndRequest orbitPerfRecordLatency
  dsimp only
  split_ifs <;> rfl

theorem endRequest_latHist : (orbitPerfEndRequest s startCycles endCycles).latHist =
    (orbitPerfRecordLatency s (endCycles - startCycles)).latHist := by
  unfold orbitPerfEndRequest
  dsimp only
  split_ifs <;> rfl

end

theorem Counts.finish (h : Counts s n ds) (startCycles endCycles : UInt64) :
    Counts (orbitPerfEndRequest s startCycles endCycles) n (ds ++ [endCycles - startCycles]) where
  requestCount := (endRequest_requestCount s startCycles endCycles).trans h.requestCount
  totalCycles := by
    rw [endRequest_totalCycles, h.totalCycles, List.sum_append, List.sum_singleton]
  maxCycles := by
    rw [endRequest_maxCycles, h.maxCycles, longest, longest, List.foldl_append]
    rfl
  latHist := by
    intro i
    rw [endRequest_latHist, List.countP_append, List.countP_singleton, UInt64.ofNat_add, ← h.latHist]
    by_cases hi : i = latBucket (endCycles - startCycles)
    · rw [if_pos (decide_eq_true hi.symm)]
      exact if_pos hi
    · rw [if_neg (show ¬ _ from fun h => hi (of_decide_eq_true h).symm)]
      exact (if_neg hi).trans (UInt64.add_zero _).symm

theorem counts_run (lim : OrbitHttpLimits) (calls : List Call) :
    Counts (perfRun lim calls) calls.length (durations lim calls) := by
  induction calls using List.reverseRecOn with
  | nil => exact ⟨rfl, rfl, rfl, fun _ => rfl⟩
  | append_singleton calls c ih =>
    have hstart := ih.start
    rw [perfRun, List.foldl_append, List.foldl_cons, List.foldl_nil, ← perfRun, durations,
      List.filterMap_append, ← durations, List.length_append, List.length_singleton, perfCall]
    have hlast : List.filterMap (Call.duration lim) [c] = (c.duration lim).toList := by
      rw [List.filterMap_cons]
      cases c.duration lim <;> rfl
    rw [hlast, Call.duration]
    by_cases habandoned : c.abandoned = true
    · rw [if_pos habandoned, if_pos (.inl habandoned)]
      exact (List.append_nil _).symm ▸ hstart
    · rw [if_neg habandoned]
      cases houtcome : (orbitHttpParseRequest lim c.raw).outcome with
      | more =>
        rw [if_pos (.inr rfl)]
        exact (List.append_nil _).symm ▸ hstart
      | refused code =>
        rw [if_neg (by simp [habandoned])]
        exact hstart.finish c.startCycles c.endCycles
      | request req consumed =>
        rw [if_neg (by simp [habandoned])]
        exact hstart.finish c.startCycles c.endCycles

theorem durations_length (lim : OrbitHttpLimits) (calls : List Call) :
    (durations lim calls).length ≤ calls.length :=
  List.length_filterMap_le _ _

/-! ## The scan of the buckets -/

theorem below_succ (ds : List UInt64) (b : Nat) :
    below ds (b + 1) = below ds b + ds.countP fun d => latBucket d = b := by
  induction ds with
  | nil => rfl
  | cons d ds ih =>
    unfold below at ih ⊢
    rw [List.countP_cons, List.countP_cons, List.countP_cons, ih]
    rcases Nat.lt_trichotomy (latBucket d) b with h | h | h
    · simp only [show latBucket d < b + 1 by omega, h, h.ne, decide_true, decide_false]
      simp only [if_true, Bool.false_eq_true, if_false]
      omega
    · simp only [h, Nat.lt_add_one, Nat.lt_irrefl, decide_true, decide_false]
      simp only [if_true, Bool.false_eq_true, if_false]
      omega
    · simp only [show ¬ latBucket d < b + 1 by omega, show ¬ latBucket d < b by omega, h.ne',
        decide_false]
      rfl

theorem below_le (ds : List UInt64) (b : Nat) : below ds b ≤ ds.length :=
  List.countP_le_length

theorem percentileScan_eq {hist : Nat → UInt64} (target : UInt64) {ds : List UInt64}
    (hhist : ∀ i, hist i = UInt64.ofNat (ds.countP fun d => latBucket d = i))
    (hlen : ds.length < 2 ^ 64) (n i : Nat) :
    percentileScan hist target n i (UInt64.ofNat (below ds i)) =
      (List.range' i n).find? fun b => target.toNat ≤ below ds (b + 1) := by
  induction n generalizing i with
  | zero => rfl
  | succ n ih =>
    have hseen : UInt64.ofNat (below ds i) + hist i = UInt64.ofNat (below ds (i + 1)) := by
      rw [hhist, below_succ, UInt64.ofNat_add]
    have hle : target ≤ UInt64.ofNat (below ds (i + 1)) ↔ target.toNat ≤ below ds (i + 1) := by
      have hb := below_le ds (i + 1)
      rw [UInt64.le_iff_toNat_le, UInt64.toNat_ofNat_of_lt' (show _ < 2 ^ 64 by omega)]
    rw [percentileScan, List.range'_succ, List.find?_cons, hseen]
    by_cases h : target.toNat ≤ below ds (i + 1)
    · rw [if_pos (hle.mpr h), decide_eq_true h]
    · rw [if_neg (fun ht => h (hle.mp ht)), decide_eq_false h, ih]

/-- The edge of the bucket that a rank falls in, in microseconds; behind the last edge, the longest
duration. -/
def edge (ds : List UInt64) (rank : Nat) : UInt64 :=
  match (List.range ORBIT_PERF_LAT_BUCKETS).find? fun b => rank ≤ below ds (b + 1) with
  | some b => UInt64.ofNat (b + 1) * ORBIT_PERF_LAT_BUCKET_US
  | none => longest ds / ORBIT_PERF_CYCLES_PER_US

theorem scan_find (h : Counts s n ds) (hlen : ds.length < 2 ^ 64) (target : UInt64)
    (buckets : Nat) : percentileScan s.latHist target (buckets + 1) 0 0 =
      ((List.range buckets).find? fun b => target.toNat ≤ below ds (b + 1)).or
        ([buckets].find? fun b => target.toNat ≤ below ds (b + 1)) := by
  have hzero : below ds 0 = 0 := List.countP_eq_zero.mpr fun d _ => by simp
  have hscan := percentileScan_eq target h.latHist hlen (buckets + 1) 0
  rw [hzero, ← List.range_eq_range', List.range_succ, List.find?_append] at hscan
  exact hscan

theorem scan_edge (h : Counts s n ds) (hlen : ds.length < 2 ^ 64) (target : UInt64) :
    (match percentileScan s.latHist target (ORBIT_PERF_LAT_BUCKETS + 1) 0 0 with
      | some i =>
        if i = ORBIT_PERF_LAT_BUCKETS then s.maxCycles / ORBIT_PERF_CYCLES_PER_US
        else UInt64.ofNat (i + 1) * ORBIT_PERF_LAT_BUCKET_US
      | none => s.maxCycles / ORBIT_PERF_CYCLES_PER_US) = edge ds target.toNat := by
  unfold edge
  generalize ORBIT_PERF_LAT_BUCKETS = buckets
  rw [scan_find h hlen, h.maxCycles]
  cases hfind : (List.range buckets).find? fun b => target.toNat ≤ below ds (b + 1) with
  | some b =>
    have hb := List.mem_range.mp (List.mem_of_find?_eq_some hfind)
    exact if_neg (Nat.ne_of_lt hb)
  | none =>
    rw [Option.none_or]
    cases hlast : [buckets].find? fun b => target.toNat ≤ below ds (b + 1) with
    | some b => exact if_pos (List.mem_singleton.mp (List.mem_of_find?_eq_some hlast))
    | none => rfl

theorem percentile_edge (h : Counts s n ds) (hn : n < 2 ^ 54) (hlen : ds.length ≤ n)
    (perMille : UInt64) : orbitPerfPercentileUs s s.requestCount perMille =
      if n = 0 then 0 else edge ds ((n * min perMille.toNat 1000 + 999) / 1000) := by
  have hcount : s.requestCount.toNat = n := by
    rw [h.requestCount]
    exact UInt64.toNat_ofNat_of_lt' (show _ < 2 ^ 64 by omega)
  have hzero : s.requestCount = 0 ↔ n = 0 := by
    rw [← UInt64.toNat_inj, hcount]
    rfl
  have hpart : (if perMille > 1000 then 1000 else perMille).toNat = min perMille.toNat 1000 := by
    split_ifs with hgt
    · exact (Nat.min_eq_right (Nat.le_of_lt (UInt64.lt_iff_toNat_lt.mp hgt))).symm
    · exact (Nat.min_eq_left (Nat.not_lt.mp fun hlt => hgt (UInt64.lt_iff_toNat_lt.mpr hlt))).symm
  have htarget : ((s.requestCount * (if perMille > 1000 then 1000 else perMille) + 999) /
      1000).toNat = (n * min perMille.toNat 1000 + 999) / 1000 := by
    have hle : n * min perMille.toNat 1000 ≤ n * 1000 :=
      Nat.mul_le_mul_left _ (Nat.min_le_right _ _)
    have h999 : (999 : UInt64).toNat = 999 := rfl
    have h1000 : (1000 : UInt64).toNat = 1000 := rfl
    rw [UInt64.toNat_div, UInt64.toNat_add, UInt64.toNat_mul, hcount, hpart, h999, h1000,
      Nat.mod_eq_of_lt (show _ < 2 ^ 64 by omega), Nat.mod_eq_of_lt (show _ < 2 ^ 64 by omega)]
  rw [orbitPerfPercentileUs]
  by_cases hnil : n = 0
  · rw [if_pos hnil, if_pos (hzero.mpr hnil)]
  · rw [if_neg hnil, if_neg (fun h => hnil (hzero.mp h))]
    exact (scan_edge h (by omega) _).trans (congrArg (edge _) htarget)

/-- **The percentiles reported** after any calls of a dispatcher: the edge at the rank that the number
of all calls gives. -/
theorem percentile_reported (lim : OrbitHttpLimits) {calls : List Call} (perMille : UInt64)
    (h : calls.length < 2 ^ 54) :
    orbitPerfPercentileUs (perfRun lim calls) (perfRun lim calls).requestCount perMille =
      if calls.length = 0 then 0
      else edge (durations lim calls) ((calls.length * min perMille.toNat 1000 + 999) / 1000) :=
  percentile_edge (counts_run lim calls) h (durations_length lim calls) perMille

/-- A half of a request, and the whole of it. -/
def inHalves : List Call :=
  [⟨"GET / HT".toList, 0, 90000, false⟩, ⟨"GET / HTTP/1.1\r\n\r\n".toList, 90000, 180000, false⟩]

theorem percentile_reported_halves :
    let lim := orbitHttpLimitsReload fun _ => none
    orbitPerfPercentileUs (perfRun lim inHalves) (perfRun lim inHalves).requestCount 990 =
      edge (durations lim inHalves) 2 := by
  have hreported := percentile_reported (orbitHttpLimitsReload fun _ => none) 990
    (show inHalves.length < 2 ^ 54 by decide)
  have hrank : (inHalves.length * min (990 : UInt64).toNat 1000 + 999) / 1000 = 2 := by decide
  rw [if_neg (show ¬ inHalves.length = 0 from nofun), hrank] at hreported
  exact hreported

/-! ## The order of percentiles -/

theorem le_longest {d : UInt64} (hd : d ∈ ds) : d.toNat ≤ (longest ds).toNat := by
  have hstep (m d : UInt64) : m.toNat ≤ (if d > m then d else m).toNat ∧
      d.toNat ≤ (if d > m then d else m).toNat := by
    split_ifs with h
    · exact ⟨Nat.le_of_lt (UInt64.lt_iff_toNat_lt.mp h), Nat.le_refl _⟩
    · exact ⟨Nat.le_refl _, Nat.not_lt.mp fun hlt => h (UInt64.lt_iff_toNat_lt.mpr hlt)⟩
  have hfold : ∀ (ds : List UInt64) (m : UInt64),
      m.toNat ≤ (ds.foldl (fun m d => if d > m then d else m) m).toNat ∧
        ∀ d ∈ ds, d.toNat ≤ (ds.foldl (fun m d => if d > m then d else m) m).toNat := by
    intro ds
    induction ds with
    | nil => exact fun m => ⟨Nat.le_refl _, fun _ hd => nomatch hd⟩
    | cons e ds ih =>
      intro m
      obtain ⟨hm, hds⟩ := ih (if e > m then e else m)
      refine ⟨Nat.le_trans (hstep m e).1 hm, fun d hd => ?_⟩
      rcases List.mem_cons.mp hd with rfl | hd
      · exact Nat.le_trans (hstep m d).2 hm
      · exact hds d hd
  exact (hfold ds 0).2 d hd

theorem latBucket_eq (d : UInt64) :
    latBucket d = min (d.toNat / 250000) ORBIT_PERF_LAT_BUCKETS := by
  have hdiv : (d / (ORBIT_PERF_CYCLES_PER_US * ORBIT_PERF_LAT_BUCKET_US)).toNat =
      d.toNat / 250000 := UInt64.toNat_div ..
  unfold latBucket
  dsimp only
  rw [hdiv]
  split_ifs <;> omega

/-- A rank that no bucket below the last comes to is that of a call of 100 milliseconds. -/
theorem overflow_longest {rank : Nat} (hrank : rank ≤ ds.length)
    (h : below ds ORBIT_PERF_LAT_BUCKETS < rank) :
    100000 ≤ (longest ds / ORBIT_PERF_CYCLES_PER_US).toNat := by
  obtain ⟨d, hd, hbucket⟩ : ∃ d ∈ ds, ¬ latBucket d < ORBIT_PERF_LAT_BUCKETS := by
    by_contra hall
    have hfull : below ds ORBIT_PERF_LAT_BUCKETS = ds.length :=
      List.countP_eq_length.mpr fun d hd =>
        decide_eq_true (not_not.mp fun hnot => hall ⟨d, hd, hnot⟩)
    omega
  have hd' := le_longest hd
  have hlong : 250000000 ≤ d.toNat := by
    rw [latBucket_eq] at hbucket
    have hbuckets : ORBIT_PERF_LAT_BUCKETS = 1000 := rfl
    omega
  rw [UInt64.toNat_div]
  have h2500 : ORBIT_PERF_CYCLES_PER_US.toNat = 2500 := rfl
  rw [h2500]
  omega

theorem edge_mono {r r' : Nat} (h : r ≤ r') (hlen : r' ≤ ds.length) :
    (edge ds r).toNat ≤ (edge ds r').toNat := by
  have hedge (b : Nat) (hb : b < ORBIT_PERF_LAT_BUCKETS) :
      (UInt64.ofNat (b + 1) * ORBIT_PERF_LAT_BUCKET_US).toNat = (b + 1) * 100 := by
    have hbuckets : ORBIT_PERF_LAT_BUCKETS = 1000 := rfl
    have h100 : ORBIT_PERF_LAT_BUCKET_US.toNat = 100 := rfl
    rw [UInt64.toNat_mul, UInt64.toNat_ofNat_of_lt' (show _ < 2 ^ 64 by omega), h100]
    exact Nat.mod_eq_of_lt (by omega)
  unfold edge
  cases hfind : (List.range ORBIT_PERF_LAT_BUCKETS).find? fun b => r ≤ below ds (b + 1) with
  | some b =>
    obtain ⟨-, hb, hleast⟩ := List.find?_range_eq_some.mp hfind
    cases hfind' : (List.range ORBIT_PERF_LAT_BUCKETS).find? fun b => r' ≤ below ds (b + 1) with
    | some b' =>
      obtain ⟨hr', hb', -⟩ := List.find?_range_eq_some.mp hfind'
      have hle : b ≤ b' := by
        by_contra hlt
        have hnot := hleast b' (by omega)
        simp only [decide_eq_true_eq, Bool.not_eq_true', decide_eq_false_iff_not] at hr' hnot
        omega
      dsimp only
      rw [hedge b (List.mem_range.mp hb), hedge b' (List.mem_range.mp hb')]
      omega
    | none =>
      have hnone := List.find?_range_eq_none.mp hfind' (ORBIT_PERF_LAT_BUCKETS - 1) (by decide)
      simp only [Bool.not_eq_true', decide_eq_false_iff_not, Nat.not_le] at hnone
      have hlong := overflow_longest hlen hnone
      have hb' := List.mem_range.mp hb
      have hbuckets : ORBIT_PERF_LAT_BUCKETS = 1000 := rfl
      dsimp only
      rw [hedge b hb']
      omega
  | none =>
    have hnone := List.find?_range_eq_none.mp hfind
    have hfind' : (List.range ORBIT_PERF_LAT_BUCKETS).find?
        (fun b => r' ≤ below ds (b + 1)) = none := by
      refine List.find?_range_eq_none.mpr fun b hb => ?_
      have hnot := hnone b hb
      simp only [Bool.not_eq_true', decide_eq_false_iff_not] at hnot ⊢
      omega
    rw [hfind']

theorem durations_length_eq {lim : OrbitHttpLimits} {calls : List Call}
    (h : ∀ c ∈ calls, c.duration lim ≠ none) : (durations lim calls).length = calls.length := by
  induction calls with
  | nil => rfl
  | cons c calls ih =>
    obtain ⟨d, hd⟩ := Option.ne_none_iff_exists'.mp (h c List.mem_cons_self)
    rw [durations, List.filterMap_cons_some hd, List.length_cons, List.length_cons, ← durations,
      ih fun c' hc => h c' (List.mem_cons_of_mem _ hc)]

/-- **Percentiles are in order** when every call is answered. -/
theorem percentile_mono (lim : OrbitHttpLimits) {calls : List Call} {perMille perMille' : UInt64}
    (h : calls.length < 2 ^ 54) (hanswered : ∀ c ∈ calls, c.duration lim ≠ none)
    (hle : perMille ≤ perMille') :
    orbitPerfPercentileUs (perfRun lim calls) (perfRun lim calls).requestCount perMille ≤
      orbitPerfPercentileUs (perfRun lim calls) (perfRun lim calls).requestCount perMille' := by
  have hlen := durations_length_eq hanswered
  rw [percentile_edge (counts_run lim calls) h hlen.le, percentile_edge (counts_run lim calls) h hlen.le]
  split_ifs with hnil
  · exact UInt64.le_refl _
  · rw [UInt64.le_iff_toNat_le] at hle ⊢
    have hpart : min perMille.toNat 1000 ≤ min perMille'.toNat 1000 := by omega
    have hmul := Nat.mul_le_mul_left calls.length hpart
    have htop : calls.length * min perMille'.toNat 1000 ≤ calls.length * 1000 :=
      Nat.mul_le_mul_left _ (Nat.min_le_right _ _)
    exact edge_mono (by omega) (by omega)

theorem percentile_mono_whole :
    let lim := orbitHttpLimitsReload fun _ => none
    let calls := inHalves.drop 1
    orbitPerfPercentileUs (perfRun lim calls) (perfRun lim calls).requestCount 500 ≤
      orbitPerfPercentileUs (perfRun lim calls) (perfRun lim calls).requestCount 990 := by
  intro lim calls
  have hanswered : Call.duration (orbitHttpLimitsReload fun _ => none)
      ⟨"GET / HTTP/1.1\r\n\r\n".toList, 90000, 180000, false⟩ ≠ none := by decide
  refine percentile_mono lim (by decide) (fun c hc => ?_) (by decide)
  rw [List.mem_singleton.mp hc]
  exact hanswered

end Runtime.Performance
