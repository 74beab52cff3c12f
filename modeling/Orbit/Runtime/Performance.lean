import Orbit.Runtime.Response

/-!
# Latency counters

The counters of `runtime/performance.h` that a request touches, and the calls of a dispatcher
(`runtime/http.c`, `compiler/emit/route_runtime.orb`) that touch them. The readings of the clock are
inputs. Threads are left out: the updates of the shortest and the longest duration are not atomic.
-/

namespace Runtime.Performance

open Http (OrbitHttpLimits Text orbitHttpParseRequest)

def ORBIT_PERF_LAT_BUCKET_US : UInt64 := 100

def ORBIT_PERF_LAT_BUCKETS : Nat := 1000

def ORBIT_PERF_CYCLES_PER_US : UInt64 := 2500

/-- `orbit_perf_stats`, with the histogram. -/
structure OrbitPerfStats where
  requestCount : UInt64
  totalCycles : UInt64
  minCycles : UInt64
  maxCycles : UInt64
  latHist : Nat → UInt64

def perfInit : OrbitPerfStats := ⟨0, 0, 0, 0, fun _ => 0⟩

def orbitPerfStartRequest (s : OrbitPerfStats) : OrbitPerfStats :=
  { s with requestCount := s.requestCount + 1 }

/-- The bucket of a duration. -/
def latBucket (durationCycles : UInt64) : Nat :=
  let bucket := durationCycles / (ORBIT_PERF_CYCLES_PER_US * ORBIT_PERF_LAT_BUCKET_US)
  if bucket.toNat > ORBIT_PERF_LAT_BUCKETS then ORBIT_PERF_LAT_BUCKETS else bucket.toNat

def orbitPerfRecordLatency (s : OrbitPerfStats) (durationCycles : UInt64) : OrbitPerfStats :=
  let bucket := latBucket durationCycles
  { s with latHist := fun i => if i = bucket then s.latHist i + 1 else s.latHist i }

/-- The loop over the buckets, from `i` on. -/
def percentileScan (hist : Nat → UInt64) (target : UInt64) : Nat → Nat → UInt64 → Option Nat
  | 0, _, _ => none
  | n + 1, i, seen =>
    let seen := seen + hist i
    if target ≤ seen then some i else percentileScan hist target n (i + 1) seen

def orbitPerfPercentileUs (s : OrbitPerfStats) (requestCount perMille : UInt64) : UInt64 :=
  if requestCount = 0 then 0
  else
    let perMille := if perMille > 1000 then 1000 else perMille
    let target := (requestCount * perMille + 999) / 1000
    match percentileScan s.latHist target (ORBIT_PERF_LAT_BUCKETS + 1) 0 0 with
    | some i =>
      if i = ORBIT_PERF_LAT_BUCKETS then s.maxCycles / ORBIT_PERF_CYCLES_PER_US
      else UInt64.ofNat (i + 1) * ORBIT_PERF_LAT_BUCKET_US
    | none => s.maxCycles / ORBIT_PERF_CYCLES_PER_US

def orbitPerfEndRequest (s : OrbitPerfStats) (startCycles endCycles : UInt64) : OrbitPerfStats :=
  let duration := endCycles - startCycles
  let s := orbitPerfRecordLatency s duration
  let s := { s with totalCycles := s.totalCycles + duration }
  let s :=
    if duration < s.minCycles ∨ s.minCycles = 0 then { s with minCycles := duration } else s
  if duration > s.maxCycles then { s with maxCycles := duration } else s

/-! ## The calls of a dispatcher -/

/-- A call: the bytes of the connection so far, the clock at its two ends, and whether an allocation
that failed has left it by `longjmp`. -/
structure Call where
  raw : Text
  startCycles : UInt64
  endCycles : UInt64
  abandoned : Bool

/-- Only a call on a part of a request, and one that is left, does not come to
`orbit_perf_end_request`. -/
def perfCall (lim : OrbitHttpLimits) (s : OrbitPerfStats) (c : Call) : OrbitPerfStats :=
  let s := orbitPerfStartRequest s
  if c.abandoned then s
  else
    match (orbitHttpParseRequest lim c.raw).outcome with
    | .more => s
    | .refused _ | .request _ _ => orbitPerfEndRequest s c.startCycles c.endCycles

def perfRun (lim : OrbitHttpLimits) (calls : List Call) : OrbitPerfStats :=
  calls.foldl (perfCall lim) perfInit

end Runtime.Performance
