import Mathlib.Algebra.Group.Nat.Defs
import Orbit.Lib.Find
import Orbit.Runtime.Http

/-!
# Admission control

The checks of `runtime/kynx.c`: a token bucket, a suspicion score and a ban for each client address
(`orbitKynxCheck`), kept in shards of 64 slots, and a token bucket for each address and annotated
route before it (`orbitKynxCheckRoute`). Time stamps and their differences are `UInt64`, as in the
source; the configuration is `Int32`. A run is a sequence of checks, each with the clock readings it
takes (`kynxRun`); for concurrent checks the reading and the lock are two turns (`kynxTurns`).

A shard's `count` is kept beside its slots (`kynxCountRun`). The Bloom filter and the other counters
are written only and left out.
-/

namespace Runtime.Kynx

open Http (Text)

/-! ## Addresses -/

inductive OrbitKynxIP where
  | v4 (addr : UInt32)
  | v6 (addr : List UInt8)
  deriving DecidableEq, Repr

def isDecimal (c : Char) : Bool := '0' ≤ c && c ≤ '9'

def kynxFastParseIpv4From : Text → (val octet : UInt32) → (dots : Nat) → Option UInt32
  | [], val, octet, dots => if dots ≠ 3 then none else some ((val <<< 8) ||| octet)
  | c :: t, val, octet, dots =>
    if isDecimal c then
      let octet := octet * 10 + UInt32.ofNat (c.toNat - '0'.toNat)
      if octet > 255 then none else kynxFastParseIpv4From t val octet dots
    else if c = '.' then
      if dots ≥ 3 then none else kynxFastParseIpv4From t ((val <<< 8) ||| octet) 0 (dots + 1)
    else none

def kynxFastParseIpv4 (str : Text) : Option UInt32 := kynxFastParseIpv4From str 0 0 0

/-- The bytes of a word, high byte first. -/
def bytesOf (v : UInt32) : List UInt8 :=
  [(v >>> 24).toUInt8, (v >>> 16).toUInt8, (v >>> 8).toUInt8, v.toUInt8]

def hexDigit (c : Char) : Option Nat :=
  if isDecimal c then some (c.toNat - '0'.toNat)
  else if 'a' ≤ c ∧ c ≤ 'f' then some (c.toNat - 'a'.toNat + 10)
  else if 'A' ≤ c ∧ c ≤ 'F' then some (c.toNat - 'A'.toNat + 10)
  else none

def hexGroup : Text → Nat → Option Nat
  | [], val => some val
  | c :: t, val => do
    let d ← hexDigit c
    if val * 16 + d > 0xFFFF then none else hexGroup t (val * 16 + d)

/-- The bytes of the groups of a text without `::`, after those already written. -/
def kynxParseV6Span : (fuel : Nat) → Text → (written : List UInt8) → Option (List UInt8)
  | 0, _, _ => none
  | fuel + 1, p, written =>
    if p = [] then some written
    else
      let group := p.takeWhile (· ≠ ':')
      let rest := p.dropWhile (· ≠ ':')
      if '.' ∈ group then
        if p.length ≥ 16 ∨ rest ≠ [] then none
        else do
          let v4 ← kynxFastParseIpv4 p
          if written.length + 4 > 16 then none else some (written ++ bytesOf v4)
      else if group = [] then none
      else do
        let val ← hexGroup group 0
        if written.length + 2 > 16 then none
        else
          let written := written ++ [UInt8.ofNat (val / 256), UInt8.ofNat (val % 256)]
          match rest with
          | [] => some written
          | _ :: next => if next = [] then none else kynxParseV6Span fuel next written

def kynxParseIpv6 (str : Text) : Option (List UInt8) :=
  match Lib.Find.indexOf [':', ':'] str with
  | none => do
    let out ← kynxParseV6Span (str.length + 1) str []
    if out.length = 16 then some out else none
  | some sep => do
    let head ← kynxParseV6Span (str.length + 1) (str.take sep) []
    if head.length > 14 then none
    else
      let tail := str.drop (sep + 2)
      if (Lib.Find.indexOf [':', ':'] tail).isSome then none
      else do
        let tailBytes ← kynxParseV6Span (str.length + 1) tail []
        if head.length + tailBytes.length > 16 then none
        else
          let zeros := List.replicate (16 - (head.length + tailBytes.length)) 0
          some (head ++ zeros ++ tailBytes)

def kynxParseIp (ipStr : Text) : Option OrbitKynxIP :=
  if ':' ∈ ipStr then (kynxParseIpv6 ipStr).map .v6 else (kynxFastParseIpv4 ipStr).map .v4

def kynxHashIp : OrbitKynxIP → UInt32
  | .v4 addr => (2166136261 ^^^ addr) * 16777619
  | .v6 addr => addr.foldl (fun hash b => (hash ^^^ b.toUInt32) * 16777619) 2166136261

/-! ## The bucket of an address -/

structure OrbitKynxConfig where
  rateLimit : Int32
  windowMs : Int32
  burst : Int32
  banThreshold : Int32
  scoreIncrement : Int32
  scoreDecay : Int32
  banDurationS : Int32
  enabled : Bool
  deriving DecidableEq, Repr

/-- The score is an `int32_t` in the source. Under the configurations that the callers of
`orbit_kynx_init` pass (`KynxScoresOk`) it stays in that range; beyond them the model is not exact. -/
structure OrbitKynxEntry where
  ip : OrbitKynxIP
  lastRefillNs : UInt64
  lastViolationNs : UInt64
  lastScoreDecayNs : UInt64
  tokensMilli : Int
  suspicionScore : Int
  isBanned : Bool
  bannedAtNs : UInt64
  deriving DecidableEq, Repr

/-- What a check answers, and what `Retry-After` says. -/
structure KynxVerdict where
  allowed : Bool
  retryMs : Int32
  deriving DecidableEq, Repr

/-- `if (x < 1) x = 1`. -/
def atLeastOne (x : Int32) : Int := if x.toInt < 1 then 1 else x.toInt

section
variable (cfg : OrbitKynxConfig)

def kynxEffectiveBurst : Int :=
  let b := cfg.burst.toInt
  let b := if b ≤ 0 then cfg.rateLimit.toInt else b
  if b < 1 then 1 else b

def kynxBanDurationNs : UInt64 :=
  let s := cfg.banDurationS.toInt
  let s := if s ≤ 0 then 300 else s
  UInt64.ofInt s * 1000000000

/-- The milli-tokens gained in a time, which is cut at ten windows. -/
def kynxGained (rate window : Int) (elapsed : UInt64) : Int :=
  let maxEl := UInt64.ofInt window * 1000000 * 10
  let elapsed := if elapsed > maxEl then maxEl else elapsed
  ((elapsed * UInt64.ofInt rate * 1000) / (UInt64.ofInt window * 1000000)).toNat

def kynxRefill (e : OrbitKynxEntry) (now : UInt64) : OrbitKynxEntry :=
  let rate := atLeastOne cfg.rateLimit
  let window := atLeastOne cfg.windowMs
  let capMilli := kynxEffectiveBurst cfg * 1000
  if e.lastRefillNs = 0 || now ≤ e.lastRefillNs then { e with lastRefillNs := now }
  else
    let tokens := e.tokensMilli + kynxGained rate window (now - e.lastRefillNs)
    { e with
      lastRefillNs := now
      tokensMilli := if tokens > capMilli then capMilli else tokens }

/-- The milliseconds until a bucket holds a whole token. -/
def kynxRetryAfter (tokensMilli rate window : Int) : Int32 :=
  let need := 1000 - tokensMilli
  if need ≤ 0 then 1
  else
    let ms := (need * window).tdiv (rate * 1000)
    let ms := if ms < 1 then 1 else ms
    Int32.ofInt (if ms > window then window else ms)

/-- The seconds of the header `Retry-After`, from the milliseconds of the denial. -/
def kynxRetryAfterHeader (retryMs : Int32) : Int32 :=
  let s := (retryMs + 999) / 1000
  if s < 1 then 1 else s

def kynxWindowNs : UInt64 := UInt64.ofInt cfg.windowMs.toInt * 1000000

/-- A token is spent; the score decays at most once in a window. -/
def kynxSpend (e : OrbitKynxEntry) (now : UInt64) : OrbitKynxEntry :=
  let e := { e with tokensMilli := e.tokensMilli - 1000 }
  if e.suspicionScore > 0 ∧ now - e.lastScoreDecayNs ≥ kynxWindowNs cfg then
    let score := e.suspicionScore - cfg.scoreDecay.toInt
    { e with
      suspicionScore := if score < 0 then 0 else score
      lastScoreDecayNs := now }
  else e

/-- A denial scores at most once in a window, and the score may ban. -/
def kynxScore (e : OrbitKynxEntry) (now : UInt64) : OrbitKynxEntry :=
  if now - e.lastViolationNs ≥ kynxWindowNs cfg then
    let e := { e with
      suspicionScore := e.suspicionScore + cfg.scoreIncrement.toInt
      lastViolationNs := now }
    if e.suspicionScore ≥ cfg.banThreshold.toInt then { e with isBanned := true, bannedAtNs := now }
    else e
  else e

/-- The check of an address that is not banned. -/
def kynxServe (e : OrbitKynxEntry) (now : UInt64) : KynxVerdict × OrbitKynxEntry :=
  let e := kynxRefill cfg e now
  if e.tokensMilli ≥ 1000 then (⟨true, 0⟩, kynxSpend cfg e now)
  else
    (⟨false, kynxRetryAfter e.tokensMilli (atLeastOne cfg.rateLimit) (atLeastOne cfg.windowMs)⟩,
      kynxScore cfg e now)

/-- The check of an address that has an entry. -/
def kynxCheckEntry (e : OrbitKynxEntry) (now : UInt64) : KynxVerdict × OrbitKynxEntry :=
  if e.isBanned then
    if now - e.bannedAtNs > kynxBanDurationNs cfg then
      kynxServe cfg { e with isBanned := false, suspicionScore := e.suspicionScore.tdiv 2 } now
    else
      let left := kynxBanDurationNs cfg - (now - e.bannedAtNs)
      (⟨false, Int32.ofInt (left / 1000000).toNat⟩, e)
  else kynxServe cfg e now

/-- A first check spends one token of a full bucket. -/
def kynxNewEntry (ip : OrbitKynxIP) (now : UInt64) : OrbitKynxEntry where
  ip := ip
  lastRefillNs := now
  lastViolationNs := 0
  lastScoreDecayNs := now
  tokensMilli := kynxEffectiveBurst cfg * 1000 - 1000
  suspicionScore := 0
  isBanned := false
  bannedAtNs := 0

end

/-! ## Shards -/

def KYNX_SLOTS_PER_SHARD : Nat := 64
def KYNX_SHARD_COUNT : Nat := 1024

/-- A free slot is `none`. -/
abbrev KynxShard := List (Option OrbitKynxEntry)

/-- What the search notes on its way: the first free slot, and the slot refilled longest ago. -/
structure KynxSearch where
  freeSlot : Option Nat
  oldestSlot : Nat
  oldestTime : UInt64
  deriving DecidableEq, Repr

inductive KynxFind where
  | found (slot : Nat) (e : OrbitKynxEntry)
  | absent (s : KynxSearch)
  deriving DecidableEq, Repr

/-- The search from slot `i` on. -/
def kynxFindFrom (ip : OrbitKynxIP) : Nat → KynxSearch → KynxShard → KynxFind
  | _, s, [] => .absent s
  | i, s, none :: slots => kynxFindFrom ip (i + 1) { s with freeSlot := s.freeSlot.or (some i) } slots
  | i, s, some e :: slots =>
    if e.ip = ip then .found i e
    else
      kynxFindFrom ip (i + 1)
        (if e.lastRefillNs < s.oldestTime then
          { s with oldestTime := e.lastRefillNs, oldestSlot := i } else s) slots

def kynxFind (ip : OrbitKynxIP) (now : UInt64) (shard : KynxShard) : KynxFind :=
  kynxFindFrom ip 0 { freeSlot := none, oldestSlot := 0, oldestTime := now } shard

/-- The slot of a new entry: a free one, or else that of the oldest entry. -/
def KynxSearch.target (s : KynxSearch) : Nat := s.freeSlot.getD s.oldestSlot

def kynxCheckShard (cfg : OrbitKynxConfig) (ip : OrbitKynxIP) (now : UInt64) (shard : KynxShard) :
    KynxVerdict × KynxShard :=
  match kynxFind ip now shard with
  | .found i e =>
    let r := kynxCheckEntry cfg e now
    (r.1, shard.set i (some r.2))
  | .absent s => (⟨true, 0⟩, shard.set s.target (some (kynxNewEntry cfg ip now)))

abbrev KynxShards := Nat → KynxShard

def kynxShardOf (ip : OrbitKynxIP) : Nat := (kynxHashIp ip).toNat % KYNX_SHARD_COUNT

/-- A check of an address that could be read. -/
def kynxCheckIp (cfg : OrbitKynxConfig) (ip : OrbitKynxIP) (now : UInt64) (shards : KynxShards) :
    KynxVerdict × KynxShards :=
  let r := kynxCheckShard cfg ip now (shards (kynxShardOf ip))
  (r.1, fun i => if i = kynxShardOf ip then r.2 else shards i)

def orbitKynxCheck (cfg : OrbitKynxConfig) (ipStr : Text) (now : UInt64) (shards : KynxShards) :
    KynxVerdict × KynxShards :=
  if !cfg.enabled then (⟨true, 0⟩, shards)
  else
    match kynxParseIp ipStr with
    | none => (⟨true, 0⟩, shards)
    | some ip => kynxCheckIp cfg ip now shards

/-! ## Route limits -/

structure OrbitKynxRouteLimit where
  method : Text
  path : Text
  rate : Int32
  windowMs : Int32
  burst : Int32
  deriving DecidableEq, Repr

def KYNX_MAX_ROUTE_LIMITS : Nat := 32

def orbitKynxRegisterRouteLimit (limits : List OrbitKynxRouteLimit) (method path : Text)
    (rate windowMs burst : Int32) : List OrbitKynxRouteLimit :=
  if rate ≤ 0 then limits
  else if limits.length ≥ KYNX_MAX_ROUTE_LIMITS then limits
  else if limits.any fun r => r.method = method && r.path = path then limits
  else limits ++ [{ method, path, rate, windowMs := if windowMs > 0 then windowMs else 1000,
                    burst := if burst > 0 then burst else rate }]

/-- The loop of `kynx_path_match`; each turn of it shortens the pattern. -/
def kynxPathMatchFrom : (fuel : Nat) → (p s : Text) → Bool
  | 0, _, _ => false
  | fuel + 1, p, s =>
    match p, s with
    | c :: p', d :: s' =>
      if c = '*' ∧ p' = [] then true
      else if c = ':' ∨ c = '\x7b' then
        kynxPathMatchFrom fuel ((c :: p').dropWhile (· ≠ '/')) ((d :: s').dropWhile (· ≠ '/'))
      else if c ≠ d then false
      else kynxPathMatchFrom fuel p' s'
    | p, s => p = ['*'] || (p = [] && s = [])

def kynxPathMatch (pattern path : Text) : Bool :=
  pattern = path || kynxPathMatchFrom (pattern.length + 1) pattern path

structure KynxRouteBucket where
  ip : OrbitKynxIP
  routeIdx : Nat
  lastRefillNs : UInt64
  tokensMilli : Int
  deriving DecidableEq, Repr

def KYNX_ROUTE_SHARD_COUNT : Nat := 16
def KYNX_ROUTE_SLOTS_PER_SHARD : Nat := 64

/-- A slot that is not used is `none`. -/
abbrev KynxRouteShard := List (Option KynxRouteBucket)

def kynxRouteShard (ip : OrbitKynxIP) (routeIdx : Nat) : Nat :=
  (kynxHashIp ip ^^^ (UInt32.ofNat routeIdx * 0x9E3779B1)).toNat % KYNX_ROUTE_SHARD_COUNT

/-- The bucket of a route holds at most `rate` tokens. -/
def kynxRouteRefill (b : KynxRouteBucket) (rate window : Int) (now : UInt64) : KynxRouteBucket :=
  if b.lastRefillNs = 0 || now ≤ b.lastRefillNs then { b with lastRefillNs := now }
  else
    let tokens := b.tokensMilli + kynxGained rate window (now - b.lastRefillNs)
    let cap := (if rate > 0 then rate else 1) * 1000
    { b with lastRefillNs := now, tokensMilli := if tokens > cap then cap else tokens }

inductive KynxRouteFind where
  | found (slot : Nat) (b : KynxRouteBucket)
  | absent (s : KynxSearch)

def kynxRouteFindFrom (ip : OrbitKynxIP) (routeIdx : Nat) :
    Nat → KynxSearch → KynxRouteShard → KynxRouteFind
  | _, s, [] => .absent s
  | i, s, none :: slots =>
    kynxRouteFindFrom ip routeIdx (i + 1) { s with freeSlot := s.freeSlot.or (some i) } slots
  | i, s, some b :: slots =>
    if b.routeIdx = routeIdx ∧ b.ip = ip then .found i b
    else
      kynxRouteFindFrom ip routeIdx (i + 1)
        (if b.lastRefillNs < s.oldestTime then
          { s with oldestTime := b.lastRefillNs, oldestSlot := i } else s) slots

abbrev KynxRouteShards := Nat → KynxRouteShard

/-- The bucket of the address and the route: `some` verdict when it denies. -/
def kynxRouteCharge (lim : OrbitKynxRouteLimit) (routeIdx : Nat) (ip : OrbitKynxIP) (now : UInt64)
    (shard : KynxRouteShard) : Option KynxVerdict × KynxRouteShard :=
  let rate := atLeastOne lim.rate
  let window := atLeastOne lim.windowMs
  let burst := if lim.burst.toInt < 1 then rate else lim.burst.toInt
  match kynxRouteFindFrom ip routeIdx 0
      { freeSlot := none, oldestSlot := 0, oldestTime := now } shard with
  | .absent s =>
    let tokens := burst * 1000 - 1000
    (none, shard.set s.target
      (some { ip, routeIdx, lastRefillNs := now, tokensMilli := if tokens < 0 then 0 else tokens }))
  | .found i b =>
    let b := kynxRouteRefill b rate window now
    if b.tokensMilli ≥ 1000 then
      (none, shard.set i (some { b with tokensMilli := b.tokensMilli - 1000 }))
    else (some ⟨false, kynxRetryAfter b.tokensMilli rate window⟩, shard.set i (some b))

structure KynxState where
  shards : KynxShards
  routeShards : KynxRouteShards

/-- The limit of a request: the first whose method is the request's and whose pattern matches. -/
def kynxLimitOf (limits : List OrbitKynxRouteLimit) (method path : Text) :
    Option (OrbitKynxRouteLimit × Nat) :=
  limits.zipIdx.find? fun l => l.1.method = method && kynxPathMatch l.1.path path

/-- The gate of the route, before the check of the address: `some` verdict when it denies. -/
def kynxRouteGate (cfg : OrbitKynxConfig) (limits : List OrbitKynxRouteLimit)
    (ipStr method path : Text) (now : UInt64) (routeShards : KynxRouteShards) :
    Option KynxVerdict × KynxRouteShards :=
  if !cfg.enabled then (none, routeShards)
  else
    match kynxLimitOf limits method path, kynxParseIp ipStr with
    | some (lim, routeIdx), some ip =>
      let k := kynxRouteShard ip routeIdx
      let r := kynxRouteCharge lim routeIdx ip now (routeShards k)
      (r.1, fun i => if i = k then r.2 else routeShards i)
    | _, _ => (none, routeShards)

/-- The gate reads the clock at `gate`, the check of the address after it at `now`. -/
def orbitKynxCheckRoute (cfg : OrbitKynxConfig) (limits : List OrbitKynxRouteLimit)
    (ipStr method path : Text) (gate now : UInt64) (st : KynxState) : KynxVerdict × KynxState :=
  let r := kynxRouteGate cfg limits ipStr method path gate st.routeShards
  match r.1 with
  | some verdict => (verdict, { st with routeShards := r.2 })
  | none =>
    let c := orbitKynxCheck cfg ipStr now st.shards
    (c.1, { shards := c.2, routeShards := r.2 })

/-! ## Runs -/

/-- A check, with the text of the address and the clock readings. -/
inductive KynxEvent where
  | check (ipStr : Text) (now : UInt64)
  | checkRoute (ipStr method path : Text) (gate now : UInt64)
  deriving DecidableEq, Repr

def KynxEvent.ipStr : KynxEvent → Text
  | .check ipStr _ => ipStr
  | .checkRoute ipStr _ _ _ _ => ipStr

/-- The reading of the check of the address. -/
def KynxEvent.now : KynxEvent → UInt64
  | .check _ now => now
  | .checkRoute _ _ _ _ now => now

/-- `orbit_kynx_init` and the cleanup before it. -/
def kynxInit : KynxState where
  shards := fun _ => List.replicate KYNX_SLOTS_PER_SHARD none
  routeShards := fun _ => List.replicate KYNX_ROUTE_SLOTS_PER_SHARD none

section
variable (cfg : OrbitKynxConfig) (limits : List OrbitKynxRouteLimit)

def kynxStep (st : KynxState) : KynxEvent → KynxVerdict × KynxState
  | .check ipStr now =>
    let c := orbitKynxCheck cfg ipStr now st.shards
    (c.1, { st with shards := c.2 })
  | .checkRoute ipStr method path gate now =>
    orbitKynxCheckRoute cfg limits ipStr method path gate now st

/-- The verdicts of a run and the state after it. -/
def kynxRun : KynxState → List KynxEvent → List KynxVerdict × KynxState
  | st, [] => ([], st)
  | st, ev :: evs =>
    let r := kynxStep cfg limits st ev
    let rest := kynxRun r.2 evs
    (r.1 :: rest.1, rest.2)

/-! ## The count of a shard -/

/-- An insertion into a free slot is counted. -/
def kynxCountIp (ip : OrbitKynxIP) (now : UInt64) (shards : KynxShards) (counts : Nat → UInt32) :
    Nat → UInt32 :=
  match kynxFind ip now (shards (kynxShardOf ip)) with
  | .found _ _ => counts
  | .absent s => fun i =>
    if i = kynxShardOf ip ∧ s.freeSlot.isSome then counts i + 1 else counts i

def kynxCountCheck (ipStr : Text) (now : UInt64) (shards : KynxShards) (counts : Nat → UInt32) :
    Nat → UInt32 :=
  if !cfg.enabled then counts
  else
    match kynxParseIp ipStr with
    | none => counts
    | some ip => kynxCountIp ip now shards counts

/-- The counts after the check of an event, which a route may deny before it. -/
def kynxCountStep (st : KynxState) (counts : Nat → UInt32) : KynxEvent → Nat → UInt32
  | .check ipStr now => kynxCountCheck cfg ipStr now st.shards counts
  | .checkRoute ipStr method path gate now =>
    match (kynxRouteGate cfg limits ipStr method path gate st.routeShards).1 with
    | some _ => counts
    | none => kynxCountCheck cfg ipStr now st.shards counts

/-- The counts after a run. -/
def kynxCountRun : KynxState → (Nat → UInt32) → List KynxEvent → Nat → UInt32
  | _, counts, [] => counts
  | st, counts, ev :: evs =>
    kynxCountRun (kynxStep cfg limits st ev).2 (kynxCountStep cfg limits st counts ev) evs

/-! ## Concurrent checks -/

/-- The stamps that the check of an address that is not banned subtracts from its reading. -/
def kynxServeSubtracts (e : OrbitKynxEntry) (now : UInt64) : List UInt64 :=
  let refilled := kynxRefill cfg e now
  (if e.lastRefillNs = 0 || now ≤ e.lastRefillNs then [] else [e.lastRefillNs]) ++
    if refilled.tokensMilli ≥ 1000 then
      if refilled.suspicionScore > 0 then [refilled.lastScoreDecayNs] else []
    else [refilled.lastViolationNs]

/-- The stamps that a check subtracts from its reading. -/
def kynxSubtracts (e : OrbitKynxEntry) (now : UInt64) : List UInt64 :=
  if e.isBanned then
    e.bannedAtNs ::
      if now - e.bannedAtNs > kynxBanDurationNs cfg then
        kynxServeSubtracts cfg { e with
          isBanned := false, suspicionScore := e.suspicionScore.tdiv 2 } now
      else []
  else kynxServeSubtracts cfg e now

/-- A check that has read the clock and waits for the lock of its shard. -/
structure KynxWaiting where
  ip : OrbitKynxIP
  now : UInt64
  deriving DecidableEq, Repr

structure KynxWorld where
  clock : UInt64
  waiting : List KynxWaiting
  shards : KynxShards

inductive KynxTurn where
  /-- A check reads the monotone clock. -/
  | sample (ip : OrbitKynxIP) (now : UInt64)
  /-- A waiting check takes the lock, is answered and lets it go. -/
  | enter (k : Nat)
  deriving DecidableEq, Repr

/-- A turn, if it can be taken. -/
def kynxTurn (w : KynxWorld) : KynxTurn → Option KynxWorld
  | .sample ip now =>
    if w.clock ≤ now then some { w with clock := now, waiting := w.waiting ++ [⟨ip, now⟩] }
    else none
  | .enter k => do
    let c ← w.waiting[k]?
    some { w with
      waiting := w.waiting.eraseIdx k
      shards := (kynxCheckIp cfg c.ip c.now w.shards).2 }

def kynxTurns : KynxWorld → List KynxTurn → Option KynxWorld
  | w, [] => some w
  | w, t :: ts => do
    let w' ← kynxTurn cfg w t
    kynxTurns w' ts

def kynxWorldInit : KynxWorld := { clock := 0, waiting := [], shards := kynxInit.shards }

end

/-! ## The address of a client behind proxies -/

def KYNX_MAX_TRUSTED_PROXIES : Nat := 16

structure KynxTrustedNet where
  net : OrbitKynxIP
  prefixLen : Nat
  deriving DecidableEq, Repr

def OrbitKynxIP.total : OrbitKynxIP → Nat
  | .v4 _ => 32
  | .v6 _ => 128

/-- The bytes of an address, high byte first. -/
def OrbitKynxIP.bytes : OrbitKynxIP → List UInt8
  | .v4 addr => bytesOf addr
  | .v6 addr => addr

def OrbitKynxIP.family : OrbitKynxIP → Nat
  | .v4 _ => 4
  | .v6 _ => 6

/-- The digits behind the slash. -/
def kynxPrefixLen (digits : Text) : Option Nat :=
  if digits.length = 0 ∨ digits.length > 3 then none
  else if digits.all isDecimal then
    some (digits.foldl (fun n c => n * 10 + (c.toNat - '0'.toNat)) 0)
  else none

def orbitKynxAddTrustedProxy (trusted : List KynxTrustedNet) (cidr : Text) : List KynxTrustedNet :=
  if cidr = [] ∨ cidr.length ≥ 64 then trusted
  else
    let addr := cidr.takeWhile (· ≠ '/')
    let slash := cidr.dropWhile (· ≠ '/')
    let prefixLen := if slash = [] then some none else (kynxPrefixLen slash.tail).map some
    match prefixLen, kynxParseIp addr with
    | some prefixLen, some net =>
      let prefixLen := prefixLen.getD net.total
      if prefixLen > net.total then trusted
      else if trusted.length ≥ KYNX_MAX_TRUSTED_PROXIES then trusted
      else if trusted.any fun t => t.net = net && t.prefixLen = prefixLen then trusted
      else trusted ++ [{ net, prefixLen }]
    | _, _ => trusted

def kynxIpInNet (ip : OrbitKynxIP) (net : KynxTrustedNet) : Bool :=
  if ip.family ≠ net.net.family then false
  else
    let prefixLen := if net.prefixLen > ip.total then ip.total else net.prefixLen
    let a := ip.bytes
    let b := net.net.bytes
    let full := prefixLen / 8
    let rem := prefixLen % 8
    if a.take full ≠ b.take full then false
    else
      let mask := UInt8.ofNat (0xFF * 2 ^ (8 - rem))
      rem = 0 || (a.getD full 0 &&& mask) = (b.getD full 0 &&& mask)

def orbitKynxIsTrustedProxy (trusted : List KynxTrustedNet) (ipStr : Text) : Bool :=
  if trusted.length = 0 then false
  else
    match kynxParseIp ipStr with
    | none => false
    | some ip => trusted.any fun net => kynxIpInNet ip net

/-- A blank of a header. -/
def isBlank (c : Char) : Bool := c = ' ' || c = '\t'

/-- A text without the blanks at its end. -/
def trimEnd (t : Text) : Text := (t.reverse.dropWhile isBlank).reverse

/-- The part behind the last comma. -/
def lastHop (before : Text) : Text := (before.reverse.takeWhile (· ≠ ',')).reverse

/-- The walk from the right: `before` is what is left of it. Only the first 63 bytes of a hop are
looked at. The fuel is above the length of the text. -/
def kynxForwardedFrom (trusted : List KynxTrustedNet) (out : Text) (outLen : Nat) :
    (fuel : Nat) → (before : Text) → Text
  | 0, _ => out
  | fuel + 1, before =>
    if before = [] then out
    else
      -- the blanks in front are behind the start of the segment
      let segment := (lastHop before).dropWhile isBlank
      let segStart := before.length - segment.length
      let cand := (trimEnd segment).take 63
      if trimEnd segment ≠ [] ∧ (kynxParseIp cand).isSome ∧ !orbitKynxIsTrustedProxy trusted cand then
        cand.take (outLen - 1)
      else if segStart = 0 then out
      else kynxForwardedFrom trusted out outLen fuel (before.take (segStart - 1))

/-- The address that the admission control counts; `out` has `outLen` bytes. -/
def orbitKynxEffectiveIp (trusted : List KynxTrustedNet) (peer xff : Text) (outLen : Nat) : Text :=
  if outLen = 0 then []
  else
    let out := peer.take (outLen - 1)
    if xff = [] ∨ !orbitKynxIsTrustedProxy trusted peer then out
    else kynxForwardedFrom trusted out outLen (xff.length + 1) xff

end Runtime.Kynx
