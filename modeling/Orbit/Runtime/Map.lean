import Mathlib.Data.List.GetD

/-!
# The hash map of the runtime

`OrbitMap` is an array of buckets with linear probing: a lookup starts at the bucket of the hash and
goes on to the first free one. A map doubles when it is three quarters full, and a deletion takes
the rest of the cluster out and puts it in again, entry by entry.

Keys are C strings held by address: `P` is the type of addresses, `text` reads one, and the hash is
any function of the text (`orbitMapHash` is the source's). A loop that goes once around the table
without stopping never stops; the functions are then `none`.
-/

namespace Runtime.Map

/-- FNV-1a. -/
def orbitMapHash (key : List UInt8) : UInt32 :=
  key.foldl (fun hash c => (hash ^^^ c.toUInt32) * 16777619) 2166136261

/-- The codes and messages of the refusals. -/
inductive OrbitError where
  | nullPtr (message : String)
  | outOfMemory (message : String)
  | keyNotFound (message : String)
  deriving DecidableEq, Repr

structure OrbitMapEntry (P V : Type) where
  key : P
  value : V
  hash : UInt32
  deriving DecidableEq, Repr

/-- A free bucket is `none`. -/
structure OrbitMap (P V : Type) where
  buckets : List (Option (OrbitMapEntry P V))
  count : Nat
  deriving DecidableEq, Repr

def orbitMapInitialBuckets : Nat := 16
def orbitMapLoadFactor : Nat := 75

section
variable {P K V : Type}

def orbitMapCreate : OrbitMap P V where
  buckets := List.replicate orbitMapInitialBuckets none
  count := 0

namespace OrbitMap

def bucketCount (m : OrbitMap P V) : Nat := m.buckets.length

def slot (m : OrbitMap P V) (idx : Nat) : Option (OrbitMapEntry P V) := m.buckets.getD idx none

/-- Fills a bucket and counts it. -/
def put (m : OrbitMap P V) (idx : Nat) (entry : OrbitMapEntry P V) : OrbitMap P V where
  buckets := m.buckets.set idx (some entry)
  count := m.count + 1

/-- Frees a bucket and counts it out. -/
def clear (m : OrbitMap P V) (idx : Nat) : OrbitMap P V where
  buckets := m.buckets.set idx none
  count := m.count - 1

end OrbitMap

/-- `value & (count - 1)`. -/
def mask (value count : Nat) : Nat := value &&& (count - 1)

/-- The probe loop: the first bucket from `idx` on at which `stop` holds. -/
def probe (stop : Option (OrbitMapEntry P V) → Bool) (m : OrbitMap P V) : Nat → Nat → Option Nat
  | 0, _ => none
  | fuel + 1, idx =>
    if stop (m.slot idx) then some idx
    else probe stop m fuel (mask (idx + 1) m.bucketCount)

/-- The first free bucket for a hash. -/
def probeFree (m : OrbitMap P V) (hash : UInt32) : Option Nat :=
  probe Option.isNone m m.bucketCount (mask hash.toNat m.bucketCount)

section
variable [DecidableEq P] [DecidableEq K] (text : P → K) (hashOf : K → UInt32)

/-- The bucket's key is the given one: the same address, or the same hash and the same text. -/
def sameKey (key : P) (entry : OrbitMapEntry P V) : Bool :=
  entry.key = key || (entry.hash = hashOf (text key) && text entry.key = text key)

/-- The bucket of a key, or the free bucket where its search ends. -/
def probeKey (m : OrbitMap P V) (key : P) : Option Nat :=
  probe (fun b => b.all (sameKey text hashOf key)) m m.bucketCount
    (mask (hashOf (text key)).toNat m.bucketCount)

end

/-! ## Growing -/

/-- One bucket of the old table is put into the new one. -/
def rehash (new : OrbitMap P V) : Option (OrbitMapEntry P V) → Option (OrbitMap P V)
  | none => some new
  | some entry => do
    let idx ← probeFree new entry.hash
    return new.put idx entry

/-- The old buckets in order; the count is that of the old map. -/
def orbitMapResize (m : OrbitMap P V) : Option (OrbitMap P V) := do
  let new ← m.buckets.foldlM rehash
    { buckets := List.replicate (m.bucketCount * 2) none, count := 0 }
  return { new with count := m.count }

/-! ## The operations -/

/-- Whether the allocator has room for new buckets and for a value. -/
structure Room where
  buckets : Bool
  value : Bool
  deriving DecidableEq, Repr

section
variable [DecidableEq P] [DecidableEq K] (text : P → K) (hashOf : K → UInt32)

/-- The map after the check of the load; `false` when the new buckets were refused. -/
def growForSet (m : OrbitMap P V) (room : Room) : Option (Bool × OrbitMap P V) :=
  if m.count * 100 ≥ m.bucketCount * orbitMapLoadFactor then
    if room.buckets then (orbitMapResize m).map (true, ·) else some (false, m)
  else some (true, m)

/-- Writes the value at the bucket where the search of the key ended. -/
def storeAt (m : OrbitMap P V) (idx : Nat) (key : P) (value : V) : OrbitMap P V :=
  match m.slot idx with
  | some entry => { m with buckets := m.buckets.set idx (some { entry with value }) }
  | none => m.put idx { key, value, hash := hashOf (text key) }

def orbitMapSet (m : OrbitMap P V) (key : Option P) (value : Option V) (room : Room) :
    Option (Except OrbitError V × OrbitMap P V) :=
  match key, value with
  | some key, some value => do
    let (grown, m) ← growForSet m room
    if !grown then return (.error (.outOfMemory "map_resize: alloc failed"), m)
    let idx ← probeKey text hashOf m key
    if !room.value then return (.error (.outOfMemory "map_set: value alloc failed"), m)
    return (.ok value, storeAt text hashOf m idx key value)
  | _, _ => some (.error (.nullPtr "map_set: null argument"), m)

def orbitMapGet (m : OrbitMap P V) (key : Option P) : Option (Except OrbitError V) :=
  match key with
  | some key => do
    let idx ← probeKey text hashOf m key
    match m.slot idx with
    | some entry => return .ok entry.value
    | none => return .error (.keyNotFound "map_get: key not found")
  | none => some (.error (.nullPtr "map_get: null argument"))

def orbitMapHas (m : OrbitMap P V) (key : Option P) : Option Bool :=
  (orbitMapGet text hashOf m key).map (·.isOk)

/-- The cluster after a hole is taken out and put in again. -/
def rehashCluster : Nat → Nat → OrbitMap P V → Option (OrbitMap P V)
  | 0, _, _ => none
  | fuel + 1, next, m =>
    match m.slot next with
    | none => some m
    | some entry => do
      let target ← probeFree (m.clear next) entry.hash
      rehashCluster fuel (mask (next + 1) m.bucketCount) ((m.clear next).put target entry)

def orbitMapDelete (m : OrbitMap P V) (key : Option P) :
    Option (Except OrbitError Unit × OrbitMap P V) :=
  match key with
  | some key => do
    let idx ← probeKey text hashOf m key
    match m.slot idx with
    | some _ =>
      let m ← rehashCluster m.bucketCount (mask (idx + 1) m.bucketCount) (m.clear idx)
      return (.ok (), m)
    | none => return (.error (.keyNotFound "map_delete: key not found"), m)
  | none => some (.error (.nullPtr "map_delete: null argument"), m)

end

/-- The keys in the order of the buckets. The list is created with room for all of them, so only the
creation can be refused, at its header or at its data. -/
def orbitMapKeys (m : OrbitMap P V) (header data : Bool) : Except OrbitError (List P) :=
  if !header then .error (.outOfMemory "list: header alloc failed")
  else if !data then .error (.outOfMemory "list: data alloc failed")
  else .ok (m.buckets.filterMap fun b => b.map (·.key))

/-! ## Runs -/

inductive MapOp (P V : Type) where
  | set (key : Option P) (value : Option V) (room : Room)
  | get (key : Option P)
  | has (key : Option P)
  | delete (key : Option P)
  | keys (header data : Bool)
  deriving DecidableEq, Repr

/-- What an operation answers. -/
inductive MapAnswer (P V : Type) where
  | set (r : Except OrbitError V)
  | get (r : Except OrbitError V)
  | has (b : Bool)
  | delete (r : Except OrbitError Unit)
  | keys (r : Except OrbitError (List P))

section
variable [DecidableEq P] [DecidableEq K] (text : P → K) (hashOf : K → UInt32)

def mapStep (m : OrbitMap P V) : MapOp P V → Option (MapAnswer P V × OrbitMap P V)
  | .set key value room =>
    (orbitMapSet text hashOf m key value room).map fun r => (.set r.1, r.2)
  | .get key => (orbitMapGet text hashOf m key).map fun r => (.get r, m)
  | .has key => (orbitMapHas text hashOf m key).map fun b => (.has b, m)
  | .delete key => (orbitMapDelete text hashOf m key).map fun r => (.delete r.1, r.2)
  | .keys header data => some (.keys (orbitMapKeys m header data), m)

/-- A sequence of operations with its answers. -/
def mapRun : List (MapOp P V) → OrbitMap P V → Option (List (MapAnswer P V) × OrbitMap P V)
  | [], m => some ([], m)
  | op :: ops, m => do
    let (answer, m) ← mapStep text hashOf m op
    let (answers, m) ← mapRun ops m
    return (answer :: answers, m)

end

end

end Runtime.Map
