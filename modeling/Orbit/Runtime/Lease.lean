import Orbit.Runtime.Arena
import Orbit.Runtime.Http

/-!
# Leases

The lease of a request (`runtime/kynx.c`): its acquisition counts it, makes its record in the arena
of the request and sets it as the lease of the thread, which the allocator charges. An allocation
that fails calls the handler of the process (`runtime/arena_oom.c`), which may leave the request by
`longjmp`; the worker (`compiler/emit/route_runtime.orb`) then abandons the lease of the thread.

Threads take turns; an acquisition has two, since the allocation may leave it. What the arena answers
is an input. The energy of a lease is left out.

`Runtime.Admission` has the atomic loads and stores that `kynx_update_admission_state` and
`kynx_transition_state` are made of: threads take turns at each of them. A thread that creates a lease
counts it up first and one that destroys a lease counts it down.
-/

namespace Runtime.Lease

open Http (Text)
open Arena (chargeLease orbitAlignUp ORBIT_ARENA_ALIGN)

/-! ## The admission state -/

inductive OrbitKynxState where
  | stable | shaped | guarded | siege
  deriving DecidableEq, Repr

structure KynxThresholds where
  shaped : Int
  guarded : Int
  siege : Int

def kynxPoolThresholds (poolSize : Int32) : KynxThresholds :=
  let pool := if poolSize.toInt ≤ 0 then 512 else poolSize.toInt
  let pool := if pool < 16 then 16 else pool
  let shaped := pool.tdiv 16
  let guarded := pool.tdiv 4
  let siege := pool
  let shaped := if shaped < 1 then 1 else shaped
  let guarded := if guarded ≤ shaped then shaped + 1 else guarded
  { shaped, guarded, siege := if siege ≤ guarded then guarded + 1 else siege }

/-- Three quarters of an entry level, in `int`. -/
def releaseLevel (level : Int) : Int := ((level * 3).bmod 4294967296).tdiv 4

def kynxUpdateAdmissionState (poolSize : Int32) (active : Int) (state : OrbitKynxState) :
    OrbitKynxState :=
  let t := kynxPoolThresholds poolSize
  match state with
  | .stable => if active > t.shaped then .shaped else .stable
  | .shaped =>
    if active > t.guarded then .guarded
    else if active ≤ releaseLevel t.shaped then .stable
    else .shaped
  | .guarded =>
    if active > t.siege then .siege
    else if active ≤ releaseLevel t.guarded then .shaped
    else .guarded
  | .siege => if active ≤ releaseLevel t.siege then .guarded else .siege

/-! ## The budgets -/

structure OrbitKynxLease where
  arena : Arena.OrbitKynxLease
  deadlineNs : UInt64
  requestLimit : UInt64
  responseLimit : UInt64
  dbQueriesLimit : UInt32
  dbStepsLimit : UInt64
  flags : UInt32
  deriving DecidableEq, Repr

/-- `sizeof(OrbitKynxLease)`. -/
def LEASE_SIZE : UInt64 := 136

def REJECTED : UInt32 := 1

/-- The budgets of a route at a reading of the clock. -/
def leaseFor (state : OrbitKynxState) (path : Text) (now : UInt64) : OrbitKynxLease :=
  let lease : OrbitKynxLease := {
    arena := ⟨0, 16 * 1024 * 1024⟩
    deadlineNs := now + 500 * 1000000
    requestLimit := 64 * 1024
    responseLimit := 2 * 1024 * 1024
    dbQueriesLimit := 10
    dbStepsLimit := 100000
    flags := 0 }
  let lease := match state with
    | .stable => lease
    | .shaped => { lease with deadlineNs := now + 250 * 1000000, dbStepsLimit := 50000 }
    | .guarded => { lease with
        deadlineNs := now + 100 * 1000000
        arena := ⟨0, 2 * 1024 * 1024⟩
        dbQueriesLimit := 3
        dbStepsLimit := 10000 }
    | .siege =>
      if path = "/health".toList ∨ path = "/auth".toList ∨ path = "/".toList then
        { lease with
          deadlineNs := now + 50 * 1000000
          arena := ⟨0, 512 * 1024⟩
          dbQueriesLimit := 2
          dbStepsLimit := 5000 }
      else
        { lease with
          deadlineNs := 0
          arena := ⟨0, 0⟩
          dbQueriesLimit := 0
          dbStepsLimit := 0
          flags := lease.flags ||| REJECTED }
  if path = "/search".toList then
    { lease with
      deadlineNs := now + 250 * 1000000
      arena := ⟨0, 192 * 1024⟩
      responseLimit := 1 * 1024 * 1024
      dbQueriesLimit := 4
      dbStepsLimit := 50000 }
  else lease

/-! ## The process -/

/-- What an allocation that fails calls: the default, which ends the process, the boundary of a
request, or a handler that returns. -/
inductive OomHandler where
  | abortDefault | requestBoundary | returns
  deriving DecidableEq, Repr

/-- An acquisition whose record is not yet made. -/
structure Acquisition where
  thread : Nat
  path : Text
  deriving DecidableEq, Repr

/-- A lease is named by its place among the records. `held` are the leases that the callers have got
and not given back, with their threads. -/
structure LeaseWorld where
  activeLeases : Int
  state : OrbitKynxState
  leases : List OrbitKynxLease
  current : Nat → Option Nat
  handler : OomHandler
  armed : Nat → Bool
  acquiring : List Acquisition
  held : List (Nat × Nat)

def leaseInit : LeaseWorld where
  activeLeases := 0
  state := .stable
  leases := []
  current := fun _ => none
  handler := .abortDefault
  armed := fun _ => false
  acquiring := []
  held := []

/-- The lease of a thread as the allocator sees it. -/
def LeaseWorld.charged (w : LeaseWorld) (thread : Nat) : Option Arena.OrbitKynxLease :=
  (w.current thread).bind fun i => w.leases[i]?.map OrbitKynxLease.arena

/-- What is written back to the record of a lease. -/
def LeaseWorld.charge (w : LeaseWorld) (thread : Nat) (lease : Option Arena.OrbitKynxLease) :
    LeaseWorld :=
  match w.current thread, lease with
  | some i, some l => { w with leases := w.leases.modify i fun r => { r with arena := l } }
  | _, _ => w

/-- `orbit_alloc_try` on a thread: whether it gives a block. -/
def allocTry (w : LeaseWorld) (thread : Nat) (bytes : UInt64) (granted : Bool) :
    Bool × LeaseWorld :=
  let aligned := orbitAlignUp bytes ORBIT_ARENA_ALIGN
  if aligned = 0 then (false, w)
  else
    match chargeLease (w.charged thread) aligned with
    | none => (false, w)
    | some lease => (granted, w.charge thread lease)

/-- The handler of a failed allocation; `none` when the process ends. -/
def refuse (w : LeaseWorld) (thread : Nat) : Option LeaseWorld :=
  match w.handler with
  | .abortDefault => none
  | .requestBoundary =>
    if w.armed thread then
      some { w with armed := fun t => if t = thread then false else w.armed t }
    else none
  | .returns => some w

/-- `orbit_kynx_lease_destroy`. -/
def leaseDestroy (poolSize : Int32) (w : LeaseWorld) (thread lease : Nat) : LeaseWorld :=
  { w with
    current := fun t =>
      if t = thread ∧ w.current thread = some lease then none else w.current t
    activeLeases := w.activeLeases - 1
    state := kynxUpdateAdmissionState poolSize (w.activeLeases - 1) w.state }

inductive LeaseAct where
  /-- `orbit_kynx_lease_create_for_route` up to the allocation of the record. -/
  | acquire (thread : Nat) (path : Text)
  /-- The rest of it. -/
  | record (k : Nat) (now : UInt64) (granted : Bool)
  | alloc (thread : Nat) (bytes : UInt64) (granted : Bool)
  | release (thread lease : Nat)
  | abandon (thread : Nat)
  | install (handler : OomHandler)
  | arm (thread : Nat)
  | disarm (thread : Nat)
  deriving DecidableEq, Repr

/-- The record of an acquisition is made, and its lease becomes that of the thread. -/
def leaseRecord (w : LeaseWorld) (a : Acquisition) (now : UInt64) : LeaseWorld :=
  { w with
    leases := w.leases ++ [leaseFor w.state a.path now]
    current := fun t => if t = a.thread then some w.leases.length else w.current t
    held := (a.thread, w.leases.length) :: w.held }

/-- An act, if it can be done: a thread in an acquisition does nothing else, and a thread releases
only what it holds. -/
def leaseStep (poolSize : Int32) (w : LeaseWorld) (act : LeaseAct) : Option LeaseWorld :=
  let busy := fun thread => w.acquiring.any (·.thread = thread)
  match act with
  | .acquire thread path =>
    if busy thread then none
    else
      some { w with
        activeLeases := w.activeLeases + 1
        state := kynxUpdateAdmissionState poolSize (w.activeLeases + 1) w.state
        acquiring := w.acquiring ++ [⟨thread, path⟩] }
  | .record k now granted => do
    let a ← w.acquiring[k]?
    let r := allocTry { w with acquiring := w.acquiring.eraseIdx k } a.thread LEASE_SIZE granted
    if r.1 then some (leaseRecord r.2 a now) else refuse r.2 a.thread
  | .alloc thread bytes granted =>
    if busy thread then none
    else if bytes = 0 then some w
    else
      let r := allocTry w thread bytes granted
      if r.1 then some r.2 else refuse r.2 thread
  | .release thread lease =>
    if !busy thread && w.held.contains (thread, lease) then
      some { leaseDestroy poolSize w thread lease with held := w.held.erase (thread, lease) }
    else none
  | .abandon thread =>
    if busy thread then none
    else
      match w.current thread with
      | none => some w
      | some lease =>
        some { leaseDestroy poolSize w thread lease with held := w.held.erase (thread, lease) }
  | .install handler => some { w with handler }
  | .arm thread => some { w with armed := fun t => if t = thread then true else w.armed t }
  | .disarm thread => some { w with armed := fun t => if t = thread then false else w.armed t }

end Runtime.Lease

namespace Runtime.Admission

open Lease (OrbitKynxState kynxUpdateAdmissionState)

/-- Where a thread stands. -/
inductive Pc where
  | idle
  /-- Before the load of the count. -/
  | counted
  /-- Before the load of the state, with the count. -/
  | loaded (active : Int)
  /-- In `kynx_transition_state`, before its load of the state. -/
  | transition (newState : OrbitKynxState)
  /-- Before the store of the state. -/
  | store (newState : OrbitKynxState)
  /-- Between the store of the state and that of the flag. -/
  | flag (newState : OrbitKynxState)
  deriving DecidableEq, Repr

structure World where
  active : Int
  state : OrbitKynxState
  siegeActive : Bool
  threads : Nat → Pc

def init : World where
  active := 0
  state := .stable
  siegeActive := false
  threads := fun _ => .idle

def World.goto (w : World) (t : Nat) (pc : Pc) : World :=
  { w with threads := fun u => if u = t then pc else w.threads u }

inductive Act where
  | create (t : Nat)
  | destroy (t : Nat)
  /-- The next load or store of a thread. -/
  | advance (t : Nat)
  deriving DecidableEq, Repr

def advance (poolSize : Int32) (w : World) (t : Nat) : Option World :=
  match w.threads t with
  | .idle => none
  | .counted => some (w.goto t (.loaded w.active))
  | .loaded active =>
    let newState := kynxUpdateAdmissionState poolSize active w.state
    some (w.goto t (if newState = w.state then .idle else .transition newState))
  | .transition newState =>
    some (w.goto t (if w.state ≠ newState then .store newState else .idle))
  | .store newState => some ({ w with state := newState }.goto t (.flag newState))
  | .flag newState => some ({ w with siegeActive := newState = OrbitKynxState.siege }.goto t .idle)

def step (poolSize : Int32) (w : World) : Act → Option World
  | .create t =>
    if w.threads t = .idle then some ({ w with active := w.active + 1 }.goto t .counted) else none
  | .destroy t =>
    if w.threads t = .idle then some ({ w with active := w.active - 1 }.goto t .counted) else none
  | .advance t => advance poolSize w t

def run (poolSize : Int32) (w : World) (acts : List Act) : Option World :=
  acts.foldlM (step poolSize) w

end Runtime.Admission
