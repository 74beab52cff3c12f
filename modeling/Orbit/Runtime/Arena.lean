/-!
# Arenas

The allocator of the runtime: creation (`runtime/arena.c`), allocation with growth and overflow
segments (`runtime/arena_alloc.c`), checkpoints (`runtime/arena_checkpoint.c`) and reset
(`runtime/arena_reset.c`). Pointers and sizes are `UInt64`. The operating system is asked through
its answers (`OsAnswer`), and what is asked of it is written down (`OsCall`).

The parent of a child arena, its table of strings and the counters of the process are left out.
-/

namespace Runtime.Arena

def SIZE_MAX : UInt64 := 0xFFFFFFFFFFFFFFFF

def ORBIT_ARENA_ALIGN : UInt64 := 16
def ORBIT_ARENA_DEFAULT_RESERVE : UInt64 := 64 * 1024 * 1024
def ORBIT_ARENA_DEFAULT_COMMIT : UInt64 := 64 * 1024
def ORBIT_ARENA_HOT_RETENTION_LIMIT : UInt64 := 256 * 1024
def ORBIT_ARENA_HOT_RETENTION_CEILING : UInt64 := 4 * 1024 * 1024

/-- 0 when the rounding overflows. -/
def orbitAlignUp (size alignment : UInt64) : UInt64 :=
  if size > SIZE_MAX - (alignment - 1) then 0 else (size + (alignment - 1)) &&& ~~~(alignment - 1)

/-- A retired segment. -/
structure OrbitArenaOverflow where
  ptr : UInt64
  size : UInt64
  deriving DecidableEq, Repr

structure OrbitArena where
  base : UInt64
  cursor : UInt64
  committedEnd : UInt64
  reservedEnd : UInt64
  pageSize : UInt64
  requestedBytes : UInt64
  alignedBytes : UInt64
  peakUsed : UInt64
  committedBytes : UInt64
  reservedBytes : UInt64
  maxRule : UInt64
  ceilingHit : Bool
  generation : UInt64
  allocCount : UInt64
  overflowList : List OrbitArenaOverflow
  capacity : UInt64
  used : UInt64
  deriving DecidableEq, Repr

/-! ## The operating system -/

/-- The answers of the operating system to one operation: the address of a reservation, whether
pages are committed, and whether `malloc` gives a header. -/
structure OsAnswer where
  reserve : Option UInt64
  commit : Bool
  malloc : Bool
  deriving DecidableEq, Repr

/-- What changes the pages of the process. -/
inductive OsCall where
  | commit (addr size : UInt64)
  | decommit (addr size : UInt64)
  | release (addr size : UInt64)
  deriving DecidableEq, Repr

/-! ## Creation -/

/-- `orbit_arena_create`, with the page size and the ceiling that the environment gives. -/
def orbitArenaCreate (pageSize maxRule initialCapacity : UInt64) (os : OsAnswer) :
    Option OrbitArena × List OsCall :=
  let reserveSize := if initialCapacity > ORBIT_ARENA_DEFAULT_RESERVE then initialCapacity
    else ORBIT_ARENA_DEFAULT_RESERVE
  let reserveSize := orbitAlignUp reserveSize pageSize
  if reserveSize = 0 then (none, [])
  else
    let commitSize := if initialCapacity > 0 then initialCapacity else ORBIT_ARENA_DEFAULT_COMMIT
    let commitSize := orbitAlignUp commitSize pageSize
    if commitSize = 0 then (none, [])
    else
      let reserveSize := if commitSize > reserveSize then commitSize else reserveSize
      match os.reserve with
      | none => (none, [])
      | some reserved =>
        if !os.commit then (none, [.release reserved reserveSize])
        else if !os.malloc then (none, [.commit reserved commitSize, .release reserved reserveSize])
        else
          (some {
            base := reserved
            cursor := reserved
            committedEnd := reserved + commitSize
            reservedEnd := reserved + reserveSize
            pageSize := pageSize
            requestedBytes := 0
            alignedBytes := 0
            peakUsed := 0
            committedBytes := commitSize
            reservedBytes := reserveSize
            maxRule := maxRule
            ceilingHit := false
            generation := 1
            allocCount := 0
            overflowList := []
            capacity := reserveSize
            used := 0 }, [.commit reserved commitSize])

/-- The size that a creation asks to reserve. -/
def createReserve (pageSize initialCapacity : UInt64) : UInt64 :=
  let reserveSize := orbitAlignUp (if initialCapacity > ORBIT_ARENA_DEFAULT_RESERVE then
    initialCapacity else ORBIT_ARENA_DEFAULT_RESERVE) pageSize
  let commitSize := orbitAlignUp (if initialCapacity > 0 then initialCapacity
    else ORBIT_ARENA_DEFAULT_COMMIT) pageSize
  if commitSize > reserveSize then commitSize else reserveSize

/-! ## Allocation -/

/-- The part of a lease that the allocator reads and writes. -/
structure OrbitKynxLease where
  arenaBytes : UInt64
  arenaLimit : UInt64
  deriving DecidableEq, Repr

/-- The charge of an allocation to the current lease; `none` when it refuses. -/
def chargeLease (lease : Option OrbitKynxLease) (aligned : UInt64) :
    Option (Option OrbitKynxLease) :=
  match lease with
  | none => some none
  | some l =>
    if l.arenaBytes > l.arenaLimit || aligned > l.arenaLimit - l.arenaBytes then none
    else some (some { l with arenaBytes := l.arenaBytes + aligned })

def orbitArenaCeilingReached (arena : OrbitArena) (more : UInt64) : Bool :=
  arena.maxRule ≠ 0 &&
    (more > arena.maxRule || arena.committedBytes > arena.maxRule - more)

structure AllocResult where
  ptr : Option UInt64
  arena : OrbitArena
  calls : List OsCall
  deriving DecidableEq, Repr

/-- The block at the cursor is handed out. -/
def bump (arena : OrbitArena) (newCursor bytes aligned : UInt64) : OrbitArena :=
  let currentUsed := newCursor - arena.base
  { arena with
    cursor := newCursor
    allocCount := arena.allocCount + 1
    requestedBytes := arena.requestedBytes + bytes
    alignedBytes := arena.alignedBytes + aligned
    peakUsed := if currentUsed > arena.peakUsed then currentUsed else arena.peakUsed
    used := currentUsed }

/-- The slow path: more pages of the reservation are committed. -/
def allocCommit (arena : OrbitArena) (newCursor bytes aligned : UInt64) (os : OsAnswer) :
    AllocResult :=
  let needed := newCursor - arena.committedEnd
  let pageAligned := orbitAlignUp needed arena.pageSize
  if pageAligned = 0 then ⟨none, arena, []⟩
  else if orbitArenaCeilingReached arena pageAligned then
    ⟨none, { arena with ceilingHit := true }, []⟩
  else if !os.commit then ⟨none, arena, []⟩
  else
    ⟨some arena.cursor,
      bump { arena with
        committedEnd := arena.committedEnd + pageAligned
        committedBytes := arena.committedBytes + pageAligned } newCursor bytes aligned,
      [.commit arena.committedEnd pageAligned]⟩

/-- The size that an overflow asks to reserve. -/
def overflowReserve (arena : OrbitArena) (aligned : UInt64) : UInt64 :=
  orbitAlignUp (if aligned > ORBIT_ARENA_DEFAULT_RESERVE then aligned
    else ORBIT_ARENA_DEFAULT_RESERVE) arena.pageSize

def overflowCommit (arena : OrbitArena) (aligned : UInt64) : UInt64 :=
  orbitAlignUp (if aligned > ORBIT_ARENA_DEFAULT_COMMIT then aligned
    else ORBIT_ARENA_DEFAULT_COMMIT) arena.pageSize

/-- The overflow path: the segment is retired, and the block is the first of a fresh one. -/
def allocOverflow (arena : OrbitArena) (bytes aligned : UInt64) (os : OsAnswer) : AllocResult :=
  let newReserve := overflowReserve arena aligned
  let newCommit := overflowCommit arena aligned
  if newReserve = 0 then ⟨none, arena, []⟩
  else if newCommit = 0 then ⟨none, arena, []⟩
  else if orbitArenaCeilingReached arena newCommit then
    ⟨none, { arena with ceilingHit := true }, []⟩
  else
    match os.reserve with
    | none => ⟨none, arena, []⟩
    | some newMem =>
      if !os.commit then ⟨none, arena, [.release newMem newReserve]⟩
      else if !os.malloc then ⟨none, arena, [.commit newMem newCommit, .release newMem newReserve]⟩
      else
        ⟨some newMem,
          { arena with
            overflowList := ⟨arena.base, arena.reservedEnd - arena.base⟩ :: arena.overflowList
            base := newMem
            cursor := newMem + aligned
            committedEnd := newMem + newCommit
            reservedEnd := newMem + newReserve
            reservedBytes := arena.reservedBytes + newReserve
            committedBytes := arena.committedBytes + newCommit
            capacity := newReserve
            used := aligned
            allocCount := arena.allocCount + 1
            requestedBytes := arena.requestedBytes + bytes
            alignedBytes := arena.alignedBytes + aligned },
          [.commit newMem newCommit]⟩

/-- The arena's side of `orbit_alloc_try`, once the lease is charged. -/
def allocSegment (arena : OrbitArena) (bytes aligned : UInt64) (os : OsAnswer) : AllocResult :=
  if aligned ≤ arena.reservedEnd - arena.cursor then
    let newCursor := arena.cursor + aligned
    if newCursor ≤ arena.committedEnd then
      ⟨some arena.cursor, bump arena newCursor bytes aligned, []⟩
    else allocCommit arena newCursor bytes aligned os
  else allocOverflow arena bytes aligned os

def orbitAllocTry (lease : Option OrbitKynxLease) (arena : OrbitArena) (bytes : UInt64)
    (os : OsAnswer) : AllocResult × Option OrbitKynxLease :=
  if bytes = 0 then (⟨none, arena, []⟩, lease)
  else
    let arena := { arena with ceilingHit := false }
    let aligned := orbitAlignUp bytes ORBIT_ARENA_ALIGN
    if aligned = 0 then (⟨none, arena, []⟩, lease)
    else
      match chargeLease lease aligned with
      | none => (⟨none, arena, []⟩, lease)
      | some charged => (allocSegment arena bytes aligned os, charged)

/-! ## Checkpoints and reset -/

structure OrbitArenaCheckpoint where
  offset : UInt64
  generation : UInt64
  deriving DecidableEq, Repr

def orbitArenaCheckpoint (arena : OrbitArena) : OrbitArenaCheckpoint :=
  ⟨arena.cursor - arena.base, arena.generation⟩

def orbitArenaRewind (arena : OrbitArena) (checkpoint : OrbitArenaCheckpoint) :
    Bool × OrbitArena :=
  if checkpoint.generation ≠ arena.generation then (false, arena)
  else if checkpoint.offset > arena.cursor - arena.base then (false, arena)
  else
    (true, { arena with cursor := arena.base + checkpoint.offset, used := checkpoint.offset })

/-- The bytes that a reset keeps committed. -/
def resetKeep (arena : OrbitArena) : UInt64 :=
  let usedBytes := arena.cursor - arena.base
  let keepSize := ORBIT_ARENA_HOT_RETENTION_LIMIT
  let keepSize := if usedBytes > keepSize then usedBytes else keepSize
  let keepSize := if keepSize > ORBIT_ARENA_HOT_RETENTION_CEILING then
    ORBIT_ARENA_HOT_RETENTION_CEILING else keepSize
  let keepSize := orbitAlignUp keepSize arena.pageSize
  let totalReserved := arena.reservedEnd - arena.base
  if keepSize > totalReserved then totalReserved else keepSize

def orbitArenaReset (arena : OrbitArena) : OrbitArena × List OsCall :=
  let releases := arena.overflowList.map fun o => OsCall.release o.ptr o.size
  let keepEnd := arena.base + resetKeep arena
  let totalReserved := arena.reservedEnd - arena.base
  let committedEnd := if arena.committedEnd > keepEnd then keepEnd else arena.committedEnd
  ({ arena with
      overflowList := []
      committedEnd := committedEnd
      committedBytes := committedEnd - arena.base
      reservedBytes := totalReserved
      cursor := arena.base
      requestedBytes := 0
      alignedBytes := 0
      allocCount := 0
      generation := arena.generation + 1
      used := 0
      capacity := totalReserved },
    releases ++ if arena.committedEnd > keepEnd then
      [.decommit keepEnd (arena.committedEnd - keepEnd)] else [])

/-! ## Runs -/

/-- An operation of a program on its arena. A rewind names the checkpoint by its place among those
taken; the lease is the one that the thread holds at the time. -/
inductive ArenaOp where
  | alloc (lease : Option OrbitKynxLease) (bytes : UInt64) (os : OsAnswer)
  | checkpoint
  | rewind (k : Nat)
  | reset
  deriving DecidableEq, Repr

/-- A block that has been returned: its address, the bytes asked for and those it takes, and the count
of blocks returned before it. -/
structure Block where
  addr : UInt64
  bytes : UInt64
  size : UInt64
  born : Nat
  deriving DecidableEq, Repr

/-- A checkpoint that has been taken, and the count of blocks returned before it. -/
structure Mark where
  checkpoint : OrbitArenaCheckpoint
  born : Nat
  deriving DecidableEq, Repr

/-- The arena of a program, the checkpoints it has taken, and the blocks that are live: returned,
and not released by a rewind to a checkpoint taken before them or by a reset. -/
structure ArenaWorld where
  arena : OrbitArena
  marks : List Mark
  live : List Block
  returned : Nat

/-- A block that is returned is live. -/
def ArenaWorld.place (w : ArenaWorld) (bytes : UInt64) (r : AllocResult) : ArenaWorld :=
  match r.ptr with
  | none => { w with arena := r.arena }
  | some ptr =>
    { w with
      arena := r.arena
      live := ⟨ptr, bytes, orbitAlignUp bytes ORBIT_ARENA_ALIGN, w.returned⟩ :: w.live
      returned := w.returned + 1 }

def arenaStep (w : ArenaWorld) : ArenaOp → ArenaWorld × List OsCall
  | .alloc lease bytes os =>
    let r := (orbitAllocTry lease w.arena bytes os).1
    (w.place bytes r, r.calls)
  | .checkpoint =>
    ({ w with marks := w.marks ++ [⟨orbitArenaCheckpoint w.arena, w.returned⟩] }, [])
  | .rewind k =>
    match w.marks[k]? with
    | none => (w, [])
    | some m =>
      let r := orbitArenaRewind w.arena m.checkpoint
      if r.1 then ({ w with arena := r.2, live := w.live.filter (·.born < m.born) }, []) else (w, [])
  | .reset =>
    let r := orbitArenaReset w.arena
    ({ w with arena := r.1, live := [] }, r.2)

/-- The bytes that are committed after a call. -/
def OsCall.apply (committed : Nat → Bool) : OsCall → Nat → Bool
  | .commit addr size, x => committed x || decide (addr.toNat ≤ x ∧ x < addr.toNat + size.toNat)
  | .decommit addr size, x => committed x && !decide (addr.toNat ≤ x ∧ x < addr.toNat + size.toNat)
  | .release addr size, x => committed x && !decide (addr.toNat ≤ x ∧ x < addr.toNat + size.toNat)

/-- The world after a run, and the bytes that are then committed. -/
def arenaRun : ArenaWorld → (Nat → Bool) → List ArenaOp → ArenaWorld × (Nat → Bool)
  | w, committed, [] => (w, committed)
  | w, committed, op :: ops =>
    let r := arenaStep w op
    arenaRun r.1 (r.2.foldl OsCall.apply committed) ops

end Runtime.Arena
