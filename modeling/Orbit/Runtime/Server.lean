import Mathlib.Data.Fin.Basic
import Orbit.Runtime.AcceptQueue

/-!
# The acceptor and the workers

`orbit_acceptor_loop` of `runtime/thread_pool.c` and `orbit_worker_loop`, which
`compiler/emit/route_runtime.orb` writes. A turn of a party is one access to what the parties share (a
ring, the stop flag) or one system call, together with the computation up to the next; what the calls
answer comes with the turn (`Answers`). A worker has a free buffer for each free place among its
clients. Wake datagrams only end a `select` early, so they are left out.
-/

namespace Runtime

open Lib.Fifo (Event)

/-! ## A worker's clients -/

/-- An adopted connection. -/
structure Client (σ : Type) where
  sock : σ
  buffered : Nat
  deriving DecidableEq, Repr

/-- What a pass finds at a client's socket: nothing to read, the end, an error, no data after all, or
data, of which the requests in it consume a part and end the connection or not. -/
inductive Recv where
  | quiet
  | closed
  | error
  | wouldBlock
  | data (received parsed : Nat) (keepAlive : Bool)
  deriving DecidableEq, Repr

section
variable {σ : Type}

/-- A pass over a client: `none` when it is dropped. While draining, idle clients are. -/
def Client.serve (c : Client σ) (stop : Bool) (r : Recv) : Option (Client σ) :=
  let idle := stop && c.buffered == 0
  match r with
  | .quiet | .wouldBlock => if idle then none else some c
  | .closed | .error => none
  | .data received parsed keepAlive =>
    let left := c.buffered + received - parsed
    -- 16383 bytes that hold no whole request are answered and dropped.
    if idle || left == 16384 - 1 || !keepAlive then none else some { c with buffered := left }

/-- The last client takes the place of the one removed. -/
def swapRemove {α : Type} (l : List α) (i : Nat) : List α :=
  match l.getLast? with
  | none => l
  | some x => (l.set i x).dropLast

/-! ## Workers -/

/-- What the system calls of a turn answer. -/
structure Answers (σ : Type) where
  /-- The acceptor's `select` reports the listener. -/
  ready : Bool
  accepted : Option σ
  selectFailed : Bool
  /-- `select` failed because of a descriptor. -/
  badDescriptor : Bool
  /-- The client at hand has a bad descriptor. -/
  bad : Bool
  recv : Recv

inductive WorkerPc where
  /-- The loop's condition: the stop flag, then the clients. -/
  | test
  /-- The last part of the condition, `orbit_accept_q_empty`. -/
  | testQueue
  | select
  | reap (i : Nat)
  | adopt
  | serve (i : Nat)
  | exited
  deriving DecidableEq, Repr

structure Worker (σ : Type) where
  ring : Ring σ
  pc : WorkerPc
  clients : List (Client σ)

/-- A turn of a worker, and the sockets it closes. -/
def Worker.turn (wk : Worker σ) (stop : Bool) (a : Answers σ) : Worker σ × List σ :=
  match wk.pc with
  | .test =>
    if !stop || 0 < wk.clients.length then ({ wk with pc := .select }, [])
    else ({ wk with ring := wk.ring.empty, pc := .testQueue }, [])
  | .testQueue =>
    match wk.ring.consume with
    | (ring, none) => ({ wk with ring }, [])
    | (ring, some (.isEmpty true)) => ({ wk with ring, pc := .exited }, [])
    | (ring, some _) => ({ wk with ring, pc := .select }, [])
  | .select =>
    if a.selectFailed then ({ wk with pc := if a.badDescriptor then .reap 0 else .test }, [])
    else ({ wk with ring := wk.ring.pop, pc := .adopt }, [])
  | .reap i =>
    match wk.clients[i]? with
    | none => ({ wk with pc := .test }, [])
    | some c =>
      if a.bad then ({ wk with clients := swapRemove wk.clients i }, [c.sock])
      else ({ wk with pc := .reap (i + 1) }, [])
  | .adopt =>
    match wk.ring.consume with
    | (ring, none) => ({ wk with ring }, [])
    | (ring, some (.popped s)) =>
      if wk.clients.length < 512 then
        ({ wk with ring := ring.pop, clients := wk.clients ++ [⟨s, 0⟩] }, [])
      else ({ wk with ring := ring.pop }, [s])
    | (ring, some _) => ({ wk with ring, pc := .serve 0 }, [])
  | .serve i =>
    match wk.clients[i]? with
    | none => ({ wk with pc := .test }, [])
    | some c =>
      match c.serve stop a.recv with
      | none => ({ wk with clients := swapRemove wk.clients i }, [c.sock])
      | some c' => ({ wk with clients := wk.clients.set i c', pc := .serve (i + 1) }, [])
  | .exited => (wk, [])

/-! ## The server -/

inductive AcceptorPc (σ : Type) where
  | test
  | select
  | accept
  /-- The socket is to be pushed to the `k`-th worker from `rr` on. -/
  | dispatch (s : σ) (k : Nat)
  | pushing (s : σ) (k : Nat)
  | exited
  deriving DecidableEq, Repr

/-- Who closed a socket. -/
inductive Closer (m : Nat) where
  | acceptor
  | worker (w : Fin (m + 1))
  deriving DecidableEq, Repr

/-- The parties, what was accepted and what was closed, in order. There is at least one worker. -/
structure Server (σ : Type) (m : Nat) where
  stop : Bool
  acceptor : AcceptorPc σ
  rr : Nat
  workers : Fin (m + 1) → Worker σ
  accepted : List σ
  closed : List (Closer m × σ)

/-- A turn: a stop request, or a turn of a party. -/
inductive Turn (σ : Type) (m : Nat) where
  | requestStop
  | acceptor (a : Answers σ)
  | worker (w : Fin (m + 1)) (a : Answers σ)

namespace Server

variable {m : Nat}

def init (slots : Fin (m + 1) → Nat → σ) : Server σ m :=
  { stop := false, acceptor := .test, rr := 0,
    workers := fun w => { ring := Ring.init (slots w), pc := .test, clients := [] },
    accepted := [], closed := [] }

/-- The `k`-th worker from `rr` on. -/
def target (sv : Server σ m) (k : Nat) : Fin (m + 1) := Fin.ofNat (m + 1) (sv.rr + k)

/-- Another ring for a worker. -/
def withRing (sv : Server σ m) (w : Fin (m + 1)) (ring : Ring σ) : Server σ m :=
  { sv with workers := Function.update sv.workers w { sv.workers w with ring } }

def acceptorTurn (sv : Server σ m) (a : Answers σ) : Server σ m :=
  match sv.acceptor with
  | .test => { sv with acceptor := if sv.stop then .exited else .select }
  | .select => { sv with acceptor := if a.ready then .accept else .test }
  | .accept =>
    match a.accepted with
    | none => { sv with acceptor := .test }
    | some s => { sv with acceptor := .dispatch s 0, accepted := sv.accepted ++ [s] }
  | .dispatch s k =>
    if k < m + 1 then
      { sv.withRing (sv.target k) ((sv.workers (sv.target k)).ring.push s) with
        acceptor := .pushing s k }
    else
      { sv with acceptor := .accept, rr := (sv.rr + 1) % (m + 1),
                closed := sv.closed ++ [(.acceptor, s)] }
  | .pushing s k =>
    let w := sv.target k
    match (sv.workers w).ring.produce with
    | (ring, none) => sv.withRing w ring
    | (ring, some (.pushed _)) =>
      { sv.withRing w ring with acceptor := .accept, rr := (w.val + 1) % (m + 1) }
    | (ring, some _) => { sv.withRing w ring with acceptor := .dispatch s (k + 1) }
  | .exited => sv

def turn (sv : Server σ m) : Turn σ m → Server σ m
  | .requestStop => { sv with stop := true }
  | .acceptor a => sv.acceptorTurn a
  | .worker w a =>
    { sv with
      workers := Function.update sv.workers w ((sv.workers w).turn sv.stop a).1,
      closed := sv.closed ++ (((sv.workers w).turn sv.stop a).2.map fun s => (.worker w, s)) }

def run (sv : Server σ m) (turns : List (Turn σ m)) : Server σ m := turns.foldl turn sv

end Server

end

end Runtime

/-!
# The pools of a worker

The arrays of `orbit_worker_loop`: the sockets of the clients, the bytes each has buffered, and the
buffer and the peer string that each of them owns, with two stacks of the free ones. A buffer and a
peer string are named by their place in the pool they are cut from. An access outside an array has no
result.

What a worker's turn asks and is answered is as in `Worker.turn`.
-/

namespace Runtime

section
variable {α σ : Type}

/-- An assignment to a place of an array. -/
def store (l : List α) (i : Nat) (x : α) : Option (List α) :=
  if i < l.length then some (l.set i x) else none

/-- The index before a count. -/
def before (count : Nat) : Option Nat := if count = 0 then none else some (count - 1)

structure WorkerPool (σ : Type) where
  clients : List σ
  buffered : List Nat
  buffers : List Nat
  peers : List Nat
  numClients : Nat
  freeBuffers : List Nat
  freeBuffersCount : Nat
  freePeers : List Nat
  freePeersCount : Nat
  deriving DecidableEq, Repr

/-- The setup before the loop. Nothing is written to the first three arrays yet. -/
def WorkerPool.setup (clients : Fin 512 → σ) (buffered buffers : Fin 512 → Nat) : WorkerPool σ where
  clients := List.ofFn clients
  buffered := List.ofFn buffered
  buffers := List.ofFn buffers
  peers := List.range 512
  numClients := 0
  freeBuffers := List.range 512
  freeBuffersCount := 512
  freePeers := List.range 512
  freePeersCount := 512

/-- A socket is adopted: it gets the next place, a buffer and a peer string. -/
def WorkerPool.adopt (p : WorkerPool σ) (newSock : σ) : Option (WorkerPool σ) := do
  let clients ← store p.clients p.numClients newSock
  let buffered ← store p.buffered p.numClients 0
  let freeBuffersCount ← before p.freeBuffersCount
  let buffers ← store p.buffers p.numClients (← p.freeBuffers[freeBuffersCount]?)
  let freePeersCount ← before p.freePeersCount
  let peers ← store p.peers p.numClients (← p.freePeers[freePeersCount]?)
  some { p with
    clients, buffered, buffers, peers, freeBuffersCount, freePeersCount
    numClients := p.numClients + 1 }

/-- A client is dropped: its buffer and its peer string are free, and the last client takes its
place. -/
def WorkerPool.drop (p : WorkerPool σ) (i : Nat) : Option (WorkerPool σ) := do
  let freeBuffers ← store p.freeBuffers p.freeBuffersCount (← p.buffers[i]?)
  let last ← before p.numClients
  let clients ← store p.clients i (← p.clients[last]?)
  let buffered ← store p.buffered i (← p.buffered[last]?)
  let buffers ← store p.buffers i (← p.buffers[last]?)
  let freePeers ← store p.freePeers p.freePeersCount (← p.peers[i]?)
  let peers ← store p.peers i (← p.peers[last]?)
  some {
    clients, buffered, buffers, peers, freeBuffers, freePeers
    numClients := last
    freeBuffersCount := p.freeBuffersCount + 1
    freePeersCount := p.freePeersCount + 1 }

/-- The client in a place. -/
def WorkerPool.client (p : WorkerPool σ) (i : Nat) : Option (Client σ) := do
  some ⟨← p.clients[i]?, ← p.buffered[i]?⟩

structure PoolWorker (σ : Type) where
  ring : Ring σ
  pc : WorkerPc
  pool : WorkerPool σ

/-- A turn of a worker, and the sockets it closes; `none` for an access outside an array. -/
def PoolWorker.turn (wk : PoolWorker σ) (stop : Bool) (a : Answers σ) :
    Option (PoolWorker σ × List σ) :=
  match wk.pc with
  | .test =>
    if !stop || 0 < wk.pool.numClients then some ({ wk with pc := .select }, [])
    else some ({ wk with ring := wk.ring.empty, pc := .testQueue }, [])
  | .testQueue =>
    match wk.ring.consume with
    | (ring, none) => some ({ wk with ring }, [])
    | (ring, some (.isEmpty true)) => some ({ wk with ring, pc := .exited }, [])
    | (ring, some _) => some ({ wk with ring, pc := .select }, [])
  | .select =>
    if a.selectFailed then
      some ({ wk with pc := if a.badDescriptor then .reap 0 else .test }, [])
    else some ({ wk with ring := wk.ring.pop, pc := .adopt }, [])
  | .reap i =>
    if i < wk.pool.numClients then do
      let c ← wk.pool.client i
      if a.bad then some ({ wk with pool := ← wk.pool.drop i }, [c.sock])
      else some ({ wk with pc := .reap (i + 1) }, [])
    else some ({ wk with pc := .test }, [])
  | .adopt =>
    match wk.ring.consume with
    | (ring, none) => some ({ wk with ring }, [])
    | (ring, some (.popped s)) =>
      if wk.pool.numClients < 512 ∧ wk.pool.freeBuffersCount > 0 then do
        some ({ wk with ring := ring.pop, pool := ← wk.pool.adopt s }, [])
      else some ({ wk with ring := ring.pop }, [s])
    | (ring, some _) => some ({ wk with ring, pc := .serve 0 }, [])
  | .serve i =>
    if i < wk.pool.numClients then do
      let c ← wk.pool.client i
      match c.serve stop a.recv with
      | none => some ({ wk with pool := ← wk.pool.drop i }, [c.sock])
      | some c' =>
        let buffered ← store wk.pool.buffered i c'.buffered
        some ({ wk with pool := { wk.pool with buffered }, pc := .serve (i + 1) }, [])
    else some ({ wk with pc := .test }, [])
  | .exited => some (wk, [])

/-! ## Runs -/

/-- A turn of the worker, with the stop flag that it reads, or the acceptor's side of its ring: a
push, or the next step of one. -/
inductive PoolTurn (σ : Type) where
  | worker (stop : Bool) (a : Answers σ)
  | push (s : σ)
  | produce

def PoolWorker.step (wk : PoolWorker σ) : PoolTurn σ → Option (PoolWorker σ)
  | .worker stop a => (wk.turn stop a).map Prod.fst
  | .push s => some { wk with ring := wk.ring.push s }
  | .produce => some { wk with ring := wk.ring.produce.1 }

def PoolWorker.run (wk : PoolWorker σ) : List (PoolTurn σ) → Option (PoolWorker σ)
  | [] => some wk
  | t :: ts => do (← wk.step t).run ts

/-- The same turns of the worker that has its clients in a list. -/
def Worker.step (wk : Worker σ) : PoolTurn σ → Worker σ
  | .worker stop a => (wk.turn stop a).1
  | .push s => { wk with ring := wk.ring.push s }
  | .produce => { wk with ring := wk.ring.produce.1 }

end

end Runtime
