import Orbit.Lib.Pool

/-!
# The ring between the acceptor and a worker

`OrbitAcceptQueue` of `runtime/thread_pool.c`. The acceptor alone pushes and the worker alone pops, at
the same time, so an operation is the sequence of its loads and stores: a turn of a party is one of
them, together with the computation up to the next. Every order of turns is a schedule (`run`). An
index is stored modulo the capacity, so it does not overflow.
-/

namespace Runtime

open Lib.Fifo (Event)

abbrev ORBIT_ACCEPT_Q_CAP : Nat := 256

/-- `slots` by index; what is in a slot at first is arbitrary. -/
structure OrbitAcceptQueue (σ : Type) where
  slots : Nat → σ
  /-- The consumer's index. -/
  head : Nat
  /-- The producer's index. -/
  tail : Nat

/-- Where `orbit_accept_q_push` is. -/
inductive Push (σ : Type) where
  | idle
  | call (s : σ)
  /-- `tail` is loaded. -/
  | loaded (s : σ) (t : Nat)
  /-- `head` was loaded and is not the next index. -/
  | room (s : σ) (t : Nat)
  /-- The slot is written. -/
  | written (s : σ) (t : Nat)
  deriving DecidableEq, Repr

/-- Where `orbit_accept_q_pop` is, or `orbit_accept_q_empty`. -/
inductive Pop (σ : Type) where
  | idle
  | call
  /-- `head` is loaded. -/
  | loaded (h : Nat)
  /-- `tail` was loaded and is another index. -/
  | other (h : Nat)
  /-- The slot is read. -/
  | read (h : Nat) (out : σ)
  | callEmpty
  | loadedEmpty (h : Nat)
  deriving DecidableEq, Repr

/-- The ring with the operation each party is in. -/
structure Ring (σ : Type) where
  q : OrbitAcceptQueue σ
  producer : Push σ
  consumer : Pop σ

section
variable {σ : Type}

def orbit_accept_q_init (slots : Nat → σ) : OrbitAcceptQueue σ := { slots, head := 0, tail := 0 }

def Ring.init (slots : Nat → σ) : Ring σ :=
  { q := orbit_accept_q_init slots, producer := .idle, consumer := .idle }

/-- The next load or store of the producer, with the result of the push when this ends it. -/
def Ring.produce (r : Ring σ) : Ring σ × Option (Event σ) :=
  match r.producer with
  | .idle => (r, none)
  | .call s => ({ r with producer := .loaded s r.q.tail }, none)
  | .loaded s t =>
    if (t + 1) % ORBIT_ACCEPT_Q_CAP = r.q.head then ({ r with producer := .idle }, some (.full s))
    else ({ r with producer := .room s t }, none)
  | .room s t =>
    ({ r with q := { r.q with slots := fun i => if i = t then s else r.q.slots i },
              producer := .written s t }, none)
  | .written s t =>
    ({ r with q := { r.q with tail := (t + 1) % ORBIT_ACCEPT_Q_CAP }, producer := .idle },
      some (.pushed s))

/-- The next load or store of the consumer, with the result of the operation when this ends it. -/
def Ring.consume (r : Ring σ) : Ring σ × Option (Event σ) :=
  match r.consumer with
  | .idle => (r, none)
  | .call => ({ r with consumer := .loaded r.q.head }, none)
  | .loaded h =>
    if h = r.q.tail then ({ r with consumer := .idle }, some .nothing)
    else ({ r with consumer := .other h }, none)
  | .other h => ({ r with consumer := .read h (r.q.slots h) }, none)
  | .read h out =>
    ({ r with q := { r.q with head := (h + 1) % ORBIT_ACCEPT_Q_CAP }, consumer := .idle },
      some (.popped out))
  | .callEmpty => ({ r with consumer := .loadedEmpty r.q.head }, none)
  | .loadedEmpty h =>
    ({ r with consumer := .idle }, some (.isEmpty (decide (h = r.q.tail))))

/-- A party that is in no operation calls one. -/
def Ring.push (r : Ring σ) (s : σ) : Ring σ :=
  match r.producer with
  | .idle => { r with producer := .call s }
  | _ => r

def Ring.pop (r : Ring σ) : Ring σ :=
  match r.consumer with
  | .idle => { r with consumer := .call }
  | _ => r

def Ring.empty (r : Ring σ) : Ring σ :=
  match r.consumer with
  | .idle => { r with consumer := .callEmpty }
  | _ => r

/-- A turn: a call, or the next load or store of a party. -/
inductive RingTurn (σ : Type) where
  | push (s : σ)
  | pop
  | empty
  | producer
  | consumer
  deriving DecidableEq, Repr

/-- A turn and the result it ends with. -/
def Ring.turn (r : Ring σ) : RingTurn σ → Ring σ × Option (Event σ)
  | .push s => (r.push s, none)
  | .pop => (r.pop, none)
  | .empty => (r.empty, none)
  | .producer => r.produce
  | .consumer => r.consume

/-- Take turns; the results in the order in which the operations end. -/
def Ring.run (r : Ring σ) : List (RingTurn σ) → Ring σ × List (Event σ)
  | [] => (r, [])
  | a :: turns =>
    (((r.turn a).1.run turns).1, (r.turn a).2.toList ++ ((r.turn a).1.run turns).2)

end

end Runtime
